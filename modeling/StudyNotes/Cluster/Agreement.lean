import StudyNotes.Cluster.Consistency
import Mathlib.Data.Finset.Sort
import Mathlib.Data.String.Basic

namespace StudyNotes.Cluster.Agreement

open Systems.Transition Systems.Interaction Program Service Contracts Consistency

variable {ι : Type} {S : Setup ι}

/-- The calling thread keeps to its contract, from here to the end of its call. -/
def CallerKeeps (S : Setup ι) (i : ι) (code : Code Int) (g : Ghost) : Prop :=
  (callerContract S i).wp code (fun _ g' => Rest S i g') g

def CallbackKeeps (S : Setup ι) (i : ι) (code : Code Int) (p : Phase) : Prop :=
  (callbackContract S i).wp code (fun _ p' => p' = .settled) p

/-- At most one thread is in a call, and it keeps to its contract. -/
def CallersKeep (S : Setup ι) (i : ι) (callers : Nat → Thread) (g : Ghost) : Prop :=
  ∃ t, CallerKeeps S i (callers t).code g ∧ ∀ t' ≠ t, Idle (callers t').code

def Inv (S : Setup ι) (s : Service.State ι) : Prop :=
  ∃ g p, Consistent S s.zk s.managers g p ∧ (∀ i, CallersKeep S i (s.callers i) (g i)) ∧
    ∀ i, CallbackKeeps S i (s.callback i) (p i)

theorem CallerKeeps.rest {i : ι} {code : Code Int} {g : Ghost} (hk : CallerKeeps S i code g) (hidle : Idle code) :
    Rest S i g := by
  obtain ⟨res, rfl⟩ := hidle
  exact hk

theorem CallersKeep.rest {i : ι} {callers : Nat → Thread} {g : Ghost} (hk : CallersKeep S i callers g)
    (hidle : ∀ t, Idle (callers t).code) : Rest S i g := by
  obtain ⟨t, ht, -⟩ := hk
  exact ht.rest (hidle t)

/-- Of a thread in the middle of its call, the others are idle. -/
theorem CallersKeep.ask {i : ι} {callers : Nat → Thread} {g : Ghost} {t : Nat} {q : Request} {k : Reply q → Code Int}
    (hk : CallersKeep S i callers g) (hask : (callers t).code = .ask q k) :
    CallerKeeps S i (.ask q k) g ∧ ∀ t' ≠ t, Idle (callers t').code := by
  obtain ⟨t₀, ht, hothers⟩ := hk
  obtain rfl : t = t₀ := by
    by_contra hne
    obtain ⟨res, hres⟩ := hothers t hne
    rw [hask] at hres
    cases hres
  exact ⟨hask ▸ ht, hothers⟩

theorem callersKeep_update {i : ι} {callers : Nat → Thread} {g : Ghost} {t : Nat} {thread : Thread}
    (hk : CallerKeeps S i thread.code g) (hothers : ∀ t' ≠ t, Idle (callers t').code) :
    CallersKeep S i (Function.update callers t thread) g := by
  refine ⟨t, by rwa [Function.update_self], fun t' hne => ?_⟩
  rw [Function.update_of_ne hne]
  exact hothers t' hne

theorem CallbackKeeps.settled {i : ι} {code : Code Int} {p : Phase} (hk : CallbackKeeps S i code p)
    (hidle : Idle code) : p = .settled := by
  obtain ⟨res, rfl⟩ := hidle
  exact hk

theorem inv_init : Inv S (State.init ι) := by
  refine ⟨fun _ => (.init, .closed), fun _ => .settled, ?_,
    fun i => ⟨0, ⟨rfl, rfl⟩, fun _ _ => ⟨0, rfl⟩⟩, fun i => rfl⟩
  constructor
  · exact fun _ _ _ => rfl
  · exact fun _ => nofun
  · exact fun _ => rfl
  · exact fun _ _ => nofun
  · exact fun _ _ => nofun
  · intro n h
    refine ⟨fun hn => absurd hn (Finset.notMem_empty _), ?_⟩
    rintro ⟨i, -, hst⟩
    cases hst

theorem forall_update [DecidableEq ι] {α β : Type} {P : ι → α → β → Prop} {f : ι → α} {g : ι → β}
    (h : ∀ j, P j (f j) (g j)) {i : ι} {a : α} {b : β} (hi : P i a b) (j : ι) :
    P j (Function.update f i a j) (Function.update g i b j) := by
  rcases eq_or_ne j i with rfl | hne
  · rwa [Function.update_self, Function.update_self]
  · rw [Function.update_of_ne hne, Function.update_of_ne hne]
    exact h j

variable [DecidableEq ι] {s s' : Service.State ι}

theorem inv_step {e : Event ι} (hinv : Inv S s) (hs : Step S s e s') (halone : CallsAlone (s, e)) : Inv S s' := by
  obtain ⟨g, p, hc, hcaller, hcallback⟩ := hinv
  cases hs with
  | call i t call hidle hfree hcall =>
      refine ⟨Function.update g i (g i), p, ?_, forall_update hcaller ?_, hcallback⟩
      · rwa [Function.update_eq_self]
      · exact callersKeep_update (call_rest hcall ((hcaller i).rest halone)) fun t' _ => halone t'
  | childEvent i h x rounds state hx howner hpending hidle =>
      exact ⟨g, _, hc.take hx howner hpending, hcaller,
        forall_update hcallback (childEvent_settled rounds h state)⟩
  | sessionEvent i h rounds state hidle hexpired hauth hother =>
      refine ⟨g, Function.update p i (p i), ?_, hcaller, forall_update hcallback ?_⟩
      · rwa [Function.update_eq_self]
      · rw [(hcallback i).settled hidle]
        exact sessionEvent_settled hexpired hauth hother
  | callerStep i t q k r z m hask hserve hjoin =>
      obtain ⟨hi, hothers⟩ := (hcaller i).ask hask
      obtain ⟨g', hreply, hc'⟩ :=
        serve_caller hc hserve hi.1 fun h hq => (hcallback i).settled (hjoin h hq)
      exact ⟨_, p, hc', forall_update hcaller (callersKeep_update (hi.2 r g' hreply) hothers), hcallback⟩
  | callbackStep i q k r z m hask hserve hjoin =>
      have hi := hcallback i
      rw [hask] at hi
      obtain ⟨p', hreply, hc'⟩ := serve_callback hc hserve hi.1
      exact ⟨g, _, hc', hcaller, forall_update hcallback (hi.2 r p' hreply)⟩

theorem inv_run {tr : List (Service.State ι × Event ι)} (hr : Run (system S) tr s) (hone : OneAtATime tr) :
    Inv S s := by
  refine Run.induct (I := fun tr s => OneAtATime tr → Inv S s) ?_ ?_ hr hone
  · rintro s rfl -
    exact inv_init
  · intro tr s e s' _ ih hstep hone
    obtain ⟨htr, halone⟩ := List.forall_mem_append.1 hone
    exact inv_step (ih htr) hstep (halone _ (List.mem_singleton_self _))

omit [DecidableEq ι] in
/-- At rest a manager is running exactly if its node is there. -/
theorem running_iff {i : ι} {g : Ghost} (hg : Rest S i g) : g.1 .runState = .running ↔ ∃ h, g.2 = .created h := by
  rw [Rest] at hg
  constructor
  · intro hrun
    rw [hrun] at hg
    obtain ⟨h, -, hst⟩ := hg
    exact ⟨h, hst⟩
  · rintro ⟨h, hst⟩
    rw [hst] at hg
    split at hg
    · cases hg.2
    · cases hg.2
    · obtain ⟨-, -, h', -, hopened⟩ := hg
      cases hopened
    · assumption
    · cases hg

/-- What is known of the managers when nothing is on its way. -/
theorem quiescent_spec {tr : List (Service.State ι × Event ι)} (hr : Run (system S) tr s) (hone : OneAtATime tr)
    (hq : Quiescent s) :
    (∀ i, s.managers i .runState = .running ↔ S.name i ∈ s.zk.children) ∧
      (∀ n ∈ s.zk.children, ∃ i, n = S.name i) ∧
      ∀ i, s.managers i .runState = .running → s.managers i .node = S.name i ∧
        ∃ first, (S.order s.zk.children).head? = some first ∧ s.managers i .nodeMode = modeFor (S.name i) first := by
  obtain ⟨g, p, hc, hcaller, hcallback⟩ := inv_run hr hone
  have hrun : ∀ i, s.managers i .runState = .running ↔ ∃ h, (g i).2 = .created h := by
    intro i
    rw [hc.fields i .runState nofun]
    exact running_iff ((hcaller i).rest (hq.2 i).1)
  refine ⟨fun i => (hrun i).trans hc.mem_children.symm, fun n hn => ?_, fun i hi => ?_⟩
  · obtain ⟨⟨n', h⟩, hmem, rfl⟩ := Finset.mem_image.1 hn
    obtain ⟨i, hi, -⟩ := (hc.nodes n' h).1 hmem
    exact ⟨i, hi⟩
  · obtain ⟨h, hst⟩ := (hrun i).1 hi
    refine ⟨(hc.fields i .node nofun).trans (hc.node i (by rw [hst]; trivial)), ?_⟩
    have ht := hc.tracks i
    rw [hst, (hcallback i).settled (hq.2 i).2] at ht
    obtain ⟨-, x, hx, -, (hpending | hread) | ⟨-, first, hfirst, hwrite | ⟨-, hmode⟩⟩⟩ := ht
    · rw [hq.1 h x hx] at hpending
      cases hpending
    · cases hread
    · cases hwrite
    · exact ⟨first, hfirst, hmode⟩

/-- When the calls on each manager were made one at a time and nothing is on its way, the running
manager whose node is the first child is the leader and every other one is a follower. -/
theorem leader_agreement (S : Setup ι) (tr : List (Service.State ι × Event ι)) (s : Service.State ι)
    (hr : Run (system S) tr s) (hone : OneAtATime tr) (hq : Quiescent s) :
    (∀ i, s.managers i .runState = .running → s.managers i .nodeMode =
      if (S.order s.zk.children).head? = some (s.managers i .node) then .leader else .follower) ∧
    ((∃ i, s.managers i .runState = .running) →
      ∃! i, s.managers i .runState = .running ∧ s.managers i .nodeMode = .leader) := by
  obtain ⟨hrun, hnames, hmode⟩ := quiescent_spec hr hone hq
  constructor
  · intro i hi
    obtain ⟨hnode, first, hfirst, hm⟩ := hmode i hi
    rw [hm, hnode, hfirst, modeFor]
    simp only [Option.some.injEq, eq_comm]
  · rintro ⟨i, hi⟩
    obtain ⟨-, first, hfirst, -⟩ := hmode i hi
    have hmem := (S.mem_order _ _).1 (List.mem_of_head? hfirst)
    obtain ⟨l, rfl⟩ := hnames first hmem
    have hl := (hrun l).2 hmem
    refine ⟨l, ⟨hl, ?_⟩, ?_⟩
    · obtain ⟨-, first', hfirst', hm⟩ := hmode l hl
      rw [hfirst] at hfirst'
      cases hfirst'
      rw [hm, modeFor, if_pos rfl]
    · rintro j ⟨hj, hlead⟩
      obtain ⟨-, first', hfirst', hm⟩ := hmode j hj
      rw [hfirst] at hfirst'
      cases hfirst'
      rw [hm, modeFor] at hlead
      by_contra hne
      rw [if_neg (fun h => hne (S.injective h))] at hlead
      cases hlead

/-- A thread of a manager runs on while the others wait. -/
inductive Runs (S : Setup ι) (i : ι) : Zk ι → Manager → Code Int → Code Int → Zk ι → Manager → Prop
  | here (z m code) : Runs S i z m code code z m
  | ask {z z' z'' m m' m'' q r k code} (hserve : Serve S i z m q r z' m') (hk : Runs S i z' m' (k r) code z'' m'') :
      Runs S i z m (.ask q k) code z'' m''

omit [DecidableEq ι] in
theorem Runs.trans {i : ι} {z z' z'' : Zk ι} {m m' m'' : Manager} {code code' code'' : Code Int}
    (h : Runs S i z m code code' z' m') (h' : Runs S i z' m' code' code'' z'' m'') : Runs S i z m code code'' z'' m'' := by
  induction h with
  | here => exact h'
  | ask hserve _ ih => exact .ask hserve (ih h')

/-- What is kept by every step other than an overlapping call. -/
def Kept (S : Setup ι) (R : Service.State ι → Prop) : Prop :=
  ∀ s e s', R s → Step S s e s' → CallsAlone (s, e) → R s'

/-- The states that are reached when the calls on each manager are made one at a time. -/
def Orderly (S : Setup ι) (s : Service.State ι) : Prop := ∃ tr, Run (system S) tr s ∧ OneAtATime tr

theorem kept_reachable : Kept S (Reachable (system S)) := fun _ _ _ hs hstep _ => hs.next hstep

theorem kept_orderly : Kept S (Orderly S) := by
  rintro s e s' ⟨tr, hr, hone⟩ hstep halone
  exact ⟨_, hr.next hstep, List.forall_mem_append.2 ⟨hone, by simpa using halone⟩⟩

section kept

variable {R : Service.State ι → Prop} (hR : Kept S R)
include hR

theorem Runs.caller {i : ι} {t : Nat} {z z' : Zk ι} {m m' : Manager} {code code' : Code Int}
    (hr : Runs S i z m code code' z' m') (hs : R s) (hidle : Idle (s.callback i)) (hz : s.zk = z)
    (hm : s.managers i = m) (hcode : (s.callers i t).code = code) :
    R ⟨z', Function.update s.managers i m', s.setCaller i t ⟨(s.callers i t).holds, code'⟩, s.callback⟩ := by
  induction hr generalizing s with
  | here z m code =>
      subst hz hm hcode
      simpa only [State.setCaller, Function.update_eq_self] using hs
  | @ask z z' z'' m m' m'' q r k code hserve hk ih =>
      subst hz hm
      have hnext := hR _ _ _ hs (Step.callerStep s i t q k r z' m' hcode hserve fun _ _ => hidle) trivial
      have hend := ih hnext hidle rfl (Function.update_self ..) (by simp [State.setCaller])
      simpa only [State.setCaller, Function.update_idem, Function.update_self] using hend

/-- A thread makes a call and runs to its end, or as far as it is followed. -/
theorem kept_call (i : ι) (t : Nat) (call : Call) {z' : Zk ι} {m' : Manager} {code : Code Int}
    (hcalled : R { s with callers := s.setCaller i t ⟨mutex call, call.code⟩ }) (hidle : Idle (s.callback i))
    (hr : Runs S i s.zk (s.managers i) call.code code z' m') :
    R ⟨z', Function.update s.managers i m', s.setCaller i t ⟨mutex call, code⟩, s.callback⟩ := by
  have hend := hr.caller hR (t := t) hcalled hidle rfl rfl (by simp [State.setCaller])
  simpa only [State.setCaller, Function.update_idem, Function.update_self] using hend

/-- A child event is delivered and its callback runs to its end, with no handlers to call. -/
theorem kept_childEvent {i : ι} {h : Handle} {x : Session ι} {first : String} {rest : List String} (hs : R s)
    (hx : s.zk.sessions h = some x) (howner : x.owner = i) (hpending : 0 < x.pending) (hidle : Idle (s.callback i))
    (horder : S.order s.zk.children = first :: rest) (hhandlers : s.managers i .eventHandlers = []) :
    R ⟨(s.zk.modify h Session.take).modify h Session.arm,
      Function.update s.managers i (Function.update (s.managers i) .nodeMode (modeFor (s.managers i .node) first)),
      s.callers, Function.update s.callback i (.done 0)⟩ := by
  have hx' : (s.zk.modify h Session.take).sessions h = some x.take := s.zk.modify_self _ hx
  have hread : Serve S i (s.zk.modify h Session.take) (s.managers i) (.zooGetChildren (some h) S.path)
      (zok, first :: rest) ((s.zk.modify h Session.take).modify h Session.arm) (s.managers i) := by
    rw [← horder]
    exact .zooGetChildren _ _ h _ hx'
  have hload (z : Zk ι) (m : Manager) (hm : m .eventHandlers = []) : Serve S i z m (.load .eventHandlers) [] z m := by
    rw [← hm]
    exact .load ..
  have h₁ := hR _ _ _ hs (Step.childEvent s i h x 0 0 hx howner hpending hidle) trivial
  have h₂ := hR _ _ _ h₁ (Step.callbackStep _ i _ _ _ _ _ (Function.update_self ..) hread nofun) trivial
  have h₃ := hR _ _ _ h₂ (Step.callbackStep _ i _ _ _ _ _ (Function.update_self ..) (.load ..) nofun) trivial
  have h₄ := hR _ _ _ h₃ (Step.callbackStep _ i _ _ _ _ _ (Function.update_self ..) (.store ..) nofun) trivial
  have h₅ := hR _ _ _ h₄ (Step.callbackStep _ i _ _ _ _ _ (Function.update_self ..)
    (hload _ _ (by simpa using hhandlers)) nofun) trivial
  simp only [Function.update_idem, Function.update_eq_self, Function.update_self, decide_eq_true_eq] at h₅
  exact h₅

end kept

/-- A cluster of two managers. -/
def pair : Setup Bool where
  path := "/adc"
  name i := if i then "b" else "a"
  injective i j h := by cases i <;> cases j <;> simp_all
  order children := children.sort (· ≤ ·)
  mem_order _ _ := Finset.mem_sort _

theorem pair_order_one {children : Finset String} (name : String) (h : children = {name}) :
    pair.order children = [name] := by
  subst h
  exact Finset.sort_singleton ..

theorem pair_order_two {children : Finset String} (h : children = {"a", "b"}) : pair.order children = ["a", "b"] := by
  subst h
  exact (Finset.sort_insert _ (by decide) (by decide)).trans (congrArg _ (Finset.sort_singleton ..))

/-- A manager of the pair after Initialize. -/
def initialized (i : Bool) (h : Handle) : Manager
  | .runState => State.initialized
  | .nodeMode => NodeMode.other
  | .zkhandlePtr => some h
  | .hosts => "zk"
  | .path => pair.path
  | .node => pair.name i
  | .timeout => (10 : Nat)
  | .eventHandlers => ([] : List EventHandler)

theorem runs_initializeManager (i : Bool) (z : Zk Bool) :
    Runs pair i z .init (Call.initializeManager "zk" pair.path (pair.name i) 10).code (.done 0) (z.openSession i)
      (initialized i z.next) := by
  have hend : Runs pair i z .init (Call.initializeManager "zk" pair.path (pair.name i) 10).code (.done 0) _ _ :=
    .ask (.load ..) <| .ask (.load ..) <| .ask (.load ..) <| .ask (.zookeeperInit ..) <| .ask (.store ..) <|
      .ask (.store ..) <| .ask (.store ..) <| .ask (.store ..) <| .ask (.load ..) <| .ask (.store ..) <|
      .ask (.store ..) <| .ask (.store ..) <| .here ..
  convert hend using 1
  funext f
  cases f <;> rfl

/-- The rest of Start, after the last call of the service. -/
def created : Code Int := do
  store .runState .started
  store .runState .running
  return zok

theorem runs_start {i : Bool} {z : Zk Bool} {h : Handle} {x : Session Bool} (hx : z.sessions h = some x)
    (hnew : pair.name i ∉ z.children) :
    Runs pair i z (initialized i h) Call.start.code created ((z.modify h Session.arm).create h (pair.name i))
      (initialized i h) := by
  have hx' : (z.modify h Session.arm).sessions h = some x.arm := z.modify_self _ hx
  have hnot : ∀ name ∈ (z.modify h Session.arm).children, childPath pair (pair.name i) ≠ childPath pair name := by
    rintro name hname heq
    exact hnew (childPath_injective pair heq ▸ hname)
  cases i <;>
  exact .ask (.load ..) <| .ask (.load ..) <| .ask (.load ..) <| .ask (.load ..) <| .ask (.load ..) <|
    .ask (.existsPath _ _ h _ hx) <| .ask (.load ..) <| .ask (.load ..) <| .ask (.zooGetChildren _ _ h _ hx) <|
    .ask (.load ..) <| .ask (.existsNot _ _ h _ _ hx' (childPath_ne pair _) hnot) <| .ask (.load ..) <|
    .ask (.zooCreate _ _ h _ _ _ hx' hnew) <| .here ..

theorem runs_created (i : Bool) (z : Zk Bool) (m : Manager) :
    Runs pair i z m created (.done zok) z (Function.update m .runState .running) := by
  have hend : Runs pair i z m created (.done zok) _ _ := .ask (.store ..) <| .ask (.store ..) <| .here ..
  rwa [Function.update_idem] at hend

/-- A call of a manager of the pair while no other call is going on. -/
theorem orderly_call {s : Service.State Bool} {i : Bool} {call : Call} {res : Int} {z : Zk Bool} {m : Manager}
    (hs : Orderly pair s) (hcall : Calls pair i call) (halone : ∀ t, Idle (s.callers i t).code)
    (hidle : Idle (s.callback i)) (hr : Runs pair i s.zk (s.managers i) call.code (.done res) z m) :
    Orderly pair ⟨z, Function.update s.managers i m, s.setCaller i 0 ⟨mutex call, .done res⟩, s.callback⟩ :=
  kept_call kept_orderly i 0 call
    (kept_orderly _ _ _ hs (.call s i 0 call (halone 0) (fun t _ _ => halone t) hcall) halone) hidle hr

theorem leader_agreement_pair : ∃ tr s, Run (system pair) tr s ∧ OneAtATime tr ∧ Quiescent s ∧
    (∀ i, s.managers i .runState = .running) ∧ s.managers false .nodeMode = .leader ∧
    s.managers true .nodeMode = .follower := by
  have h₀ : Orderly pair _ := ⟨[], .start rfl, by simp [OneAtATime]⟩
  have h₁ := orderly_call h₀ (.initializeManager "zk" 10) (fun _ => ⟨0, rfl⟩) ⟨0, rfl⟩ (runs_initializeManager false _)
  have h₂ := orderly_call h₁ .start (by rintro (_ | t) <;> exact ⟨0, rfl⟩) ⟨0, rfl⟩
    ((runs_start (i := false) (h := 0) rfl (by decide)).trans (runs_created ..))
  have h₃ := kept_childEvent kept_orderly (i := false) (h := 0) h₂ rfl rfl (by decide) ⟨0, rfl⟩
    (pair_order_one "a" (by decide)) rfl
  have h₄ := orderly_call h₃ (.initializeManager "zk" 10) (fun _ => ⟨0, rfl⟩) ⟨0, rfl⟩ (runs_initializeManager true _)
  have h₅ := orderly_call h₄ .start (by rintro (_ | t) <;> exact ⟨0, rfl⟩) ⟨0, rfl⟩
    ((runs_start (i := true) (h := 1) rfl (by decide)).trans (runs_created ..))
  have h₆ := kept_childEvent kept_orderly (i := false) (h := 0) h₅ rfl rfl (by decide) ⟨0, rfl⟩
    (pair_order_two (by decide)) rfl
  have h₇ := kept_childEvent kept_orderly (i := true) (h := 1) h₆ rfl rfl (by decide) ⟨0, rfl⟩
    (pair_order_two (by decide)) rfl
  obtain ⟨s, ⟨tr, hr, hone⟩, hq, hrunning, hnode, hchildren⟩ : ∃ s : Service.State Bool, Orderly pair s ∧ Quiescent s ∧
      (∀ i, s.managers i .runState = .running) ∧ (∀ i, s.managers i .node = pair.name i) ∧
      s.zk.children = {"a", "b"} := by
    refine ⟨_, h₇, ⟨?_, ?_⟩, by rintro (_ | _) <;> rfl, by rintro (_ | _) <;> rfl, by decide⟩
    · rintro (_ | _ | h) x hx
      · cases hx
        rfl
      · cases hx
        rfl
      · cases hx
    · rintro (_ | _)
      · exact ⟨by rintro (_ | t) <;> exact ⟨0, rfl⟩, ⟨0, rfl⟩⟩
      · exact ⟨by rintro (_ | t) <;> exact ⟨0, rfl⟩, ⟨0, rfl⟩⟩
  have hmode (i : Bool) := (leader_agreement pair tr s hr hone hq).1 i (hrunning i)
  simp only [hchildren, hnode, pair_order_two] at hmode
  exact ⟨tr, s, hr, hone, hq, hrunning, hmode false, hmode true⟩

/-- Stop runs while Start has made its node and has yet to store that it runs. Then the manager is
running without a node, with the mode of its last event, and the next manager becomes a leader too. -/
theorem overlap_two_leaders : ∃ s : Service.State Bool, Reachable (system pair) s ∧ Quiescent s ∧
    ∀ i, s.managers i .runState = .running ∧ s.managers i .nodeMode = .leader := by
  have h₀ : Reachable (system pair) _ := .start rfl
  have h₁ := kept_call kept_reachable false 0 _
    (h₀.next (.call _ false 0 _ ⟨0, rfl⟩ (fun _ _ _ => ⟨0, rfl⟩) (.initializeManager "zk" 10))) ⟨0, rfl⟩
    (runs_initializeManager false _)
  have h₂ := kept_call kept_reachable false 0 _
    (h₁.next (.call _ false 0 _ ⟨0, rfl⟩ (by rintro (_ | t) - - <;> exact ⟨0, rfl⟩) .start)) ⟨0, rfl⟩
    (runs_start (i := false) (h := 0) rfl (by decide))
  have h₃ := kept_childEvent kept_reachable (i := false) (h := 0) h₂ rfl rfl (by decide) ⟨0, rfl⟩
    (pair_order_one "a" (by decide)) rfl
  have h₄ := kept_call kept_reachable false 1 _
    (h₃.next (.call _ false 1 _ ⟨0, rfl⟩ (fun _ h => absurd rfl h) .stop)) ⟨0, rfl⟩ <|
    .ask (.store ..) <| .ask (.load ..) <| .ask (.store ..) <| .ask (.zookeeperClose ..) <| .ask (.store ..) <| .here ..
  have h₅ := (runs_created false _ _).caller kept_reachable (t := 0) h₄ ⟨0, rfl⟩ rfl rfl rfl
  have h₆ := kept_call kept_reachable true 0 _
    (h₅.next (.call _ true 0 _ ⟨0, rfl⟩ (fun _ _ _ => ⟨0, rfl⟩) (.initializeManager "zk" 10))) ⟨0, rfl⟩
    (runs_initializeManager true _)
  have h₇ := kept_call kept_reachable true 0 _
    (h₆.next (.call _ true 0 _ ⟨0, rfl⟩ (by rintro (_ | t) - - <;> exact ⟨0, rfl⟩) .start)) ⟨0, rfl⟩
    ((runs_start (i := true) (h := 1) rfl (by decide)).trans (runs_created ..))
  have h₈ := kept_childEvent kept_reachable (i := true) (h := 1) h₇ rfl rfl (by decide) ⟨0, rfl⟩
    (pair_order_one "b" (by decide)) rfl
  refine ⟨_, h₈, ⟨?_, ?_⟩, ?_⟩
  · rintro (_ | _ | h) x hx
    · cases hx
    · cases hx
      rfl
    · cases hx
  · rintro (_ | _)
    · exact ⟨by rintro (_ | _ | t) <;> exact ⟨0, rfl⟩, ⟨0, rfl⟩⟩
    · exact ⟨by rintro (_ | t) <;> exact ⟨0, rfl⟩, ⟨0, rfl⟩⟩
  · rintro (_ | _) <;> exact ⟨rfl, rfl⟩

end StudyNotes.Cluster.Agreement
