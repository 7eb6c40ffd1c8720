import StudyNotes.Cluster.Lifecycle
import Mathlib.Algebra.GroupWithZero.Nat

namespace StudyNotes.Cluster.Creation

open Systems.Interaction Program Lifecycle

def code : Sigma Reply → Option Int
  | ⟨.zooExists _ _, res⟩ => some res
  | ⟨.zooCreate _ _ _ _, res⟩ => some res
  | ⟨.zooGetChildren _ _, r⟩ => some r.1
  | _ => none

/-- A watch that was not set, or a node that was not created. -/
def Refused : Sigma Reply → Prop
  | ⟨.zooCreate _ _ _ _, res⟩ => res ≠ zok
  | ⟨.zooGetChildren _ _, r⟩ => r.1 ≠ zok
  | _ => False

def Armed (log : List (Sigma Reply)) : Prop :=
  ∃ h path children, ⟨.zooGetChildren h path, (zok, children)⟩ ∈ log

def AllDone (log : List (Sigma Reply)) : Prop := Armed log ∧ ∀ e ∈ log, ¬Refused e

/-- The ancestors were created and the watch was set, where the code asked for it. -/
def Prepared (log : List (Sigma Reply)) : Prop :=
  (∀ h path value res, ⟨.zooCreate h path value false, res⟩ ∈ log → res = zok) ∧
  ∀ h path r, ⟨.zooGetChildren h path, r⟩ ∈ log → r.1 = zok

/-- The node itself could not be looked up, or its creation failed. -/
def NodeFails (path node : String) (log : List (Sigma Reply)) : Prop :=
  (∃ h res, ⟨.zooExists h (path ++ "/" ++ node), res⟩ ∈ log ∧ res ≠ zok ∧ res ≠ znonode) ∨
  ∃ h value res, ⟨.zooCreate h (path ++ "/" ++ node) value true, res⟩ ∈ log ∧ res ≠ zok

/-- The calls before the watch, on paths of a length up to a bound. -/
def Early (n : Nat) : Sigma Reply → Prop
  | ⟨.zooExists _ path, _⟩ => path.length ≤ n
  | ⟨.zooCreate _ _ _ ephemeral, _⟩ => ephemeral = false
  | _ => False

/-- The calls of createNode with its result: those for the path, the watch, and those for the node. -/
inductive OwnCalls (path node : String) (res : Int) : List (Sigma Reply) → Prop
  | found (early : List (Sigma Reply)) (h h' : Option Handle) (watched : String) (r : Int × List String)
      (hearly : ∀ e ∈ early, Early (path.length + 1) e) (hres : res ≠ znonode) :
      OwnCalls path node res (early ++ [⟨.zooGetChildren h watched, r⟩, ⟨.zooExists h' (path ++ "/" ++ node), res⟩])
  | created (early : List (Sigma Reply)) (h h' h'' : Option Handle) (watched : String) (r : Int × List String)
      (hearly : ∀ e ∈ early, Early (path.length + 1) e) :
      OwnCalls path node res (early ++ [⟨.zooGetChildren h watched, r⟩,
        ⟨.zooExists h' (path ++ "/" ++ node), znonode⟩, ⟨.zooCreate h'' (path ++ "/" ++ node) tag true, res⟩])

theorem OwnCalls.last {path node : String} {res : Int} {log : List (Sigma Reply)} (h : OwnCalls path node res log)
    (calls : List (Sigma Reply)) : ∃ e ∈ (calls ++ log).getLast?, code e = some res := by
  cases h with
  | found early h h' => exact ⟨⟨.zooExists h' (path ++ "/" ++ node), res⟩, by simp, rfl⟩
  | created early h h' h'' => exact ⟨⟨.zooCreate h'' (path ++ "/" ++ node) tag true, res⟩, by simp, rfl⟩

theorem length_below (path node : String) : (path ++ "/" ++ node).length = path.length + node.length + 1 := by
  rw [String.length_append, String.length_append, show "/".length = 1 from rfl]
  omega

theorem splitFrom_length (part rest : List Char) :
    ((splitFrom part rest).map fun node => node.length + 1).sum ≤ part.length + rest.length + 1 := by
  induction rest generalizing part with
  | nil => by_cases hpart : part = [] <;> simp [splitFrom, hpart]
  | cons ch rest ih =>
      rw [splitFrom]
      by_cases hch : ch = '/'
      · have hrest := ih []
        by_cases hpart : part = [] <;> simp [hch, hpart] at hrest ⊢ <;> omega
      · have hrest := ih (part ++ [ch])
        simp [hch] at hrest ⊢
        omega

/-- The paths that the loop asks for are not longer than the path that it was cut from. -/
theorem createPath_early {n : Nat} (nodes : List String) (zkPath : String) (res : Int) (m : Manager)
    (log calls : List (Sigma Reply)) (hn : zkPath.length + (nodes.map fun node => node.length + 1).sum ≤ n)
    (hcalls : ∀ e ∈ calls, Early n e) :
    anyReply.wp (createPath zkPath res nodes) (fun _ w' => ∃ calls', w' = (m, log ++ calls') ∧ ∀ e ∈ calls', Early n e)
      (m, log ++ calls) := by
  induction nodes generalizing zkPath res calls with
  | nil => exact ⟨calls, rfl, hcalls⟩
  | cons node nodes ih =>
      have hlen : (zkPath ++ "/" ++ node).length + (nodes.map fun node => node.length + 1).sum ≤ n := by
        rw [length_below]
        simp only [List.map_cons, List.sum_cons] at hn
        omega
      have hasked (res : Int) : ∀ e ∈ calls ++ [⟨.zooExists (m .zkhandlePtr) (zkPath ++ "/" ++ node), res⟩], Early n e :=
        List.forall_mem_append.2 ⟨hcalls, by simp only [List.mem_singleton, forall_eq, Early]; omega⟩
      have hcreated (res res' : Int) : ∀ e ∈ calls ++ [⟨.zooExists (m .zkhandlePtr) (zkPath ++ "/" ++ node), res⟩] ++
          [⟨.zooCreate (m .zkhandlePtr) (zkPath ++ "/" ++ node) tag false, res'⟩], Early n e :=
        List.forall_mem_append.2 ⟨hasked res, by simp [Early]⟩
      simp only [createPath, load, zooExists, zooCreate, request, wp_bind, wp_load, wp_zooExists, wp_zooCreate, wp_done,
        wp_ite, wp_pure, List.append_assoc log]
      refine fun res => ⟨fun _ res' => ⟨fun _ => ⟨_, rfl, hcreated res res'⟩, fun _ => ?_⟩, fun _ => ?_⟩
      · exact ih _ _ _ hlen (hcreated res res')
      · exact ih _ _ _ hlen (hasked res)

theorem createOwn_calls (path node : String) (m : Manager) (log early : List (Sigma Reply))
    (hearly : ∀ e ∈ early, Early (path.length + 1) e) :
    anyReply.wp (createOwn path node) (fun res w' => ∃ calls, w' = (m, log ++ calls) ∧ OwnCalls path node res calls)
      (m, log ++ early) := by
  simp only [createOwn, load, zooGetChildren, zooExists, zooCreate, request, wp_bind, wp_load, wp_zooGetChildren,
    wp_zooExists, wp_zooCreate, wp_done, wp_ite, wp_pure, List.append_assoc]
  intro r res
  refine ⟨fun hres res' => ?_, fun hres => ?_⟩
  · subst hres
    exact ⟨_, rfl, .created early _ _ _ _ r hearly⟩
  · exact ⟨_, rfl, .found early _ _ _ r hearly hres⟩

/-- createNode makes no call and fails, or makes those for the path and then those for the node. -/
theorem createNode_calls (path node : String) (w : World) :
    anyReply.wp (createNode path node) (fun res w' => ∃ calls, w' = (w.1, w.2 ++ calls) ∧
      (calls = [] ∧ res = -1 ∨ node ≠ "" ∧ OwnCalls path node res calls)) w := by
  obtain ⟨m, log⟩ := w
  simp only [createNode, load, zooExists, request, wp_bind, wp_load, wp_zooExists, wp_done, wp_ite, wp_pure]
  refine ⟨fun hguard res => ?_, fun _ => ⟨[], by simp⟩⟩
  have hasked : ∀ e ∈ [(⟨.zooExists (m .zkhandlePtr) path, res⟩ : Sigma Reply)], Early (path.length + 1) e := by
    simp [Early]
  have hown (early : List (Sigma Reply)) (hearly : ∀ e ∈ early, Early (path.length + 1) e) :
      anyReply.wp (createOwn path node) (fun res w' => ∃ calls, w' = (m, log ++ calls) ∧
        (calls = [] ∧ res = -1 ∨ node ≠ "" ∧ OwnCalls path node res calls)) (m, log ++ early) := by
    refine wp_mono (createOwn_calls path node m log early hearly) ?_
    rintro _ _ ⟨calls, hw, h⟩
    exact ⟨calls, hw, Or.inr ⟨hguard.2.2, h⟩⟩
  refine ⟨fun _ => ?_, fun _ => hown _ hasked⟩
  have hlen : "".length + ((split path).map fun node => node.length + 1).sum ≤ path.length + 1 := by
    simpa [split, String.length_toList] using splitFrom_length [] path.toList
  refine wp_mono (createPath_early _ _ _ m log _ hlen hasked) ?_
  rintro _ _ ⟨early, rfl, hearly⟩
  exact hown early hearly

theorem not_early {path node : String} (hnode : node ≠ "") {early : List (Sigma Reply)}
    (hearly : ∀ e ∈ early, Early (path.length + 1) e) (h : Option Handle) (value : String) (res : Int) :
    ⟨.zooExists h (path ++ "/" ++ node), res⟩ ∉ early ∧ ⟨.zooCreate h (path ++ "/" ++ node) value true, res⟩ ∉ early := by
  have hlen : 0 < node.length := by
    rw [Nat.pos_iff_ne_zero]
    simpa using hnode
  refine ⟨fun hmem => ?_, fun hmem => Bool.noConfusion (hearly _ hmem)⟩
  have hle : (path ++ "/" ++ node).length ≤ path.length + 1 := hearly _ hmem
  rw [length_below] at hle
  omega

theorem OwnCalls.nodeFails_iff {path node : String} {res : Int} {log : List (Sigma Reply)} (hnode : node ≠ "")
    (h : OwnCalls path node res log) : NodeFails path node log ↔ res ≠ zok := by
  cases h with
  | found early h h' watched r hearly hres =>
      have hnot := not_early hnode hearly
      constructor
      · rintro (⟨k, res', hmem, hfails, -⟩ | ⟨k, value, res', hmem, -⟩)
        · obtain ⟨-, rfl⟩ : k = h' ∧ res' = res := by simpa [(hnot k "" res').1] using hmem
          exact hfails
        · simp [(hnot k value res').2] at hmem
      · intro hfails
        exact Or.inl ⟨h', res, by simp, hfails, hres⟩
  | created early h h' h'' watched r hearly =>
      have hnot := not_early hnode hearly
      constructor
      · rintro (⟨k, res', hmem, -, hres'⟩ | ⟨k, value, res', hmem, hfails⟩)
        · simp [(hnot k "" res').1, hres'] at hmem
        · obtain ⟨-, rfl⟩ : (k = h'' ∧ value = tag) ∧ res' = res := by simpa [(hnot k value res').2] using hmem
          exact hfails
      · intro hfails
        exact Or.inr ⟨h'', tag, res, by simp, hfails⟩

theorem OwnCalls.watched {path node : String} {res : Int} {log : List (Sigma Reply)} (h : OwnCalls path node res log) :
    ∃ k path' r, ⟨.zooGetChildren k path', r⟩ ∈ log := by
  cases h with
  | found early h h' watched r => exact ⟨h, watched, r, by simp⟩
  | created early h h' h'' watched r => exact ⟨h, watched, r, by simp⟩

theorem OwnCalls.ephemeral {path node : String} {res : Int} {log : List (Sigma Reply)} (h : OwnCalls path node res log)
    {k : Option Handle} {path' value : String} {res' : Int} (hmem : ⟨.zooCreate k path' value true, res'⟩ ∈ log) :
    res' = res := by
  have hnot {early : List (Sigma Reply)} (hearly : ∀ e ∈ early, Early (path.length + 1) e) :
      ⟨.zooCreate k path' value true, res'⟩ ∉ early := fun hmem => Bool.noConfusion (hearly _ hmem)
  cases h with
  | found early h h' watched r hearly => simp [hnot hearly] at hmem
  | created early h h' h'' watched r hearly =>
      simp only [List.mem_append, hnot hearly, false_or] at hmem
      simp_all

theorem OwnCalls.allDone_iff {path node : String} {log : List (Sigma Reply)} (h : OwnCalls path node zok log) :
    AllDone log ↔ Prepared log := by
  constructor
  · rintro ⟨-, hnone⟩
    exact ⟨fun _ _ _ _ hmem => not_not.1 (hnone _ hmem), fun _ _ _ hmem => not_not.1 (hnone _ hmem)⟩
  · rintro ⟨hcreated, hwatched⟩
    constructor
    · obtain ⟨k, path', r, hmem⟩ := h.watched
      exact ⟨k, path', r.2, hwatched k path' r hmem ▸ hmem⟩
    · rintro ⟨q, res⟩ hmem hrefused
      cases q with
      | zooCreate k path' value ephemeral =>
          cases ephemeral with
          | false => exact hrefused (hcreated _ _ _ _ hmem)
          | true => exact hrefused (h.ephemeral hmem)
      | zooGetChildren k path' => exact hrefused (hwatched _ _ _ hmem)
      | _ => exact hrefused

theorem reported_iff {path node : String} {res : Int} {log : List (Sigma Reply)}
    (h : log = [] ∧ res = -1 ∨ node ≠ "" ∧ OwnCalls path node res log) :
    (res = zok → AllDone log) ↔ Prepared log ∨ NodeFails path node log := by
  rcases h with ⟨rfl, rfl⟩ | ⟨hnode, h⟩
  · exact iff_of_true (fun h => absurd h (by decide)) (Or.inl (by simp [Prepared]))
  · rw [h.nodeFails_iff hnode]
    by_cases hres : res = zok
    · subst hres
      simp [h.allDone_iff]
    · simp [hres]

theorem start_calls (w : World) (hw : w.1 .runState ≠ .running) :
    anyReply.wp start (fun res w' => (∃ calls, w'.2 = w.2 ++ calls ∧
        (calls = [] ∧ res = -1 ∨ w.1 .node ≠ "" ∧ OwnCalls (w.1 .path) (w.1 .node) res calls)) ∧
      (w'.1 .runState = .running ↔ res = zok)) w := by
  simp only [start, wp_bind, wp_runStateIs, wp_ite, wp_pure, decide_eq_true_eq, load, store, request, wp_load, wp_done]
  refine ⟨fun _ => wp_mono (createNode_calls _ _ w) ?_, fun _ => ⟨⟨[], by simp⟩, ?_⟩⟩
  · rintro res _ ⟨calls, rfl, hcalls⟩
    simp only [wp_store, wp_done]
    refine ⟨fun hres => ⟨⟨calls, rfl, hcalls⟩, ?_⟩, fun hres => ⟨⟨calls, rfl, hcalls⟩, ?_⟩⟩
    · simp [hres]
    · exact iff_of_false hw hres
  · exact iff_of_false hw (by decide)

/-- createNode, and with it Start, reports every failure of a watch or a creation exactly when all
ancestors were created and the watch was set, or the node itself could not be looked up or created. -/
theorem failures_reported_iff (m m' : Manager) (res : Int) (log : List (Sigma Reply)) :
    (∀ path node, Exec anyReply (m, []) (createNode path node) res (m', log) →
      ((res = zok → AllDone log) ↔ Prepared log ∨ NodeFails path node log)) ∧
    (m .runState ≠ .running → Exec anyReply (m, []) start res (m', log) →
      ((m' .runState = .running → AllDone log) ↔ Prepared log ∨ NodeFails (m .path) (m .node) log)) := by
  constructor
  · intro path node h
    obtain ⟨calls, hlog, hcalls⟩ := h.of_wp (createNode_calls path node (m, []))
    obtain rfl : log = calls := congrArg Prod.snd hlog
    exact reported_iff hcalls
  · intro hm h
    obtain ⟨⟨calls, hlog, hcalls⟩, hrunning⟩ := h.of_wp (start_calls (m, []) hm)
    obtain rfl : log = calls := hlog
    rw [hrunning]
    exact reported_iff hcalls

def ready : Manager := opened Manager.init "zk" "/adc" "a" 10 1

def readyLog : List (Sigma Reply) :=
  [⟨.zooExists (some 1) "/adc", zok⟩, ⟨.zooGetChildren (some 1) "/adc", (zok, [])⟩,
    ⟨.zooExists (some 1) ("/adc" ++ "/" ++ "a"), zok⟩]

theorem prepared_readyLog : Prepared readyLog := by
  refine ⟨fun h path value res hmem => ?_, fun h path r hmem => ?_⟩
  · simp [readyLog] at hmem
  · obtain ⟨-, rfl⟩ : (h = some 1 ∧ path = "/adc") ∧ r = (zok, []) := by simpa [readyLog] using hmem
    rfl

theorem failures_reported_ready :
    Exec anyReply (ready, []) (createNode "/adc" "a") zok (ready, readyLog) ∧
    (∃ m', Exec anyReply (ready, []) start zok (m', readyLog) ∧ m' .runState = .running) ∧ AllDone readyLog := by
  have hnode : Exec anyReply (ready, []) (createNode "/adc" "a") zok (ready, readyLog) :=
    Exec.of_run (obliging_reply []) rfl
  have hstart : Exec anyReply (ready, []) start zok (_, readyLog) := Exec.of_run (obliging_reply []) rfl
  exact ⟨hnode, ⟨_, hstart, rfl⟩, ((failures_reported_iff _ _ _ _).2 (by decide) hstart).2 (Or.inl prepared_readyLog) rfl⟩

/-- A library that loses the connection at the watch, after another client has made the
node of the path. -/
def losing (w : World) : (q : Request) → Reply q × World
  | .zooExists h path => (znonode, w.1, w.2 ++ [⟨.zooExists h path, znonode⟩])
  | .zooCreate h path value false => (-110, w.1, w.2 ++ [⟨.zooCreate h path value false, -110⟩])
  | .zooGetChildren h path => ((-4, []), w.1, w.2 ++ [⟨.zooGetChildren h path, (-4, [])⟩])
  | q => obliging [] w q

theorem losing_reply (w : World) (q : Request) : anyReply.reply w q (losing w q).1 (losing w q).2 := by
  cases q with
  | zooExists h path => exact ⟨rfl, rfl⟩
  | zooCreate h path value ephemeral => cases ephemeral <;> exact ⟨rfl, rfl⟩
  | zooGetChildren h path => exact ⟨rfl, rfl⟩
  | _ => exact obliging_reply [] w _

def losingLog : List (Sigma Reply) :=
  [⟨.zooExists (some 1) "/adc", znonode⟩, ⟨.zooExists (some 1) ("" ++ "/" ++ "adc"), znonode⟩,
    ⟨.zooCreate (some 1) ("" ++ "/" ++ "adc") tag false, -110⟩, ⟨.zooGetChildren (some 1) "/adc", (-4, [])⟩,
    ⟨.zooExists (some 1) ("/adc" ++ "/" ++ "a"), znonode⟩,
    ⟨.zooCreate (some 1) ("/adc" ++ "/" ++ "a") tag true, zok⟩]

/-- createNode returns ZOK and Start goes to Running, although the watch and the node of
the path were refused. -/
theorem unarmed_running :
    Exec anyReply (ready, []) (createNode "/adc" "a") zok (ready, losingLog) ∧
    (∃ m', Exec anyReply (ready, []) start zok (m', losingLog) ∧ m' .runState = .running) ∧ ¬Armed losingLog ∧
    ∃ e ∈ losingLog, e.1 = .zooCreate (some 1) ("" ++ "/" ++ "adc") tag false ∧ Refused e := by
  have hnode : Exec anyReply (ready, []) (createNode "/adc" "a") zok (ready, losingLog) :=
    Exec.of_run losing_reply rfl
  have hstart : Exec anyReply (ready, []) start zok (_, losingLog) := Exec.of_run losing_reply rfl
  refine ⟨hnode, ⟨_, hstart, rfl⟩, ?_, _, List.mem_of_getElem? (i := 2) rfl, rfl, by simp [Refused, zok]⟩
  rintro ⟨h, path, children, hmem⟩
  simp [losingLog, zok] at hmem

end StudyNotes.Cluster.Creation
