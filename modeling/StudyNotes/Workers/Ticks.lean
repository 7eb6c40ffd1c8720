import StudyNotes.Workers.Consumers
import StudyNotes.Systems.Refinement
import Mathlib.Algebra.GroupWithZero.Nat

namespace StudyNotes.Workers.Ticks

open Systems.Transition Systems.Refinement Program Consumers

variable {π κ : Type}

def timerOf : Producer → Option Fd
  | .created fd | .added fd | .armed fd => some fd
  | .idle => none

def ownerOf (files : Fd → Option (File π)) (fd : Fd) : Option π :=
  match files fd with
  | some f => some f.task.1
  | none => none

/-- The ticks of every timer are read or in its counter. A timer whose counter is not
zero is ready or was returned to a consumer that has not read it yet. -/
structure Counted (got : π → Nat) (s : State π κ) : Prop where
  opened : ∀ fd f, s.files fd = some f → timerOf (s.producer f.task.1) = some fd
  timer : ∀ p fd, timerOf (s.producer p) = some fd → ownerOf s.files fd = some p
  watched : ∀ p fd f, s.files fd = some f → s.producer p = .armed fd ∨ s.producer p = .added fd → f.watched = true
  asleep : ∀ fd f, s.files fd = some f → s.producer f.task.1 = .created fd → f.counter = 0
  balance : ∀ fd f, s.files fd = some f → got f.task.1 + f.counter = s.issued f.task.1
  idle : ∀ p, s.producer p = .idle → got p = 0 ∧ s.issued p = 0
  awake : ∀ fd f, s.files fd = some f → f.counter ≠ 0 → fd ∉ s.ready → ∃ c, fd ∈ pending (s.consumer c)
  kept : ∀ c, toClose (s.consumer c) = none

section Steps

variable {got : π → Nat} {s : State π κ} {p : π} {c : κ} {fd : Fd} {events : List Fd}

attribute [local grind] timerOf ownerOf pending toClose toDo wake
attribute [local grind =] Function.update_apply

theorem Counted.create [DecidableEq π] (h : Counted got s) (hp : s.producer p = .idle) (hfree : s.files fd = none) :
    Counted got { s with
      files := Function.update s.files fd (some ⟨0, false, (p, 0)⟩)
      producer := Function.update s.producer p (.created fd) } := by
  obtain ⟨hopened, htimer, hwatched, hasleep, hbalance, hidle, hawake, hkept⟩ := h
  constructor <;> grind

theorem Counted.add [DecidableEq π] {f : File π} (h : Counted got s) (hp : s.producer p = .created fd)
    (hf : s.files fd = some f) :
    Counted got { s with
      files := Function.update s.files fd (some { f with watched := true })
      ready := if f.counter ≠ 0 then wake s.ready fd else s.ready
      producer := Function.update s.producer p (.added fd) } := by
  obtain ⟨hopened, htimer, hwatched, hasleep, hbalance, hidle, hawake, hkept⟩ := h
  constructor <;> grind

theorem Counted.settime [DecidableEq π] (h : Counted got s) (hp : s.producer p = .added fd) :
    Counted got { s with producer := Function.update s.producer p (.armed fd) } := by
  obtain ⟨hopened, htimer, hwatched, hasleep, hbalance, hidle, hawake, hkept⟩ := h
  constructor <;> grind

/-- An expiration wakes the epoll set, so the counter that it raises is not forgotten. -/
theorem Counted.expire [DecidableEq π] {f : File π} (h : Counted got s) (hp : s.producer p = .armed fd)
    (hf : s.files fd = some f) :
    Counted got { s with
      files := Function.update s.files fd (some { f with counter := f.counter + 1 })
      ready := if f.watched then wake s.ready fd else s.ready
      issued := Function.update s.issued p (s.issued p + 1) } := by
  obtain ⟨hopened, htimer, hwatched, hasleep, hbalance, hidle, hawake, hkept⟩ := h
  constructor <;> grind

theorem mem_harvest {files : Fd → Option (File π)} (n : Nat) {ready : List Fd} (hmem : fd ∈ ready)
    (hr : readable files fd = true) : fd ∈ (harvest files n ready).1 ∨ fd ∈ (harvest files n ready).2 := by
  fun_induction harvest files n ready with
  | case1 => exact absurd hmem List.not_mem_nil
  | case2 => exact Or.inr hmem
  | case3 n fd' ready hr' events rest heq ih => grind
  | case4 n fd' ready hr' ih => grind

theorem harvest_length (files : Fd → Option (File π)) (n : Nat) (ready : List Fd) :
    (harvest files n ready).1.length + (harvest files n ready).2.length ≤ ready.length := by
  fun_induction harvest files n ready with
  | case1 => exact Nat.le_refl _
  | case2 => simp
  | case3 n fd' ready hr' events rest heq ih => grind
  | case4 n fd' ready hr' ih => grind

theorem returned_update [DecidableEq κ] {x : Consumer π} (hx : fd ∈ pending (s.consumer c) → fd ∈ pending x)
    (h : ∃ d, fd ∈ pending (s.consumer d)) : ∃ d, fd ∈ pending (Function.update s.consumer c x d) := by
  obtain ⟨d, hd⟩ := h
  refine ⟨d, ?_⟩
  by_cases hdc : d = c
  · subst hdc
    rw [Function.update_self]
    exact hx hd
  · rwa [Function.update_of_ne hdc]

theorem kept_update [DecidableEq κ] {x : Consumer π} (hx : toClose x = none) (h : ∀ d, toClose (s.consumer d) = none) (d : κ) :
    toClose (Function.update s.consumer c x d) = none := by
  by_cases hdc : d = c
  · subst hdc
    rwa [Function.update_self]
  · rw [Function.update_of_ne hdc]
    exact h d

theorem Counted.wait [DecidableEq κ] (h : Counted got s) (hc : s.consumer c = .looping []) :
    Counted got { s with
      ready := (harvest s.files maxEventsSize s.ready).2
      consumer := Function.update s.consumer c (.looping (harvest s.files maxEventsSize s.ready).1) } := by
  refine ⟨h.opened, h.timer, h.watched, h.asleep, h.balance, h.idle, fun fd f (hf : s.files fd = some f) hne hnot => ?_, kept_update rfl h.kept⟩
  by_cases hin : fd ∈ s.ready
  · have hreadable : readable s.files fd = true := by simp [readable, hf, hne]
    have hmem := (mem_harvest maxEventsSize hin hreadable).resolve_right hnot
    refine ⟨c, ?_⟩
    dsimp only
    rwa [Function.update_self]
  · refine returned_update (fun hpending => ?_) (h.awake fd f hf hne hin)
    rw [hc] at hpending
    exact absurd hpending List.not_mem_nil

theorem Counted.read [DecidableEq π] [DecidableEq κ] {f : File π} (h : Counted got s)
    (hc : s.consumer c = .looping (fd :: events)) (hf : s.files fd = some f) :
    Counted (Function.update got f.task.1 (got f.task.1 + f.counter)) { s with
      files := Function.update s.files fd (some { f with counter := 0 })
      consumer := Function.update s.consumer c (.working f.task events) } := by
  have hawake : ∀ fd' f', Function.update s.files fd (some { f with counter := 0 }) fd' = some f' → f'.counter ≠ 0 →
      fd' ∉ s.ready → ∃ d, fd' ∈ pending (Function.update s.consumer c (.working f.task events) d) := by
    intro fd' f' hf' hne hnot
    by_cases hfd : fd' = fd
    · subst hfd
      rw [Function.update_self] at hf'
      cases hf'
      exact absurd rfl hne
    · rw [Function.update_of_ne hfd] at hf'
      refine returned_update (fun hpending => ?_) (h.awake fd' f' hf' hne hnot)
      rw [hc] at hpending
      exact List.mem_of_ne_of_mem hfd hpending
  obtain ⟨hopened, htimer, hwatched, hasleep, hbalance, hidle, -, hkept⟩ := h
  constructor <;> grind

theorem Counted.readFailed [DecidableEq κ] (h : Counted got s) (hc : s.consumer c = .looping (fd :: events))
    (hr : readable s.files fd = false) :
    Counted got { s with consumer := Function.update s.consumer c (.looping events) } := by
  refine ⟨h.opened, h.timer, h.watched, h.asleep, h.balance, h.idle, fun fd' f (hf : s.files fd' = some f) hne hnot => ?_,
    kept_update rfl h.kept⟩
  refine returned_update (fun hpending => ?_) (h.awake fd' f hf hne hnot)
  rw [hc] at hpending
  have hfd : fd' ≠ fd := by
    rintro rfl
    simp [readable, hf, hne] at hr
  exact List.mem_of_ne_of_mem hfd hpending

theorem Counted.doTask [DecidableEq κ] {t : TaskId π} (h : Counted got s) (hc : s.consumer c = .working t events) :
    Counted got { s with
      consumer := Function.update s.consumer c (.looping events)
      numDone := Function.update s.numDone c (s.numDone c + 1) } := by
  refine ⟨h.opened, h.timer, h.watched, h.asleep, h.balance, h.idle, fun fd f (hf : s.files fd = some f) hne hnot => ?_, kept_update rfl h.kept⟩
  refine returned_update (fun hpending => ?_) (h.awake fd f hf hne hnot)
  rwa [hc] at hpending

end Steps

section Runs

variable [DecidableEq π] [DecidableEq κ]

def ticksIn (p : π) : Event π κ → List Nat
  | .read _ task v => if task.1 = p then [v] else []
  | _ => []

/-- The ticks of a timer that the consumers have read. -/
def ticksRead (tr : List (State π κ × Event π κ)) (p : π) : Nat := (along (ticksIn p) tr).sum

def readsIn (c : κ) : Event π κ → List Unit
  | .read d _ _ => if d = c then [()] else []
  | _ => []

def reads (tr : List (State π κ × Event π κ)) (c : κ) : Nat := (along (readsIn c) tr).length

omit [DecidableEq κ] in
theorem ticksRead_concat (tr : List (State π κ × Event π κ)) (s : State π κ) (e : Event π κ) :
    ticksRead (tr ++ [(s, e)]) = fun p => ticksRead tr p + (ticksIn p e).sum := by
  funext p
  rw [ticksRead, along_concat, List.sum_append]
  rfl

omit [DecidableEq κ] in
theorem ticksRead_read (tr : List (State π κ × Event π κ)) (s : State π κ) (c : κ) (task : TaskId π) (v : Nat) :
    ticksRead (tr ++ [(s, .read c task v)]) = Function.update (ticksRead tr) task.1 (ticksRead tr task.1 + v) := by
  rw [ticksRead_concat]
  funext p
  by_cases hp : p = task.1
  · subst hp
    rw [Function.update_self, ticksIn, if_pos rfl]
    rfl
  · rw [Function.update_of_ne hp, ticksIn, if_neg (Ne.symm hp)]
    rfl

/-- A consumer does a task for each of its reads. -/
def Served (tr : List (State π κ × Event π κ)) (s : State π κ) : Prop :=
  ∀ c, reads tr c = s.numDone c + if (toDo (s.consumer c)).isSome then 1 else 0

theorem counted_consumer {tr : List (State π κ × Event π κ)} {s s' : State π κ} {e : Event π κ}
    (h : Counted (ticksRead tr) s) (hs : ConsumerStep false s e s') : Counted (ticksRead (tr ++ [(s, e)])) s' := by
  cases hs with
  | wait c hc =>
      rw [ticksRead_concat]
      exact h.wait hc
  | read c fd events f hc hf hv =>
      rw [ticksRead_read]
      exact h.read hc hf
  | readFailed c fd events hc hr =>
      rw [ticksRead_concat]
      exact h.readFailed hc hr
  | close c fd task events hc => exact absurd (h.kept c) (by rw [hc]; nofun)
  | doTask c task events hc =>
      rw [ticksRead_concat]
      exact h.doTask hc

theorem counted_step {tr : List (State π κ × Event π κ)} {s s' : State π κ} {e : Event π κ}
    (h : Counted (ticksRead tr) s) (hs : TimerfdStep s e s') : Counted (ticksRead (tr ++ [(s, e)])) s' := by
  cases hs with
  | consumer _ _ hs => exact counted_consumer h hs
  | create p fd hp hfree =>
      rw [ticksRead_concat]
      exact h.create hp hfree
  | add p fd f hp hf =>
      rw [ticksRead_concat]
      exact h.add hp hf
  | settime p fd hp =>
      rw [ticksRead_concat]
      exact h.settime hp
  | expire p fd f hp hf =>
      rw [ticksRead_concat]
      exact h.expire hp hf

omit [DecidableEq π] in
theorem reads_concat (tr : List (State π κ × Event π κ)) (s : State π κ) (e : Event π κ) (c : κ) :
    reads (tr ++ [(s, e)]) c = reads tr c + (readsIn c e).length := by
  rw [reads, along_concat, List.length_append]
  rfl

omit [DecidableEq π] in
theorem served_other {tr : List (State π κ × Event π κ)} {s s' : State π κ} {e : Event π κ} (h : Served tr s)
    (he : ∀ c, readsIn c e = []) (hdone : s'.numDone = s.numDone)
    (hconsumer : ∀ c, toDo (s'.consumer c) = toDo (s.consumer c)) : Served (tr ++ [(s, e)]) s' := by
  intro c
  rw [reads_concat, he, hdone, hconsumer]
  exact h c

omit [DecidableEq π] in
theorem toDo_update {s : State π κ} {c : κ} {x : Consumer π} (hx : toDo x = toDo (s.consumer c)) (d : κ) :
    toDo (Function.update s.consumer c x d) = toDo (s.consumer d) := by
  by_cases hd : d = c
  · subst hd
    rw [Function.update_self, hx]
  · rw [Function.update_of_ne hd]

omit [DecidableEq π] in
theorem served_consumer {got : π → Nat} {tr : List (State π κ × Event π κ)} {s s' : State π κ} {e : Event π κ}
    (hgot : Counted got s) (h : Served tr s) (hs : ConsumerStep false s e s') : Served (tr ++ [(s, e)]) s' := by
  cases hs with
  | wait c hc => exact served_other h (fun _ => rfl) rfl (toDo_update (by rw [hc]; rfl))
  | readFailed c fd events hc hr => exact served_other h (fun _ => rfl) rfl (toDo_update (by rw [hc]; rfl))
  | close c fd task events hc => exact absurd (hgot.kept c) (by rw [hc]; nofun)
  | read c fd events f hc hf hv =>
      intro d
      have hd := h d
      by_cases hdc : d = c
      · subst hdc
        rw [hc] at hd
        simpa [reads_concat, readsIn, toDo] using hd
      · simpa [reads_concat, readsIn, Function.update_of_ne hdc, Ne.symm hdc] using hd
  | doTask c task events hc =>
      intro d
      have hd := h d
      by_cases hdc : d = c
      · subst hdc
        rw [hc] at hd
        simpa [reads_concat, readsIn, toDo] using hd
      · simpa [reads_concat, readsIn, Function.update_of_ne hdc] using hd

theorem counted_run {tr : List (State π κ × Event π κ)} {s : State π κ} (h : Run (timerfdSystem π κ) tr s) :
    Counted (ticksRead tr) s ∧ Served tr s := by
  refine Run.induct (I := fun tr s => Counted (ticksRead tr) s ∧ Served tr s) (fun s hs => ?_)
    (fun tr s e s' _ ⟨hcounted, hserved⟩ hs => ⟨counted_step hcounted hs, ?_⟩) h
  · rw [hs]
    refine ⟨?_, fun c => rfl⟩
    constructor <;> simp [State.init, timerOf, toClose, ticksRead, along]
  · cases hs with
    | consumer _ _ hs => exact served_consumer hcounted hserved hs
    | _ => exact served_other hserved (fun _ => rfl) rfl (fun _ => rfl)

/-- The ticks of a timer that nobody has read. -/
def unread (s : State π κ) (p : π) : Nat :=
  match timerOf (s.producer p) with
  | some fd => ((s.files fd).map File.counter).getD 0
  | none => 0

omit [DecidableEq π] [DecidableEq κ] in
theorem Counted.timer_file {got : π → Nat} {s : State π κ} (h : Counted got s) {p : π} {fd : Fd}
    (hp : timerOf (s.producer p) = some fd) : ∃ f, s.files fd = some f ∧ f.task.1 = p := by
  have howner := h.timer p fd hp
  cases hf : s.files fd with
  | none => simp [ownerOf, hf] at howner
  | some f => exact ⟨f, rfl, by simpa [ownerOf, hf] using howner⟩

omit [DecidableEq π] [DecidableEq κ] in
theorem Counted.balanced {got : π → Nat} {s : State π κ} (h : Counted got s) (p : π) : got p + unread s p = s.issued p := by
  cases hp : timerOf (s.producer p) with
  | none =>
      have hidle : s.producer p = .idle := by
        cases hproducer : s.producer p <;> simp [timerOf, hproducer] at hp ⊢
      obtain ⟨hgot, hissued⟩ := h.idle p hidle
      simp [unread, hp, hgot, hissued]
  | some fd =>
      obtain ⟨f, hf, rfl⟩ := h.timer_file hp
      simpa [unread, hp, hf] using h.balance fd f hf

/-- Along every run each tick is either read once or in its timer's counter, where the
epoll set or a consumer that will read it still knows of it. A consumer does one task for
each of its reads, whatever number of ticks the read has found. -/
theorem ticks_counted (π κ : Type) [DecidableEq π] [DecidableEq κ] (tr : List (State π κ × Event π κ)) (s : State π κ)
    (h : Run (timerfdSystem π κ) tr s) :
    (∀ p, ticksRead tr p + unread s p = s.issued p) ∧
    (∀ p fd, s.producer p = .armed fd → unread s p ≠ 0 → fd ∈ s.ready ∨ ∃ c, fd ∈ pending (s.consumer c)) ∧
    ∀ c, reads tr c = s.numDone c + if (toDo (s.consumer c)).isSome then 1 else 0 := by
  obtain ⟨hcounted, hserved⟩ := counted_run h
  refine ⟨hcounted.balanced, fun p fd hp hne => ?_, hserved⟩
  have htimer : timerOf (s.producer p) = some fd := by rw [hp]; rfl
  obtain ⟨f, hf, -⟩ := hcounted.timer_file htimer
  have hcounter : f.counter ≠ 0 := by simpa [unread, htimer, hf] using hne
  by_cases hin : fd ∈ s.ready
  · exact .inl hin
  · exact .inr (hcounted.awake fd f hf hcounter hin)

/-- A timer that has expired twice. -/
theorem demo_expired : ∃ tr s, Run (timerfdSystem Unit Bool) tr s ∧ s.issued () = 2 ∧ s.producer () = .armed 5 ∧
    ticksRead tr () = 0 := by
  have h₁ := (Run.start (T := timerfdSystem Unit Bool) rfl).next (.create _ () 5 rfl rfl)
  have h₂ := h₁.next (.add _ () 5 _ rfl rfl)
  have h₃ := h₂.next (.settime _ () 5 rfl)
  have h₄ := h₃.next (.expire _ () 5 _ rfl rfl)
  have h₅ := h₄.next (.expire _ () 5 _ rfl rfl)
  exact ⟨_, _, h₅, rfl, rfl, rfl⟩

theorem ticks_counted_twice : ∃ tr s, Run (timerfdSystem Unit Bool) tr s ∧ unread s () = 2 ∧
    (5 ∈ s.ready ∨ ∃ c, 5 ∈ pending (s.consumer c)) := by
  obtain ⟨tr, s, h, hissued, hp, hnone⟩ := demo_expired
  obtain ⟨hbalance, hawake, -⟩ := ticks_counted Unit Bool tr s h
  have hunread : unread s () = 2 := by
    have := hbalance ()
    rwa [hnone, hissued, Nat.zero_add] at this
  exact ⟨tr, s, h, hunread, hawake () 5 hp (by rw [hunread]; decide)⟩

end Runs

section Progress

variable [DecidableEq π] [DecidableEq κ]

omit [DecidableEq π] [DecidableEq κ] in
theorem harvest_lt (files : Fd → Option (File π)) {n : Nat} (hn : 0 < n) {ready : List Fd} (hne : ready ≠ []) :
    (harvest files n ready).2.length < ready.length := by
  fun_induction harvest files n ready with
  | case1 => exact absurd rfl hne
  | case2 => exact absurd hn (Nat.lt_irrefl 0)
  | case3 n fd ready hr events rest heq ih =>
      have hle := harvest_length files n ready
      rw [heq] at hle
      simp only [List.length_cons] at *
      omega
  | case4 n fd ready hr ih =>
      have hle := harvest_length files (n + 1) ready
      rw [List.length_cons]
      omega

theorem exists_own_step [Fintype κ] [Nonempty κ] {got : π → Nat} {s : State π κ} (h : Counted got s) (hidle : ¬Idle s) :
    ∃ e s', TimerfdStep s e s' ∧ Own e ∧ s'.issued = s.issued ∧ work s' < work s := by
  by_cases hall : ∀ c, s.consumer c = .looping []
  · obtain ⟨c⟩ := ‹Nonempty κ›
    have hready : s.ready ≠ [] := fun hnil => hidle ⟨hnil, hall⟩
    refine ⟨_, _, .consumer _ _ _ (.wait s c (hall c)), trivial, rfl,
      work_lt c (.looping (harvest s.files maxEventsSize s.ready).1) (harvest s.files maxEventsSize s.ready).2 rfl rfl ?_⟩
    have hlt := harvest_lt s.files (n := maxEventsSize) (by decide) hready
    have hle := harvest_length s.files maxEventsSize s.ready
    rw [hall c, consumerWork, consumerWork, List.length_nil]
    omega
  · obtain ⟨c, hc⟩ := not_forall.mp hall
    cases hconsumer : s.consumer c with
    | looping events =>
        cases events with
        | nil => exact absurd hconsumer hc
        | cons fd events =>
            cases hr : readable s.files fd with
            | false =>
                refine ⟨_, _, .consumer _ _ _ (.readFailed s c fd events hconsumer hr), trivial, rfl,
                  work_lt c (.looping events) s.ready rfl rfl ?_⟩
                rw [hconsumer, consumerWork, consumerWork, List.length_cons]
                omega
            | true =>
                obtain ⟨f, hf, hne⟩ : ∃ f, s.files fd = some f ∧ f.counter ≠ 0 := by
                  cases hf : s.files fd with
                  | none => simp [readable, hf] at hr
                  | some f => exact ⟨f, rfl, by simpa [readable, hf] using hr⟩
                refine ⟨_, _, .consumer _ _ _ (.read s c fd events f hconsumer hf hne), trivial, rfl,
                  work_lt c (.working f.task events) s.ready rfl rfl ?_⟩
                rw [hconsumer, consumerWork, consumerWork, List.length_cons]
                omega
    | closing fd task events => exact absurd (h.kept c) (by rw [hconsumer]; nofun)
    | working task events =>
        refine ⟨_, _, .consumer _ _ _ (.doTask s c task events hconsumer), trivial, rfl,
          work_lt c (.looping events) s.ready rfl rfl ?_⟩
        rw [hconsumer, consumerWork, consumerWork]
        omega

/-- From every state of a run the consumers alone can read all ticks so far, with one
task done for each successful read. -/
theorem ticks_get_read (π κ : Type) [DecidableEq π] [DecidableEq κ] [Fintype κ] [Nonempty κ]
    (tr : List (State π κ × Event π κ)) (s : State π κ) (h : Run (timerfdSystem π κ) tr s) :
    ∃ tr' s', Run (timerfdSystem π κ) (tr ++ tr') s' ∧ (∀ p ∈ tr', Own p.2) ∧
      (∀ p, ticksRead (tr ++ tr') p = s.issued p) ∧ ∀ c, reads (tr ++ tr') c = s'.numDone c := by
  have hstep (u : State π κ) (hr : Reachable (timerfdSystem π κ) u) (hu : u.issued = s.issued) (hg : ¬Idle u) :
      ∃ e u', TimerfdStep u e u' ∧ Own e ∧ u'.issued = s.issued ∧ work u' < work u := by
    obtain ⟨tr, hr⟩ := hr
    obtain ⟨e, u', hs, hown, hissued, hlt⟩ := exists_own_step (counted_run hr).1 hg
    exact ⟨e, u', hs, hown, hissued.trans hu, hlt⟩
  obtain ⟨tr', s', hr, hissued, ⟨hready, hall⟩, hown⟩ := exists_goal work hstep h rfl
  obtain ⟨hcounted, hserved⟩ := counted_run hr
  refine ⟨tr', s', hr, hown, fun p => ?_, fun c => ?_⟩
  · have hbalance := hcounted.balanced p
    have hnone : unread s' p = 0 := by
      by_contra hne
      cases hp : timerOf (s'.producer p) with
      | none => simp [unread, hp] at hne
      | some fd =>
          obtain ⟨f, hf, -⟩ := hcounted.timer_file hp
          have hcounter : f.counter ≠ 0 := by simpa [unread, hp, hf] using hne
          obtain ⟨c, hc⟩ := hcounted.awake fd f hf hcounter (by rw [hready]; exact List.not_mem_nil)
          rw [hall c] at hc
          exact absurd hc List.not_mem_nil
    rw [hnone, hissued] at hbalance
    exact hbalance
  · have hserved := hserved c
    rw [hall c] at hserved
    exact hserved

theorem ticks_get_read_twice : ∃ tr s, Run (timerfdSystem Unit Bool) tr s ∧ ticksRead tr () = 2 := by
  obtain ⟨tr, s, h, hissued, -⟩ := demo_expired
  obtain ⟨tr', s', hr, -, hread, -⟩ := ticks_get_read Unit Bool tr s h
  exact ⟨_, s', hr, (hread ()).trans hissued⟩

end Progress

end StudyNotes.Workers.Ticks
