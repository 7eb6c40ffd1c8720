import StudyNotes.Workers.Consumers
import StudyNotes.Systems.Refinement

namespace StudyNotes.Workers.Tasks

open Systems.Transition Systems.Refinement Program Consumers

variable {π κ : Type}

/-- Where a task is, on its way from the producer to the consumer that does it. -/
inductive Stage (κ : Type)
  | absent
  | created (fd : Fd)
  | added (fd : Fd)
  | queued (fd : Fd)
  | batched (c : κ) (fd : Fd)
  | closing (c : κ) (fd : Fd)
  | working (c : κ)
  | done

/-- The descriptor of a task, as the kernel has it. -/
def Stage.file (t : TaskId π) : Stage κ → Option (Fd × File π)
  | .created fd => some (fd, ⟨0, false, t⟩)
  | .added fd | .closing _ fd => some (fd, ⟨0, true, t⟩)
  | .queued fd | .batched _ fd => some (fd, ⟨1, true, t⟩)
  | .absent | .working _ | .done => none

@[grind →]
theorem Stage.task_of_file {t : TaskId π} {st : Stage κ} {fd : Fd} {f : File π} (h : st.file t = some (fd, f)) :
    f.task = t := by
  cases st <;> simp [Stage.file] at h <;> rw [← h.2]

/-- Whether the producer has finished its pass. -/
def Stage.written : Stage κ → Bool
  | .absent | .created _ | .added _ => false
  | _ => true

def producing : Producer → Stage κ
  | .created fd => .created fd
  | .added fd => .added fd
  | _ => .absent

@[grind =]
theorem producing_written (p : Producer) : (producing p : Stage κ).written = false := by
  cases p <;> rfl

/-- The stage of the task that a descriptor was opened for. -/
def stageOf (stage : TaskId π → Stage κ) (files : Fd → Option (File π)) (fd : Fd) : Option (Stage κ) :=
  match files fd with
  | some f => some (stage f.task)
  | none => none

/-- Every list and variable of the program holds the tasks of one stage. -/
structure Inv (stage : TaskId π → Stage κ) (log : List (TaskId π)) (s : State π κ) : Prop where
  opened : ∀ fd f, s.files fd = some f → (stage f.task).file f.task = some (fd, f)
  file : ∀ t fd f, (stage t).file t = some (fd, f) → s.files fd = some f
  ready : ∀ fd ∈ s.ready, stageOf stage s.files fd = some (.queued fd)
  queued : ∀ t fd, stage t = .queued fd → fd ∈ s.ready
  ready_nodup : s.ready.Nodup
  batch : ∀ c, ∀ fd ∈ pending (s.consumer c), stageOf stage s.files fd = some (.batched c fd)
  batched : ∀ t c fd, stage t = .batched c fd → fd ∈ pending (s.consumer c)
  batch_nodup : ∀ c, (pending (s.consumer c)).Nodup
  closing : ∀ c fd t, toClose (s.consumer c) = some (fd, t) ↔ stage t = .closing c fd
  working : ∀ c t, toDo (s.consumer c) = some t ↔ stage t = .working c
  current : ∀ p, stage (p, s.issued p) = producing (s.producer p)
  later : ∀ p i, s.issued p < i → stage (p, i) = .absent
  earlier : ∀ p i, i < s.issued p → (stage (p, i)).written = true
  logged : ∀ t, t ∈ log ↔ stage t = .done
  log_nodup : log.Nodup

section Producers

variable [DecidableEq π] {stage : TaskId π → Stage κ} {log : List (TaskId π)} {s : State π κ} {p : π} {fd : Fd}

attribute [local grind] Stage.file Stage.written producing pending toClose toDo stageOf
attribute [local grind =] Function.update_apply

/-- A new descriptor is one that no task has. -/
theorem Inv.create (h : Inv stage log s) (hp : s.producer p = .idle) (hfree : s.files fd = none) :
    Inv (Function.update stage (p, s.issued p) (.created fd)) log { s with
      files := Function.update s.files fd (some ⟨0, false, (p, s.issued p)⟩)
      producer := Function.update s.producer p (.created fd) } := by
  have hstage : stage (p, s.issued p) = .absent := by
    rw [h.current, hp]
    rfl
  obtain ⟨hopened, hfile, hready, hqueued, hrn, hbatch, hbatched, hbn, hclosing, hworking, hcurrent, hlater, hearlier, hlog,
    hln⟩ := h
  constructor <;> grind

theorem Inv.add {f : File π} (h : Inv stage log s) (hp : s.producer p = .created fd) (hf : s.files fd = some f) :
    Inv (Function.update stage (p, s.issued p) (.added fd)) log { s with
      files := Function.update s.files fd (some { f with watched := true })
      ready := if f.counter ≠ 0 then wake s.ready fd else s.ready
      producer := Function.update s.producer p (.added fd) } := by
  have hstage : stage (p, s.issued p) = .created fd := by
    rw [h.current, hp]
    rfl
  have hfile : f = ⟨0, false, (p, s.issued p)⟩ := by
    have hsome := h.file (p, s.issued p) fd ⟨0, false, (p, s.issued p)⟩ (by rw [hstage]; rfl)
    exact Option.some.inj (hf.symm.trans hsome)
  subst hfile
  obtain ⟨hopened, hfile, hready, hqueued, hrn, hbatch, hbatched, hbn, hclosing, hworking, hcurrent, hlater, hearlier, hlog,
    hln⟩ := h
  constructor <;> grind

theorem Inv.write {f : File π} (h : Inv stage log s) (hp : s.producer p = .added fd) (hf : s.files fd = some f) :
    Inv (Function.update stage (p, s.issued p) (.queued fd)) log { s with
      files := Function.update s.files fd (some { f with counter := f.counter + 1 })
      ready := if f.watched then wake s.ready fd else s.ready
      producer := Function.update s.producer p .idle
      issued := Function.update s.issued p (s.issued p + 1) } := by
  have hstage : stage (p, s.issued p) = .added fd := by
    rw [h.current, hp]
    rfl
  have hfile : f = ⟨0, true, (p, s.issued p)⟩ := by
    have hsome := h.file (p, s.issued p) fd ⟨0, true, (p, s.issued p)⟩ (by rw [hstage]; rfl)
    exact Option.some.inj (hf.symm.trans hsome)
  subst hfile
  have hnot : fd ∉ s.ready := fun hmem => by
    have hqueued := h.ready fd hmem
    simp [stageOf, hf, hstage] at hqueued
  obtain ⟨hopened, hfile, hready, hqueued, hrn, hbatch, hbatched, hbn, hclosing, hworking, hcurrent, hlater, hearlier, hlog,
    hln⟩ := h
  rw [if_pos rfl, wake, if_neg hnot]
  constructor <;> grind

end Producers

section Consumers

variable [DecidableEq π] [DecidableEq κ] {stage : TaskId π → Stage κ} {log : List (TaskId π)} {s : State π κ} {c : κ} {fd : Fd}
variable {events : List Fd}

attribute [local grind] Stage.file Stage.written producing pending toClose toDo stageOf
attribute [local grind =] Function.update_apply

omit [DecidableEq π] in
theorem harvest_eq {files : Fd → Option (File π)} (n : Nat) {ready : List Fd} (h : ∀ fd ∈ ready, readable files fd = true) :
    harvest files n ready = (ready.take n, ready.drop n) := by
  induction ready generalizing n with
  | nil => cases n <;> rfl
  | cons fd ready ih =>
      cases n with
      | zero => rfl
      | succ n =>
          rw [harvest, if_pos (h fd List.mem_cons_self), ih n fun fd' hfd' => h fd' (List.mem_cons_of_mem _ hfd')]
          rfl

omit [DecidableEq π] [DecidableEq κ] in
theorem Inv.file_queued (h : Inv stage log s) (hmem : fd ∈ s.ready) :
    ∃ t, stage t = .queued fd ∧ s.files fd = some ⟨1, true, t⟩ := by
  have hstage := h.ready fd hmem
  cases hf : s.files fd with
  | none => simp [stageOf, hf] at hstage
  | some f =>
      have hqueued : stage f.task = .queued fd := by simpa [stageOf, hf] using hstage
      have hfile := h.opened fd f hf
      rw [hqueued, Stage.file] at hfile
      exact ⟨f.task, hqueued, by rw [← (Prod.mk.inj (Option.some.inj hfile)).2]⟩

omit [DecidableEq π] [DecidableEq κ] in
theorem Inv.file_batched (fd : Fd) (h : Inv stage log s) (hmem : fd ∈ pending (s.consumer c)) :
    ∃ t, stage t = .batched c fd ∧ s.files fd = some ⟨1, true, t⟩ := by
  have hstage := h.batch c fd hmem
  cases hf : s.files fd with
  | none => simp [stageOf, hf] at hstage
  | some f =>
      have hbatched : stage f.task = .batched c fd := by simpa [stageOf, hf] using hstage
      have hfile := h.opened fd f hf
      rw [hbatched, Stage.file] at hfile
      exact ⟨f.task, hbatched, by rw [← (Prod.mk.inj (Option.some.inj hfile)).2]⟩

/-- The tasks whose descriptors epoll_wait has returned to a consumer. -/
def handed (stage : TaskId π → Stage κ) (c : κ) (events : List Fd) (t : TaskId π) : Stage κ :=
  match stage t with
  | .queued fd => if fd ∈ events then .batched c fd else .queued fd
  | st => st

omit [DecidableEq π] in
theorem Inv.wait (h : Inv stage log s) (hc : s.consumer c = .looping []) :
    Inv (handed stage c (s.ready.take maxEventsSize)) log { s with
      ready := (harvest s.files maxEventsSize s.ready).2
      consumer := Function.update s.consumer c (.looping (harvest s.files maxEventsSize s.ready).1) } := by
  have hreadable : ∀ fd ∈ s.ready, readable s.files fd = true := by
    intro fd hfd
    obtain ⟨t, -, hf⟩ := h.file_queued hfd
    simp [readable, hf]
  rw [harvest_eq maxEventsSize hreadable]
  have hsplit := List.take_append_drop maxEventsSize s.ready
  generalize s.ready.take maxEventsSize = front at *
  generalize s.ready.drop maxEventsSize = back at *
  obtain ⟨hopened, hfile, hready, hqueued, hrn, hbatch, hbatched, hbn, hclosing, hworking, hcurrent, hlater, hearlier, hlog,
    hln⟩ := h
  constructor <;> grind [handed]

theorem Inv.read {f : File π} (h : Inv stage log s) (hc : s.consumer c = .looping (fd :: events)) (hf : s.files fd = some f) :
    Inv (Function.update stage f.task (.closing c fd)) log { s with
      files := Function.update s.files fd (some { f with counter := 0 })
      consumer := Function.update s.consumer c (.closing fd f.task events) } := by
  obtain ⟨t, hstage, hf'⟩ := h.file_batched (c := c) fd (by rw [hc]; exact List.mem_cons_self)
  obtain rfl : f = ⟨1, true, t⟩ := Option.some.inj (hf.symm.trans hf')
  obtain ⟨hopened, hfile, hready, hqueued, hrn, hbatch, hbatched, hbn, hclosing, hworking, hcurrent, hlater, hearlier, hlog,
    hln⟩ := h
  constructor <;> grind

theorem Inv.close {t : TaskId π} (h : Inv stage log s) (hc : s.consumer c = .closing fd t events) :
    Inv (Function.update stage t (.working c)) log { s with
      files := Function.update s.files fd none
      ready := s.ready.filter (fun fd' => fd' ≠ fd)
      consumer := Function.update s.consumer c (.working t events) } := by
  have hstage : stage t = .closing c fd := (h.closing c fd t).mp (by rw [hc]; rfl)
  obtain ⟨hopened, hfile, hready, hqueued, hrn, hbatch, hbatched, hbn, hclosing, hworking, hcurrent, hlater, hearlier, hlog,
    hln⟩ := h
  constructor <;> grind

theorem Inv.doTask {t : TaskId π} (h : Inv stage log s) (hc : s.consumer c = .working t events) :
    Inv (Function.update stage t .done) (log ++ [t]) { s with
      consumer := Function.update s.consumer c (.looping events)
      numDone := Function.update s.numDone c (s.numDone c + 1) } := by
  have hstage : stage t = .working c := (h.working c t).mp (by rw [hc]; rfl)
  obtain ⟨hopened, hfile, hready, hqueued, hrn, hbatch, hbatched, hbn, hclosing, hworking, hcurrent, hlater, hearlier, hlog,
    hln⟩ := h
  constructor <;> grind

end Consumers

theorem inv_start : Inv (fun _ => .absent) [] (State.init π κ) := by
  constructor <;> simp [State.init, Stage.file, pending, toClose, toDo, producing]

section Runs

variable [DecidableEq π] [DecidableEq κ] {numTask : Option Nat}

/-- No read or write of the event has failed, and a read has found one signal. -/
def Smooth : Event π κ → Prop
  | .read _ _ v => v = 1
  | .readFailed _ _ | .writeFailed _ => False
  | _ => True

omit [DecidableEq π] [DecidableEq κ] in
theorem Inv.quiet {stage : TaskId π → Stage κ} {log : List (TaskId π)} {s : State π κ} (h : Inv stage log s) :
    Inv stage (log ++ []) s := by
  rwa [List.append_nil]

theorem inv_consumer {stage : TaskId π → Stage κ} {log : List (TaskId π)} {s s' : State π κ} {e : Event π κ}
    (h : Inv stage log s) (hs : ConsumerStep true s e s') : (∃ stage', Inv stage' (log ++ doneIn e) s') ∧ Smooth e := by
  cases hs with
  | wait c hc => exact ⟨⟨_, (h.wait hc).quiet⟩, trivial⟩
  | read c fd events f hc hf hv =>
      obtain ⟨t, -, hf'⟩ := h.file_batched (c := c) fd (by rw [hc]; exact List.mem_cons_self)
      obtain rfl : f = ⟨1, true, t⟩ := Option.some.inj (hf.symm.trans hf')
      exact ⟨⟨_, (h.read hc hf).quiet⟩, rfl⟩
  | readFailed c fd events hc hr =>
      obtain ⟨t, -, hf⟩ := h.file_batched (c := c) fd (by rw [hc]; exact List.mem_cons_self)
      simp [readable, hf] at hr
  | close c fd task events hc => exact ⟨⟨_, (h.close hc).quiet⟩, trivial⟩
  | doTask c task events hc => exact ⟨⟨_, h.doTask hc⟩, trivial⟩

theorem inv_step {stage : TaskId π → Stage κ} {log : List (TaskId π)} {s s' : State π κ} {e : Event π κ}
    (h : Inv stage log s) (hs : EventfdStep numTask s e s') : (∃ stage', Inv stage' (log ++ doneIn e) s') ∧ Smooth e := by
  cases hs with
  | consumer _ _ hs => exact inv_consumer h hs
  | create p fd hp _ hfree => exact ⟨⟨_, (h.create hp hfree).quiet⟩, trivial⟩
  | add p fd f hp hf => exact ⟨⟨_, (h.add hp hf).quiet⟩, trivial⟩
  | write p fd f hp hf => exact ⟨⟨_, (h.write hp hf).quiet⟩, trivial⟩
  | writeFailed p fd hp hf =>
      have hstage : stage (p, s.issued p) = .added fd := by
        rw [h.current, hp]
        rfl
      have hsome := h.file (p, s.issued p) fd ⟨0, true, (p, s.issued p)⟩ (by rw [hstage]; rfl)
      rw [hf] at hsome
      cases hsome

theorem inv_run {tr : List (State π κ × Event π κ)} {s : State π κ} (h : Run (eventfdSystem π κ numTask) tr s) :
    (∃ stage, Inv stage (doneTasks tr) s) ∧ ∀ p ∈ tr, Smooth p.2 := by
  refine Run.induct (I := fun tr s => (∃ stage, Inv stage (doneTasks tr) s) ∧ ∀ p ∈ tr, Smooth p.2)
    (fun s hs => ?_) (fun tr s e s' _ ⟨⟨stage, hinv⟩, hsmooth⟩ hs => ?_) h
  · rw [hs]
    exact ⟨⟨_, inv_start⟩, fun p hp => absurd hp List.not_mem_nil⟩
  · obtain ⟨hinv', he⟩ := inv_step hinv hs
    refine ⟨by rwa [doneTasks, along_concat], fun p hp => ?_⟩
    rcases List.mem_append.mp hp with hp | hp
    · exact hsmooth p hp
    · rw [List.mem_singleton.mp hp]
      exact he

/-- A task on its way: its descriptor waits in the epoll set or in the array of one
consumer, or one consumer has read it. -/
inductive OnTheWay (s : State π κ) (t : TaskId π) : Prop
  | ready (fd : Fd) (h : fd ∈ s.ready) (hf : s.files fd = some ⟨1, true, t⟩)
  | returned (c : κ) (fd : Fd) (h : fd ∈ pending (s.consumer c)) (hf : s.files fd = some ⟨1, true, t⟩)
  | read (c : κ) (fd : Fd) (h : toClose (s.consumer c) = some (fd, t))
  | closed (c : κ) (h : toDo (s.consumer c) = some t)

/-- A descriptor that some thread or the epoll set will still use. -/
inductive InUse (s : State π κ) (fd : Fd) : Prop
  | created (p : π) (h : s.producer p = .created fd)
  | added (p : π) (h : s.producer p = .added fd)
  | ready (h : fd ∈ s.ready)
  | returned (c : κ) (h : fd ∈ pending (s.consumer c))
  | read (c : κ) (t : TaskId π) (h : toClose (s.consumer c) = some (fd, t))

omit [DecidableEq π] [DecidableEq κ] in
theorem Inv.onTheWay {stage : TaskId π → Stage κ} {log : List (TaskId π)} {s : State π κ} (h : Inv stage log s) {t : TaskId π}
    (ht : t.2 < s.issued t.1) (hnot : t ∉ log) : OnTheWay s t := by
  have hwritten := h.earlier t.1 t.2 ht
  have hdone : stage t ≠ .done := fun hd => hnot ((h.logged t).mpr hd)
  cases hstage : stage t with
  | absent | created fd | added fd =>
      rw [show (t.1, t.2) = t from rfl, hstage] at hwritten
      cases hwritten
  | queued fd => exact .ready fd (h.queued t fd hstage) (h.file t fd _ (by rw [hstage]; rfl))
  | batched c fd => exact .returned c fd (h.batched t c fd hstage) (h.file t fd _ (by rw [hstage]; rfl))
  | closing c fd => exact .read c fd ((h.closing c fd t).mpr hstage)
  | working c => exact .closed c ((h.working c t).mpr hstage)
  | done => exact absurd hstage hdone

omit [DecidableEq π] [DecidableEq κ] in
theorem Inv.producing_of_early {stage : TaskId π → Stage κ} {log : List (TaskId π)} {s : State π κ} (h : Inv stage log s)
    {t : TaskId π} (hearly : (stage t).written = false) (hne : stage t ≠ .absent) :
    producing (s.producer t.1) = stage t := by
  obtain ⟨p, i⟩ := t
  rcases Nat.lt_trichotomy i (s.issued p) with hlt | rfl | hlt
  · rw [h.earlier p i hlt] at hearly
    cases hearly
  · exact (h.current p).symm
  · exact absurd (h.later p i hlt) hne

omit [DecidableEq π] [DecidableEq κ] in
theorem Inv.inUse {stage : TaskId π → Stage κ} {log : List (TaskId π)} {s : State π κ} (h : Inv stage log s) {fd : Fd}
    {f : File π} (hf : s.files fd = some f) : InUse s fd := by
  have hfile := h.opened fd f hf
  have hearly := h.producing_of_early (t := f.task)
  cases hstage : stage f.task with
  | absent | working c | done =>
      rw [hstage] at hfile
      cases hfile
  | created fd' =>
      rw [hstage] at hfile hearly
      obtain rfl : fd' = fd := (Prod.mk.inj (Option.some.inj hfile)).1
      refine .created f.task.1 ?_
      have hp := hearly rfl nofun
      cases hproducer : s.producer f.task.1 <;> simp [producing, hproducer] at hp ⊢
      exact hp
  | added fd' =>
      rw [hstage] at hfile hearly
      obtain rfl : fd' = fd := (Prod.mk.inj (Option.some.inj hfile)).1
      refine .added f.task.1 ?_
      have hp := hearly rfl nofun
      cases hproducer : s.producer f.task.1 <;> simp [producing, hproducer] at hp ⊢
      exact hp
  | queued fd' =>
      rw [hstage] at hfile
      obtain rfl : fd' = fd := (Prod.mk.inj (Option.some.inj hfile)).1
      exact .ready (h.queued _ _ hstage)
  | batched c fd' =>
      rw [hstage] at hfile
      obtain rfl : fd' = fd := (Prod.mk.inj (Option.some.inj hfile)).1
      exact .returned c (h.batched _ _ _ hstage)
  | closing c fd' =>
      rw [hstage] at hfile
      obtain rfl : fd' = fd := (Prod.mk.inj (Option.some.inj hfile)).1
      exact .read c _ ((h.closing _ _ _).mpr hstage)

omit [DecidableEq π] [DecidableEq κ] in
theorem Inv.issued_of_done {stage : TaskId π → Stage κ} {log : List (TaskId π)} {s : State π κ} (h : Inv stage log s)
    {t : TaskId π} (ht : t ∈ log) : t.2 < s.issued t.1 := by
  have hdone := (h.logged t).mp ht
  by_contra hnot
  rcases Nat.lt_or_eq_of_le (Nat.le_of_not_lt hnot) with hlt | heq
  · have habsent := h.later t.1 t.2 hlt
    rw [show (t.1, t.2) = t from rfl, hdone] at habsent
    cases habsent
  · have hcurrent := h.current t.1
    rw [heq, show (t.1, t.2) = t from rfl, hdone] at hcurrent
    cases hproducer : s.producer t.1 <;> simp [producing, hproducer] at hcurrent

/-- Along every run of any number of producers and consumers no system call on a
descriptor fails, a task is done at most once and only after its producer has signalled
it, a signalled task is done or on its way, and every open descriptor is still in use. -/
theorem tasks_done_once (π κ : Type) [DecidableEq π] [DecidableEq κ] (numTask : Option Nat)
    (tr : List (State π κ × Event π κ)) (s : State π κ) (h : Run (eventfdSystem π κ numTask) tr s) :
    (∀ p ∈ tr, Smooth p.2) ∧ (doneTasks tr).Nodup ∧ (∀ t ∈ doneTasks tr, t.2 < s.issued t.1) ∧
    (∀ t : TaskId π, t.2 < s.issued t.1 → t ∉ doneTasks tr → OnTheWay s t) ∧
    ∀ fd f, s.files fd = some f → InUse s fd := by
  obtain ⟨⟨stage, hinv⟩, hsmooth⟩ := inv_run h
  exact ⟨hsmooth, hinv.log_nodup, fun t ht => hinv.issued_of_done ht, fun t ht hnot => hinv.onTheWay ht hnot,
    fun fd f hf => hinv.inUse hf⟩

/-- One producer signals its only task. -/
theorem demo_signalled : ∃ tr s, Run (eventfdSystem Unit Bool (some 1)) tr s ∧ s.issued () = 1 ∧ doneTasks tr = [] := by
  have h₁ := (Run.start (T := eventfdSystem Unit Bool (some 1)) rfl).next (.create _ () 5 rfl (by simp [State.init]) rfl)
  have h₂ := h₁.next (.add _ () 5 _ rfl rfl)
  have h₃ := h₂.next (.write _ () 5 _ rfl rfl)
  exact ⟨_, _, h₃, rfl, rfl⟩

theorem tasks_done_once_signalled : ∃ tr s, Run (eventfdSystem Unit Bool (some 1)) tr s ∧ OnTheWay s ((), 0) := by
  obtain ⟨tr, s, h, hissued, hnone⟩ := demo_signalled
  obtain ⟨-, -, -, hway, -⟩ := tasks_done_once Unit Bool (some 1) tr s h
  exact ⟨tr, s, h, hway ((), 0) (by rw [hissued]; decide) (by rw [hnone]; exact List.not_mem_nil)⟩

end Runs

section Progress

variable [DecidableEq π] [DecidableEq κ]

theorem exists_own_step [Fintype κ] [Nonempty κ] (numTask : Option Nat) {stage : TaskId π → Stage κ} {log : List (TaskId π)} {s : State π κ}
    (h : Inv stage log s) (hidle : ¬Idle s) :
    ∃ e s', EventfdStep numTask s e s' ∧ Own e ∧ s'.issued = s.issued ∧ work s' < work s := by
  by_cases hall : ∀ c, s.consumer c = .looping []
  · -- everybody is at epoll_wait, and something is ready
    obtain ⟨c⟩ := ‹Nonempty κ›
    have hready : s.ready ≠ [] := fun hnil => hidle ⟨hnil, hall⟩
    have hreadable : ∀ fd ∈ s.ready, readable s.files fd = true := by
      intro fd hfd
      obtain ⟨t, -, hf⟩ := h.file_queued hfd
      simp [readable, hf]
    refine ⟨_, _, .consumer _ _ _ (.wait s c (hall c)), trivial, rfl,
      work_lt c (.looping (harvest s.files maxEventsSize s.ready).1) (harvest s.files maxEventsSize s.ready).2 rfl rfl ?_⟩
    rw [harvest_eq _ hreadable, hall c, consumerWork, consumerWork]
    have hpos := List.length_pos_iff.mpr hready
    rw [List.length_take, List.length_drop, maxEventsSize, List.length_nil]
    omega
  · obtain ⟨c, hc⟩ := not_forall.mp hall
    cases hconsumer : s.consumer c with
    | looping events =>
        cases events with
        | nil => exact absurd hconsumer hc
        | cons fd events =>
            obtain ⟨t, -, hf⟩ := h.file_batched (c := c) fd (by rw [hconsumer]; exact List.mem_cons_self)
            refine ⟨_, _, .consumer _ _ _ (.read s c fd events _ hconsumer hf Nat.one_ne_zero), trivial, rfl,
              work_lt c (.closing fd t events) s.ready rfl rfl ?_⟩
            rw [hconsumer, consumerWork, consumerWork, List.length_cons]
            omega
    | closing fd task events =>
        refine ⟨_, _, .consumer _ _ _ (.close s c fd task events hconsumer), trivial, rfl,
          work_lt c (.working task events) (s.ready.filter (fun fd' => fd' ≠ fd)) rfl rfl ?_⟩
        rw [hconsumer, consumerWork, consumerWork]
        have hle := List.length_filter_le (fun fd' => decide (fd' ≠ fd)) s.ready
        omega
    | working task events =>
        refine ⟨_, _, .consumer _ _ _ (.doTask s c task events hconsumer), trivial, rfl,
          work_lt c (.looping events) s.ready rfl rfl ?_⟩
        rw [hconsumer, consumerWork, consumerWork]
        omega

/-- From every state of a run the consumers alone can get all signalled tasks done, and
no descriptor is then left open but those the producers are making. -/
theorem tasks_get_done (π κ : Type) [DecidableEq π] [DecidableEq κ] [Fintype κ] [Nonempty κ] (numTask : Option Nat)
    (tr : List (State π κ × Event π κ)) (s : State π κ) (h : Run (eventfdSystem π κ numTask) tr s) :
    ∃ tr' s', Run (eventfdSystem π κ numTask) (tr ++ tr') s' ∧ (∀ p ∈ tr', Own p.2) ∧ s'.issued = s.issued ∧
      (∀ t : TaskId π, t ∈ doneTasks (tr ++ tr') ↔ t.2 < s.issued t.1) ∧
      ∀ fd f, s'.files fd = some f → ∃ p, s'.producer p = .created fd ∨ s'.producer p = .added fd := by
  have hstep (u : State π κ) (hr : Reachable (eventfdSystem π κ numTask) u) (hu : u.issued = s.issued) (hg : ¬Idle u) :
      ∃ e u', EventfdStep numTask u e u' ∧ Own e ∧ u'.issued = s.issued ∧ work u' < work u := by
    obtain ⟨tr, hr⟩ := hr
    obtain ⟨⟨stage, hinv⟩, -⟩ := inv_run hr
    obtain ⟨e, u', hs, hown, hissued, hlt⟩ := exists_own_step numTask hinv hg
    exact ⟨e, u', hs, hown, hissued.trans hu, hlt⟩
  obtain ⟨tr', s', hr, hissued, ⟨hready, hall⟩, hown⟩ := exists_goal work hstep h rfl
  obtain ⟨⟨stage, hinv⟩, -⟩ := inv_run hr
  refine ⟨tr', s', hr, hown, hissued, fun t => ⟨fun ht => hissued ▸ hinv.issued_of_done ht, fun ht => ?_⟩, fun fd f hf => ?_⟩
  · by_contra hnot
    cases hinv.onTheWay (hissued ▸ ht) hnot with
    | ready fd hmem => exact absurd (hready ▸ hmem) List.not_mem_nil
    | returned c fd hmem => exact absurd (hall c ▸ hmem) List.not_mem_nil
    | read c fd hread => exact absurd (hall c ▸ hread) nofun
    | closed c hclosed => exact absurd (hall c ▸ hclosed) nofun
  · cases hinv.inUse hf with
    | created p hp => exact ⟨p, .inl hp⟩
    | added p hp => exact ⟨p, .inr hp⟩
    | ready hmem => exact absurd (hready ▸ hmem) List.not_mem_nil
    | returned c hmem => exact absurd (hall c ▸ hmem) List.not_mem_nil
    | read c t hread => exact absurd (hall c ▸ hread) nofun

theorem tasks_get_done_signalled : ∃ tr s, Run (eventfdSystem Unit Bool (some 1)) tr s ∧ ((), 0) ∈ doneTasks tr := by
  obtain ⟨tr, s, h, hissued, -⟩ := demo_signalled
  obtain ⟨tr', s', hr, -, -, hdone, -⟩ := tasks_get_done Unit Bool (some 1) tr s h
  exact ⟨_, s', hr, (hdone ((), 0)).mpr (by rw [hissued]; decide)⟩

end Progress

end StudyNotes.Workers.Tasks
