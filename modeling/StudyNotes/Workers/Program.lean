import StudyNotes.Systems.Transition
import Mathlib.Logic.Function.Basic

namespace StudyNotes.Workers.Program

open Systems.Transition

abbrev Fd := Nat

/-- A task is told by the producer that makes it and the number of its pass. -/
abbrev TaskId (π : Type) := π × Nat

/-- What the kernel has for a descriptor: the counter of the eventfd or timerfd, whether
the epoll set has it, and what it was opened for. -/
structure File (π : Type) where
  counter : Nat
  watched : Bool
  task : TaskId π
deriving DecidableEq

/-- A producer before, between and after its system calls. Only a timer stays armed. -/
inductive Producer
  | idle
  | created (fd : Fd)
  | added (fd : Fd)
  | armed (fd : Fd)
deriving DecidableEq

/-- A consumer in its inner loop with the events that are left, where none is left at the
call of epoll_wait, before close, and before do_task. -/
inductive Consumer (π : Type)
  | looping (events : List Fd)
  | closing (fd : Fd) (task : TaskId π) (events : List Fd)
  | working (task : TaskId π) (events : List Fd)
deriving DecidableEq

/-- What the threads and the kernel have. The source counts num_done in an int, of which this is
the value as long as it does not overflow. -/
structure State (π κ : Type) where
  files : Fd → Option (File π)
  ready : List Fd
  producer : π → Producer
  issued : π → Nat
  consumer : κ → Consumer π
  numDone : κ → Nat

def maxEventsSize : Nat := 1024

inductive Event (π κ : Type)
  | create (p : π) (fd : Fd)
  | add (p : π)
  | write (p : π)
  | writeFailed (p : π)
  | settime (p : π)
  | expire (p : π)
  | wait (c : κ)
  | read (c : κ) (task : TaskId π) (v : Nat)
  | readFailed (c : κ) (fd : Fd)
  | close (c : κ)
  | doTask (c : κ) (task : TaskId π)

section Kernel

variable {π : Type}

def readable (files : Fd → Option (File π)) (fd : Fd) : Bool :=
  match files fd with
  | some f => f.counter ≠ 0
  | none => false

/-- What epoll_wait returns, and what stays in the ready list. A descriptor leaves the
list when it is looked at, and is returned if it can be read. -/
def harvest (files : Fd → Option (File π)) : Nat → List Fd → List Fd × List Fd
  | _, [] => ([], [])
  | 0, ready => ([], ready)
  | n + 1, fd :: ready =>
      if readable files fd then
        let (events, rest) := harvest files n ready
        (fd :: events, rest)
      else harvest files (n + 1) ready

/-- The wakeup of an event on a descriptor of the epoll set. -/
def wake (ready : List Fd) (fd : Fd) : List Fd := if fd ∈ ready then ready else ready ++ [fd]

end Kernel

variable {π κ : Type} [DecidableEq π] [DecidableEq κ]

/-- The loop of both programs. The eventfd program closes what it has read. -/
inductive ConsumerStep (closes : Bool) : State π κ → Event π κ → State π κ → Prop
  | wait (s) (c) (h : s.consumer c = .looping []) :
      ConsumerStep closes s (.wait c) { s with
        ready := (harvest s.files maxEventsSize s.ready).2
        consumer := Function.update s.consumer c (.looping (harvest s.files maxEventsSize s.ready).1) }
  | read (s) (c) (fd) (events) (f) (h : s.consumer c = .looping (fd :: events)) (hf : s.files fd = some f)
      (hv : f.counter ≠ 0) :
      ConsumerStep closes s (.read c f.task f.counter) { s with
        files := Function.update s.files fd (some { f with counter := 0 })
        consumer := Function.update s.consumer c
          (if closes then .closing fd f.task events else .working f.task events) }
  | readFailed (s) (c) (fd) (events) (h : s.consumer c = .looping (fd :: events)) (hr : readable s.files fd = false) :
      ConsumerStep closes s (.readFailed c fd) { s with consumer := Function.update s.consumer c (.looping events) }
  | close (s) (c) (fd) (task) (events) (h : s.consumer c = .closing fd task events) :
      ConsumerStep closes s (.close c) { s with
        files := Function.update s.files fd none
        ready := s.ready.filter (fun fd' => fd' ≠ fd)
        consumer := Function.update s.consumer c (.working task events) }
  | doTask (s) (c) (task) (events) (h : s.consumer c = .working task events) :
      ConsumerStep closes s (.doTask c task) { s with
        consumer := Function.update s.consumer c (.looping events)
        numDone := Function.update s.numDone c (s.numDone c + 1) }

/-- The producers of the eventfd program. With no limit this is producer_routine, with
a limit producer_routine_spike. -/
inductive EventfdStep (numTask : Option Nat) : State π κ → Event π κ → State π κ → Prop
  | consumer (s e s') (h : ConsumerStep true s e s') : EventfdStep numTask s e s'
  | create (s) (p) (fd) (h : s.producer p = .idle) (hlimit : ∀ n ∈ numTask, s.issued p < n) (hfree : s.files fd = none) :
      EventfdStep numTask s (.create p fd) { s with
        files := Function.update s.files fd (some ⟨0, false, (p, s.issued p)⟩)
        producer := Function.update s.producer p (.created fd) }
  | add (s) (p) (fd) (f) (h : s.producer p = .created fd) (hf : s.files fd = some f) :
      EventfdStep numTask s (.add p) { s with
        files := Function.update s.files fd (some { f with watched := true })
        ready := if f.counter ≠ 0 then wake s.ready fd else s.ready
        producer := Function.update s.producer p (.added fd) }
  | write (s) (p) (fd) (f) (h : s.producer p = .added fd) (hf : s.files fd = some f) :
      EventfdStep numTask s (.write p) { s with
        files := Function.update s.files fd (some { f with counter := f.counter + 1 })
        ready := if f.watched then wake s.ready fd else s.ready
        producer := Function.update s.producer p .idle
        issued := Function.update s.issued p (s.issued p + 1) }
  | writeFailed (s) (p) (fd) (h : s.producer p = .added fd) (hf : s.files fd = none) :
      EventfdStep numTask s (.writeFailed p) { s with
        producer := Function.update s.producer p .idle
        issued := Function.update s.issued p (s.issued p + 1) }

/-- The producers of the timerfd program, and the timers, which may expire at any time
once they are set. -/
inductive TimerfdStep : State π κ → Event π κ → State π κ → Prop
  | consumer (s e s') (h : ConsumerStep false s e s') : TimerfdStep s e s'
  | create (s) (p) (fd) (h : s.producer p = .idle) (hfree : s.files fd = none) :
      TimerfdStep s (.create p fd) { s with
        files := Function.update s.files fd (some ⟨0, false, (p, 0)⟩)
        producer := Function.update s.producer p (.created fd) }
  | add (s) (p) (fd) (f) (h : s.producer p = .created fd) (hf : s.files fd = some f) :
      TimerfdStep s (.add p) { s with
        files := Function.update s.files fd (some { f with watched := true })
        ready := if f.counter ≠ 0 then wake s.ready fd else s.ready
        producer := Function.update s.producer p (.added fd) }
  | settime (s) (p) (fd) (h : s.producer p = .added fd) :
      TimerfdStep s (.settime p) { s with producer := Function.update s.producer p (.armed fd) }
  | expire (s) (p) (fd) (f) (h : s.producer p = .armed fd) (hf : s.files fd = some f) :
      TimerfdStep s (.expire p) { s with
        files := Function.update s.files fd (some { f with counter := f.counter + 1 })
        ready := if f.watched then wake s.ready fd else s.ready
        issued := Function.update s.issued p (s.issued p + 1) }

def State.init (π κ : Type) : State π κ where
  files _ := none
  ready := []
  producer _ := .idle
  issued _ := 0
  consumer _ := .looping []
  numDone _ := 0

def eventfdSystem (π κ : Type) [DecidableEq π] [DecidableEq κ] (numTask : Option Nat) : System (State π κ) (Event π κ) where
  init s := s = State.init π κ
  step := EventfdStep numTask

def timerfdSystem (π κ : Type) [DecidableEq π] [DecidableEq κ] : System (State π κ) (Event π κ) where
  init s := s = State.init π κ
  step := TimerfdStep

end StudyNotes.Workers.Program
