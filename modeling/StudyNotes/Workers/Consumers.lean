import StudyNotes.Workers.Program
import StudyNotes.Systems.Shares

namespace StudyNotes.Workers.Consumers

open Systems.Transition Systems.Shares Program

variable {π κ : Type}

def pending : Consumer π → List Fd
  | .looping events | .closing _ _ events | .working _ events => events

def toClose : Consumer π → Option (Fd × TaskId π)
  | .closing fd task _ => some (fd, task)
  | _ => none

def toDo : Consumer π → Option (TaskId π)
  | .working task _ => some task
  | _ => none

def doneIn : Event π κ → List (TaskId π)
  | .doTask _ task => [task]
  | _ => []

/-- The tasks in the order in which they were done. -/
def doneTasks (tr : List (State π κ × Event π κ)) : List (TaskId π) := along doneIn tr

/-- All consumers are at epoll_wait and nothing is ready. -/
def Idle (s : State π κ) : Prop := s.ready = [] ∧ ∀ c, s.consumer c = .looping []

/-- The events of the consumers. -/
def Own : Event π κ → Prop
  | .wait _ | .read _ _ _ | .readFailed _ _ | .close _ | .doTask _ _ => True
  | _ => False

def consumerWork : Consumer π → Nat
  | .looping events => 4 * events.length
  | .closing _ _ events => 4 * events.length + 3
  | .working _ events => 4 * events.length + 2

def work [Fintype κ] (s : State π κ) : Nat := 5 * s.ready.length + ∑ c, consumerWork (s.consumer c)

theorem work_lt [DecidableEq κ] [Fintype κ] {s : State π κ} (c : κ) (x : Consumer π) (ready : List Fd) {s' : State π κ}
    (hready : s'.ready = ready) (hconsumer : s'.consumer = Function.update s.consumer c x)
    (hlt : 5 * ready.length + consumerWork x < 5 * s.ready.length + consumerWork (s.consumer c)) : work s' < work s := by
  have hmoved := sum_moved (f := fun d => consumerWork (s.consumer d)) (g := fun d => consumerWork (s'.consumer d)) c
    (fun d hd => by rw [hconsumer, Function.update_of_ne hd])
  rw [hconsumer] at hmoved
  rw [Function.update_self] at hmoved
  rw [work, work, hready, hconsumer]
  omega

end StudyNotes.Workers.Consumers
