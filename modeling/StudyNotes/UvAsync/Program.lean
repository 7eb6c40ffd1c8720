import StudyNotes.Systems.Transition

namespace StudyNotes.UvAsync.Program

open Systems.Transition

/-- Where a producer is in DoAsync: before the locked section, or between the
unlock and uv_async_send. -/
inductive Point
  | ready
  | unlocked
deriving DecidableEq, Repr

/-- The variable k of producer_thread and the point in the current call. -/
structure Producer where
  k : Nat
  point : Point

/-- The loop thread: outside on_async_cb, at its start, after the swap, and after
the addition to total_consumer. The last two own tmp_data. -/
inductive Loop
  | idle
  | entered
  | swapped (tmpData : List Int64)
  | counted (tmpData : List Int64)

structure State (ι : Type) where
  globalVec : List Int64
  pending : Bool
  totalConsumer : Int64
  producers : ι → Producer
  loop : Loop

inductive Event (ι : Type)
  | push (i : ι)
  | send (i : ι)
  | callback
  | swap
  | count
  | finish

variable {ι : Type} [DecidableEq ι]

def State.init (ι : Type) : State ι where
  globalVec := []
  pending := false
  totalConsumer := 0
  producers _ := ⟨0, .ready⟩
  loop := .idle

/-- One step of some thread. A locked section is one step, as is uv_async_send,
and the pending flag is cleared just before the callback runs. -/
inductive Step (testCount : Nat) : State ι → Event ι → State ι → Prop
  | push (s) (i : ι) (hk : (s.producers i).k < testCount) (hp : (s.producers i).point = .ready) :
      Step testCount s (.push i)
        { s with
          globalVec := s.globalVec ++ [Int64.ofNat (s.producers i).k]
          producers := Function.update s.producers i ⟨(s.producers i).k, .unlocked⟩ }
  | send (s) (i : ι) (hp : (s.producers i).point = .unlocked) :
      Step testCount s (.send i)
        { s with
          pending := true
          producers := Function.update s.producers i ⟨(s.producers i).k + 1, .ready⟩ }
  | callback (s) (hp : s.pending = true) (hl : s.loop = .idle) :
      Step testCount s .callback { s with pending := false, loop := .entered }
  | swap (s) (hl : s.loop = .entered) :
      Step testCount s .swap { s with globalVec := [], loop := .swapped s.globalVec }
  | count (s) (tmpData : List Int64) (hl : s.loop = .swapped tmpData) :
      Step testCount s .count
        { s with
          totalConsumer := s.totalConsumer + Int64.ofNat tmpData.length
          loop := .counted tmpData }
  | finish (s) (tmpData : List Int64) (hl : s.loop = .counted tmpData) :
      Step testCount s .finish { s with loop := .idle }

def system (ι : Type) [DecidableEq ι] (testCount : Nat) : System (State ι) (Event ι) where
  init s := s = State.init ι
  step := Step testCount

end StudyNotes.UvAsync.Program
