import StudyNotes.Cluster.Program

namespace StudyNotes.Cluster.Handlers

open Systems.Interaction Program

inductive Outcome
  | returned
  | threw
deriving DecidableEq

structure Notice where
  handler : EventHandler
  isMaster : Bool
deriving DecidableEq

abbrev Loop := Prog Notice fun _ => Outcome

/-- The loop of triggerMasterEvent from the iterator on, cut off after a number of rounds.
The iterator moves on inside the try block, after the call. -/
def notifyFrom (isMaster : Bool) : Nat → List EventHandler → Loop Unit
  | _, [] => return ()
  | 0, _ :: _ => .diverge
  | rounds + 1, handler :: handlers => do
      match ← request ⟨handler, isMaster⟩ with
      | .returned => notifyFrom isMaster rounds handlers
      | .threw => notifyFrom isMaster rounds (handler :: handlers)

def triggerMasterEvent (rounds : Nat) (m : Manager) (isMaster : Bool) : Loop Unit :=
  notifyFrom isMaster rounds (m .eventHandlers)

/-- Where no handler throws, the loop is the one of the cluster model. -/
theorem notifyFrom_returned (isMaster : Bool) (handlers : List EventHandler) (rounds : Nat)
    (h : handlers.length ≤ rounds) :
    (notifyFrom isMaster rounds handlers).interpret
      (fun q => do onMasterEvent q.handler q.isMaster; return .returned) = callHandlers isMaster handlers := by
  induction handlers generalizing rounds with
  | nil => cases rounds <;> rfl
  | cons handler handlers ih =>
      obtain _ | rounds := rounds
      · exact absurd h (Nat.not_succ_le_zero _)
      · have hrest := ih rounds (Nat.le_of_succ_le_succ h)
        exact congrArg (Prog.ask (Request.onMasterEvent handler isMaster)) (funext fun _ => hrest)

def answering (outcomes : Nat → Outcome) (calls : List Notice) (q : Notice) : Outcome × List Notice :=
  (outcomes calls.length, calls ++ [q])

def onceEach (isMaster : Bool) (handlers : List EventHandler) : List Notice :=
  handlers.map fun handler => ⟨handler, isMaster⟩

section loop

variable {outcomes : Nat → Outcome} {isMaster : Bool} {handler : EventHandler} {handlers : List EventHandler}
  {rounds : Nat} {calls calls' : List Notice}

theorem run_nil : (notifyFrom isMaster rounds []).run (answering outcomes) calls = some ((), calls) := by
  cases rounds <;> rfl

theorem run_returned (h : outcomes calls.length = .returned) :
    (notifyFrom isMaster (rounds + 1) (handler :: handlers)).run (answering outcomes) calls =
      (notifyFrom isMaster rounds handlers).run (answering outcomes) (calls ++ [⟨handler, isMaster⟩]) := by
  simp only [notifyFrom, request, bind, Prog.bind, Prog.run, answering, h]

theorem run_threw (h : outcomes calls.length = .threw) :
    (notifyFrom isMaster (rounds + 1) (handler :: handlers)).run (answering outcomes) calls =
      (notifyFrom isMaster rounds (handler :: handlers)).run (answering outcomes)
        (calls ++ [⟨handler, isMaster⟩]) := by
  simp only [notifyFrom, request, bind, Prog.bind, Prog.run, answering, h]

theorem length_concat_add (q : Notice) (n : Nat) : (calls ++ [q]).length + n = calls.length + (n + 1) := by
  rw [List.length_append, List.length_singleton, Nat.add_assoc, Nat.add_comm 1 n]

theorem length_le_of_run (h : (notifyFrom isMaster rounds handlers).run (answering outcomes) calls = some ((), calls')) :
    calls.length + handlers.length ≤ calls'.length := by
  induction rounds generalizing handlers calls with
  | zero =>
      cases handlers with
      | nil =>
          cases h
          exact Nat.le_refl _
      | cons handler handlers => cases h
  | succ rounds ih =>
      cases handlers with
      | nil =>
          cases h
          exact Nat.le_refl _
      | cons handler handlers =>
          cases hout : outcomes calls.length with
          | returned =>
              rw [run_returned hout] at h
              rw [List.length_cons, ← length_concat_add]
              exact ih h
          | threw =>
              rw [run_threw hout] at h
              have hlen := ih h
              rw [length_concat_add] at hlen
              exact Nat.le_of_succ_le hlen

theorem run_threw_forever (h : ∀ k, outcomes k = .threw) :
    (notifyFrom isMaster rounds (handler :: handlers)).run (answering outcomes) calls = none := by
  induction rounds generalizing calls with
  | zero => rfl
  | succ rounds ih =>
      rw [run_threw (h _)]
      exact ih

theorem run_of_returned (hrounds : handlers.length ≤ rounds)
    (h : ∀ k < handlers.length, outcomes (calls.length + k) = .returned) :
    (notifyFrom isMaster rounds handlers).run (answering outcomes) calls =
      some ((), calls ++ onceEach isMaster handlers) := by
  induction handlers generalizing rounds calls with
  | nil => simp only [run_nil, onceEach, List.map_nil, List.append_nil]
  | cons handler handlers ih =>
      obtain _ | rounds := rounds
      · exact absurd hrounds (Nat.not_succ_le_zero _)
      · rw [run_returned (h 0 (Nat.succ_pos _)), ih (Nat.le_of_succ_le_succ hrounds)]
        · simp only [onceEach, List.map_cons, List.append_assoc, List.cons_append, List.nil_append]
        · intro k hk
          rw [length_concat_add]
          exact h (k + 1) (Nat.succ_lt_succ hk)

theorem returned_of_run
    (h : (notifyFrom isMaster rounds handlers).run (answering outcomes) calls = some ((), calls'))
    (hlen : calls'.length = calls.length + handlers.length) (k : Nat) (hk : k < handlers.length) :
    outcomes (calls.length + k) = .returned := by
  induction handlers generalizing rounds calls k with
  | nil => exact absurd hk (Nat.not_lt_zero _)
  | cons handler handlers ih =>
      obtain _ | rounds := rounds
      · cases h
      · cases hout : outcomes calls.length with
        | threw =>
            rw [run_threw hout] at h
            have hmore := length_le_of_run h
            rw [length_concat_add, hlen] at hmore
            exact absurd hmore (Nat.not_succ_le_self _)
        | returned =>
            rw [run_returned hout] at h
            obtain _ | k := k
            · exact hout
            · rw [← length_concat_add ⟨handler, isMaster⟩]
              refine ih h ?_ k (Nat.lt_of_succ_lt_succ hk)
              rw [hlen, length_concat_add, List.length_cons]

end loop

/-- The loop ends with one call on each handler exactly when none of these calls throws. -/
theorem once_each_iff (m : Manager) (isMaster : Bool) (outcomes : Nat → Outcome) :
    (∃ enough, ∀ rounds ≥ enough, (triggerMasterEvent rounds m isMaster).run (answering outcomes) [] =
      some ((), onceEach isMaster (m .eventHandlers))) ↔
    ∀ k < (m .eventHandlers).length, outcomes k = .returned := by
  constructor
  · rintro ⟨enough, h⟩ k hk
    have := returned_of_run (h enough (Nat.le_refl _)) (by simp [onceEach]) k hk
    rwa [List.length_nil, Nat.zero_add] at this
  · intro h
    refine ⟨(m .eventHandlers).length, fun rounds hrounds => ?_⟩
    refine run_of_returned hrounds fun k hk => ?_
    rw [List.length_nil, Nat.zero_add]
    exact h k hk

def oneHandler : Manager := Function.update Manager.init .eventHandlers [7]

/-- A handler that throws once is called twice, and one that always throws is called for ever. -/
theorem called_again :
    (∃ enough, ∀ rounds ≥ enough,
      (triggerMasterEvent rounds oneHandler true).run (answering fun k => if k = 0 then .threw else .returned) [] =
        some ((), [⟨7, true⟩, ⟨7, true⟩])) ∧
    ∀ rounds, (triggerMasterEvent rounds oneHandler true).run (answering fun _ => .threw) [] = none := by
  refine ⟨⟨2, fun rounds hrounds => ?_⟩, fun rounds => run_threw_forever fun _ => rfl⟩
  obtain ⟨extra, rfl⟩ := Nat.exists_eq_add_of_le' hrounds
  exact (run_threw rfl).trans ((run_returned rfl).trans run_nil)

end StudyNotes.Cluster.Handlers
