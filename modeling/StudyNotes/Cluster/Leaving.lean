import StudyNotes.Cluster.Lifecycle

namespace StudyNotes.Cluster.Leaving

open Systems.Transition Systems.Interaction Program Lifecycle

/-- A manager that getMode reports as a leader or follower has a handle and has not left the cluster. -/
def Member (m : Manager) : Prop :=
  ∀ mode, Exec anyReply (m, []) getMode mode (m, []) → mode = .leader ∨ mode = .follower →
    m .zkhandlePtr ≠ none ∧ m .runState ≠ .stopped ∧ m .runState ≠ .unKnown

theorem getMode_iff {m : Manager} {mode : NodeMode} :
    Exec anyReply (m, []) getMode mode (m, []) ↔ mode = m .nodeMode := by
  constructor
  · intro h
    have hwp : anyReply.wp getMode (fun mode _ => mode = m .nodeMode) (m, []) := by simp [getMode]
    exact h.of_wp hwp
  · rintro rfl
    exact .ask ⟨⟨rfl, rfl⟩, rfl⟩ (.done _ _)

theorem member_iff {m : Manager} : Member m ↔ (m .nodeMode = .leader ∨ m .nodeMode = .follower →
    m .zkhandlePtr ≠ none ∧ m .runState ≠ .stopped ∧ m .runState ≠ .unKnown) := by
  simp only [Member, getMode_iff, forall_eq]

/-- The library returned a first child to the callback of a child event. -/
def ShowsChild (h : Handle) (path : String) (log : List (Sigma Reply)) : Prop :=
  ∃ (first : String) (rest : List String), ⟨.zooGetChildren (some h) path, (zok, first :: rest)⟩ ∈ log

/-- A manager leaves only in the mode Other, and hears of children only while active. -/
def Orderly (m : Manager) (e : Return) : Prop :=
  match e.call with
  | .stop | .deInitialize => m .nodeMode = .other
  | .watcher _ h eventType _ path => eventType = zooChildEvent → ShowsChild h path e.log → Active (m .runState)
  | .initializeManager _ _ _ _ | .start | .register _ => True

theorem member_of_other {m : Manager} (h : m .nodeMode = .other) : Member m := by
  simp [member_iff, h]

theorem member_active {m : Manager} (hl : Live m) (ha : Active (m .runState)) : Member m :=
  member_iff.2 fun _ => ⟨(hl.active ha).1, active_iff.1 ha⟩

theorem Member.other_or_active {m : Manager} (h : Member m) : m .nodeMode = .other ∨ Active (m .runState) := by
  cases hm : m .nodeMode with
  | other => exact Or.inl rfl
  | leader | follower =>
      exact Or.inr (active_iff.2 (member_iff.1 h (by simp [hm])).2)

theorem member_closed_iff {m : Manager} {state : State} (hs : state = .stopped ∨ state = .unKnown) :
    Member (closed m state) ↔ m .nodeMode = .other := by
  constructor
  · intro h
    rcases h.other_or_active with ho | ha
    · exact ho
    · rcases hs with rfl | rfl <;> simp [Active, closed] at ha
  · intro ho
    exact member_of_other ho

theorem childMode_ne (m : Manager) (first : String) : childMode m first ≠ .other := by
  rw [childMode]
  split <;> simp

theorem member_child_iff {m : Manager} (hl : Live m) (first : String) :
    Member (Function.update m .nodeMode (childMode m first)) ↔ Active (m .runState) := by
  constructor
  · intro h
    rcases h.other_or_active with ho | ha
    · exact absurd ho (childMode_ne m first)
    · exact ha
  · intro ha
    exact member_active ⟨hl.active, hl.running⟩ ha

theorem member_step {m m' : Manager} {e : Return} (hl : Live m) (h : Member m) (hs : system.step m e m') :
    Member m' ↔ Orderly m e := by
  obtain ⟨call, log, res⟩ := e
  have hl' : Live m' := Exec.of_wp hs (live_call call (m, [])) hl
  cases call with
  | initializeManager hosts path node timeout =>
      refine iff_of_true ?_ trivial
      rcases Exec.of_wp hs (initializeManager_spec hosts path node timeout _) with hm | ⟨-, -, -, hd, hm⟩
      · obtain rfl : m' = m := hm
        exact h
      · obtain rfl : m' = _ := hm
        exact member_active hl' (Or.inl rfl)
  | start =>
      refine iff_of_true ?_ trivial
      rcases Exec.of_wp hs (start_spec _) with hm | ⟨-, -, hm⟩
      · obtain rfl : m' = m := hm
        exact h
      · obtain rfl : m' = _ := hm
        exact member_active hl' (Or.inr (Or.inl rfl))
  | register handler =>
      refine iff_of_true ?_ trivial
      have hm := Exec.of_wp hs (register_spec handler _)
      obtain rfl : m' = _ := hm
      rw [member_iff] at h ⊢
      exact h
  | stop =>
      have hm := Exec.of_wp hs (leave_spec .stopped _)
      obtain rfl : m' = _ := hm
      exact member_closed_iff (Or.inl rfl)
  | deInitialize =>
      have hm := Exec.of_wp hs (leave_spec .unKnown _)
      obtain rfl : m' = _ := hm
      exact member_closed_iff (Or.inr rfl)
  | watcher rounds hd eventType state path =>
      rcases Exec.of_wp hs (watcher_spec rounds hd eventType state path _) with
        ⟨htype, -, hm⟩ | ⟨htype, r, hlog, hm⟩ | ⟨htype, hw⟩
      · refine iff_of_true ?_ fun hchild => absurd (htype.symm.trans hchild) (by decide)
        rcases hm with hm | hm
        · obtain rfl : m' = m := hm
          exact h
        · exact member_of_other hm
      · obtain rfl : log = [⟨.zooGetChildren (some hd) path, r⟩] := hlog
        rcases hm with ⟨hm, hnone⟩ | ⟨first, rest, rfl, hm⟩
        · obtain rfl : m' = m := hm
          refine iff_of_true h fun _ => ?_
          rintro ⟨first, rest, hmem⟩
          cases List.mem_singleton.1 hmem
          cases hnone rfl
        · obtain rfl : m' = _ := hm
          refine (member_child_iff hl first).trans ⟨fun ha _ _ => ha, fun ho => ?_⟩
          exact ho htype ⟨first, rest, List.mem_singleton.2 rfl⟩
      · obtain rfl : m' = m := congrArg Prod.fst hw
        exact iff_of_true h fun hchild => absurd hchild htype

/-- In a run every state is that of a member if and only if every call and callback
of the run was orderly. -/
theorem members_iff (tr : List (Manager × Return)) (m : Manager) (h : Run system tr m) :
    ((∀ p ∈ tr, Member p.1) ∧ Member m) ↔ ∀ p ∈ tr, Orderly p.1 p.2 := by
  induction h with
  | start hinit =>
      obtain rfl : _ = Manager.init := hinit
      exact iff_of_true ⟨nofun, member_of_other rfl⟩ nofun
  | next hr hs ih =>
      simp only [List.forall_mem_append, List.forall_mem_singleton]
      constructor
      · rintro ⟨⟨htr, hm⟩, hm'⟩
        exact ⟨ih.1 ⟨htr, hm⟩, (member_step (live_run hr) hm hs).1 hm'⟩
      · rintro ⟨htr, ho⟩
        obtain ⟨htr', hm⟩ := ih.2 htr
        exact ⟨⟨htr', hm⟩, (member_step (live_run hr) hm hs).2 ho⟩

theorem orderly_next {tr : List (Manager × Return)} {m : Manager} {e : Return} (h : ∀ p ∈ tr, Orderly p.1 p.2)
    (he : Orderly m e) : ∀ p ∈ tr ++ [(m, e)], Orderly p.1 p.2 :=
  List.forall_mem_append.2 ⟨h, List.forall_mem_singleton.2 he⟩

/-- A manager that is initialized and started, and is then the first child. -/
theorem members_leader : ∃ tr m, Run system tr m ∧ m .nodeMode = .leader ∧ (∀ p ∈ tr, Member p.1) ∧ Member m := by
  have h₁ : Run system _ _ := .next (.start rfl) (step_obliging [] (.initializeManager "zk" "/adc" "a" 10) rfl)
  have h₂ : Run system _ _ := h₁.next (step_obliging [] .start rfl)
  have h₃ : Run system _ _ := h₂.next (step_obliging ["a"] (.watcher 1 1 zooChildEvent 3 "/adc") rfl)
  refine ⟨_, _, h₃, rfl, (members_iff _ _ h₃).2 ?_⟩
  exact orderly_next (orderly_next (orderly_next nofun trivial) trivial) fun _ _ => Or.inr (Or.inl rfl)

/-- A leader that stops is still leader, to its user too. -/
theorem stopped_leader : ∃ tr m, Run system tr m ∧ m .nodeMode = .leader ∧ m .runState = .stopped ∧
    m .zkhandlePtr = none ∧ Exec anyReply (m, []) getMode .leader (m, []) := by
  have h₁ : Run system _ _ := .next (.start rfl) (step_obliging [] (.initializeManager "zk" "/adc" "a" 10) rfl)
  have h₂ : Run system _ _ := h₁.next (step_obliging [] .start rfl)
  have h₃ : Run system _ _ := h₂.next (step_obliging ["a"] (.watcher 1 1 zooChildEvent 3 "/adc") rfl)
  have h₄ : Run system _ _ := h₃.next (step_obliging [] .stop rfl)
  exact ⟨_, _, h₄, rfl, rfl, rfl, getMode_iff.2 rfl⟩

end StudyNotes.Cluster.Leaving
