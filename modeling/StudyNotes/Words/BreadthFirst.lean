import StudyNotes.Words.Suffixes
import Mathlib.Data.Finset.Card

namespace StudyNotes.Words.BreadthFirst

open Suffixes

variable {α : Type} [DecidableEq α] {N : Paths α} {w : List α}

theorem length_lt_card (hw : w ∈ N) : w.length < N.carrier.card := by
  have hle : (Finset.range (w.length + 1)).card ≤ N.carrier.card := by
    refine Finset.card_le_card_of_injOn (fun i => w.take i) (fun i _ => ?_) (fun i hi j hj heq => ?_)
    · refine Paths.of_append (v := w.drop i) ?_
      rwa [List.take_append_drop]
    · have hlen := congrArg List.length heq
      simp only [Finset.coe_range, Set.mem_Iio] at hi hj
      simp only [List.length_take] at hlen
      omega
  rw [Finset.card_range] at hle
  exact hle

variable (N)

/-- The children of a path along the given letters. -/
def children (cs : List α) (w : List α) : List (List α) :=
  (cs.filter (fun c => w ++ [c] ∈ N)).map (fun c => w ++ [c])

theorem children_nil (w : List α) : children N [] w = [] := rfl

variable {N}

theorem children_hit (cs : List α) {c : α} (h : w ++ [c] ∈ N) :
    children N (cs ++ [c]) w = children N cs w ++ [w ++ [c]] := by
  simp [children, h]

theorem children_miss (cs : List α) {c : α} (h : w ++ [c] ∉ N) : children N (cs ++ [c]) w = children N cs w := by
  simp [children, h]

theorem mem_children {cs : List α} {v : List α} : v ∈ children N cs w ↔ ∃ c ∈ cs, w ++ [c] ∈ N ∧ w ++ [c] = v := by
  simp only [children, List.mem_map, List.mem_filter, decide_eq_true_eq, and_assoc]

theorem children_nodup {cs : List α} (h : cs.Nodup) : (children N cs w).Nodup := by
  refine (h.filter _).map (fun c d heq => ?_)
  exact List.singleton_inj.mp (List.append_inj' heq rfl).2

/-- A breadth-first traversal that has left D behind and has Q before it. -/
structure Queue (N : Paths α) (D Q : List (List α)) : Prop where
  nodup : (D ++ Q).Nodup
  mem : ∀ v ∈ D ++ Q, v ∈ N
  root : [] ∈ D ++ Q
  below : ∀ v c, v ∈ D → v ++ [c] ∈ N → v ++ [c] ∈ D ++ Q
  parent : ∀ v c, v ++ [c] ∈ D ++ Q → v ∈ D
  sorted : Q.Pairwise (fun v w => v.length ≤ w.length)
  near : ∀ v ∈ Q, ∀ w ∈ Q, w.length ≤ v.length + 1

variable {D Q : List (List α)}

theorem queue_root : Queue N [] [[]] where
  nodup := by simp
  mem := by simpa using N.nil_mem'
  root := by simp
  below := by simp
  parent := by simp
  sorted := List.pairwise_singleton _ _
  near := by simp

theorem Queue.length_le (h : Queue N D Q) : D.length + Q.length ≤ N.carrier.card := by
  rw [← List.length_append, ← List.toFinset_card_of_nodup h.nodup]
  exact Finset.card_le_card (fun v hv => h.mem v (List.mem_toFinset.mp hv))

/-- Everything up to the level of the next path has been reached. -/
theorem Queue.reached (h : Queue N D (w :: Q)) {u : List α} (hu : u ∈ N) (hlen : u.length ≤ w.length) :
    u ∈ D ++ w :: Q := by
  induction u using List.reverseRecOn with
  | nil => exact h.root
  | append_singleton v c ih =>
      rw [List.length_append, List.length_singleton] at hlen
      have hv := ih (Paths.of_concat hu) (by omega)
      refine h.below v c ?_ hu
      rcases List.mem_append.mp hv with hv | hv
      · exact hv
      · have hle : w.length ≤ v.length := by
          rcases List.mem_cons.mp hv with rfl | hv
          · exact Nat.le_refl _
          · exact List.rel_of_pairwise_cons h.sorted hv
        omega

theorem Queue.step (h : Queue N D (w :: Q)) {cs : List α} (hcs : cs.Nodup) (hall : ∀ c, c ∈ cs) :
    Queue N (D ++ [w]) (Q ++ children N cs w) := by
  have hlist : (D ++ [w]) ++ (Q ++ children N cs w) = (D ++ w :: Q) ++ children N cs w := by simp
  have hnew {c : α} : w ++ [c] ∉ D ++ w :: Q := by
    intro hc
    have hdisj := (List.nodup_append.mp h.nodup).2.2
    exact hdisj w (h.parent w c hc) w List.mem_cons_self rfl
  have hlen {v : List α} (hv : v ∈ children N cs w) : v.length = w.length + 1 := by
    obtain ⟨c, -, -, rfl⟩ := mem_children.mp hv
    simp
  have hfront {v : List α} (hv : v ∈ Q) : w.length ≤ v.length := List.rel_of_pairwise_cons h.sorted hv
  have hback {v : List α} (hv : v ∈ Q) : v.length ≤ w.length + 1 :=
    h.near w List.mem_cons_self v (List.mem_cons_of_mem w hv)
  constructor
  case nodup =>
    rw [hlist, List.nodup_append]
    refine ⟨h.nodup, children_nodup hcs, ?_⟩
    rintro v hv v' hv' rfl
    obtain ⟨c, -, -, rfl⟩ := mem_children.mp hv'
    exact hnew hv
  case mem =>
    rw [hlist]
    intro v hv
    rcases List.mem_append.mp hv with hv | hv
    · exact h.mem v hv
    · obtain ⟨c, -, hc, rfl⟩ := mem_children.mp hv
      exact hc
  case root =>
    rw [hlist]
    exact List.mem_append_left _ h.root
  case below =>
    rw [hlist]
    intro v c hv hc
    rcases List.mem_append.mp hv with hv | hv
    · exact List.mem_append_left _ (h.below v c hv hc)
    · obtain rfl := List.mem_singleton.mp hv
      exact List.mem_append_right _ (mem_children.mpr ⟨c, hall c, hc, rfl⟩)
  case parent =>
    rw [hlist]
    intro v c hv
    rcases List.mem_append.mp hv with hv | hv
    · exact List.mem_append_left _ (h.parent v c hv)
    · obtain ⟨d, -, -, heq⟩ := mem_children.mp hv
      rw [(List.append_inj' heq rfl).1]
      simp
  case sorted =>
    rw [List.pairwise_append]
    refine ⟨h.sorted.of_cons, ?_, fun v hv v' hv' => ?_⟩
    · exact List.pairwise_of_forall_mem_list (fun v hv v' hv' => by rw [hlen hv, hlen hv'])
    · rw [hlen hv']
      exact hback hv
  case near =>
    intro v hv v' hv'
    have hlow : w.length ≤ v.length := by
      rcases List.mem_append.mp hv with hv | hv
      · exact hfront hv
      · rw [hlen hv]
        omega
    rcases List.mem_append.mp hv' with hv' | hv'
    · have hb := hback hv'
      omega
    · rw [hlen hv']
      omega

/-- A finished traversal has visited every path. -/
theorem Queue.all (h : Queue N D []) {u : List α} (hu : u ∈ N) : u ∈ D := by
  induction u using List.reverseRecOn with
  | nil => simpa using h.root
  | append_singleton v c ih => simpa using h.below v c (ih (Paths.of_concat hu)) hu

end StudyNotes.Words.BreadthFirst
