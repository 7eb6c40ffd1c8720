import Mathlib.Data.Finset.Dedup
import Mathlib.Data.Finset.Lattice.Lemmas
import Mathlib.Data.List.Infix

namespace StudyNotes.Words.Suffixes

variable {α : Type}

theorem suffix_concat_cases {v u : List α} {c : α} (h : v <:+ u ++ [c]) : v = [] ∨ ∃ y, v = y ++ [c] ∧ y <:+ u := by
  rcases List.eq_nil_or_concat v with rfl | ⟨y, d, rfl⟩
  · exact Or.inl rfl
  · obtain ⟨t, ht⟩ := h
    rw [List.concat_eq_append, ← List.append_assoc] at ht
    obtain ⟨rfl, hd⟩ := List.append_inj' ht rfl
    cases hd
    exact Or.inr ⟨y, List.concat_eq_append, List.suffix_append _ _⟩

theorem suffix_concat {y u : List α} (h : y <:+ u) (c : α) : y ++ [c] <:+ u ++ [c] := by
  obtain ⟨t, rfl⟩ := h
  exact ⟨t, (List.append_assoc t y [c]).symm⟩

/-- A proper suffix of a nonempty word is a suffix of its tail. -/
theorem suffix_tail {y v : List α} (h : y <:+ v) (hne : y ≠ v) : y <:+ v.tail := by
  cases v with
  | nil => exact absurd (List.suffix_nil.mp h) hne
  | cons c v => exact (List.suffix_cons_iff.mp h).resolve_left hne

variable [DecidableEq α]

/-- The paths of a trie: finitely many words, with all their beginnings. -/
structure Paths (α : Type) [DecidableEq α] where
  carrier : Finset (List α)
  nil_mem : [] ∈ carrier
  closed : ∀ w c, w ++ [c] ∈ carrier → w ∈ carrier

namespace Paths

instance : Membership (List α) (Paths α) := ⟨fun N w => w ∈ N.carrier⟩

instance (N : Paths α) (w : List α) : Decidable (w ∈ N) := inferInstanceAs (Decidable (w ∈ N.carrier))

theorem mem_carrier {N : Paths α} {w : List α} : w ∈ N.carrier ↔ w ∈ N := Iff.rfl

theorem nil_mem' (N : Paths α) : [] ∈ N := N.nil_mem

theorem of_concat {N : Paths α} {w : List α} {c : α} (h : w ++ [c] ∈ N) : w ∈ N := N.closed w c h

theorem of_append {N : Paths α} {u v : List α} (h : u ++ v ∈ N) : u ∈ N := by
  induction v using List.reverseRecOn with
  | nil => rwa [List.append_nil] at h
  | append_singleton v c ih =>
      rw [← List.append_assoc] at h
      exact ih (of_concat h)

/-- The trie that has only a root. -/
def root : Paths α where
  carrier := {[]}
  nil_mem := Finset.mem_singleton_self _
  closed w c h := by simp at h

theorem mem_root {w : List α} : w ∈ (root : Paths α) ↔ w = [] := Finset.mem_singleton

theorem ext {N N' : Paths α} (h : ∀ w, w ∈ N ↔ w ∈ N') : N = N' := by
  obtain ⟨C, _, _⟩ := N
  obtain ⟨C', _, _⟩ := N'
  obtain rfl : C = C' := Finset.ext h
  rfl

/-- The trie after a word has been entered. -/
def addWord (N : Paths α) (u : List α) : Paths α where
  carrier := N.carrier ∪ u.inits.toFinset
  nil_mem := Finset.mem_union_left _ N.nil_mem
  closed v d h := by
    rcases Finset.mem_union.mp h with h | h
    · exact Finset.mem_union_left _ (N.closed v d h)
    · rw [List.mem_toFinset, List.mem_inits] at h
      refine Finset.mem_union_right _ ?_
      rw [List.mem_toFinset, List.mem_inits]
      exact (List.prefix_append v [d]).trans h

theorem mem_addWord {N : Paths α} {u v : List α} : v ∈ N.addWord u ↔ v ∈ N ∨ v <+: u := by
  rw [← mem_carrier, addWord, Finset.mem_union, List.mem_toFinset, List.mem_inits, mem_carrier]

/-- The trie of the given words. -/
def ofWords (words : List (List α)) : Paths α := words.foldl addWord root

theorem ofWords_concat (words : List (List α)) (u : List α) : ofWords (words ++ [u]) = (ofWords words).addWord u :=
  List.foldl_concat _ _ _ _

theorem mem_ofWords {words : List (List α)} {v : List α} :
    v ∈ ofWords words ↔ v = [] ∨ ∃ u ∈ words, v <+: u := by
  induction words using List.reverseRecOn with
  | nil => simp [ofWords, mem_root]
  | append_singleton words u ih =>
      rw [ofWords_concat, mem_addWord, ih, or_assoc]
      refine or_congr_right ?_
      simp only [List.mem_append, List.mem_singleton, or_and_right, exists_or, exists_eq_left]

end Paths

open Paths

variable (N : Paths α)

/-- The longest suffix that is a path. -/
def longest : List α → List α
  | [] => []
  | c :: u => if c :: u ∈ N then c :: u else longest u

theorem longest_mem (u : List α) : longest N u ∈ N := by
  induction u with
  | nil => exact N.nil_mem
  | cons c u ih =>
      rw [longest]
      split
      · assumption
      · exact ih

theorem longest_suffix (u : List α) : longest N u <:+ u := by
  induction u with
  | nil => exact List.suffix_refl _
  | cons c u ih =>
      rw [longest]
      split
      · exact List.suffix_refl _
      · exact ih.trans (List.suffix_cons c u)

variable {N}

theorem suffix_longest {u v : List α} (hv : v <:+ u) (hN : v ∈ N) : v <:+ longest N u := by
  induction u with
  | nil => exact hv
  | cons c u ih =>
      rw [longest]
      split
      · exact hv
      · next hu =>
          rcases List.suffix_cons_iff.mp hv with rfl | hv
          · exact absurd hN hu
          · exact ih hv

theorem longest_eq {u x : List α} (hx : x <:+ u) (hN : x ∈ N) (h : ∀ v, v <:+ u → v ∈ N → v <:+ x) :
    longest N u = x := by
  have hle := h _ (longest_suffix N u) (longest_mem N u)
  exact hle.eq_of_length (Nat.le_antisymm hle.length_le (suffix_longest hx hN).length_le)

section Concat

variable {u : List α} {c : α}

/-- The three ways to go on from the longest suffix when a letter is added. -/
theorem longest_concat_hit (h : longest N u ++ [c] ∈ N) : longest N (u ++ [c]) = longest N u ++ [c] := by
  refine longest_eq (suffix_concat (longest_suffix N u) c) h (fun v hv hN => ?_)
  rcases suffix_concat_cases hv with rfl | ⟨y, rfl, hy⟩
  · exact List.nil_suffix
  · exact suffix_concat (suffix_longest hy (of_concat hN)) c

theorem longest_concat_miss (h : longest N u ++ [c] ∉ N) :
    longest N (u ++ [c]) = longest N ((longest N u).tail ++ [c]) ∨ longest N u = [] := by
  by_cases hnil : longest N u = []
  · exact Or.inr hnil
  · refine Or.inl (longest_eq ?_ (longest_mem N _) (fun v hv hN => ?_))
    · refine (longest_suffix N _).trans ((suffix_concat ?_ c))
      exact (List.tail_suffix _).trans (longest_suffix N u)
    · rcases suffix_concat_cases hv with rfl | ⟨y, rfl, hy⟩
      · exact List.nil_suffix
      · have hne : y ≠ longest N u := fun heq => h (heq ▸ hN)
        exact suffix_longest (suffix_concat (suffix_tail (suffix_longest hy (of_concat hN)) hne) c) hN

theorem longest_concat_nil (h : longest N u = []) (hc : [c] ∉ N) : longest N (u ++ [c]) = [] := by
  refine longest_eq List.nil_suffix N.nil_mem (fun v hv hN => ?_)
  rcases suffix_concat_cases hv with rfl | ⟨y, rfl, hy⟩
  · exact List.suffix_refl _
  · have hnil := suffix_longest hy (of_concat hN)
    rw [h, List.suffix_nil] at hnil
    subst hnil
    exact absurd hN hc

end Concat

variable (N)

/-- The longest proper suffix that is a path. -/
def fallback (w : List α) : List α := longest N w.tail

theorem fallback_mem (w : List α) : fallback N w ∈ N := longest_mem N _

theorem fallback_suffix (w : List α) : fallback N w <:+ w := (longest_suffix N _).trans (List.tail_suffix w)

variable {N}

theorem fallback_length {w : List α} (hw : w ≠ []) : (fallback N w).length < w.length := by
  have hle := (longest_suffix N w.tail).length_le
  have hpos := List.length_pos_iff.mpr hw
  rw [List.length_tail] at hle
  rw [fallback]
  omega

theorem fallback_max {w v : List α} (hv : v <:+ w) (hne : v ≠ w) (hN : v ∈ N) : v <:+ fallback N w :=
  suffix_longest (suffix_tail hv hne) hN

variable (N)

/-- All proper suffixes that are paths, the longest first. -/
def chain (w : List α) : List (List α) := w.tails.tail.filter (· ∈ N)

theorem filter_tails (u : List α) :
    u.tails.filter (· ∈ N) = longest N u :: (longest N u).tails.tail.filter (· ∈ N) := by
  induction u with
  | nil => simp [longest, N.nil_mem']
  | cons c u ih =>
      rw [longest, List.tails_cons, List.filter_cons]
      split
      · next hc =>
          rw [if_pos (of_decide_eq_true hc)]
          rfl
      · next hc =>
          rw [if_neg (fun h => hc (decide_eq_true h)), ih]

theorem chain_nil : chain N [] = [] := rfl

/-- The chain is what repeated falling back visits. -/
theorem chain_eq {w : List α} (hw : w ≠ []) : chain N w = fallback N w :: chain N (fallback N w) := by
  obtain ⟨c, u, rfl⟩ := List.exists_cons_of_ne_nil hw
  exact filter_tails N u

variable {N}

theorem mem_chain {w v : List α} : v ∈ chain N w ↔ v <:+ w ∧ v ≠ w ∧ v ∈ N := by
  rw [chain, List.mem_filter, decide_eq_true_eq, ← and_assoc]
  refine and_congr_left (fun _ => ?_)
  cases w with
  | nil => simp
  | cons c u =>
      rw [List.tails_cons, List.tail_cons, List.mem_tails]
      constructor
      · intro h
        refine ⟨h.trans (List.suffix_cons c u), ?_⟩
        rintro rfl
        have hlen := h.length_le
        rw [List.length_cons] at hlen
        omega
      · rintro ⟨h, hne⟩
        exact suffix_tail h hne

end StudyNotes.Words.Suffixes
