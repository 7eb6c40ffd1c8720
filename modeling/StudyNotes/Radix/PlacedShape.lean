import StudyNotes.Radix.EraseStep
import Mathlib.Algebra.BigOperators.Group.Finset.Basic
import Mathlib.Algebra.Order.BigOperators.Group.Finset

namespace StudyNotes.Radix.PlacedShape

open Heap.Program KeyTree KeyTreeCases KeyTreeShape Context MatchSpec InsertStep EraseStep

variable {α : Type}

theorem mem_forgetEdges {es : Edges α} {e : UInt8 × Trie α} (he : e ∈ es) :
    (e.1, forget e.2) ∈ forgetEdges es := by
  induction es with
  | nil => simp at he
  | cons e' es ih =>
      obtain ⟨b, t⟩ := e'
      rw [forgetEdges]
      rcases List.mem_cons.mp he with rfl | he
      · exact List.mem_cons_self
      · exact List.mem_cons_of_mem _ (ih he)

theorem forget_bytes (t : Trie α) : (forget t).bytes = t.bytes := by
  obtain ⟨a, rc, p, es⟩ := t
  rfl

theorem forget_refcount (t : Trie α) : (forget t).refcount = t.refcount := by
  obtain ⟨a, rc, p, es⟩ := t
  rfl

theorem forget_edges (t : Trie α) : (forget t).edges = forgetEdges t.edges := by
  obtain ⟨a, rc, p, es⟩ := t
  rfl

theorem allNodes_of_forget {P : Trie Unit → Prop} {R : Trie α → Prop} (hPR : ∀ t, P (forget t) → R t)
    {t : Trie α} (h : AllNodes P (forget t)) : AllNodes R t := by
  induction t using tree_induct with
  | h a rc p es ih =>
      refine .node (hPR _ h.here) (fun e he => ih e he ?_)
      exact h.child (e.1, forget e.2) (mem_forgetEdges he)

theorem shaped_of_forget {t : Trie α} (h : Shaped (forget t)) : Shaped t := by
  refine allNodes_of_forget (fun t ht => ⟨fun e he => ?_, ?_⟩) h
  · have hf := ht.first (e.1, forget e.2) (by rw [forget_edges]; exact mem_forgetEdges he)
    rwa [forget_bytes] at hf
  · have hd := ht.distinct
    rwa [forget_edges, labels_forgetEdges] at hd

theorem within_of_forget {L : List UInt8 → Prop} {t : Trie α} {s : List UInt8}
    (h : Within L s (forget t)) : Within L s t := by
  induction t using tree_induct generalizing s with
  | h a rc p es ih =>
      refine .node h.here (fun e he => ih e he ?_)
      exact h.child (e.1, forget e.2) (mem_forgetEdges he)

/-- A tree of strings in L with an empty prefix at the root. -/
structure Canon (L : List UInt8 → Prop) (t : Trie α) : Prop where
  shaped : Shaped t
  root : t.bytes = []
  within : Within L [] t

theorem canon_of_forget {L : List UInt8 → Prop} {t : Trie α} (h : Canon L (forget t)) : Canon L t :=
  ⟨shaped_of_forget h.shaped, by rw [← forget_bytes]; exact h.root, within_of_forget h.within⟩

theorem card_labels_le (l : List UInt8) (h : ∀ c, l.count c ≤ 2) : l.length < 2 ^ 10 := by
  have hsum : ∑ c ∈ l.toFinset, l.count c = l.length := by
    simp
  have hcard : l.toFinset.card ≤ 256 := by
    have hmaps := Finset.card_le_card_of_injOn (s := l.toFinset) (t := Finset.range 256) UInt8.toNat
      (fun c _ => by simpa using c.toNat_lt) (fun c _ d _ hcd => UInt8.toNat_inj.mp hcd)
    simpa using hmaps
  have hle : ∑ c ∈ l.toFinset, l.count c ≤ l.toFinset.card * 2 :=
    Finset.sum_le_card_nsmul l.toFinset _ 2 (fun c _ => h c)
  omega

theorem few_of_pairs {es : Edges α} (h : ∀ c, (labels es).count c ≤ 2) : es.length < 2 ^ 10 := by
  have hl := card_labels_le (labels es) h
  simpa [labels] using hl

section Canonical

variable {L : List UInt8 → Prop} {t : Trie Addr} {s : List UInt8}

theorem sound_of_shaped (hL : ∀ s, L s → s.length < 2 ^ 32) (h : Shaped t) (hw : Within L s t) :
    AllNodes Sound t := by
  induction t using tree_induct generalizing s with
  | h a rc p es ih =>
      have hlen := hL _ hw.here
      rw [Trie.bytes_node, List.length_append] at hlen
      refine .node ⟨fun e he => Or.inr (h.here.first e he), by rw [Trie.bytes_node]; omega, few_of_pairs ?_⟩
        (fun e he => ih e he (h.child e he) (hw.child e he))
      exact fun c => (List.nodup_iff_count_le_one.mp h.here.distinct c).trans (by omega)

theorem solid_of_shaped (h : Shaped t) : AllNodes Solid t :=
  AllNodes.mono (fun t ht e he hnil => by
    have hf := ht.first e he
    rw [hnil] at hf
    cases hf) h

theorem roomy_of_within (hL : ∀ s, L s → s.length < 2 ^ 32) (hw : Within L s t) : AllNodes Roomy t := by
  induction t using tree_induct generalizing s with
  | h a rc p es ih =>
      refine .node (fun e he => ?_) (fun e he => ih e he (hw.child e he))
      have hlen := hL _ (hw.child e he).here
      simp only [Trie.bytes_node, List.length_append] at hlen ⊢
      omega

end Canonical

def NoZero (t : Trie Addr) : Prop := (0 : UInt8) ∉ t.bytes

theorem noZero_of_within {L : List UInt8 → Prop} (hL : ∀ s, L s → (0 : UInt8) ∉ s) {t : Trie Addr}
    {s : List UInt8} (hw : Within L s t) : AllNodes NoZero t := by
  induction t using tree_induct generalizing s with
  | h a rc p es ih =>
      refine .node (fun h0 => hL _ hw.here ?_) (fun e he => ih e he (hw.child e he))
      exact List.mem_append.mpr (Or.inr h0)

theorem path_noZero {C : List (Frame Addr)} {t : Trie Addr} (h : AllNodes NoZero (plug C t)) :
    (0 : UInt8) ∉ path C := by
  induction C generalizing t with
  | nil => simp [path]
  | cons f C ih =>
      have hf : (0 : UInt8) ∉ f.bytes := (AllNodes.focus (C := C) (t := f.fill t) h).here
      rw [path, List.mem_append, not_or]
      exact ⟨ih h, hf⟩

/-- A key followed by a zero byte does not continue into a zero-free string. -/
theorem length_le_of_noZero {k u v : List UInt8} (hu : (0 : UInt8) ∉ u) (h : k ++ [0] = u ++ v) :
    u.length ≤ k.length := by
  by_contra hn
  have hpre : (k ++ [0]) <+: u := List.prefix_of_prefix_length_le (List.prefix_refl _)
    ⟨v, h.symm⟩ (by simp; omega)
  exact hu (hpre.subset (by simp))

/-- The terminating zero keeps the walk inside the key. -/
theorem stays_of_noZero {T : Trie Addr} (h : AllNodes NoZero T) {k : List UInt8} {C : List (Frame Addr)}
    {t : Trie Addr} {i j : Nat} (hT : plug C t = T) (hs : Stop (k ++ [0]) k.length C t i j) : i ≤ k.length := by
  subst hT
  have hp := path_noZero h
  cases hs with
  | inside C a rc c x q es y rest hkey hxy hC hlt =>
      have hb : (0 : UInt8) ∉ c ++ x :: q := (AllNodes.focus h).here
      rw [← List.append_assoc] at hkey
      have hle := length_le_of_noZero (by
        rw [List.mem_append, not_or]
        exact ⟨hp, fun hc => hb (List.mem_append.mpr (Or.inl hc))⟩) hkey
      rwa [List.length_append] at hle
  | full C a rc p es rest hkey hC hlt hp' hend =>
      have hb : (0 : UInt8) ∉ p := (AllNodes.focus h).here
      rw [← List.append_assoc] at hkey
      have hle := length_le_of_noZero (by
        rw [List.mem_append, not_or]
        exact ⟨hp, hb⟩) hkey
      rwa [List.length_append] at hle
  | empty f C a rc rest hkey hC hlt => omega

theorem not_endsInside {T : Trie Addr} (h : AllNodes NoZero T) (k : List UInt8) {size : Nat} :
    ¬EndsInside (k ++ [0]) size T := by
  rintro ⟨C, a, rc, c, x, q, es, rfl, hkey, -⟩
  have hp := path_noZero h
  have hb : (0 : UInt8) ∉ c ++ x :: q := (AllNodes.focus h).here
  have hz : (0 : UInt8) ∈ path C ++ c := by rw [← hkey]; simp
  rcases List.mem_append.mp hz with hz | hz
  · exact hp hz
  · exact hb (List.mem_append.mpr (Or.inl hz))

end StudyNotes.Radix.PlacedShape
