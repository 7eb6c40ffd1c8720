import StudyNotes.Radix.Runs
import Mathlib.Data.Multiset.Bind

namespace StudyNotes.Radix.HeapShape

open Heap.Program Heap.Triple Node NodeSpec Program KeyTree KeyTreeCases KeyTreeShape Context MatchSpec
open InsertSpec PlacedShape

/-- The blocks that can be reached from an address along stored pointers. -/
inductive Reaches (m : Mem Block) (root : Addr) : Addr → Prop
  | root : Reaches m root root
  | child (a : Addr) (b : Block) (e : UInt8 × Addr) (h : Reaches m root a) (hb : m.cells.lookup a = some b)
      (he : e ∈ b.edges) : Reaches m root e.2

/-- Slot i of the block at p holds the pointer a. -/
def IsSlot (m : Mem Block) (p : Addr) (i : Nat) (a : Addr) : Prop :=
  ∃ b c, m.cells.lookup p = some b ∧ b.edges[i]? = some (c, a)

/-- The live blocks are a tree with the given root, and nothing else is alive. -/
structure TreeShaped (root : Addr) (m : Mem Block) : Prop where
  closed : ∀ p i a, IsSlot m p i a → a ∈ m.cells
  reachable : ∀ a, a ∈ m.cells ↔ Reaches m root a
  single : ∀ a ∈ m.cells, (a = root ∧ ∀ p i, ¬IsSlot m p i a) ∨
    (a ≠ root ∧ ∃! s : Addr × Nat, IsSlot m s.1 s.2 a)

/-- The invariant that the layout comment of node describes. -/
structure RepInv (root : Addr) (m : Mem Block) : Prop where
  root_block : ∃ b, m.cells.lookup root = some b ∧ b.prefixBytes = [] ∧ b.refcount = 0
  nonempty : ∀ a, Reaches m root a → a ≠ root → ∃ b, m.cells.lookup a = some b ∧ b.prefixBytes ≠ []
  first_byte : ∀ (a : Addr) (b : Block) (i : Nat) (c : UInt8) (x : Addr), Reaches m root a →
    m.cells.lookup a = some b → b.edges[i]? = some (c, x) → ∃ b', m.cells.lookup x = some b' ∧ b'.prefixBytes.head? = some c
  distinct : ∀ a b, Reaches m root a → m.cells.lookup a = some b → (b.edges.map Prod.fst).Nodup
  branching : ∀ a b, Reaches m root a → a ≠ root → m.cells.lookup a = some b → b.refcount = 0 →
    2 ≤ b.edges.length

/-- The tree spelled by the blocks below an address; the fuel bounds its height. -/
def readTree (m : Mem Block) : Nat → Addr → Option (Trie Unit)
  | 0, _ => none
  | fuel + 1, a =>
      match m.cells.lookup a with
      | none => none
      | some b => do
          let es ← b.edges.mapM (fun e => do
            let t ← readTree m fuel e.2
            return (e.1, t))
          return .node () b.refcount b.prefixBytes es

/-- No path in a memory is longer than its number of blocks. -/
def readOff (m : Mem Block) (root : Addr) : Option (Trie Unit) := readTree m m.cells.keys.card root

section Placed

variable {T : Trie Addr} {F : Multiset (Addr × Block)} {m : Mem Block}

theorem lookup_sub (hm : Holds (cells T + F) m) {C : List (Frame Addr)} {t : Trie Addr} (h : plug C t = T) :
    m.cells.lookup t.tag = some (blockOf t) := by
  subst h
  exact hm.lookup (Multiset.mem_add.mpr (Or.inl (mem_cells_plug C t)))

theorem blockOf_edges (t : Trie Addr) : (blockOf t).edges = slots t.edges := by
  obtain ⟨a, rc, p, es⟩ := t
  rfl

theorem blockOf_prefixBytes (t : Trie Addr) : (blockOf t).prefixBytes = t.bytes := by
  obtain ⟨a, rc, p, es⟩ := t
  rfl

theorem blockOf_refcount (t : Trie Addr) : (blockOf t).refcount = t.refcount := by
  obtain ⟨a, rc, p, es⟩ := t
  rfl

/-- A child is a position of its own. -/
theorem plug_child {C : List (Frame Addr)} {t : Trie Addr} (h : plug C t = T) {e : UInt8 × Trie Addr}
    (he : e ∈ t.edges) : ∃ f : Frame Addr, f.tag = t.tag ∧ f.fill e.2 = t ∧ plug (f :: C) e.2 = T := by
  obtain ⟨a, rc, p, es⟩ := t
  obtain ⟨l, r, hes⟩ := List.append_of_mem he
  rw [Trie.edges_node] at hes
  subst hes
  exact ⟨⟨a, rc, p, l, e.1, r⟩, rfl, rfl, h⟩

theorem sub_of_reaches (hm : Holds (cells T + F) m) {a : Addr} (h : Reaches m T.tag a) :
    ∃ C t, plug C t = T ∧ t.tag = a := by
  induction h with
  | root => exact ⟨[], T, rfl, rfl⟩
  | child a b e _ hb he ih =>
      obtain ⟨C, t, hT, rfl⟩ := ih
      obtain rfl : blockOf t = b := by
        have h := lookup_sub hm hT
        rw [hb] at h
        exact (Option.some.inj h).symm
      rw [blockOf_edges, slots, List.mem_map] at he
      obtain ⟨e', he', rfl⟩ := he
      obtain ⟨f, -, -, hf⟩ := plug_child hT he'
      exact ⟨f :: C, e'.2, hf, rfl⟩

theorem reaches_of_sub (hm : Holds (cells T + F) m) {C : List (Frame Addr)} {t : Trie Addr} (h : plug C t = T) :
    Reaches m T.tag t.tag := by
  induction C generalizing t with
  | nil => rw [← h]; exact .root
  | cons f C ih =>
      have hp := ih (t := f.fill t) h
      refine .child f.tag _ (f.label, t.tag) hp (lookup_sub hm (C := C) (t := f.fill t) h) ?_
      rw [blockOf_edges, Frame.fill, Trie.edges_node, slots_append, slots_cons]
      simp

theorem mem_cells_sub {t : Trie Addr} {a : Addr} {b : Block} (h : (a, b) ∈ cells t) :
    ∃ C u, plug C u = t ∧ u.tag = a ∧ blockOf u = b := by
  induction t using tree_induct with
  | h a' rc p es ih =>
      rw [cells, Multiset.mem_cons] at h
      rcases h with h | h
      · cases h
        exact ⟨[], _, rfl, rfl, rfl⟩
      · obtain ⟨e, he, hc⟩ : ∃ e ∈ es, (a, b) ∈ cells e.2 := by
          clear ih
          induction es with
          | nil => simp [edgesCells] at h
          | cons e es ihes =>
              obtain ⟨d, t⟩ := e
              rw [edgesCells, Multiset.mem_add] at h
              rcases h with h | h
              · exact ⟨(d, t), List.mem_cons_self, h⟩
              · obtain ⟨e, he, hc⟩ := ihes h
                exact ⟨e, List.mem_cons_of_mem _ he, hc⟩
        obtain ⟨C, u, hC, hu⟩ := ih e he hc
        obtain ⟨f, -, -, hf⟩ := plug_child (C := []) (t := .node a' rc p es) rfl he
        refine ⟨C ++ [f], u, ?_, hu⟩
        rw [plug_append, hC]
        exact hf

theorem live_iff_reaches (hm : Holds (cells T) m) (a : Addr) : a ∈ m.cells ↔ Reaches m T.tag a := by
  have hm0 : Holds (cells T + 0) m := by rwa [add_zero]
  constructor
  · intro ha
    obtain ⟨b, hb⟩ := Finmap.mem_iff.mp ha
    obtain ⟨C, t, hT, rfl, -⟩ := mem_cells_sub ((hm.2 a b).mp hb)
    exact reaches_of_sub hm0 hT
  · intro ha
    obtain ⟨C, t, hT, rfl⟩ := sub_of_reaches hm0 ha
    exact Finmap.mem_of_lookup_eq_some (lookup_sub hm0 hT)

/-- The pointers stored in a collection of blocks. -/
def pointers (S : Multiset (Addr × Block)) : Multiset Addr :=
  S.bind (fun c => (c.2.edges.map Prod.snd : List Addr))

theorem pointers_cons (c : Addr × Block) (S : Multiset (Addr × Block)) :
    pointers (c ::ₘ S) = (c.2.edges.map Prod.snd : List Addr) + pointers S := Multiset.cons_bind _ _ _

/-- Every address of a placed tree is stored exactly once in it, but for the root's. -/
theorem tags_eq (t : Trie Addr) : (cells t).map Prod.fst = t.tag ::ₘ pointers (cells t) := by
  induction t using tree_induct with
  | h a rc p es ih =>
      have hedges : (edgesCells es).map Prod.fst =
          ((slots es).map Prod.snd : List Addr) + pointers (edgesCells es) := by
        induction es with
        | nil => simp [edgesCells, slots, pointers]
        | cons e es ihes =>
            obtain ⟨b, t⟩ := e
            have ht := ih (b, t) List.mem_cons_self
            rw [edgesCells, Multiset.map_add, ihes (fun e he => ih e (List.mem_cons_of_mem _ he)), ht, slots_cons,
              pointers, pointers, pointers, Multiset.add_bind, List.map_cons, ← Multiset.cons_coe]
            simp only [Multiset.cons_add]
            congr 1
            ac_rfl
      rw [cells, Multiset.map_cons, pointers_cons, hedges, Trie.tag_node]

theorem isSlot_iff (hm : Holds (cells T) m) {p : Addr} {i : Nat} {a : Addr} :
    IsSlot m p i a ↔ ∃ b c, (p, b) ∈ cells T ∧ b.edges[i]? = some (c, a) := by
  simp only [IsSlot, hm.2]

theorem isSlot_mem {m : Mem Block} (hm : Holds (cells T) m) {p : Addr} {i : Nat} {a : Addr}
    (h : IsSlot m p i a) : a ∈ pointers (cells T) := by
  obtain ⟨b, c, hb, hi⟩ := (isSlot_iff hm).mp h
  refine Multiset.mem_bind.mpr ⟨(p, b), hb, ?_⟩
  exact Multiset.mem_coe.mpr (List.mem_map.mpr ⟨(c, a), List.mem_of_getElem? hi, rfl⟩)

theorem exists_slot (hm : Holds (cells T) m) {a : Addr} (h : a ∈ pointers (cells T)) :
    ∃ s : Addr × Nat, IsSlot m s.1 s.2 a := by
  obtain ⟨⟨p, b⟩, hb, ha⟩ := Multiset.mem_bind.mp h
  obtain ⟨⟨c, x⟩, he, rfl⟩ := List.mem_map.mp (Multiset.mem_coe.mp ha)
  obtain ⟨i, hi⟩ := List.mem_iff_getElem?.mp he
  exact ⟨(p, i), (isSlot_iff hm).mpr ⟨b, c, hb, hi⟩⟩

theorem slot_unique (hm : Holds (cells T) m) {s s' : Addr × Nat} {a : Addr} (h : IsSlot m s.1 s.2 a)
    (h' : IsSlot m s'.1 s'.2 a) : s = s' := by
  have hnodup : (pointers (cells T)).Nodup := by
    have h := hm.nodup
    rw [tags_eq, Multiset.nodup_cons] at h
    exact h.2
  obtain ⟨hin, l, hl, hpair⟩ := Multiset.nodup_bind.mp hnodup
  obtain ⟨b, c, hb, hi⟩ := (isSlot_iff hm).mp h
  obtain ⟨b', c', hb', hi'⟩ := (isSlot_iff hm).mp h'
  have hmem : a ∈ ((b.edges.map Prod.snd : List Addr) : Multiset Addr) :=
    Multiset.mem_coe.mpr (List.mem_map.mpr ⟨(c, a), List.mem_of_getElem? hi, rfl⟩)
  have hmem' : a ∈ ((b'.edges.map Prod.snd : List Addr) : Multiset Addr) :=
    Multiset.mem_coe.mpr (List.mem_map.mpr ⟨(c', a), List.mem_of_getElem? hi', rfl⟩)
  have hcell : (s.1, b) = (s'.1, b') := by
    by_contra hne
    rw [hl, Multiset.mem_coe] at hb hb'
    have hsymm : Std.Symm (Function.onFun Disjoint (fun c : Addr × Block =>
        ((c.2.edges.map Prod.snd : List Addr) : Multiset Addr))) := ⟨fun _ _ h => Disjoint.symm h⟩
    have hd := hpair.forall hb hb' hne
    exact Multiset.disjoint_left.mp hd hmem hmem'
  obtain ⟨hs, rfl⟩ := Prod.mk.inj hcell
  have hnd : (b.edges.map Prod.snd).Nodup := Multiset.coe_nodup.mp (hin _ hb)
  have hidx : (b.edges.map Prod.snd)[s.2]? = (b.edges.map Prod.snd)[s'.2]? := by
    rw [List.getElem?_map, List.getElem?_map, hi, hi']
    rfl
  have hlt : s.2 < (b.edges.map Prod.snd).length := by
    rw [List.length_map]
    exact (List.getElem?_eq_some_iff.mp hi).1
  exact Prod.ext hs ((List.getElem?_inj hlt hnd).mp hidx)

theorem treeShaped_of_holds (hm : Holds (cells T) m) : TreeShaped T.tag m := by
  have hlive (a : Addr) : a ∈ m.cells ↔ a = T.tag ∨ a ∈ pointers (cells T) := by
    rw [← Multiset.mem_cons, ← tags_eq, Multiset.mem_map]
    constructor
    · intro ha
      obtain ⟨b, hb⟩ := Finmap.mem_iff.mp ha
      exact ⟨(a, b), (hm.2 a b).mp hb, rfl⟩
    · rintro ⟨⟨a', b⟩, hb, rfl⟩
      exact Finmap.mem_of_lookup_eq_some ((hm.2 a' b).mpr hb)
  have hroot : T.tag ∉ pointers (cells T) := by
    have h := hm.nodup
    rw [tags_eq, Multiset.nodup_cons] at h
    exact h.1
  refine ⟨fun p i a h => (hlive a).mpr (Or.inr (isSlot_mem hm h)), live_iff_reaches hm, fun a ha => ?_⟩
  rcases (hlive a).mp ha with rfl | hp
  · exact Or.inl ⟨rfl, fun p i h => hroot (isSlot_mem hm h)⟩
  · refine Or.inr ⟨fun h => hroot (h ▸ hp), ?_⟩
    obtain ⟨s, hs⟩ := exists_slot hm hp
    exact ⟨s, hs, fun s' hs' => slot_unique hm hs' hs⟩

theorem repInv_of_holds (hm : Holds (cells T + F) m) (hshape : Shaped T) (hroot : T.bytes = [])
    (hzero : T.refcount = 0) (hbranch : AllNodes Branches T) : RepInv T.tag m := by
  have hlook {C : List (Frame Addr)} {t : Trie Addr} (hT : plug C t = T) {b : Block}
      (hb : m.cells.lookup t.tag = some b) : b = blockOf t := by
    have h := lookup_sub hm hT
    rw [hb] at h
    exact Option.some.inj h
  refine ⟨?_, ?_, ?_, ?_, ?_⟩
  · exact ⟨blockOf T, lookup_sub hm (C := []) rfl, by rw [blockOf_prefixBytes, hroot], by rw [blockOf_refcount, hzero]⟩
  · intro a ha hne
    obtain ⟨C, t, hT, rfl⟩ := sub_of_reaches hm ha
    refine ⟨blockOf t, lookup_sub hm hT, ?_⟩
    rw [blockOf_prefixBytes]
    cases C with
    | nil => exact absurd (congrArg Trie.tag hT) hne
    | cons f C =>
        subst hT
        have hf := (AllNodes.focus (P := Labelled) (C := C) (t := f.fill t) hshape).here.first (f.label, t)
          (by simp [Frame.fill])
        intro hnil
        rw [hnil] at hf
        cases hf
  · intro a b i c x ha hb hi
    obtain ⟨C, t, hT, rfl⟩ := sub_of_reaches hm ha
    obtain rfl := hlook hT hb
    rw [blockOf_edges] at hi
    obtain ⟨e, he, heq⟩ := List.mem_map.mp (List.mem_of_getElem? hi)
    obtain ⟨rfl, rfl⟩ := Prod.mk.inj heq
    obtain ⟨f, -, -, hf⟩ := plug_child hT he
    refine ⟨blockOf e.2, lookup_sub hm hf, ?_⟩
    subst hT
    rw [blockOf_prefixBytes]
    exact (AllNodes.focus (P := Labelled) hshape).here.first e he
  · intro a b ha hb
    obtain ⟨C, t, hT, rfl⟩ := sub_of_reaches hm ha
    obtain rfl := hlook hT hb
    subst hT
    rw [blockOf_edges, labels_slots]
    exact (AllNodes.focus (P := Labelled) hshape).here.distinct
  · intro a b ha hne hb h0
    obtain ⟨C, t, hT, rfl⟩ := sub_of_reaches hm ha
    obtain rfl := hlook hT hb
    cases C with
    | nil => exact absurd (congrArg Trie.tag hT) hne
    | cons f C =>
        subst hT
        rw [blockOf_refcount] at h0
        rw [blockOf_edges, slots_length]
        exact (AllNodes.focus (P := Branches) (C := C) (t := f.fill t) hbranch).here (f.label, t)
          (by simp [Frame.fill]) h0

end Placed

end StudyNotes.Radix.HeapShape
