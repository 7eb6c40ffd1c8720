import StudyNotes.Automaton.Program
import StudyNotes.Heap.Triple
import StudyNotes.Words.Suffixes
import Mathlib.Data.Finset.Card

namespace StudyNotes.Automaton.Memory

open Heap.Program Heap.Triple Words.Suffixes Program

abbrev Word := List Letter

def toByte (c : Letter) : UInt8 := UInt8.ofNat c.val

def toBytes (w : Word) : List UInt8 := w.map toByte

theorem slot_toByte (c : Letter) : slot (toByte c) = pure c := by
  have hc : (toByte c).toNat = c.val := by
    rw [toByte, UInt8.toNat_ofNat', Nat.mod_eq_of_lt (by omega)]
  rw [slot, dif_pos (by rw [hc]; exact c.isLt)]
  simp only [hc]

theorem toByte_injective : Function.Injective toByte := by
  intro c d h
  have hnat := congrArg UInt8.toNat h
  rw [toByte, toByte, UInt8.toNat_ofNat', UInt8.toNat_ofNat', Nat.mod_eq_of_lt (by omega), Nat.mod_eq_of_lt (by omega)] at hnat
  exact Fin.ext hnat

theorem toBytes_injective : Function.Injective toBytes := List.map_injective_iff.mpr toByte_injective

/-- The automaton with its nodes named by the words they spell. -/
structure State where
  nodes : Paths Letter
  words : Finset Word
  marks : Finset Word
  fail : Word → Option Word

/-- The block of the node that spells w, when each word v is placed at place v. -/
def block (S : State) (place : Word → Addr) (w : Word) : TrieNode where
  ch := (w.getLast?.map toByte).getD 114
  isWord := if w ∈ S.words then 1 else 0
  isMarked := if w ∈ S.marks then 1 else 0
  failPtr := match S.fail w with
    | none => 0
    | some v => place v
  next c := if w ++ [c] ∈ S.nodes then place (w ++ [c]) else 0

/-- The memory holds the nodes of S, each at its place. -/
structure Stands (S : State) (place : Word → Addr) (m : Mem TrieNode) : Prop where
  inj : ∀ v ∈ S.nodes, ∀ w ∈ S.nodes, place v = place w → v = w
  nonnull : ∀ w ∈ S.nodes, place w ≠ 0
  words_mem : ∀ w ∈ S.words, w ∈ S.nodes
  marks_mem : ∀ w ∈ S.marks, w ∈ S.nodes
  links_mem : ∀ w ∈ S.nodes, ∀ v, S.fail w = some v → v ∈ S.nodes
  live : ∀ w ∈ S.nodes, m.cells.lookup (place w) = some (block S place w)

section Rules

variable {γ : Type} {S R : State} {place : Word → Addr} {w : Word} {c : Letter} {m : Mem TrieNode}
variable {Q : γ → Mem TrieNode → Prop} {E : Fault → Prop}

theorem Stands.card_le (h : Stands S place m) : S.nodes.carrier.card ≤ m.cells.keys.card := by
  refine Finset.card_le_card_of_injOn place (fun w hw => ?_) (fun v hv w hw => h.inj v hv w hw)
  exact Finmap.mem_keys.mpr (Finmap.mem_iff.mpr ⟨_, h.live w hw⟩)

theorem next_hit (h : w ++ [c] ∈ S.nodes) : (block S place w).next c = place (w ++ [c]) := if_pos h

theorem next_miss (h : w ++ [c] ∉ S.nodes) : (block S place w).next c = 0 := if_neg h

theorem block_ch : (block S place (w ++ [c])).ch = toByte c := by simp [block]

theorem spec_load_at {f : TrieNode → TrieM γ} (hw : w ∈ S.nodes)
    (h : Spec (Stands S place) (f (block S place w)) Q E) : Spec (Stands S place) (load (place w) >>= f) Q E := by
  intro m hm
  have hl : load (place w) m = .ok (block S place w, m) := by rw [load, hm.live w hw]
  change Ends (Except.bind (load (place w) m) _) Q E
  rw [hl]
  exact h m hm

theorem spec_liveBlocks {f : Nat → TrieM γ} (h : ∀ n, S.nodes.carrier.card ≤ n → Spec (Stands S place) (f n) Q E) :
    Spec (Stands S place) (liveBlocks >>= f) Q E :=
  fun m hm => h _ hm.card_le m hm

theorem spec_slot {P : Mem TrieNode → Prop} {f : Letter → TrieM γ} (h : Spec P (f c) Q E) :
    Spec P (slot (toByte c) >>= f) Q E := by
  rw [slot_toByte, pure_bind]
  exact h

/-- Storing at one node what another state has there, when the two agree elsewhere. -/
theorem spec_store_at {f : Unit → TrieM γ} {b : TrieNode} (hw : w ∈ S.nodes) (hb : b = block R place w)
    (hnodes : R.nodes = S.nodes) (hother : ∀ v ∈ S.nodes, v ≠ w → block R place v = block S place v)
    (hwords : ∀ v ∈ R.words, v ∈ S.nodes) (hmarks : ∀ v ∈ R.marks, v ∈ S.nodes)
    (hlinks : ∀ v ∈ S.nodes, ∀ u, R.fail v = some u → u ∈ S.nodes)
    (h : Spec (Stands R place) (f ()) Q E) : Spec (Stands S place) (store (place w) b >>= f) Q E := by
  intro m hm
  have hs : store (place w) b m = .ok ((), { m with cells := m.cells.insert (place w) b }) := by
    rw [store, hm.live w hw]
  change Ends (Except.bind (store (place w) b m) _) Q E
  rw [hs]
  refine h _ ?_
  constructor
  case inj => rw [hnodes]; exact hm.inj
  case nonnull => rw [hnodes]; exact hm.nonnull
  case words_mem => rw [hnodes]; exact hwords
  case marks_mem => rw [hnodes]; exact hmarks
  case links_mem => rw [hnodes]; exact hlinks
  case live =>
    rw [hnodes]
    intro v hv
    by_cases hvw : v = w
    · subst hvw
      rw [Finmap.lookup_insert, hb]
    · rw [Finmap.lookup_insert_of_ne _ (fun heq => hvw (hm.inj v hv w hw heq)), hother v hv hvw]
      exact hm.live v hv

end Rules

/-- Following the pointers of next from a node, as the loops of the source do. -/
def walk (m : Mem TrieNode) : Addr → Word → Option Addr
  | a, [] => some a
  | a, c :: w =>
      match m.cells.lookup a with
      | none => none
      | some node => if node.next c = 0 then none else walk m (node.next c) w

theorem walk_from {S : State} {place : Word → Addr} {m : Mem TrieNode} (h : Stands S place m) (w : Word) {v : Word}
    (hv : v ∈ S.nodes) : walk m (place v) w = if v ++ w ∈ S.nodes then some (place (v ++ w)) else none := by
  induction w generalizing v with
  | nil => rw [List.append_nil, if_pos hv, walk]
  | cons c w ih =>
      rw [walk, h.live v hv]
      dsimp only
      by_cases hc : v ++ [c] ∈ S.nodes
      · rw [next_hit hc, if_neg (h.nonnull _ hc), ih hc, List.append_assoc, List.singleton_append]
      · have hcw : v ++ c :: w ∉ S.nodes := fun hn => hc (Paths.of_append (v := w) (by simpa using hn))
        rw [next_miss hc, if_pos rfl, if_neg hcw]

/-- A word leads from the root to a node exactly when it is a path. -/
theorem walk_root {S : State} {place : Word → Addr} {m : Mem TrieNode} (h : Stands S place m) (w : Word) :
    walk m (place []) w = if w ∈ S.nodes then some (place w) else none := by
  simpa using walk_from h w S.nodes.nil_mem

end StudyNotes.Automaton.Memory
