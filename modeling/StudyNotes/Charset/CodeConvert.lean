import Mathlib.Data.List.Range
import Mathlib.Logic.Function.Basic

namespace StudyNotes.Charset.CodeConvert

/-- What a call of iconv returns, none for (size_t) -1, how many bytes it has consumed, and the
bytes it has produced. -/
structure Conversion where
  rc : Option Nat
  consumed : Nat
  produced : List UInt8

structure Iconv where
  iconvOpen (tocode fromcode : List UInt8) : Option Nat
  iconv (cd : Nat) (input : List UInt8) (room : Nat) : Conversion
  consumed_le (cd : Nat) (input : List UInt8) (room : Nat) : (iconv cd input room).consumed ≤ input.length
  produced_le (cd : Nat) (input : List UInt8) (room : Nat) : (iconv cd input room).produced.length ≤ room

/-- The contents of the memory, and the addresses written to during the call. -/
structure Memory where
  bytes : Nat → UInt8
  written : List Nat

namespace Memory

def put (m : Memory) (a : Nat) (b : UInt8) : Memory := ⟨Function.update m.bytes a b, m.written ++ [a]⟩

def putAll (m : Memory) (a : Nat) : List UInt8 → Memory
  | [] => m
  | b :: bs => (m.put a b).putAll (a + 1) bs

def read (m : Memory) (a n : Nat) : List UInt8 := (List.range n).map fun i => m.bytes (a + i)

variable {m : Memory} {a x : Nat}

theorem bytes_put (b : UInt8) : (m.put a b).bytes a = b := by simp only [put, Function.update_self]

theorem bytes_put_of_ne (b : UInt8) (h : x ≠ a) : (m.put a b).bytes x = m.bytes x := by
  simp only [put, Function.update_of_ne h]

theorem bytes_putAll_of_lt (bs : List UInt8) (h : x < a) : (m.putAll a bs).bytes x = m.bytes x := by
  induction bs generalizing m a with
  | nil => rfl
  | cons b bs ih =>
      rw [putAll, ih (Nat.lt_succ_of_lt h), bytes_put_of_ne b (Nat.ne_of_lt h)]

theorem bytes_putAll_of_le {bs : List UInt8} (h : a + bs.length ≤ x) : (m.putAll a bs).bytes x = m.bytes x := by
  induction bs generalizing m a with
  | nil => rfl
  | cons b bs ih =>
      rw [List.length_cons] at h
      rw [putAll, ih (by omega), bytes_put_of_ne b (by omega)]

theorem written_putAll (bs : List UInt8) : (m.putAll a bs).written = m.written ++ List.range' a bs.length := by
  induction bs generalizing m a with
  | nil => exact (List.append_nil _).symm
  | cons b bs ih =>
      rw [putAll, ih, List.length_cons, List.range'_succ, put, List.append_assoc, List.singleton_append]

theorem read_succ (m : Memory) (a n : Nat) : m.read a (n + 1) = m.bytes a :: m.read (a + 1) n := by
  rw [read, List.range_succ_eq_map, List.map_cons, List.map_map, Nat.add_zero, read]
  refine congrArg _ (List.map_congr_left fun i _ => ?_)
  rw [Function.comp_apply, Nat.succ_eq_add_one, Nat.add_assoc, Nat.add_comm 1 i]

theorem read_putAll (m : Memory) (a : Nat) (bs : List UInt8) : (m.putAll a bs).read a bs.length = bs := by
  induction bs generalizing m a with
  | nil => rfl
  | cons b bs ih =>
      rw [List.length_cons, read_succ, putAll, ih, bytes_putAll_of_lt bs (Nat.lt_succ_self a), bytes_put]

theorem read_put_of_le {n : Nat} (b : UInt8) (h : a + n ≤ x) : (m.put x b).read a n = m.read a n := by
  refine List.map_congr_left fun i hi => ?_
  rw [List.mem_range] at hi
  exact bytes_put_of_ne b (by omega)

end Memory

/-- What the caller finds after the call. -/
structure Outcome where
  iRet : Int
  inlen : Nat
  outlen : Nat
  memory : Memory

def codeConvert (L : Iconv) (fromCharset toCharset : List UInt8) (bytes : Nat → UInt8) (inbuf inlen outbuf outlen : Nat) :
    Outcome :=
  let memory : Memory := ⟨bytes, []⟩
  match L.iconvOpen toCharset fromCharset with
  | none => ⟨-1, inlen, outlen, memory⟩
  | some cd =>
      let outbytesleft := outlen
      let c := L.iconv cd (memory.read inbuf inlen) outbytesleft
      -- iconv moves both pointers and lowers both counters
      let inlen := inlen - c.consumed
      let memory := memory.putAll outbuf c.produced
      let outbuf := outbuf + c.produced.length
      let outbytesleft := outbytesleft - c.produced.length
      match c.rc with
      | none => ⟨-1, inlen, outlen, memory⟩
      | some _ =>
          let outlen := outlen - outbytesleft
          ⟨0, inlen, outlen, memory.put (outbuf + outlen) 0⟩

/-- The converted bytes and a zero byte stand at the start of the buffer of the given capacity,
and nothing was written outside it. -/
structure Delivers (outbuf capacity : Nat) (produced : List UInt8) (r : Outcome) : Prop where
  iRet : r.iRet = 0
  converted : r.memory.read outbuf produced.length = produced
  terminated : r.memory.bytes (outbuf + produced.length) = 0
  outlen : r.outlen = produced.length
  inside : ∀ a ∈ r.memory.written, outbuf ≤ a ∧ a < outbuf + capacity

variable {L : Iconv} {fromCharset toCharset : List UInt8} {bytes : Nat → UInt8} {inbuf inlen outbuf capacity cd : Nat}

theorem codeConvert_eq (hopen : L.iconvOpen toCharset fromCharset = some cd) {c : Conversion}
    (hc : L.iconv cd (Memory.read ⟨bytes, []⟩ inbuf inlen) capacity = c) (hrc : c.rc ≠ none) :
    codeConvert L fromCharset toCharset bytes inbuf inlen outbuf capacity =
      ⟨0, inlen - c.consumed, c.produced.length,
        (Memory.putAll ⟨bytes, []⟩ outbuf c.produced).put (outbuf + c.produced.length + c.produced.length) 0⟩ := by
  obtain ⟨n, hn⟩ := Option.ne_none_iff_exists'.1 hrc
  have hle : c.produced.length ≤ capacity := hc ▸ L.produced_le cd _ capacity
  simp only [codeConvert, hopen, hc, hn, Nat.sub_sub_self hle]

/-- The zero byte goes to twice the length of the result, counted from the start of the buffer. -/
theorem delivers_iff (hopen : L.iconvOpen toCharset fromCharset = some cd) {c : Conversion}
    (hc : L.iconv cd (Memory.read ⟨bytes, []⟩ inbuf inlen) capacity = c) (hrc : c.rc ≠ none)
    (hroom : c.produced.length < capacity) :
    Delivers outbuf capacity c.produced (codeConvert L fromCharset toCharset bytes inbuf inlen outbuf capacity) ↔
      c.produced = [] ∨ (bytes (outbuf + c.produced.length) = 0 ∧ 2 * c.produced.length < capacity) := by
  rw [codeConvert_eq hopen hc hrc]
  have hend : (Memory.putAll ⟨bytes, []⟩ outbuf c.produced).bytes (outbuf + c.produced.length) =
      bytes (outbuf + c.produced.length) := Memory.bytes_putAll_of_le (Nat.le_refl _)
  have hwritten {a : Nat} : a ∈ ((Memory.putAll ⟨bytes, []⟩ outbuf c.produced).put
      (outbuf + c.produced.length + c.produced.length) 0).written ↔
      (outbuf ≤ a ∧ a < outbuf + c.produced.length) ∨ a = outbuf + c.produced.length + c.produced.length := by
    rw [Memory.put, List.mem_append, List.mem_singleton, Memory.written_putAll, List.nil_append, List.mem_range'_1]
  constructor
  · intro h
    have hlast := (h.inside _ (hwritten.2 (Or.inr rfl))).2
    rcases Nat.eq_zero_or_pos c.produced.length with hnil | hpos
    · exact Or.inl (List.eq_nil_of_length_eq_zero hnil)
    · have hzero := h.terminated
      rw [Memory.bytes_put_of_ne 0 (by omega), hend] at hzero
      exact Or.inr ⟨hzero, by omega⟩
  · intro h
    have hlast : 2 * c.produced.length < capacity := by
      rcases h with h | h
      · rw [h, List.length_nil]
        omega
      · exact h.2
    refine ⟨rfl, ?_, ?_, rfl, fun a ha => ?_⟩
    · rw [Memory.read_put_of_le 0 (by omega), Memory.read_putAll]
    · rcases Nat.eq_zero_or_pos c.produced.length with hnil | hpos
      · rw [hnil]
        exact Memory.bytes_put 0
      · rw [Memory.bytes_put_of_ne 0 (by omega), hend]
        exact (h.resolve_left (List.ne_nil_of_length_pos hpos)).1
    · rcases hwritten.1 ha with ha | ha <;> omega

/-- The conversion between two names of one charset, which copies what there is room for. -/
def copying : Iconv where
  iconvOpen tocode fromcode := if tocode = fromcode then some 1 else none
  iconv _ input room :=
    ⟨if input.length ≤ room then some 0 else none, min input.length room, input.take room⟩
  consumed_le _ _ _ := Nat.min_le_left _ _
  produced_le _ _ _ := List.length_take_le _ _

/-- The text hi at address 100, and a fill byte everywhere else. -/
def hi (fill : UInt8) (a : Nat) : UInt8 := if a = 100 then 104 else if a = 101 then 105 else fill

def utf8 : List UInt8 := [117, 116, 102, 45, 56]

/-- In a buffer of zero bytes that is more than twice as long as the result nothing is lost. -/
theorem delivers_zeroed :
    Delivers 200 5 [104, 105] (codeConvert copying utf8 utf8 (hi 0) 100 2 200 5) := by
  have hopen : copying.iconvOpen utf8 utf8 = some 1 := rfl
  have hc : copying.iconv 1 (Memory.read ⟨hi 0, []⟩ 100 2) 5 = ⟨some 0, 2, [104, 105]⟩ := rfl
  exact (delivers_iff hopen hc (by decide) (by decide)).2 (Or.inr (by decide))

/-- Two bytes into a buffer of three bytes: the zero byte goes to index 4. -/
theorem delivers_beyond :
    (copying.iconv 1 (Memory.read ⟨hi 120, []⟩ 100 2) 3).rc = some 0 ∧
      (copying.iconv 1 (Memory.read ⟨hi 120, []⟩ 100 2) 3).produced = [104, 105] ∧
      204 ∈ (codeConvert copying utf8 utf8 (hi 120) 100 2 200 3).memory.written ∧
      ¬Delivers 200 3 [104, 105] (codeConvert copying utf8 utf8 (hi 120) 100 2 200 3) := by
  refine ⟨by decide, by decide, by decide, fun h => ?_⟩
  have hlast := (h.inside 204 (by decide)).2
  omega

end StudyNotes.Charset.CodeConvert
