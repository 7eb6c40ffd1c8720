import Mathlib.Data.List.Basic

namespace StudyNotes.Codes.Base64

/-- The character for six bits, by the alphabet of RFC 4648. -/
def digit (n : Nat) : UInt8 :=
  if n < 26 then UInt8.ofNat (n + 65)
  else if n < 52 then UInt8.ofNat (n + 71)
  else if n < 62 then UInt8.ofNat (n - 4)
  else if n = 62 then 43
  else 47

def value (c : UInt8) : Option Nat :=
  if 65 ≤ c.toNat ∧ c.toNat ≤ 90 then some (c.toNat - 65)
  else if 97 ≤ c.toNat ∧ c.toNat ≤ 122 then some (c.toNat - 71)
  else if 48 ≤ c.toNat ∧ c.toNat ≤ 57 then some (c.toNat + 4)
  else if c.toNat = 43 then some 62
  else if c.toNat = 47 then some 63
  else none

def pad : UInt8 := 61

/-- The four groups of six bits in three bytes. -/
def first (a : UInt8) : Nat := a.toNat / 4
def second (a b : UInt8) : Nat := a.toNat % 4 * 16 + b.toNat / 16
def third (b c : UInt8) : Nat := b.toNat % 16 * 4 + c.toNat / 64
def fourth (c : UInt8) : Nat := c.toNat % 64

/-- Missing bytes at the end count as zero bits, and the characters without any are padding. -/
def encode : List UInt8 → List UInt8
  | [] => []
  | [a] => [digit (first a), digit (second a 0), pad, pad]
  | [a, b] => [digit (first a), digit (second a b), digit (third b 0), pad]
  | a :: b :: c :: rest =>
      digit (first a) :: digit (second a b) :: digit (third b c) :: digit (fourth c) :: encode rest

def highByte (p q : Nat) : UInt8 := UInt8.ofNat (p * 4 + q / 16)
def middleByte (q r : Nat) : UInt8 := UInt8.ofNat (q % 16 * 16 + r / 4)
def lowByte (r t : Nat) : UInt8 := UInt8.ofNat (r % 4 * 64 + t)

def decodeGroup (w x y z : UInt8) : Option (List UInt8) :=
  match value w, value x, value y, value z with
  | some p, some q, some r, some t => some [highByte p q, middleByte q r, lowByte r t]
  | _, _, _, _ => none

/-- The last group; the bits that its padding cuts off must be zero. -/
def decodeLast (w x y z : UInt8) : Option (List UInt8) :=
  if z = pad then
    if y = pad then
      match value w, value x with
      | some p, some q => if q % 16 = 0 then some [highByte p q] else none
      | _, _ => none
    else
      match value w, value x, value y with
      | some p, some q, some r => if r % 4 = 0 then some [highByte p q, middleByte q r] else none
      | _, _, _ => none
  else
    decodeGroup w x y z

def decode : List UInt8 → Option (List UInt8)
  | [] => some []
  | w :: x :: y :: z :: rest =>
      if rest = [] then decodeLast w x y z
      else
        match decodeGroup w x y z, decode rest with
        | some xs, some ys => some (xs ++ ys)
        | _, _ => none
  | _ => none

theorem value_digit {n : Nat} (h : n < 64) : value (digit n) = some n := by
  revert n
  decide

theorem digit_ne_pad {n : Nat} (h : n < 64) : digit n ≠ pad := by
  revert n
  decide

theorem digit_of_value {c : UInt8} {n : Nat} (h : value c = some n) : n < 64 ∧ digit n = c := by
  have hall : ∀ k < 256, ∀ n ∈ value (UInt8.ofNat k), n < 64 ∧ digit n = UInt8.ofNat k := by decide +kernel
  rw [← UInt8.ofNat_toNat (x := c)] at h ⊢
  exact hall c.toNat c.toNat_lt n h

section bytes

variable (a b c : UInt8)

theorem first_lt : first a < 64 := by
  have := a.toNat_lt
  rw [first]
  omega

theorem second_lt : second a b < 64 := by
  have := b.toNat_lt
  rw [second]
  omega

theorem third_lt : third b c < 64 := by
  have := c.toNat_lt
  rw [third]
  omega

theorem fourth_lt : fourth c < 64 := Nat.mod_lt _ (by decide)

theorem highByte_first : highByte (first a) (second a b) = a := by
  have ha := a.toNat_lt
  have hb := b.toNat_lt
  rw [← UInt8.toNat_inj, highByte, UInt8.toNat_ofNat', first, second]
  omega

theorem middleByte_second : middleByte (second a b) (third b c) = b := by
  have hb := b.toNat_lt
  have hc := c.toNat_lt
  rw [← UInt8.toNat_inj, middleByte, UInt8.toNat_ofNat', second, third]
  omega

theorem lowByte_third : lowByte (third b c) (fourth c) = c := by
  have hc := c.toNat_lt
  rw [← UInt8.toNat_inj, lowByte, UInt8.toNat_ofNat', third, fourth]
  omega

theorem decodeGroup_digits :
    decodeGroup (digit (first a)) (digit (second a b)) (digit (third b c)) (digit (fourth c)) = some [a, b, c] := by
  simp only [decodeGroup, value_digit (first_lt a), value_digit (second_lt a b), value_digit (third_lt b c),
    value_digit (fourth_lt c), highByte_first, middleByte_second, lowByte_third]

theorem decodeLast_three :
    decodeLast (digit (first a)) (digit (second a b)) (digit (third b c)) (digit (fourth c)) = some [a, b, c] := by
  rw [decodeLast, if_neg (digit_ne_pad (fourth_lt c)), decodeGroup_digits]

theorem decodeLast_two :
    decodeLast (digit (first a)) (digit (second a b)) (digit (third b 0)) pad = some [a, b] := by
  have hzero : third b 0 % 4 = 0 := Nat.mul_mod_left _ _
  simp only [decodeLast, if_true, if_neg (digit_ne_pad (third_lt b 0)), value_digit (first_lt a),
    value_digit (second_lt a b), value_digit (third_lt b 0), hzero, highByte_first, middleByte_second]

theorem decodeLast_one : decodeLast (digit (first a)) (digit (second a 0)) pad pad = some [a] := by
  have hzero : second a 0 % 16 = 0 := Nat.mul_mod_left _ _
  simp only [decodeLast, if_true, value_digit (first_lt a), value_digit (second_lt a 0), hzero, highByte_first]

end bytes

section sextets

variable {p q r t : Nat}

theorem first_highByte (hp : p < 64) (hq : q < 64) : first (highByte p q) = p := by
  rw [first, highByte, UInt8.toNat_ofNat']
  omega

theorem second_bytes (hq : q < 64) (hr : r < 64) :
    second (highByte p q) (middleByte q r) = q := by
  rw [second, highByte, middleByte, UInt8.toNat_ofNat', UInt8.toNat_ofNat']
  omega

theorem third_bytes (hr : r < 64) (ht : t < 64) : third (middleByte q r) (lowByte r t) = r := by
  rw [third, middleByte, lowByte, UInt8.toNat_ofNat', UInt8.toNat_ofNat']
  omega

theorem fourth_lowByte (ht : t < 64) : fourth (lowByte r t) = t := by
  rw [fourth, lowByte, UInt8.toNat_ofNat']
  omega

theorem second_zero (hq : q < 64) (h : q % 16 = 0) : second (highByte p q) 0 = q := by
  rw [second, highByte, UInt8.toNat_ofNat', UInt8.toNat_zero]
  omega

theorem third_zero (hr : r < 64) (h : r % 4 = 0) : third (middleByte q r) 0 = r := by
  rw [third, middleByte, UInt8.toNat_ofNat', UInt8.toNat_zero]
  omega

end sextets

theorem length_encode (xs : List UInt8) : (encode xs).length = (xs.length + 2) / 3 * 4 := by
  induction xs using encode.induct with
  | case1 => simp [encode]
  | case2 a => simp [encode]
  | case3 a b => simp [encode]
  | case4 a b c rest ih =>
      simp only [encode, List.length_cons, ih]
      omega

theorem encode_eq_nil_iff {xs : List UInt8} : encode xs = [] ↔ xs = [] := by
  rw [← List.length_eq_zero_iff, ← List.length_eq_zero_iff, length_encode]
  omega

theorem length_le_of_pad {xs : List UInt8} {k : Nat} (h : (encode xs)[k]? = some pad) :
    (encode xs).length ≤ k + 2 := by
  induction xs using encode.induct generalizing k with
  | case1 => simp [encode] at h
  | case2 a =>
      rcases k with _ | _ | k
      · simp [encode, digit_ne_pad (first_lt a)] at h
      · simp [encode, digit_ne_pad (second_lt a 0)] at h
      · simp [encode]
  | case3 a b =>
      rcases k with _ | _ | k
      · simp [encode, digit_ne_pad (first_lt a)] at h
      · simp [encode, digit_ne_pad (second_lt a b)] at h
      · simp [encode]
  | case4 a b c rest ih =>
      rw [encode] at h ⊢
      rcases k with _ | _ | _ | _ | k
      · simp [digit_ne_pad (first_lt a)] at h
      · simp [digit_ne_pad (second_lt a b)] at h
      · simp [digit_ne_pad (third_lt b c)] at h
      · simp [digit_ne_pad (fourth_lt c)] at h
      · exact Nat.add_le_add_right (ih h) 4

/-- The encoding of a number of bytes that three does not divide ends in padding. -/
theorem getLast?_encode {xs : List UInt8} (h : xs.length % 3 ≠ 0) : (encode xs).getLast? = some pad := by
  induction xs using encode.induct with
  | case1 => exact absurd rfl h
  | case2 a => simp [encode]
  | case3 a b => simp [encode]
  | case4 a b c rest ih =>
      simp only [List.length_cons] at h
      have hlast := ih (by omega)
      simp [encode, List.getLast?_cons, hlast]

theorem mem_encode {xs : List UInt8} {c : UInt8} (h : c ∈ encode xs) : c = pad ∨ ∃ n < 64, c = digit n := by
  induction xs using encode.induct with
  | case1 => simp [encode] at h
  | case2 a =>
      simp only [encode, List.mem_cons, List.not_mem_nil, or_false] at h
      rcases h with h | h | h | h
      · exact Or.inr ⟨_, first_lt a, h⟩
      · exact Or.inr ⟨_, second_lt a 0, h⟩
      · exact Or.inl h
      · exact Or.inl h
  | case3 a b =>
      simp only [encode, List.mem_cons, List.not_mem_nil, or_false] at h
      rcases h with h | h | h | h
      · exact Or.inr ⟨_, first_lt a, h⟩
      · exact Or.inr ⟨_, second_lt a b, h⟩
      · exact Or.inr ⟨_, third_lt b 0, h⟩
      · exact Or.inl h
  | case4 a b c' rest ih =>
      simp only [encode, List.mem_cons] at h
      rcases h with h | h | h | h | h
      · exact Or.inr ⟨_, first_lt a, h⟩
      · exact Or.inr ⟨_, second_lt a b, h⟩
      · exact Or.inr ⟨_, third_lt b c', h⟩
      · exact Or.inr ⟨_, fourth_lt c', h⟩
      · exact ih h

/-- A byte that is neither padding nor in the alphabet does not occur in an encoding. -/
theorem not_mem_encode {c : UInt8} (hpad : c ≠ pad) (hvalue : value c = none) (xs : List UInt8) : c ∉ encode xs := by
  intro h
  rcases mem_encode h with rfl | ⟨n, hn, rfl⟩
  · exact hpad rfl
  · rw [value_digit hn] at hvalue
    cases hvalue

theorem decode_encode (xs : List UInt8) : decode (encode xs) = some xs := by
  induction xs using encode.induct with
  | case1 => rfl
  | case2 a => simp [encode, decode, decodeLast_one]
  | case3 a b => simp [encode, decode, decodeLast_two]
  | case4 a b c rest ih =>
      rw [encode, decode]
      split
      next h => rw [decodeLast_three, encode_eq_nil_iff.1 h]
      next => simp only [decodeGroup_digits, ih, List.cons_append, List.nil_append]

theorem encode_decodeGroup {w x y z : UInt8} {xs : List UInt8} (h : decodeGroup w x y z = some xs) (ys : List UInt8) :
    encode (xs ++ ys) = w :: x :: y :: z :: encode ys := by
  unfold decodeGroup at h
  split at h
  next p q r t hw hx hy hz =>
    obtain rfl := Option.some.inj h
    obtain ⟨hp, rfl⟩ := digit_of_value hw
    obtain ⟨hq, rfl⟩ := digit_of_value hx
    obtain ⟨hr, rfl⟩ := digit_of_value hy
    obtain ⟨ht, rfl⟩ := digit_of_value hz
    simp only [List.cons_append, List.nil_append, encode, first_highByte hp hq, second_bytes hq hr, third_bytes hr ht,
      fourth_lowByte ht]
  next => cases h

theorem encode_decodeLast {w x y z : UInt8} {xs : List UInt8} (h : decodeLast w x y z = some xs) :
    encode xs = [w, x, y, z] := by
  unfold decodeLast at h
  split at h
  next hz =>
    subst hz
    split at h
    next hy =>
      subst hy
      split at h
      next p q hw hx =>
        split at h
        next hzero =>
          obtain rfl := Option.some.inj h
          obtain ⟨hp, rfl⟩ := digit_of_value hw
          obtain ⟨hq, rfl⟩ := digit_of_value hx
          simp only [encode, first_highByte hp hq, second_zero hq hzero]
        next => cases h
      next => cases h
    next =>
      split at h
      next p q r hw hx hy =>
        split at h
        next hzero =>
          obtain rfl := Option.some.inj h
          obtain ⟨hp, rfl⟩ := digit_of_value hw
          obtain ⟨hq, rfl⟩ := digit_of_value hx
          obtain ⟨hr, rfl⟩ := digit_of_value hy
          simp only [encode, first_highByte hp hq, second_bytes hq hr, third_zero hr hzero]
        next => cases h
      next => cases h
  next =>
    have hall := encode_decodeGroup h []
    rwa [List.append_nil, encode] at hall

/-- A text that is accepted is the encoding of what it is decoded to. -/
theorem encode_of_decode {s xs : List UInt8} (h : decode s = some xs) : encode xs = s := by
  fun_induction decode s generalizing xs with
  | case1 =>
      obtain rfl := Option.some.inj h
      rfl
  | case2 w x y z => exact encode_decodeLast h
  | case3 w x y z rest hrest xs ys hys hxs ih =>
      obtain rfl := Option.some.inj h
      rw [encode_decodeGroup hxs, ih hys]
  | case4 => cases h
  | case5 => cases h

end StudyNotes.Codes.Base64
