import StudyNotes.Mail.Program
import StudyNotes.Codes.Base64

namespace StudyNotes.Mail.Encoding

open Lists.Overwrite Words.CLanguage Codes.Base64 Program

theorem bind_ok {ε σ α β : Type} {x : StateT σ (Except ε) α} {f : α → StateT σ (Except ε) β} {s s' : σ} {a : α}
    (h : x s = .ok (a, s')) : (x >>= f) s = f a s' := by
  simp only [bind, StateT.bind, h, Except.bind]

section bits

variable (a b c : UInt8)

theorem bits_first : a.toNat >>> 2 = first a := Nat.shiftRight_eq_div_pow _ _

theorem bits_second_zero : (a.toNat &&& 0x03) <<< 4 = second a 0 := by
  rw [second, UInt8.toNat_zero, Nat.zero_div, Nat.add_zero, Nat.shiftLeft_eq]
  exact congrArg (· * 2 ^ 4) (Nat.and_two_pow_sub_one_eq_mod a.toNat 2)

theorem bits_second : (a.toNat &&& 0x03) <<< 4 ||| b.toNat >>> 4 = second a b := by
  have hb : b.toNat / 2 ^ 4 < 2 ^ 4 := by
    have := b.toNat_lt
    omega
  have ha : a.toNat &&& 0x03 = a.toNat % 2 ^ 2 := Nat.and_two_pow_sub_one_eq_mod a.toNat 2
  rw [Nat.shiftRight_eq_div_pow, ← Nat.shiftLeft_add_eq_or_of_lt hb, ha, Nat.shiftLeft_eq, second]
  rfl

theorem bits_third_zero : (b.toNat &&& 0x0F) <<< 2 = third b 0 := by
  rw [third, UInt8.toNat_zero, Nat.zero_div, Nat.add_zero, Nat.shiftLeft_eq]
  exact congrArg (· * 2 ^ 2) (Nat.and_two_pow_sub_one_eq_mod b.toNat 4)

theorem bits_third : (b.toNat &&& 0x0F) <<< 2 ||| c.toNat >>> 6 = third b c := by
  have hc : c.toNat / 2 ^ 6 < 2 ^ 2 := by
    have := c.toNat_lt
    omega
  have hb : b.toNat &&& 0x0F = b.toNat % 2 ^ 4 := Nat.and_two_pow_sub_one_eq_mod b.toNat 4
  rw [Nat.shiftRight_eq_div_pow, ← Nat.shiftLeft_add_eq_or_of_lt hc, hb, Nat.shiftLeft_eq, third]
  rfl

theorem bits_fourth : c.toNat &&& 0x3F = fourth c := Nat.and_two_pow_sub_one_eq_mod c.toNat 6

end bits

theorem base64tab_digit {n : Nat} (h : n < 64) : base64tab[n]? = some (digit n) := by
  have hall : ∀ n < 64, base64tab[n]? = some (digit n) := by decide +kernel
  exact hall n h

section calls

variable {inp out bs : List UInt8} {k n : Nat}

theorem byteAt_ok {b : UInt8} (h : inp[k]? = some b) : byteAt inp k out = .ok (b.toNat, out) := by
  rw [byteAt, h]

theorem tabAt_ok (h : n < 64) : tabAt n out = .ok (digit n, out) := by
  rw [tabAt, base64tab_digit h]

theorem putAt_ok (hk : k = bs.length) (h : k < out.length) (b : UInt8) :
    putAt k b (overwrite out 0 bs) = .ok ((), overwrite out 0 (bs ++ [b])) := by
  subst hk
  have hle : 0 + bs.length ≤ out.length := by omega
  have hlen : bs.length < (overwrite out 0 bs).length := by rwa [length_overwrite hle]
  have hnext := overwrite_overwrite hle [b]
  rw [Nat.zero_add] at hnext
  rw [putAt, if_pos hlen, set_eq_overwrite hlen, hnext]

end calls

theorem encodeFrom_group {inp out bs : List UInt8} {ilen ipos : Nat} {a b c : UInt8} (ha : inp[ipos]? = some a)
    (hb : inp[ipos + 1]? = some b) (hc : inp[ipos + 2]? = some c) (hout : bs.length + 4 ≤ out.length) :
    encodeFrom inp (ilen + 3) ipos bs.length (overwrite out 0 bs) =
      encodeFrom inp ilen (ipos + 3) (bs.length + 4) (overwrite out 0
        (bs ++ [digit (first a), digit (second a b), digit (third b c), digit (fourth c)])) := by
  rw [encodeFrom]
  rw [bind_ok (byteAt_ok ha), bits_first, bind_ok (tabAt_ok (first_lt a)), bind_ok (putAt_ok rfl (by omega) _)]
  rw [bind_ok (byteAt_ok ha), bind_ok (byteAt_ok hb), bits_second, bind_ok (tabAt_ok (second_lt a b)),
    bind_ok (putAt_ok (by simp) (by omega) _)]
  rw [bind_ok (byteAt_ok hb), bind_ok (byteAt_ok hc), bits_third, bind_ok (tabAt_ok (third_lt b c)),
    bind_ok (putAt_ok (by simp) (by omega) _)]
  rw [bind_ok (byteAt_ok hc), bits_fourth, bind_ok (tabAt_ok (fourth_lt c)),
    bind_ok (putAt_ok (by simp) (by omega) _)]
  simp only [List.append_assoc, List.cons_append, List.nil_append]

theorem encodeFrom_zero {inp out bs : List UInt8} {ipos : Nat} (hout : bs.length < out.length) :
    encodeFrom inp 0 ipos bs.length (overwrite out 0 bs) = .ok ((), overwrite out 0 (bs ++ [0])) :=
  putAt_ok rfl hout 0

theorem encodeFrom_one {inp out bs : List UInt8} {ipos : Nat} {a : UInt8} (ha : inp[ipos]? = some a)
    (hout : bs.length + 4 < out.length) :
    encodeFrom inp 1 ipos bs.length (overwrite out 0 bs) =
      .ok ((), overwrite out 0 (bs ++ [digit (first a), digit (second a 0), pad, pad, 0])) := by
  rw [encodeFrom, encodeTail, if_neg (by decide), if_pos rfl]
  · rw [bind_ok (byteAt_ok ha), bits_first, bind_ok (tabAt_ok (first_lt a)), bind_ok (putAt_ok rfl (by omega) _)]
    rw [bind_ok (byteAt_ok ha), bits_second_zero, bind_ok (tabAt_ok (second_lt a 0)),
      bind_ok (putAt_ok (by simp) (by omega) _)]
    rw [bind_ok (putAt_ok (by simp) (by omega) _)]
    beta_reduce
    rw [bind_ok (putAt_ok (by simp) (by omega) _), putAt_ok (by simp) (by omega)]
    simp only [List.append_assoc, List.cons_append, List.nil_append]
    rfl
  · simp

theorem encodeFrom_two {inp out bs : List UInt8} {ipos : Nat} {a b : UInt8} (ha : inp[ipos]? = some a)
    (hb : inp[ipos + 1]? = some b) (hout : bs.length + 4 < out.length) :
    encodeFrom inp 2 ipos bs.length (overwrite out 0 bs) =
      .ok ((), overwrite out 0 (bs ++ [digit (first a), digit (second a b), digit (third b 0), pad, 0])) := by
  rw [encodeFrom, encodeTail, if_neg (by decide), if_neg (by decide)]
  · rw [bind_ok (byteAt_ok ha), bits_first, bind_ok (tabAt_ok (first_lt a)), bind_ok (putAt_ok rfl (by omega) _)]
    rw [bind_ok (byteAt_ok ha), bind_ok (byteAt_ok hb), bits_second, bind_ok (tabAt_ok (second_lt a b)),
      bind_ok (putAt_ok (by simp) (by omega) _)]
    rw [bind_ok (byteAt_ok hb), bits_third_zero, bind_ok (tabAt_ok (third_lt b 0)),
      bind_ok (putAt_ok (by simp) (by omega) _)]
    beta_reduce
    rw [bind_ok (putAt_ok (by simp) (by omega) _), putAt_ok (by simp) (by omega)]
    simp only [List.append_assoc, List.cons_append, List.nil_append]
    rfl
  · simp

/-- From a place in the input on, the code writes the encoding of the bytes there and a zero. -/
theorem encodeFrom_ok {inp out bs xs rest : List UInt8} {ipos : Nat} (hin : inp.drop ipos = xs ++ rest)
    (hout : bs.length + (encode xs).length < out.length) :
    encodeFrom inp xs.length ipos bs.length (overwrite out 0 bs) =
      .ok ((), overwrite out 0 (bs ++ (encode xs ++ [0]))) := by
  have hget (k : Nat) : inp[ipos + k]? = (xs ++ rest)[k]? := by rw [← hin, List.getElem?_drop]
  induction xs using encode.induct generalizing ipos bs with
  | case1 => exact encodeFrom_zero hout
  | case2 a => exact encodeFrom_one (hget 0) hout
  | case3 a b => exact encodeFrom_two (hget 0) (hget 1) hout
  | case4 a b c xs ih =>
      rw [encode] at hout ⊢
      simp only [List.length_cons] at hout
      have hroom : bs.length + 4 ≤ out.length := by omega
      have hdrop : inp.drop (ipos + 3) = xs ++ rest := by
        rw [← List.drop_drop, hin]
        rfl
      refine (encodeFrom_group (hget 0) (hget 1) (hget 2) hroom).trans ?_
      generalize hbs : bs ++ [digit (first a), digit (second a b), digit (third b c), digit (fourth c)] = bs'
      have hlen : bs.length + 4 = bs'.length := by rw [← hbs, List.length_append]; rfl
      rw [hlen, ih hdrop (by omega) fun k => by rw [← hdrop, List.getElem?_drop], ← hbs]
      simp only [List.append_assoc, List.cons_append, List.nil_append]

def convlen (ilen : Nat) : Nat := (ilen + 2) / 3 * 4

theorem checked_bind {n : Nat} (h : n < 2 ^ 31) {α : Type} (f : Int → Except Stop α) : checked Stop.overflow n >>= f = f n := by
  rw [checked, if_pos (by omega)]
  rfl

theorem base64Encode_eq {ilen : Nat} (hfit : convlen ilen < 2 ^ 31) (inp out : List UInt8) (outlen : Int) :
    base64Encode inp ilen out outlen =
      if (convlen ilen : Int) ≥ outlen then .ok (-1, out)
      else do
        let (_, out) ← (encodeFrom inp ilen 0 0).run out
        return ((convlen ilen : Int), out) := by
  have hsum : ilen + 2 < 2 ^ 31 := by
    rw [convlen] at hfit
    omega
  have hdiv : ((ilen + 2 : Nat) : Int).tdiv 3 * 4 = (convlen ilen : Int) := by
    rw [Int.tdiv_eq_ediv_of_nonneg (Int.natCast_nonneg _), convlen]
    omega
  refine (checked_bind hsum _).trans ?_
  rw [hdiv]
  exact checked_bind hfit _

theorem base64Encode_short {ilen : Nat} (hfit : convlen ilen < 2 ^ 31) {inp out : List UInt8} {outlen : Int}
    (h : outlen ≤ convlen ilen) : base64Encode inp ilen out outlen = .ok (-1, out) := by
  rw [base64Encode_eq hfit, if_pos h]

theorem length_encode_take {inp : List UInt8} {ilen : Nat} (hin : ilen ≤ inp.length) :
    (encode (inp.take ilen)).length = convlen ilen := by
  rw [length_encode, List.length_take_of_le hin, convlen]

theorem base64Encode_ok {ilen : Nat} (hfit : convlen ilen < 2 ^ 31) {inp out : List UInt8} {outlen : Int}
    (hin : ilen ≤ inp.length) (hout : outlen ≤ out.length) (h : convlen ilen < outlen) :
    base64Encode inp ilen out outlen =
      .ok (convlen ilen, encode (inp.take ilen) ++ 0 :: out.drop (convlen ilen + 1)) := by
  have hlen := length_encode_take hin
  have hroom : ([] : List UInt8).length + (encode (inp.take ilen)).length < out.length := by
    rw [hlen, List.length_nil]
    omega
  have hdrop : inp.drop 0 = inp.take ilen ++ inp.drop ilen := (List.take_append_drop ilen inp).symm
  have hrun := encodeFrom_ok hdrop hroom
  have hstart : overwrite out 0 [] = out := by rw [overwrite_zero, List.nil_append, List.length_nil, List.drop_zero]
  have hend : overwrite out 0 ([] ++ (encode (inp.take ilen) ++ [0])) =
      encode (inp.take ilen) ++ 0 :: out.drop (convlen ilen + 1) := by
    rw [List.nil_append, overwrite_zero, List.length_append, hlen, List.append_assoc]
    rfl
  rw [List.length_take_of_le hin, hstart, hend] at hrun
  rw [base64Encode_eq hfit, if_neg (by omega)]
  exact (congrArg (· >>= _) hrun).trans rfl

/-- base64_encode refuses a buffer that is too short and leaves it as it is. Otherwise it writes the
encoding and a zero and nothing more, it depends on no byte after the first ilen, and decoding
gives these bytes back. -/
theorem base64_encode_correct (inp : List UInt8) (ilen : Nat) (hin : ilen ≤ inp.length)
    (hfit : (ilen + 2) / 3 * 4 < 2 ^ 31) (out : List UInt8) (outlen : Int) (hout : outlen ≤ out.length) :
    (outlen ≤ ((ilen + 2) / 3 * 4 : Nat) → base64Encode inp ilen out outlen = .ok (-1, out)) ∧
    (((ilen + 2) / 3 * 4 : Nat) < outlen → ∃ code, code.length = (ilen + 2) / 3 * 4 ∧
      base64Encode inp ilen out outlen =
        .ok (((ilen + 2) / 3 * 4 : Nat), code ++ 0 :: out.drop ((ilen + 2) / 3 * 4 + 1)) ∧
      decode code = some (inp.take ilen)) ∧
    base64Encode (inp.take ilen) ilen out outlen = base64Encode inp ilen out outlen := by
  refine ⟨base64Encode_short hfit, fun h => ?_, ?_⟩
  · exact ⟨_, length_encode_take hin, base64Encode_ok hfit hin hout h, decode_encode _⟩
  · have hlen : ilen ≤ (inp.take ilen).length := Nat.le_of_eq (List.length_take_of_le hin).symm
    by_cases h : outlen ≤ convlen ilen
    · rw [base64Encode_short hfit h, base64Encode_short hfit h]
    · rw [base64Encode_ok hfit hlen hout (Int.not_le.1 h), base64Encode_ok hfit hin hout (Int.not_le.1 h),
        List.take_take, Nat.min_self]

theorem base64_encode_correct_four :
    base64Encode [77, 97, 110, 33] 4 (List.replicate 10 7) 10 =
      .ok (8, [84, 87, 70, 117, 73, 81, 61, 61, 0, 7]) ∧
    decode [84, 87, 70, 117, 73, 81, 61, 61] = some [77, 97, 110, 33] := by
  obtain ⟨-, hlong, -⟩ := base64_encode_correct [77, 97, 110, 33] 4 (by decide) (by decide) (List.replicate 10 7) 10
    (by decide)
  obtain ⟨code, -, hrun, hdecode⟩ := hlong (by decide)
  have hcode := encode_of_decode hdecode
  subst hcode
  exact ⟨hrun, hdecode⟩

end StudyNotes.Mail.Encoding
