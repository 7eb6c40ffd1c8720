import StudyNotes.Codes.Decimal
import StudyNotes.Http.Program

namespace StudyNotes.Http.Uri

open Program Words.CLanguage Codes.Decimal Words.BasicString Words.Leftmost
open Mail.Program (ascii)

section conversion

theorem toInt_bounds (n : Nat) : -2 ^ 31 ≤ toInt n ∧ toInt n < 2 ^ 31 := by
  have hlow : -(((2 ^ 32 : Nat) : Int) / 2) ≤ toInt n := Int.le_bmod (Nat.two_pow_pos 32)
  have hhigh : toInt n < (((2 ^ 32 : Nat) : Int) + 1) / 2 := Int.bmod_lt (Nat.two_pow_pos 32)
  omega

theorem toInt_of_lt {n : Nat} (h : n < 2 ^ 31) : toInt n = n := Int.bmod_eq_of_le (by omega) (by omega)

theorem toSize_natCast {n : Nat} (h : n < 2 ^ 64) : toSize n = n := by
  rw [toSize, Int.emod_eq_of_lt (Int.natCast_nonneg n) (by omega), Int.toNat_natCast]

theorem le_toSize {n : Int} (hlow : -2 ^ 63 ≤ n) (hneg : n < 0) : 2 ^ 63 ≤ toSize n := by
  have hmod : n % 2 ^ 64 = n + 2 ^ 64 := by
    rw [← Int.add_emod_right, Int.emod_eq_of_lt (by omega) (by omega)]
  rw [toSize, hmod]
  omega

/-- A size that went through an int is a small number or larger than any object. -/
theorem toSize_toInt (n : Nat) : toSize (toInt n) < 2 ^ 31 ∨ 2 ^ 63 ≤ toSize (toInt n) := by
  obtain ⟨hlow, hhigh⟩ := toInt_bounds n
  obtain hneg | hnonneg := lt_or_ge (toInt n) 0
  · exact .inr (le_toSize (by omega) hneg)
  · obtain ⟨m, hm⟩ := Int.eq_ofNat_of_zero_le hnonneg
    rw [hm, toSize_natCast (by omega)]
    exact .inl (by omega)

theorem sub_zero (s : List UInt8) (n : Option Nat) : sub s 0 n = .ok (n.elim s s.take) := by
  rw [sub]
  cases n with
  | none => rw [substr_rest (Nat.zero_le _)]; rfl
  | some n => rw [substr_count (Nat.zero_le _)]; rfl

/-- A position below the length survives as an int only if it is one. -/
theorem length_take_toInt {s : List UInt8} {n : Nat} (hfits : s.length < 2 ^ 63) (hpos : 0 < n) (hn : n < s.length) :
    ((count (toInt n)).elim s s.take).length = n ↔ n < 2 ^ 31 := by
  constructor
  · intro hlen
    by_contra hge
    have hsize := toSize_toInt n
    rw [count] at hlen
    split at hlen
    · rw [Option.elim_none] at hlen
      omega
    · rw [Option.elim_some, List.length_take] at hlen
      omega
  · intro hlt
    rw [toInt_of_lt hlt, count, if_neg (by omega), Option.elim_some, List.length_take, toSize_natCast (by omega)]
    omega

end conversion

section port

/-- The position that is left in find_pos and the digits that are read as the port. Only a colon
whose position is a positive int ends the search. -/
def portSplit : List UInt8 → Nat → Int → Int × List UInt8
  | [], _, findPos => (findPos, [])
  | ch :: rest, i, findPos =>
      if ch = colon then
        if toInt i > 0 then (toInt i, rest.takeWhile isDigit) else portSplit rest (i + 1) (toInt i)
      else portSplit rest (i + 1) findPos

theorem portSplit_append {s : List UInt8} (hs : colon ∉ s) (t : List UInt8) (i : Nat) (findPos : Int) :
    portSplit (s ++ t) i findPos = portSplit t (i + s.length) findPos := by
  induction s generalizing i with
  | nil => rfl
  | cons ch s ih =>
      rw [List.mem_cons, not_or] at hs
      rw [List.cons_append, portSplit, if_neg (Ne.symm hs.1), ih hs.2, List.length_cons, Nat.add_right_comm, Nat.add_assoc]

theorem portSplit_clear {s : List UInt8} (hs : colon ∉ s) (i : Nat) (findPos : Int) :
    portSplit s i findPos = (findPos, []) := by
  rw [← List.append_nil s, portSplit_append hs]
  rfl

theorem notDigit_iff {ch : UInt8} : (ch < 48 ∨ ch > 57) ↔ isDigit ch = false := by
  rw [isDigit, Bool.and_eq_false_iff, decide_eq_false_iff_not, decide_eq_false_iff_not, UInt8.not_le, UInt8.not_le]

theorem addDigit_eq {n : Nat} {ch : UInt8} (hch : isDigit ch = true) :
    addDigit n ch =
      if n * 10 + (ch.toNat - 48) < 2 ^ 31 then .ok ((n * 10 + (ch.toNat - 48) : Nat) : Int) else .error .overflow := by
  have hdigit := isDigit_iff.1 hch
  have hcast : ((n * 10 + (ch.toNat - 48) : Nat) : Int) = (n : Int) * 10 + (ch.toNat - 48) := by omega
  rw [addDigit, hcast]
  by_cases htens : n * 10 < 2 ^ 31
  · rw [checked, if_pos (by omega)]
    change checked _ _ = _
    by_cases hfits : n * 10 + (ch.toNat - 48) < 2 ^ 31
    · rw [checked, if_pos (by omega), if_pos hfits]
    · rw [checked, if_neg (by omega), if_neg hfits]
  · rw [checked, if_neg (by omega), if_neg (by omega)]
    rfl

/-- Behind the colon, the digits are read up to the first other character. -/
theorem portLoop_digits (text : List UInt8) (i : Nat) {findPos : Int} (hpos : findPos > 0) {n : Nat} (hn : n < 2 ^ 31) :
    portLoop text i findPos n =
      if value n (text.takeWhile isDigit) < 2 ^ 31 then .ok (findPos, (value n (text.takeWhile isDigit) : Int))
      else .error .overflow := by
  induction text generalizing i n with
  | nil => exact (if_pos hn).symm
  | cons ch text ih =>
      rw [portLoop, if_pos hpos]
      cases hch : isDigit ch with
      | false =>
          rw [if_pos (notDigit_iff.2 hch), List.takeWhile_cons_of_neg (by rw [hch]; decide)]
          exact (if_pos hn).symm
      | true =>
          have hcolon : ch ≠ colon := by
            rintro rfl
            cases hch
          have hvalue : value n (ch :: text.takeWhile isDigit) =
            value (n * 10 + (ch.toNat - 48)) (text.takeWhile isDigit) := rfl
          rw [if_neg (by rw [notDigit_iff, hch]; decide), List.takeWhile_cons_of_pos hch, hvalue, addDigit_eq hch]
          by_cases hfits : n * 10 + (ch.toNat - 48) < 2 ^ 31
          · rw [if_pos hfits]
            change (if ch = colon then _ else _) = _
            rw [if_neg hcolon]
            exact ih (i + 1) hfits
          · -- More digits do not make the number smaller again.
            have hle := le_value (n * 10 + (ch.toNat - 48)) (text.takeWhile isDigit)
            rw [if_neg hfits, if_neg (by omega)]
            rfl

theorem portLoop_eq (text : List UInt8) (i : Nat) {findPos : Int} (hpos : ¬findPos > 0) :
    portLoop text i findPos 0 =
      if value 0 (portSplit text i findPos).2 < 2 ^ 31 then
        .ok ((portSplit text i findPos).1, (value 0 (portSplit text i findPos).2 : Int))
      else .error .overflow := by
  induction text generalizing i findPos with
  | nil =>
      have hfits : value 0 (portSplit [] i findPos).2 < 2 ^ 31 := Nat.two_pow_pos 31
      rw [if_pos hfits]
      rfl
  | cons ch text ih =>
      rw [portLoop, if_neg hpos, portSplit]
      by_cases hcolon : ch = colon
      · rw [if_pos hcolon, if_pos hcolon]
        by_cases hfound : toInt i > 0
        · simp only [if_pos hfound]
          exact portLoop_digits text (i + 1) hfound (Nat.two_pow_pos 31)
        · rw [if_neg hfound]
          exact ih (i + 1) hfound
      · rw [if_neg hcolon, if_neg hcolon]
        exact ih (i + 1) hpos

end port

section parse

variable {M : Method} {uri p rest : List UInt8}

/-- Host and port: what stands before the first slash. -/
def authority (rest : List UInt8) : List UInt8 := rest.takeWhile (· != slash)

def target (rest : List UInt8) : List UInt8 := rest.dropWhile (· != slash)

theorem authority_append {a b : List UInt8} (ha : slash ∉ a) (hb : b = [] ∨ b.head? = some slash) :
    authority (a ++ b) = a ∧ target (a ++ b) = b := by
  have hall : ∀ ch ∈ a, (ch != slash) = true := fun ch hch => bne_iff_ne.2 (ne_of_mem_of_not_mem hch ha)
  rw [authority, target, List.takeWhile_append_of_pos hall, List.dropWhile_append_of_pos hall]
  obtain rfl | hb := hb
  · exact ⟨List.append_nil a, rfl⟩
  · obtain ⟨b', rfl⟩ := List.head?_eq_some_iff.1 hb
    rw [List.takeWhile_cons_of_neg (by simp), List.dropWhile_cons_of_neg (by simp)]
    exact ⟨List.append_nil a, rfl⟩

/-- The number behind the colon. -/
def portNumber (hostport : List UInt8) : Nat := value 0 (portSplit hostport 0 (-1)).2

def hostOf (hostport : List UInt8) : List UInt8 := (count (portSplit hostport 0 (-1)).1).elim hostport hostport.take

/-- A number that is zero or missing leaves the default. -/
def portOf (port : Int) (hostport : List UInt8) : Int := if portNumber hostport = 0 then port else portNumber hostport

theorem parseHostport_eq (M : Method) (hostport : List UInt8) :
    parseHostport M hostport =
      if portNumber hostport < 2 ^ 31 then .ok { M with host := hostOf hostport, port := portOf M.port hostport }
      else .error .overflow := by
  rw [parseHostport, portLoop_eq hostport 0 (by decide)]
  change (ite (portNumber hostport < 2 ^ 31) _ _ >>= _) = _
  by_cases hfits : portNumber hostport < 2 ^ 31
  · rw [if_pos hfits, if_pos hfits]
    change (sub hostport 0 (count (portSplit hostport 0 (-1)).1) >>= fun host =>
      pure { ite ((portNumber hostport : Int) > 0) { M with port := portNumber hostport } M with host := host }) = _
    rw [sub_zero, portOf]
    by_cases hzero : portNumber hostport = 0
    · have hnone : ¬((portNumber hostport : Int) > 0) := by omega
      simp only [if_pos hzero, if_neg hnone]
      rfl
    · have hsome : (portNumber hostport : Int) > 0 := by omega
      simp only [if_neg hzero, if_pos hsome]
      rfl
  · rw [if_neg hfits, if_neg hfits]
    rfl

theorem parseHostport_lift (M : Method) (hostport : List UInt8) :
    (parseHostport M hostport >>= fun M' => pure (true, M')) =
      if portNumber hostport < 2 ^ 31 then .ok (true, { M with host := hostOf hostport, port := portOf M.port hostport })
      else .error .overflow := by
  rw [parseHostport_eq]
  by_cases hfits : portNumber hostport < 2 ^ 31
  · rw [if_pos hfits, if_pos hfits]
    rfl
  · rw [if_neg hfits, if_neg hfits]
    rfl

theorem length_scheme : (ascii "://").length = 3 := by decide

theorem drop_scheme (hcut : uri.dropInfix? (ascii "://") = some (p, rest)) :
    p.length + 3 ≤ uri.length ∧ uri.drop (p.length + 3) = rest := by
  have hlen : p.length + 3 = (p ++ ascii "://").length := by rw [List.length_append, length_scheme]
  rw [(dropInfix?_eq_some.1 hcut).1, hlen]
  exact ⟨(List.prefix_append _ rest).length_le, List.drop_left⟩

/-- The first slash, if there is one, splits the rest of the text. -/
theorem findChar_slash (hcut : uri.dropInfix? (ascii "://") = some (p, rest)) :
    (findChar uri slash (p.length + 3) = none ∧ authority rest = rest ∧ target rest = []) ∨
      ∃ nlen, findChar uri slash (p.length + 3) = some nlen ∧ sub uri nlen none = .ok (target rest) ∧
        rest.take (nlen - p.length - 3) = authority rest := by
  obtain ⟨hle, hdrop⟩ := drop_scheme hcut
  rw [findChar, hdrop, idxOf?_eq]
  cases hslash : rest.dropInfix? [slash] with
  | none =>
      rw [dropInfix?_eq_none, List.singleton_infix_iff] at hslash
      have hsplit := authority_append (b := []) hslash (.inl rfl)
      rw [List.append_nil] at hsplit
      exact .inl ⟨rfl, hsplit⟩
  | some ab =>
      obtain ⟨a, b⟩ := ab
      obtain ⟨hrest, ha⟩ := dropInfix?_letter.1 hslash
      obtain ⟨hauth, htarget⟩ := authority_append (b := slash :: b) ha (.inr rfl)
      refine .inr ⟨_, rfl, ?_, ?_⟩
      · have hend : p.length + 3 + a.length ≤ uri.length := by
          have hlen := congrArg List.length hdrop
          rw [List.length_drop, hrest, List.length_append] at hlen
          omega
        rw [sub, substr_rest hend, ← List.drop_drop, hdrop, hrest, List.drop_left, htarget]
      · rw [Nat.sub_sub, Nat.add_sub_cancel_left, hrest, hauth]
        exact List.take_left

theorem parseUri_of_cut (hM : M.uri = []) (hcut : uri.dropInfix? (ascii "://") = some (p, rest)) :
    parseUri M uri =
      if portNumber (authority rest) < 2 ^ 31 then
        .ok (true, { M with host := hostOf (authority rest), port := portOf M.port (authority rest), uri := target rest })
      else .error .overflow := by
  obtain ⟨hle, hdrop⟩ := drop_scheme hcut
  have hfind : find uri (ascii "://") 0 = some p.length := by
    rw [find_of_cut (Nat.zero_le _) hcut, Nat.zero_add]
  rw [parseUri, hfind]
  obtain ⟨hnone, hauth, htarget⟩ | ⟨nlen, hsome, htail, hauth⟩ := findChar_slash hcut
  · simp only [hnone, sub, substr_rest hle, hdrop]
    rw [hauth, htarget, ← hM]
    exact parseHostport_lift M rest
  · simp only [hsome, htail]
    simp only [sub, substr_count hle, hdrop, hauth]
    exact parseHostport_lift { M with uri := target rest } (authority rest)

/-- What follows the first scheme mark. -/
def afterScheme (uri : List UInt8) : List UInt8 := ((uri.dropInfix? (ascii "://")).map Prod.snd).getD []

theorem afterScheme_of_cut (hcut : uri.dropInfix? (ascii "://") = some (p, rest)) : afterScheme uri = rest := by
  rw [afterScheme, hcut]
  rfl

theorem parseUri_of_clear (h : ¬ascii "://" <:+: uri) : parseUri M uri = .ok (false, M) := by
  rw [parseUri, find_of_clear h]
  rfl

end parse

end StudyNotes.Http.Uri
