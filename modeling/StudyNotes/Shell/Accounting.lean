import StudyNotes.Shell.Tokens
import Mathlib.Algebra.GroupWithZero.Nat

namespace StudyNotes.Shell.Accounting

open Tokens

/-- Every byte of the input pays two, for itself in a token or for its part in what separates tokens
and quotes their bytes. A token is paid when it ends. -/
def price : Token → Nat
  | .word text | .number text => 2 * text.length + 1
  | .operator text => 2 * (text.length - 1) + 1

def prices (ts : List Token) : Nat := (ts.map price).sum

/-- What is left over for the token at hand. -/
def worth : Reading → Nat
  | .unquoted place => placeWorth place
  | .escape place => placeWorth place + 2
  | .dollar text | .single text | .double text => 2 * text.length + 2
  | .doubleEscape text | .doubleDollar text => 2 * text.length + 4
  | .comment => 2
where
  placeWorth : Place → Nat
    | .between => 0
    | .word text _ => 2 * text.length
    | .operator text => 2 * (text.length - 1) + 1

section worth

variable (text : List UInt8)

@[simp] theorem worth_between : worth (.unquoted .between) = 0 := rfl

@[simp] theorem worth_word (bare : Bool) : worth (.unquoted (.word text bare)) = 2 * text.length := rfl

@[simp] theorem worth_operator : worth (.unquoted (.operator text)) = 2 * (text.length - 1) + 1 := rfl

@[simp] theorem worth_escape (place : Place) : worth (.escape place) = worth (.unquoted place) + 2 := rfl

@[simp] theorem worth_dollar : worth (.dollar text) = 2 * text.length + 2 := rfl

@[simp] theorem worth_single : worth (.single text) = 2 * text.length + 2 := rfl

@[simp] theorem worth_double : worth (.double text) = 2 * text.length + 2 := rfl

@[simp] theorem worth_doubleEscape : worth (.doubleEscape text) = 2 * text.length + 4 := rfl

@[simp] theorem worth_doubleDollar : worth (.doubleDollar text) = 2 * text.length + 4 := rfl

@[simp] theorem worth_comment : worth .comment = 2 := rfl

end worth

@[simp] theorem prices_nil : prices [] = 0 := rfl

@[simp] theorem prices_singleton (t : Token) : prices [t] = price t := by simp [prices]

theorem prices_append (ts us : List Token) : prices (ts ++ us) = prices ts + prices us := by
  simp [prices]

theorem prices_pos {ts : List Token} (h : ts ≠ []) : 0 < prices ts := by
  cases ts with
  | nil => exact absurd rfl h
  | cons t ts =>
      have ht : 0 < price t := by cases t <;> exact Nat.succ_pos _
      rw [prices, List.map_cons, List.sum_cons]
      omega

theorem price_le {t : Token} {ts : List Token} (h : t ∈ ts) : price t ≤ prices ts := by
  obtain ⟨a, b, rfl⟩ := List.append_of_mem h
  simp only [prices, List.map_append, List.map_cons, List.sum_append, List.sum_cons]
  omega

theorem place_pending (place : Place) :
    prices place.pending + 2 * place.text.length ≤ worth (.unquoted place) := by
  cases place <;> simp [price, Place.pending, Place.text]

theorem place_close (place : Place) (next : Option UInt8) :
    prices (place.close next) ≤ worth (.unquoted place) + 1 := by
  cases place with
  | between => simp [Place.close]
  | word text bare =>
      rw [Place.close]
      split <;> simp [price]
  | operator text => simp [price, Place.close]

/-- What an unquoted byte can do. -/
theorem step_unquoted {place : Place} {c : UInt8} {ts : List Token} {r : Reading}
    (h : step (.unquoted place) c = .ok (ts, r)) :
    c = backslash ∧ ts = [] ∧ r = .escape place ∨
    (∃ text, place = .operator text ∧ ts = [] ∧ r = .unquoted (.operator (text ++ [c]))) ∨
    ts = place.pending ∧ (r = .single place.text ∨ r = .double place.text ∨ r = .dollar place.text ∨ r = .comment ∨
      r = .unquoted (.word (place.text ++ [c]) place.bare)) ∨
    ts = place.close (some c) ∧ ([c] ∈ operators ∧ r = .unquoted (.operator [c]) ∨
      c ∈ blanks ∧ r = .unquoted .between) := by
  simp only [step] at h
  by_cases hback : c = backslash
  · rw [if_pos hback] at h
    cases h
    exact Or.inl ⟨hback, rfl, rfl⟩
  · rw [if_neg hback] at h
    cases hext : place.extend? c with
    | some longer =>
        rw [hext] at h
        cases h
        cases place with
        | operator text =>
            rw [Place.extend?] at hext
            split at hext <;> cases hext
            exact Or.inr (Or.inl ⟨text, rfl, rfl, rfl⟩)
        | between | word => cases hext
    | none =>
        rw [hext] at h
        refine Or.inr (Or.inr ?_)
        dsimp only at h
        split_ifs at h <;> cases h <;> simp [*]

theorem step_worth {r r' : Reading} {c : UInt8} {ts : List Token} (h : step r c = .ok (ts, r')) :
    prices ts + worth r' ≤ worth r + 2 := by
  cases r with
  | unquoted place =>
      have hpending := place_pending place
      have hclose := place_close place (some c)
      rcases step_unquoted h with ⟨-, rfl, rfl⟩ | ⟨text, rfl, rfl, rfl⟩ | ⟨rfl, rfl | rfl | rfl | rfl | rfl⟩ |
        ⟨rfl, ⟨-, rfl⟩ | ⟨-, rfl⟩⟩
      all_goals simp at *
      all_goals omega
  | escape place =>
      have hpending := place_pending place
      simp only [step] at h
      split at h <;> cases h <;> simp at * <;> omega
  | dollar text =>
      simp only [step] at h
      split_ifs at h <;> cases h <;> simp [price] <;> omega
  | single text | double text | doubleEscape text | doubleDollar text =>
      simp only [step] at h
      split_ifs at h <;> cases h <;> simp <;> omega
  | comment =>
      simp only [step] at h
      split_ifs at h <;> cases h <;> simp

theorem reads_worth {r r' : Reading} {x : List UInt8} {ts : List Token} (h : Reads r x ts r') :
    prices ts + worth r' ≤ worth r + 2 * x.length := by
  induction x generalizing r ts with
  | nil =>
      obtain ⟨rfl, rfl⟩ := reads_nil_iff.1 h
      simp
  | cons c x ih =>
      obtain ⟨us, r₁, vs, hstep, hrest, rfl⟩ := reads_cons_iff.1 h
      have hc := step_worth hstep
      have hx := ih hrest
      rw [prices_append, List.length_cons]
      omega

/-- A byte that pays for nothing, and what it leaves to pay with. -/
theorem reads_silent {r r' : Reading} {c : UInt8} {x : List UInt8} (h : Reads r (c :: x) [] r') :
    ∃ r₁, step r c = .ok ([], r₁) ∧ Reads r₁ x [] r' ∧ worth r' ≤ worth r₁ + 2 * x.length := by
  obtain ⟨us, r₁, vs, hstep, hrest, hnil⟩ := reads_cons_iff.1 h
  obtain ⟨rfl, rfl⟩ := List.append_eq_nil_iff.1 hnil.symm
  have hle := reads_worth hrest
  rw [prices_nil, Nat.zero_add] at hle
  exact ⟨r₁, hstep, hrest, hle⟩

def Quoted : Reading → Prop
  | .single _ | .double _ | .doubleEscape _ | .doubleDollar _ => True
  | .unquoted _ | .escape _ | .dollar _ | .comment => False

theorem step_quoted {r r' : Reading} {c : UInt8} {ts : List Token} (hr : Quoted r) (h : step r c = .ok (ts, r')) :
    ts = [] ∧ (Quoted r' ∨ ∃ text, r' = .unquoted (.word text false) ∧ worth r = 2 * text.length + 2) := by
  cases r with
  | single text | double text | doubleEscape text | doubleDollar text =>
      simp only [step] at h
      split_ifs at h <;> cases h <;> simp [Quoted]
      try omega
  | unquoted | escape | dollar | comment => exact hr.elim

/-- A closing quote pays nothing, and neither does the quote that it closes. -/
theorem reads_quoted {r r' : Reading} {x : List UInt8} {ts : List Token} (hr : Quoted r) (h : Reads r x ts r') :
    ts = [] ∧ Quoted r' ∨ prices ts + worth r' + 4 ≤ worth r + 2 * x.length := by
  induction x generalizing r ts with
  | nil =>
      obtain ⟨rfl, rfl⟩ := reads_nil_iff.1 h
      exact Or.inl ⟨rfl, hr⟩
  | cons c x ih =>
      obtain ⟨us, r₁, vs, hstep, hrest, rfl⟩ := reads_cons_iff.1 h
      have hc := step_worth hstep
      obtain ⟨rfl, hquoted | ⟨text, rfl, hworth⟩⟩ := step_quoted hr hstep
      · rcases ih hquoted hrest with ⟨rfl, hr'⟩ | hle
        · exact Or.inl ⟨rfl, hr'⟩
        · refine Or.inr ?_
          simp only [prices_nil, List.nil_append, List.length_cons] at hc hle ⊢
          omega
      · have hx := reads_worth hrest
        refine Or.inr ?_
        simp only [worth_word, List.nil_append, List.length_cons] at hx ⊢
        omega

theorem step_operator {c : UInt8} (hc : [c] ∈ operators) :
    step (.unquoted .between) c = .ok ([], .unquoted (.operator [c])) := by
  simp only [operators, List.mem_cons, List.cons.injEq, reduceCtorEq, and_false, and_true, false_or, or_false,
    List.not_mem_nil] at hc
  rcases hc with rfl | rfl | rfl | rfl | rfl | rfl | rfl | rfl <;> rfl

theorem finish_word (text : List UInt8) (bare : Bool) :
    finish (.unquoted (.word text bare)) = .ok [.word text] := by
  simp [finish, Place.close]

theorem finish_length {r : Reading} {ts : List Token} (h : finish r = .ok ts) : ts.length ≤ 1 := by
  cases r with
  | unquoted place =>
      cases h
      cases place with
      | word text bare => rw [Place.close]; split <;> simp
      | between | operator => simp [Place.close]
  | dollar | comment =>
      cases h
      simp
  | escape | single | double | doubleEscape | doubleDollar => cases h

/-- A byte ends at most one token. If it ends a word, it is a blank or starts an operator. -/
theorem step_emits {r r' : Reading} {c : UInt8} {ts : List Token} (h : step r c = .ok (ts, r')) :
    ts = [] ∨ ∃ t, ts = [t] ∧ ∀ text, t = .word text → finish r = .ok [.word text] ∧
      (r' = .unquoted .between ∨ step (.unquoted .between) c = .ok ([], r')) := by
  have hpending (place : Place) : place.pending = [] ∨ ∃ text, place.pending = [.operator text] := by
    cases place <;> simp [Place.pending]
  cases r with
  | unquoted place =>
      rcases step_unquoted h with ⟨-, rfl, -⟩ | ⟨text, -, rfl, -⟩ | ⟨rfl, -⟩ | ⟨rfl, hend⟩
      · exact Or.inl rfl
      · exact Or.inl rfl
      · rcases hpending place with hp | ⟨text, hp⟩
        · exact Or.inl hp
        · exact Or.inr ⟨_, hp, by simp⟩
      · cases place with
        | between => exact Or.inl rfl
        | operator text => exact Or.inr ⟨_, rfl, by simp⟩
        | word text bare =>
            rw [Place.close]
            split
            · exact Or.inr ⟨_, rfl, by simp⟩
            · refine Or.inr ⟨_, rfl, ?_⟩
              rintro _ ⟨⟩
              refine ⟨finish_word text bare, ?_⟩
              rcases hend with ⟨hc, rfl⟩ | ⟨-, rfl⟩
              · exact Or.inr (step_operator hc)
              · exact Or.inl rfl
  | escape place =>
      have hts : ts = [] ∨ ts = place.pending := by
        simp only [step] at h
        split at h <;> cases h <;> simp
      rcases hts with rfl | rfl
      · exact Or.inl rfl
      · rcases hpending place with hp | ⟨text, hp⟩
        · exact Or.inl hp
        · exact Or.inr ⟨_, hp, by simp⟩
  | dollar text =>
      simp only [step] at h
      split_ifs at h with hblank hnewline <;> cases h
      · refine Or.inr ⟨_, rfl, ?_⟩
        rintro _ ⟨⟩
        exact ⟨rfl, Or.inl rfl⟩
      · refine Or.inr ⟨_, rfl, ?_⟩
        rintro _ ⟨⟩
        subst hnewline
        exact ⟨rfl, Or.inr rfl⟩
  | single text | double text | doubleEscape text | doubleDollar text =>
      refine Or.inl (step_quoted ?_ h).1
      trivial
  | comment =>
      cases h
      exact Or.inl rfl

/-- Where a word ends, the rest of the input gives the rest of the tokens. -/
theorem yields_split {r : Reading} {x : List UInt8} {ts us : List Token} {text : List UInt8}
    (h : Yields r x (ts ++ .word text :: us)) :
    ∃ x₁ rest r', x = x₁ ++ rest ∧ Reads r x₁ ts r' ∧ finish r' = .ok [.word text] ∧
      (rest = [] ∧ us = [] ∨ ∃ c rest', rest = c :: rest' ∧
        (Yields (.unquoted .between) rest' us ∨ Yields (.unquoted .between) rest us)) := by
  induction x generalizing r ts with
  | nil =>
      rw [yields_nil_iff] at h
      have hlength := finish_length h
      simp only [List.length_append, List.length_cons] at hlength
      obtain rfl : ts = [] := List.length_eq_zero_iff.1 (by omega)
      obtain rfl : us = [] := List.length_eq_zero_iff.1 (by omega)
      exact ⟨[], [], r, rfl, Reads.nil, h, Or.inl ⟨rfl, rfl⟩⟩
  | cons c x ih =>
      obtain ⟨vs, r₁, ws, hstep, hrest, heq⟩ := yields_cons_iff.1 h
      rcases step_emits hstep with rfl | ⟨t, rfl, ht⟩
      · rw [List.nil_append] at heq
        subst heq
        obtain ⟨x₁, rest, r', rfl, hread, hend⟩ := ih hrest
        exact ⟨c :: x₁, rest, r', rfl, Reads.cons hstep hread, hend⟩
      · cases ts with
        | nil =>
            rw [List.nil_append, List.singleton_append, List.cons.injEq] at heq
            obtain ⟨rfl, rfl⟩ := heq
            obtain ⟨hfinish, hnext⟩ := ht text rfl
            refine ⟨[], c :: x, r, rfl, Reads.nil, hfinish, Or.inr ⟨c, x, rfl, ?_⟩⟩
            rcases hnext with rfl | hnext
            · exact Or.inl hrest
            · exact Or.inr (yields_cons_iff.2 ⟨[], r₁, us, hnext, hrest, rfl⟩)
        | cons t' ts =>
            rw [List.cons_append, List.singleton_append, List.cons.injEq] at heq
            obtain ⟨rfl, rfl⟩ := heq
            obtain ⟨x₁, rest, r', rfl, hread, hend⟩ := ih hrest
            exact ⟨c :: x₁, rest, r', rfl, Reads.cons hstep hread, hend⟩

end StudyNotes.Shell.Accounting
