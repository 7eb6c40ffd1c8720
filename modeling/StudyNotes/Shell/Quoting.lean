import StudyNotes.Shell.Accounting

namespace StudyNotes.Shell.Quoting

open Tokens Accounting

/-- The bytes that stand for themselves only when they are quoted. -/
def special : List UInt8 :=
  [9, 10, 32, 34, 35, 36, 38, 39, 40, 41, 42, 59, 60, 62, 63, 91, 92, 96, 124, 126]

/-- What stands for itself between quotation marks. -/
structure Inert (v : List UInt8) : Prop where
  noQuotation : quotationMark ∉ v
  noGrave : grave ∉ v
  noEscape : ∀ c ∈ [newline, dollar, backslash], ¬[backslash, c] <:+: v
  noLast : ¬[backslash] <:+ v
  noExpansion : ∀ c ∈ v, [dollar, c] <:+: v → c ∈ blanks ∨ c = newline

instance (v : List UInt8) : Decidable (Inert v) :=
  haveI : Decidable (∀ c ∈ [newline, dollar, backslash], ¬[backslash, c] <:+: v) := List.decidableBAll _ _
  haveI : Decidable (∀ c ∈ v, [dollar, c] <:+: v → c ∈ blanks ∨ c = newline) := List.decidableBAll _ _
  decidable_of_iff (quotationMark ∉ v ∧ grave ∉ v ∧ (∀ c ∈ [newline, dollar, backslash], ¬[backslash, c] <:+: v) ∧
    ¬[backslash] <:+ v ∧ ∀ c ∈ v, [dollar, c] <:+: v → c ∈ blanks ∨ c = newline)
    ⟨fun ⟨h₁, h₂, h₃, h₄, h₅⟩ => ⟨h₁, h₂, h₃, h₄, h₅⟩, fun ⟨h₁, h₂, h₃, h₄, h₅⟩ => ⟨h₁, h₂, h₃, h₄, h₅⟩⟩

theorem pair_infix_cons {a b c : UInt8} {v : List UInt8} :
    [a, b] <:+: c :: v ↔ c = a ∧ v.head? = some b ∨ [a, b] <:+: v := by
  have hhead : [b] <+: v ↔ v.head? = some b := by
    cases v <;> simp [List.cons_prefix_cons, eq_comm]
  rw [List.infix_cons_iff, List.cons_prefix_cons, hhead, eq_comm]

/-- The bytes between quotation marks, one after the other. -/
theorem inert_cons_iff {c : UInt8} {v : List UInt8} :
    Inert (c :: v) ↔ c ≠ quotationMark ∧ c ≠ grave ∧
      (c = backslash → ∃ d, v.head? = some d ∧ d ∉ [newline, dollar, backslash]) ∧
      (c = dollar → ∀ d, v.head? = some d → d ∈ blanks ∨ d = newline) ∧ Inert v := by
  constructor
  · intro h
    refine ⟨fun hc => h.noQuotation (by simp [hc]), fun hc => h.noGrave (by simp [hc]), fun hc => ?_, fun hc d hd => ?_,
      ?_, ?_, ?_, ?_, ?_⟩
    · cases v with
      | nil => exact absurd (hc ▸ List.suffix_rfl) h.noLast
      | cons d v => exact ⟨d, rfl, fun hd => h.noEscape d hd (pair_infix_cons.2 (Or.inl ⟨hc, rfl⟩))⟩
    · exact h.noExpansion d (List.mem_cons_of_mem c (List.mem_of_head? hd)) (pair_infix_cons.2 (Or.inl ⟨hc, hd⟩))
    · exact fun hmem => h.noQuotation (List.mem_cons_of_mem c hmem)
    · exact fun hmem => h.noGrave (List.mem_cons_of_mem c hmem)
    · exact fun d hd hin => h.noEscape d hd (pair_infix_cons.2 (Or.inr hin))
    · exact fun hlast => h.noLast (hlast.trans (List.suffix_cons c v))
    · exact fun d hd hin => h.noExpansion d (List.mem_cons_of_mem c hd) (pair_infix_cons.2 (Or.inr hin))
  · rintro ⟨hquotation, hgrave, hescape, hexpansion, h⟩
    constructor
    · exact List.not_mem_cons_of_ne_of_not_mem hquotation.symm h.noQuotation
    · exact List.not_mem_cons_of_ne_of_not_mem hgrave.symm h.noGrave
    · intro d hd hin
      rcases pair_infix_cons.1 hin with ⟨hc, hhead⟩ | hin
      · obtain ⟨d', hd', hnot⟩ := hescape hc
        rw [hhead] at hd'
        cases hd'
        exact hnot hd
      · exact h.noEscape d hd hin
    · intro hlast
      rcases List.suffix_cons_iff.1 hlast with heq | hlast
      · cases heq
        obtain ⟨d, hd, -⟩ := hescape rfl
        cases hd
      · exact h.noLast hlast
    · intro d _ hin
      rcases pair_infix_cons.1 hin with ⟨hc, hhead⟩ | hin
      · exact hexpansion hc d hhead
      · exact h.noExpansion d (hin.mem (by simp)) hin

theorem inert_nil : Inert [] := by decide

/-- The pieces in which a text between quotation marks is read. -/
inductive Pieces : List UInt8 → Prop
  | nil : Pieces []
  | last : Pieces [dollar]
  | dollar {d : UInt8} {v : List UInt8} (hd : d ∈ blanks ∨ d = newline) (hv : Pieces v) : Pieces (dollar :: d :: v)
  | escape {d : UInt8} {v : List UInt8} (hd : d ∉ [newline, dollar, grave, quotationMark, backslash]) (hv : Pieces v) :
      Pieces (backslash :: d :: v)
  | byte {c : UInt8} {v : List UInt8} (hc : c ∉ [quotationMark, backslash, dollar, grave]) (hv : Pieces v) :
      Pieces (c :: v)

theorem ne_of_blank {d : UInt8} (h : d ∈ blanks ∨ d = newline) :
    d ≠ quotationMark ∧ d ≠ grave ∧ d ≠ backslash ∧ d ≠ dollar := by
  simp only [blanks, List.mem_cons, List.not_mem_nil, or_false] at h
  rcases h with (rfl | rfl) | rfl <;> decide

theorem Pieces.inert {v : List UInt8} (h : Pieces v) : Inert v := by
  induction h with
  | nil => exact inert_nil
  | last => exact inert_cons_iff.2 ⟨by decide, by decide, by decide, by simp, inert_nil⟩
  | dollar hd _ ih =>
      obtain ⟨hquotation, hgrave, hback, hdollar⟩ := ne_of_blank hd
      have htail := inert_cons_iff.2 ⟨hquotation, hgrave, fun h => absurd h hback, fun h => absurd h hdollar, ih⟩
      refine inert_cons_iff.2 ⟨by decide, by decide, fun h => absurd h (by decide), fun _ d' hd' => ?_, htail⟩
      cases hd'
      exact hd
  | escape hd _ ih =>
      simp only [List.mem_cons, List.not_mem_nil, or_false, not_or] at hd
      obtain ⟨hnewline, hdollar, hgrave, hquotation, hback⟩ := hd
      have htail := inert_cons_iff.2 ⟨hquotation, hgrave, fun h => absurd h hback, fun h => absurd h hdollar, ih⟩
      refine inert_cons_iff.2 ⟨by decide, by decide, fun _ => ⟨_, rfl, ?_⟩, fun h => absurd h (by decide), htail⟩
      simp [hnewline, hdollar, hback]
  | byte hc _ ih =>
      simp only [List.mem_cons, List.not_mem_nil, or_false, not_or] at hc
      obtain ⟨hquotation, hback, hdollar, hgrave⟩ := hc
      exact inert_cons_iff.2 ⟨hquotation, hgrave, fun h => absurd h hback, fun h => absurd h hdollar, ih⟩

theorem Inert.pieces {v : List UInt8} (h : Inert v) : Pieces v := by
  -- a backslash or dollar is read together with the byte behind it
  induction hlength : v.length using Nat.strong_induction_on generalizing v with
  | _ n ih =>
      cases v with
      | nil => exact .nil
      | cons c v =>
          obtain ⟨hquotation, hgrave, hescape, hexpansion, htail⟩ := inert_cons_iff.1 h
          rw [List.length_cons] at hlength
          by_cases hback : c = backslash
          · subst hback
            obtain ⟨d, hd, hnot⟩ := hescape rfl
            obtain ⟨rest, rfl⟩ := List.head?_eq_some_iff.1 hd
            obtain ⟨hq, hg, -, -, hrest⟩ := inert_cons_iff.1 htail
            rw [List.length_cons] at hlength
            refine .escape ?_ (ih rest.length (by omega) hrest rfl)
            simp only [List.mem_cons, List.not_mem_nil, or_false, not_or] at hnot ⊢
            exact ⟨hnot.1, hnot.2.1, hg, hq, hnot.2.2⟩
          · by_cases hdollar : c = dollar
            · subst hdollar
              cases v with
              | nil => exact .last
              | cons d rest =>
                  rw [List.length_cons] at hlength
                  have hrest := (inert_cons_iff.1 htail).2.2.2.2
                  exact .dollar (hexpansion rfl d rfl) (ih rest.length (by omega) hrest rfl)
            · refine .byte ?_ (ih v.length (by omega) htail rfl)
              simp [hquotation, hback, hdollar, hgrave]

inductive Mark
  | apostrophe
  | quotation
  deriving DecidableEq

namespace Mark

def byte : Mark → UInt8
  | .apostrophe => Tokens.apostrophe
  | .quotation => quotationMark

/-- The reading after the mark, in a word that has begun. -/
def opened : Mark → List UInt8 → Reading
  | .apostrophe, text => .single text
  | .quotation, text => .double text

/-- What stands for itself between two such marks. -/
def Keeps : Mark → List UInt8 → Prop
  | .apostrophe, v => Tokens.apostrophe ∉ v
  | .quotation, v => Inert v

theorem quoted_opened (mark : Mark) (text : List UInt8) : Quoted (mark.opened text) := by
  cases mark <;> trivial

theorem worth_opened (mark : Mark) (text : List UInt8) : worth (mark.opened text) = 2 * text.length + 2 := by
  cases mark <;> rfl

end Mark

section reading

variable {place : Place}

theorem step_plain (hplace : place.pending = []) {c : UInt8} (hc : c ∉ special) :
    step (.unquoted place) c = .ok ([], .unquoted (.word (place.text ++ [c]) place.bare)) := by
  simp only [special, List.mem_cons, List.not_mem_nil, or_false, not_or] at hc
  cases place with
  | operator => cases hplace
  | between | word =>
      simp [step, Place.extend?, Place.pending, Place.inWord, operators, blanks, patterns, newline, quotationMark,
        dollar, apostrophe, backslash, grave, hc]

theorem reads_plain (hplace : place.pending = []) {v : List UInt8} (hne : v ≠ []) (hv : ∀ c ∈ v, c ∉ special) :
    Reads (.unquoted place) v [] (.unquoted (.word (place.text ++ v) place.bare)) := by
  induction v generalizing place with
  | nil => exact absurd rfl hne
  | cons c v ih =>
      have hstep := step_plain hplace (hv c List.mem_cons_self)
      by_cases hnil : v = []
      · rw [hnil]
        exact Reads.step hstep
      · have hrest : Reads (.unquoted (.word (place.text ++ [c]) place.bare)) v []
            (.unquoted (.word (place.text ++ [c] ++ v) place.bare)) :=
          ih rfl hnil fun d hd => hv d (List.mem_cons_of_mem c hd)
        rw [List.append_assoc, List.singleton_append] at hrest
        exact Reads.cons hstep hrest

theorem extend?_eq_none {c : UInt8} (hc : ∀ o ∈ operators, c ∉ o) (place : Place) : place.extend? c = none := by
  cases place with
  | operator text => exact if_neg fun h => hc _ h (by simp)
  | between | word => rfl

theorem step_mark (place : Place) (mark : Mark) :
    step (.unquoted place) mark.byte = .ok (place.pending, mark.opened place.text) := by
  have hnone : place.extend? mark.byte = none := extend?_eq_none (by cases mark <;> decide) place
  simp only [step, hnone]
  cases mark <;> rfl

/-- A word that begins as it stands goes on between marks. -/
theorem reads_opened (mark : Mark) {lead : List UInt8} (hlead : ∀ c ∈ lead, c ∉ special) :
    Reads (.unquoted .between) (lead ++ [mark.byte]) [] (mark.opened lead) := by
  by_cases hnil : lead = []
  · subst hnil
    exact Reads.step (step_mark _ mark)
  · exact (reads_plain rfl hnil hlead).append (Reads.step (step_mark _ mark))

theorem step_blank (place : Place) :
    step (.unquoted place) 32 = .ok (place.close (some 32), .unquoted .between) := by
  simp only [step, extend?_eq_none (by decide : ∀ o ∈ operators, (32 : UInt8) ∉ o) place]
  rfl

end reading

theorem reads_single {v : List UInt8} (hv : apostrophe ∉ v) (t : List UInt8) :
    Reads (.single t) (v ++ [apostrophe]) [] (.unquoted (.word (t ++ v) false)) := by
  induction v generalizing t with
  | nil =>
      rw [List.append_nil]
      exact Reads.step rfl
  | cons c v ih =>
      rw [List.mem_cons, not_or] at hv
      have hrest := ih hv.2 (t ++ [c])
      rw [List.append_assoc, List.singleton_append] at hrest
      have hstep : step (.single t) c = .ok ([], .single (t ++ [c])) := by simp only [step, if_neg (Ne.symm hv.1)]
      exact Reads.cons hstep hrest

theorem reads_double {v : List UInt8} (hv : Pieces v) (t : List UInt8) :
    Reads (.double t) (v ++ [quotationMark]) [] (.unquoted (.word (t ++ v) false)) := by
  have hdollar (t : List UInt8) : step (.double t) dollar = .ok ([], .doubleDollar t) := rfl
  have hback (t : List UInt8) : step (.double t) backslash = .ok ([], .doubleEscape t) := rfl
  induction hv generalizing t with
  | nil =>
      rw [List.append_nil]
      exact Reads.step rfl
  | last => exact Reads.cons (hdollar t) (Reads.step rfl)
  | @dollar d v hd _ ih =>
      have hread := ih (t ++ [dollar, d])
      rw [List.append_assoc] at hread
      have hstep : step (.doubleDollar t) d = .ok ([], .double (t ++ [dollar, d])) := by
        simp only [step, if_neg (ne_of_blank hd).1, if_pos hd]
      exact Reads.cons (hdollar t) (Reads.cons hstep hread)
  | @escape d v hd _ ih =>
      have hread := ih (t ++ [backslash, d])
      rw [List.append_assoc] at hread
      have hstep : step (.doubleEscape t) d = .ok ([], .double (t ++ [backslash, d])) := by
        simp only [List.mem_cons, List.not_mem_nil, or_false, not_or] at hd
        simp [step, hd]
      exact Reads.cons (hback t) (Reads.cons hstep hread)
  | @byte c v hc _ ih =>
      have hread := ih (t ++ [c])
      rw [List.append_assoc, List.singleton_append] at hread
      have hstep : step (.double t) c = .ok ([], .double (t ++ [c])) := by
        simp only [List.mem_cons, List.not_mem_nil, or_false, not_or] at hc
        simp [step, hc]
      exact Reads.cons hstep hread

theorem reads_keeps {mark : Mark} {v : List UInt8} (hv : mark.Keeps v) (t : List UInt8) :
    Reads (mark.opened t) (v ++ [mark.byte]) [] (.unquoted (.word (t ++ v) false)) := by
  cases mark with
  | apostrophe => exact reads_single hv t
  | quotation => exact reads_double (Inert.pieces hv) t

/-- A text without quotes that is read as its tokens, and of which no proper end is. -/
structure Rigid (text : List UInt8) (ts : List Token) : Prop where
  nonempty : text ≠ [] ∧ ts ≠ []
  reads (x : List UInt8) (hx : x <:+ text) (hne : x ≠ []) :
    ∃ us place, Reads (.unquoted .between) x us (.unquoted place) ∧
      (us ++ place.close (some 32)).length ≤ ts.length ∧ (us ++ place.close (some 32) = ts ↔ x = text)

theorem close_word (text : List UInt8) (bare : Bool) : (Place.word text bare).close (some 32) = [.word text] := by
  simp [Place.close]

theorem rigid_plain {v : List UInt8} (hne : v ≠ []) (hv : ∀ c ∈ v, c ∉ special) : Rigid v [.word v] where
  nonempty := ⟨hne, List.cons_ne_nil _ _⟩
  reads x hx hx' := by
    refine ⟨[], _, reads_plain rfl hx' fun c hc => hv c (hx.subset hc), ?_, ?_⟩
    · simp [close_word]
    · simp [close_word, Place.text]

theorem rigid_operator {c : UInt8} (hc : [c] ∈ operators) : Rigid [c] [.operator [c]] where
  nonempty := ⟨List.cons_ne_nil _ _, List.cons_ne_nil _ _⟩
  reads x hx hne := by
    obtain rfl : x = [c] := by
      rcases List.suffix_cons_iff.1 hx with rfl | hx
      · rfl
      · exact absurd (List.suffix_nil.1 hx) hne
    exact ⟨[], _, Reads.step (step_operator hc), by simp [Place.close], by simp [Place.close]⟩

/-- The parts of a command line that is put together: fixed text, or a value between marks behind a
fixed beginning of its word. -/
inductive Item
  | fixed (text : List UInt8) (tokens : List Token)
  | quoted (mark : Mark) (lead value : List UInt8)

namespace Item

def render : Item → List UInt8
  | .fixed text _ => text
  | .quoted mark lead value => lead ++ mark.byte :: (value ++ [mark.byte])

def tokens : Item → List Token
  | .fixed _ ts => ts
  | .quoted _ lead value => [.word (lead ++ value)]

def Sound : Item → Prop
  | .fixed text ts => Rigid text ts
  | .quoted _ lead _ => ∀ c ∈ lead, c ∉ special

def Safe : Item → Prop
  | .fixed _ _ => True
  | .quoted mark _ value => mark.Keeps value

end Item

/-- The line of the parts, with blanks between them. -/
def line : List Item → List UInt8
  | [] => []
  | [i] => i.render
  | i :: items => i.render ++ 32 :: line items

/-- The tokens that are meant by the parts. -/
def meant (items : List Item) : List Token := items.flatMap Item.tokens

theorem reads_item {i : Item} (hsound : i.Sound) (hsafe : i.Safe) :
    ∃ us place, Reads (.unquoted .between) i.render us (.unquoted place) ∧ us ++ place.close (some 32) = i.tokens := by
  cases i with
  | fixed text ts =>
      obtain ⟨us, place, hread, -, heq⟩ := hsound.reads text List.suffix_rfl hsound.nonempty.1
      exact ⟨us, place, hread, heq.2 rfl⟩
  | quoted mark lead value =>
      have hread := (reads_opened mark hsound).append (reads_keeps hsafe lead)
      rw [List.append_assoc, List.singleton_append] at hread
      exact ⟨[], _, hread, close_word (lead ++ value) false⟩

theorem close_none (place : Place) : place.close none = place.close (some 32) := by
  cases place <;> simp [Place.close]

/-- A line of safe parts is read as it is meant. -/
theorem yields_line {items : List Item} (hsound : ∀ i ∈ items, i.Sound) (hsafe : ∀ i ∈ items, i.Safe) :
    Yields (.unquoted .between) (line items) (meant items) := by
  induction items with
  | nil => exact yields_nil_iff.2 rfl
  | cons i items ih =>
      obtain ⟨us, place, hread, htokens⟩ := reads_item (hsound i List.mem_cons_self) (hsafe i List.mem_cons_self)
      have hmeant : meant (i :: items) = us ++ (place.close (some 32) ++ meant items) := by
        rw [← List.append_assoc, htokens]
        rfl
      rw [hmeant]
      cases items with
      | nil =>
          refine ⟨us, _, _, hread, rfl, ?_⟩
          rw [close_none]
          simp [meant]
      | cons j items =>
          refine yields_append_iff.2 ⟨us, _, _, hread, yields_cons_iff.2 ⟨_, _, _, step_blank place, ?_, rfl⟩, rfl⟩
          exact ih (fun i hi => hsound i (List.mem_cons_of_mem _ hi)) fun i hi => hsafe i (List.mem_cons_of_mem _ hi)

end StudyNotes.Shell.Quoting
