import StudyNotes.Shell.Quoting

namespace StudyNotes.Shell.Templates

open Tokens Accounting Quoting

/-- Readings in which a blank changes nothing and no word can end. -/
def Deaf : Reading → Prop
  | .single _ | .double _ | .comment => True
  | .unquoted _ | .escape _ | .dollar _ | .doubleEscape _ | .doubleDollar _ => False

theorem Deaf.blank {r r' : Reading} {ts : List Token} (hr : Deaf r) (h : step r 32 = .ok (ts, r')) : Deaf r' := by
  cases r with
  | single | double | comment =>
      cases h
      trivial
  | unquoted | escape | dollar | doubleEscape | doubleDollar => exact hr.elim

theorem Deaf.finish {r : Reading} (hr : Deaf r) (text : List UInt8) : finish r ≠ .ok [.word text] := by
  cases r with
  | single | double | comment => simp [Tokens.finish]
  | unquoted | escape | dollar | doubleEscape | doubleDollar => exact hr.elim

theorem Deaf.worth {r : Reading} (hr : Deaf r) : 2 ≤ worth r := by
  cases r with
  | single | double | comment => simp
  | unquoted | escape | dollar | doubleEscape | doubleDollar => exact hr.elim

/-- A mark closes a quote, is escaped, or leaves a reading that no blank ends. -/
theorem step_mark_cases {mark : Mark} {r r' : Reading} {ts : List Token} (h : step r mark.byte = .ok (ts, r')) :
    (Quoted r ∧ ts = [] ∧ ∃ text, r' = .unquoted (.word text false) ∧ worth r = 2 * text.length + 2) ∨
    (∃ place, r = .escape place ∧ ts = place.pending ∧ r' = .unquoted (.word (place.text ++ [mark.byte]) false)) ∨
    Deaf r' := by
  cases r with
  | unquoted place =>
      rw [step_mark] at h
      cases h
      cases mark <;> exact Or.inr (Or.inr trivial)
  | escape place =>
      have hne : mark.byte ≠ newline := by cases mark <;> decide
      simp only [step, if_neg hne] at h
      cases h
      exact Or.inr (Or.inl ⟨place, rfl, rfl, rfl⟩)
  | comment =>
      cases h
      cases mark <;> exact Or.inr (Or.inr trivial)
  | dollar text => cases mark <;> cases h
  | single text | double text | doubleEscape text =>
      cases mark <;> cases h <;> first
        | exact Or.inr (Or.inr trivial)
        | exact Or.inl ⟨trivial, rfl, text, rfl, rfl⟩
  | doubleDollar text =>
      cases mark <;> cases h
      exact Or.inl ⟨trivial, rfl, _, rfl, by simp; omega⟩

/-- Bytes that were not quoted, escaped or dropped leave nothing to spare. -/
theorem noApostrophe_of_reads {v a : List UInt8} {r : Reading} (h : Reads (.single a) v [] r)
    (hworth : 2 * (a.length + v.length) + 2 ≤ worth r) : apostrophe ∉ v := by
  induction v generalizing a with
  | nil => exact List.not_mem_nil
  | cons c v ih =>
      obtain ⟨r₁, hstep, hrest, hle⟩ := reads_silent h
      rw [List.length_cons] at hworth
      simp only [step] at hstep
      split_ifs at hstep with hc <;> cases hstep
      · rw [worth_word] at hle
        omega
      · refine List.not_mem_cons_of_ne_of_not_mem (Ne.symm hc) (ih hrest ?_)
        rw [List.length_append, List.length_singleton]
        omega

theorem pieces_of_reads {v a : List UInt8} {r r' : Reading} {text : List UInt8} {bare : Bool}
    (h : Reads (.double a) v [] r) (hworth : 2 * (a.length + v.length) + 2 ≤ worth r)
    (hclose : step r quotationMark = .ok ([], r')) (hr' : r' = .unquoted (.word text bare)) : Pieces v := by
  induction hlength : v.length using Nat.strong_induction_on generalizing v a with
  | _ n ih =>
      cases v with
      | nil => exact .nil
      | cons c v =>
          obtain ⟨r₁, hstep, hrest, hle⟩ := reads_silent h
          rw [List.length_cons] at hworth hlength
          simp only [step] at hstep
          split_ifs at hstep with hquotation hback hdollar hgrave <;> cases hstep
          · -- the quote ends here, and one byte was for nothing
            rw [worth_word] at hle
            omega
          · subst hback
            cases v with
            | nil =>
                obtain ⟨-, rfl⟩ := reads_nil_iff.1 hrest
                cases hclose
                cases hr'
            | cons d v =>
                obtain ⟨r₂, hstep, hrest, hle⟩ := reads_silent hrest
                rw [List.length_cons] at hworth hlength
                simp only [step] at hstep
                split_ifs at hstep with hnewline hescaped <;> cases hstep
                · rw [worth_double] at hle
                  omega
                · rw [worth_double, List.length_append, List.length_singleton] at hle
                  omega
                · refine .escape (by simp [hnewline, hescaped]) (ih v.length (by omega) hrest ?_ rfl)
                  simp only [List.length_append, List.length_cons, List.length_nil]
                  omega
          · subst hdollar
            cases v with
            | nil => exact .last
            | cons d v =>
                obtain ⟨r₂, hstep, hrest, hle⟩ := reads_silent hrest
                rw [List.length_cons] at hworth hlength
                simp only [step] at hstep
                split_ifs at hstep with hquotation' hblank <;> cases hstep
                · rw [worth_word, List.length_append, List.length_singleton] at hle
                  omega
                · refine .dollar hblank (ih v.length (by omega) hrest ?_ rfl)
                  simp only [List.length_append, List.length_cons, List.length_nil]
                  omega
          · refine .byte (by simp [hquotation, hback, hdollar, hgrave]) (ih v.length (by omega) hrest ?_ rfl)
            rw [List.length_append, List.length_singleton]
            omega

theorem keeps_of_reads {mark : Mark} {lead value : List UInt8} {r : Reading}
    (h : Reads (mark.opened lead) value [] r) (hworth : worth r = 2 * (lead ++ value).length + 2)
    (hclose : step r mark.byte = .ok ([], .unquoted (.word (lead ++ value) false))) : mark.Keeps value := by
  rw [List.length_append] at hworth
  cases mark with
  | apostrophe => exact noApostrophe_of_reads h hworth.ge
  | quotation => exact (pieces_of_reads h hworth.ge hclose rfl).inert

theorem yields_blank {place : Place} {rest : List UInt8} {ts : List Token}
    (h : Yields (.unquoted place) (32 :: rest) ts) :
    ∃ us, ts = place.close (some 32) ++ us ∧ Yields (.unquoted .between) rest us := by
  obtain ⟨us, r, vs, hstep, hrest, rfl⟩ := yields_cons_iff.1 h
  rw [step_blank] at hstep
  cases hstep
  exact ⟨vs, rfl, hrest⟩

theorem step_to_escape {r : Reading} {c : UInt8} {ts : List Token} {place : Place}
    (h : step r c = .ok (ts, .escape place)) : c = backslash := by
  cases r with
  | unquoted place' =>
      rcases step_unquoted h with ⟨rfl, -⟩ | ⟨text, -, -, hr⟩ | ⟨-, hr | hr | hr | hr | hr⟩ | ⟨-, ⟨-, hr⟩ | ⟨-, hr⟩⟩
      · rfl
      all_goals cases hr
  | comment =>
      simp only [step, Except.ok.injEq, Prod.mk.injEq] at h
      split at h <;> cases h.2
  | escape | dollar | single | double | doubleEscape | doubleDollar =>
      simp only [step] at h
      split_ifs at h <;> cases h

theorem reads_to_escape {x : List UInt8} {ts : List Token} {place : Place}
    (h : Reads (.unquoted .between) x ts (.escape place)) : x.getLast? = some backslash := by
  rcases List.eq_nil_or_concat' x with rfl | ⟨x, c, rfl⟩
  · cases (reads_nil_iff.1 h).2
  · obtain ⟨us, r, vs, -, hlast, -⟩ := reads_append_iff.1 h
    obtain ⟨us', r', vs', hstep, hnil, -⟩ := reads_cons_iff.1 hlast
    obtain ⟨-, rfl⟩ := reads_nil_iff.1 hnil
    rw [step_to_escape hstep, List.getLast?_concat]

theorem mem_of_concat_eq {α : Type} {a b extra : List α} {z w t : α} (h : a ++ [z] = b ++ [w] ++ t :: extra) : w ∈ a := by
  obtain ⟨init, last, hlast⟩ := (List.eq_nil_or_concat' (t :: extra)).resolve_left (List.cons_ne_nil _ _)
  rw [hlast, ← List.append_assoc] at h
  rw [(List.append_inj' h rfl).1]
  simp

theorem not_suffix_of_escape {mark : Mark} {lead value text x : List UInt8} (hx : x.getLast? = some backslash)
    (htext : text ++ [mark.byte] = lead ++ value) : ¬x <:+ lead ++ mark.byte :: value := by
  have hmark : mark.byte ≠ backslash := by cases mark <;> decide
  rintro ⟨front, hfront⟩
  have hlast : (lead ++ mark.byte :: value).getLast? = some backslash := by
    rw [← hfront, List.getLast?_append, hx]
    rfl
  rcases List.eq_nil_or_concat' value with rfl | ⟨value, c, rfl⟩
  · rw [List.getLast?_concat] at hlast
    exact hmark (Option.some.inj hlast)
  · rw [← List.append_assoc] at htext
    obtain ⟨-, hc⟩ := List.append_inj' htext rfl
    rw [← List.cons_append, ← List.append_assoc, List.getLast?_concat, ← List.head_eq_of_cons_eq hc] at hlast
    exact hmark (Option.some.inj hlast)

/-- The whole input gives these tokens at its end, if any end of it does. -/
def Exact (x : List UInt8) (ts : List Token) : Prop :=
  ∀ y us, y <:+ x → Yields (.unquoted .between) y (us ++ ts) → y = x ∧ us = []

section exact

variable {rest : List UInt8} {ts : List Token} (hexact : Exact rest ts)
include hexact

/-- The tokens before the rest are the ones that are meant, or some of the rest came too early. -/
theorem Exact.compare {us vs ws : List Token} (hrest : Yields (.unquoted .between) rest ws)
    (heq : us ++ ts = vs ++ ws) : vs = us ∧ ws = ts ∨ ∃ t extra, vs = us ++ t :: extra := by
  rcases List.append_eq_append_iff.1 heq with ⟨extra, rfl, hts⟩ | ⟨missing, rfl, rfl⟩
  · cases extra with
    | nil => exact Or.inl ⟨List.append_nil _, hts.symm⟩
    | cons t extra => exact Or.inr ⟨t, extra, rfl⟩
  · obtain ⟨-, rfl⟩ := hexact rest missing List.suffix_rfl hrest
    exact Or.inl ⟨(List.append_nil _).symm, rfl⟩

/-- In a reading that no blank ends, the rest of the line cannot give the rest of the tokens. -/
theorem Exact.not_deaf {r : Reading} (hr : Deaf r) {us : List Token} {text : List UInt8} :
    ¬Yields r (32 :: rest) (us ++ .word text :: ts) := by
  intro h
  obtain ⟨x, tail, r', heq, hread, hfinish, hend⟩ := yields_split h
  cases x with
  | nil =>
      obtain ⟨-, rfl⟩ := reads_nil_iff.1 hread
      exact hr.finish text hfinish
  | cons c x =>
      rw [List.cons_append, List.cons.injEq] at heq
      obtain ⟨rfl, rfl⟩ := heq
      obtain ⟨vs, r₁, ws, hstep, hread, -⟩ := reads_cons_iff.1 hread
      have hne : x ≠ [] := by
        rintro rfl
        obtain ⟨-, rfl⟩ := reads_nil_iff.1 hread
        exact (hr.blank hstep).finish text hfinish
      have hlt : 0 < x.length := List.length_pos_iff.2 hne
      have hshort (y : List UInt8) (hy : y <:+ x ++ tail) (hyields : Yields (.unquoted .between) y ts) :
          y.length = x.length + tail.length := by
        rw [← List.length_append]
        exact congrArg List.length (hexact y [] hy hyields).1
      rcases hend with ⟨rfl, rfl⟩ | ⟨c, tail, rfl, hyields | hyields⟩
      · have hnil := hshort [] List.nil_suffix (yields_nil_iff.2 rfl)
        simp at hnil
        omega
      · have hlen := hshort tail ((List.suffix_cons c tail).trans (List.suffix_append _ _)) hyields
        rw [List.length_cons] at hlen
        omega
      · have hlen := hshort (c :: tail) (List.suffix_append _ _) hyields
        omega

/-- An escaped mark is the end of its word, but the value ends with the backslash. -/
theorem Exact.not_escaped {mark : Mark} {lead value x : List UInt8} {us us₀ vs : List Token} {place : Place}
    (hx : x <:+ lead ++ mark.byte :: value) (hread : Reads (.unquoted .between) x us₀ (.escape place))
    (hrest : Yields (.unquoted (.word (place.text ++ [mark.byte]) false)) (32 :: rest) vs) :
    us ++ .word (lead ++ value) :: ts ≠ us₀ ++ (place.pending ++ vs) := by
  intro heq
  obtain ⟨ws, rfl, htail⟩ := yields_blank hrest
  have heq' : us ++ [.word (lead ++ value)] ++ ts =
      us₀ ++ place.pending ++ [.word (place.text ++ [mark.byte])] ++ ws := by
    simpa [close_word] using heq
  rcases hexact.compare htail heq' with ⟨hsame, -⟩ | ⟨t, extra, hextra⟩
  · have htext : place.text ++ [mark.byte] = lead ++ value := by
      simpa using (List.append_inj' hsame rfl).2
    exact not_suffix_of_escape (reads_to_escape hread) htext hx
  · have hmem := price_le (mem_of_concat_eq hextra)
    have hpaid := reads_worth hread
    have hpending := place_pending place
    have hlen := hx.length_le
    simp only [price, prices_append, worth_escape, worth_between, List.length_append, List.length_cons] at *
    omega

/-- A mark that leaves a quote open is too late to end the word. -/
theorem Exact.not_open {mark : Mark} {lead value x : List UInt8} {us us₀ us₁ vs : List Token} {r₀ r : Reading}
    (hlead : ∀ c ∈ lead, c ∉ special) (hx : x <:+ lead ++ mark.byte :: value)
    (hread : Reads (.unquoted .between) x us₀ r₀) (hstep : step r₀ mark.byte = .ok (us₁, r)) (hdeaf : Deaf r)
    (hrest : Yields r (32 :: rest) vs) : us ++ .word (lead ++ value) :: ts ≠ us₀ ++ us₁ ++ vs := by
  intro heq
  rcases List.append_eq_append_iff.1 heq with ⟨early, hearly, hvs⟩ | ⟨late, -, rfl⟩
  · cases early with
    | nil =>
        obtain rfl : vs = .word (lead ++ value) :: ts := hvs.symm
        rw [← List.nil_append (_ :: ts)] at hrest
        exact hexact.not_deaf hdeaf hrest
    | cons t early =>
        -- the word came before, and its bytes are all there are
        obtain ⟨rfl, -⟩ := List.cons.inj hvs
        have hmem : price (.word (lead ++ value)) ≤ prices (us₀ ++ us₁) := price_le (by rw [hearly]; simp)
        have hall : Reads (.unquoted .between) (x ++ [mark.byte]) (us₀ ++ us₁) r := hread.append (Reads.step hstep)
        have hpaid := reads_worth hall
        have hopen := hdeaf.worth
        have hlen := hx.length_le
        simp only [price, worth_between, List.length_append, List.length_cons, List.length_nil] at hmem hpaid hlen
        obtain rfl : x = lead ++ mark.byte :: value := by
          refine hx.eq_of_length ?_
          simp only [List.length_append, List.length_cons]
          omega
        have hsplit : lead ++ mark.byte :: value ++ [mark.byte] = lead ++ [mark.byte] ++ (value ++ [mark.byte]) := by
          simp
        rw [hsplit, (reads_opened mark hlead).append_iff] at hall
        obtain ⟨vs', hvalue, hvs'⟩ := hall
        rw [hvs', List.nil_append] at hmem
        rcases reads_quoted (mark.quoted_opened lead) hvalue with ⟨rfl, -⟩ | hquoted
        · simp at hmem
        · simp only [mark.worth_opened, List.length_append, List.length_singleton] at hquoted
          omega
  · exact hexact.not_deaf hdeaf hrest

/-- A value between marks is read as it is meant only from its first byte on, and only if it keeps
its bytes there. -/
theorem Exact.quoted {mark : Mark} {lead value : List UInt8} (hlead : ∀ c ∈ lead, c ∉ special) {x : List UInt8}
    {us : List Token} (hx : x <:+ lead ++ mark.byte :: value)
    (h : Yields (.unquoted .between) (x ++ mark.byte :: 32 :: rest) (us ++ .word (lead ++ value) :: ts)) :
    x = lead ++ mark.byte :: value ∧ us = [] ∧ mark.Keeps value ∧ Yields (.unquoted .between) rest ts := by
  obtain ⟨us₀, r₀, vs, hread, hlast, heq⟩ := yields_append_iff.1 h
  obtain ⟨us₁, r, vs, hstep, hrest, rfl⟩ := yields_cons_iff.1 hlast
  rcases step_mark_cases hstep with ⟨hquoted, rfl, text, rfl, hw⟩ | ⟨place, rfl, rfl, rfl⟩ | hdeaf
  · -- the last mark closes a quote, which takes two bytes of their own
    have hpaid := reads_worth hread
    have hlen := hx.length_le
    simp only [worth_between, List.length_append, List.length_cons] at hpaid hlen
    obtain ⟨ws, rfl, htail⟩ := yields_blank hrest
    have heq' : us ++ [.word (lead ++ value)] ++ ts = us₀ ++ [.word text] ++ ws := by
      simpa [close_word] using heq
    rcases hexact.compare htail heq' with ⟨hsame, rfl⟩ | ⟨t, extra, hextra⟩
    · obtain ⟨rfl, htext⟩ := List.append_inj' hsame rfl
      obtain rfl : text = lead ++ value := by simpa using htext
      rw [List.length_append] at hw
      have hnil : us₀ = [] := by
        by_contra hne
        have hpos := prices_pos hne
        omega
      subst hnil
      obtain rfl : x = lead ++ mark.byte :: value := by
        refine hx.eq_of_length ?_
        simp only [List.length_append, List.length_cons]
        omega
      rw [← List.singleton_append, ← List.append_assoc, (reads_opened mark hlead).append_iff] at hread
      obtain ⟨vs, hvalue, hvs⟩ := hread
      obtain rfl : vs = [] := hvs.symm
      exact ⟨rfl, rfl, keeps_of_reads hvalue (by rw [hw, List.length_append]) hstep, htail⟩
    · have hmem := price_le (mem_of_concat_eq hextra)
      rw [price, List.length_append] at hmem
      omega
  · exact absurd heq (hexact.not_escaped hx hread hrest)
  · rw [← List.append_assoc] at heq
    exact absurd heq (hexact.not_open hlead hx hread hstep hdeaf hrest)

theorem Exact.fixed {text : List UInt8} {fs : List Token} (hrigid : Rigid text fs) {x : List UInt8} {us : List Token}
    (hx : x <:+ text) (hne : x ≠ []) (h : Yields (.unquoted .between) (x ++ 32 :: rest) (us ++ fs ++ ts)) :
    x = text ∧ us = [] ∧ Yields (.unquoted .between) rest ts := by
  obtain ⟨us₀, place, hread, hlen, hiff⟩ := hrigid.reads x hx hne
  obtain ⟨us₁, r, vs, hread', hrest, heq⟩ := yields_append_iff.1 h
  cases hread.symm.trans hread'
  obtain ⟨ws, rfl, htail⟩ := yields_blank hrest
  rw [← List.append_assoc] at heq
  rcases hexact.compare htail heq with ⟨hsame, rfl⟩ | ⟨t, extra, hextra⟩
  · rw [hsame, List.length_append] at hlen
    obtain rfl : us = [] := List.length_eq_zero_iff.1 (by omega)
    exact ⟨hiff.1 hsame, rfl, htail⟩
  · rw [hextra] at hlen
    simp only [List.length_append, List.length_cons] at hlen
    omega

/-- A part of the line is read as it is meant only from its first byte on, and only if it is safe. -/
theorem Exact.item {i : Item} (hsound : i.Sound) {x : List UInt8} {us : List Token} (hx : x <:+ i.render)
    (hne : x ≠ []) (h : Yields (.unquoted .between) (x ++ 32 :: rest) (us ++ i.tokens ++ ts)) :
    x = i.render ∧ us = [] ∧ i.Safe ∧ Yields (.unquoted .between) rest ts := by
  cases i with
  | fixed text fs =>
      obtain ⟨rfl, rfl, hrest⟩ := hexact.fixed hsound hx hne h
      exact ⟨rfl, rfl, trivial, hrest⟩
  | quoted mark lead value =>
      have hrender : (Item.quoted mark lead value).render = lead ++ mark.byte :: value ++ [mark.byte] := by
        simp [Item.render]
      rw [hrender] at hx ⊢
      rcases List.suffix_concat_iff.1 hx with rfl | ⟨x, rfl, hx'⟩
      · exact absurd rfl hne
      · rw [List.append_assoc, List.singleton_append, List.append_assoc] at h
        obtain ⟨rfl, rfl, hkeeps, hrest⟩ := hexact.quoted hsound hx' h
        exact ⟨rfl, rfl, hkeeps, hrest⟩

end exact

theorem suffix_append_cases {α : Type} {y a b : List α} (h : y <:+ a ++ b) :
    y <:+ b ∨ ∃ x, x ≠ [] ∧ x <:+ a ∧ y = x ++ b := by
  rcases List.suffix_or_suffix_of_suffix h (List.suffix_append a b) with hy | ⟨x, rfl⟩
  · exact Or.inl hy
  · by_cases hne : x = []
    · subst hne
      exact Or.inl List.suffix_rfl
    · obtain ⟨z, hz⟩ := h
      rw [← List.append_assoc, List.append_left_inj] at hz
      exact Or.inr ⟨x, hne, ⟨z, hz⟩, rfl⟩

/-- The line with a blank after each part. -/
def spaced (items : List Item) : List UInt8 := items.flatMap fun i => i.render ++ [32]

theorem spaced_cons (i : Item) (items : List Item) : spaced (i :: items) = i.render ++ 32 :: spaced items := by
  simp [spaced]

theorem tokens_ne_nil {i : Item} (hsound : i.Sound) : i.tokens ≠ [] := by
  cases i with
  | fixed text fs => exact hsound.nonempty.2
  | quoted mark lead value => exact List.cons_ne_nil _ _

/-- An end of the line gives the tokens that are meant only if it is the whole line and every part of
it is safe. -/
theorem safe_of_yields {items : List Item} (hsound : ∀ i ∈ items, i.Sound) {y : List UInt8} {us : List Token}
    (hy : y <:+ spaced items) (h : Yields (.unquoted .between) y (us ++ meant items)) :
    y = spaced items ∧ us = [] ∧ ∀ i ∈ items, i.Safe := by
  induction items generalizing y us with
  | nil =>
      obtain rfl : y = [] := List.suffix_nil.1 hy
      have hnil : [] = us ++ meant [] := by simpa [yields_nil_iff, Tokens.finish, Place.close] using h
      exact ⟨rfl, (List.append_eq_nil_iff.1 hnil.symm).1, by simp⟩
  | cons i items ih =>
      rw [List.forall_mem_cons] at hsound
      have hexact : Exact (spaced items) (meant items) := fun y us hy h =>
        ⟨(ih hsound.2 hy h).1, (ih hsound.2 hy h).2.1⟩
      have hmeant : us ++ meant (i :: items) = us ++ i.tokens ++ meant items := (List.append_assoc _ _ _).symm
      rw [hmeant] at h
      rw [spaced_cons] at hy ⊢
      rcases suffix_append_cases hy with hlate | ⟨x, hne, hx, rfl⟩
      · -- the part itself is not in what was read
        have hrest : ∃ y, y <:+ spaced items ∧ Yields (.unquoted .between) y (us ++ i.tokens ++ meant items) := by
          rcases List.suffix_cons_iff.1 hlate with rfl | hlate
          · obtain ⟨ws, heq, hrest⟩ := yields_blank h
            exact ⟨_, List.suffix_rfl, heq ▸ hrest⟩
          · exact ⟨y, hlate, h⟩
        obtain ⟨y, hy, hrest⟩ := hrest
        obtain ⟨-, hnil⟩ := hexact y _ hy hrest
        exact absurd (List.append_eq_nil_iff.1 hnil).2 (tokens_ne_nil hsound.1)
      · obtain ⟨rfl, rfl, hsafe, hrest⟩ := hexact.item hsound.1 hx hne h
        rw [← List.nil_append (meant items)] at hrest
        exact ⟨rfl, rfl, List.forall_mem_cons.2 ⟨hsafe, (ih hsound.2 List.suffix_rfl hrest).2.2⟩⟩

theorem line_spaced {items : List Item} (hne : items ≠ []) : line items ++ [32] = spaced items := by
  induction items with
  | nil => exact absurd rfl hne
  | cons i items ih =>
      cases items with
      | nil => simp [line, spaced]
      | cons j items =>
          rw [line, spaced_cons, List.append_assoc, List.cons_append, ih (List.cons_ne_nil _ _)]
          exact List.cons_ne_nil _ _

theorem line_concat {items : List Item} (hne : items ≠ []) (i : Item) :
    line (items ++ [i]) = line items ++ 32 :: i.render := by
  have hline : line (items ++ [i]) ++ [32] = spaced (items ++ [i]) :=
    line_spaced (List.append_ne_nil_of_right_ne_nil _ (List.cons_ne_nil _ _))
  have hspaced : spaced (items ++ [i]) = spaced items ++ (i.render ++ [32]) := by simp [spaced]
  refine (List.append_left_inj [32]).1 ?_
  rw [hline, hspaced, ← line_spaced hne]
  simp

theorem yields_concat_blank {x : List UInt8} {ts : List Token} (h : Yields (.unquoted .between) x ts) :
    Yields (.unquoted .between) (x ++ [32]) ts := by
  obtain ⟨us, vs, r, hread, hfinish, rfl⟩ := h
  refine yields_append_iff.2 ⟨us, r, vs, hread, ?_, rfl⟩
  cases r with
  | unquoted place =>
      cases hfinish
      rw [close_none]
      exact yields_cons_iff.2 ⟨_, _, [], step_blank place, yields_nil_iff.2 rfl, (List.append_nil _).symm⟩
  | dollar text =>
      cases hfinish
      exact yields_cons_iff.2 ⟨_, _, [], rfl, yields_nil_iff.2 rfl, rfl⟩
  | comment =>
      cases hfinish
      exact yields_cons_iff.2 ⟨_, _, [], rfl, yields_nil_iff.2 rfl, rfl⟩
  | escape | single | double | doubleEscape | doubleDollar => cases hfinish

/-- The line is read as it is meant exactly if every part of it is safe. -/
theorem tokens_line_iff {items : List Item} (hsound : ∀ i ∈ items, i.Sound) :
    tokens (line items) = .ok (meant items) ↔ ∀ i ∈ items, i.Safe := by
  rw [tokens_eq_ok_iff]
  refine ⟨fun h => ?_, fun hsafe => yields_line hsound hsafe⟩
  by_cases hne : items = []
  · simp [hne]
  · have hspaced := yields_concat_blank h
    rw [line_spaced hne, ← List.nil_append (meant items)] at hspaced
    exact (safe_of_yields hsound List.suffix_rfl hspaced).2.2

end StudyNotes.Shell.Templates
