import StudyNotes.Words.Seams
import StudyNotes.Mail.Attachment

namespace StudyNotes.Mail.Transparency

open Words.Seams Codes.Base64 Program Sending Attachment

/-- CR LF . CR LF, after which the server takes commands again. -/
def endMark : List UInt8 := [13, 10, 46, 13, 10]

/-- The mark in a product: inside a factor, or cut in one of four places. -/
theorem endMark_append_iff {a b : List UInt8} :
    endMark <:+: a ++ b ↔ endMark <:+: a ∨ endMark <:+: b ∨ [13] <:+ a ∧ [10, 46, 13, 10] <+: b ∨
      [13, 10] <:+ a ∧ [46, 13, 10] <+: b ∨ [13, 10, 46] <:+ a ∧ [13, 10] <+: b ∨
      [13, 10, 46, 13] <:+ a ∧ [10] <+: b := by
  rw [infix_append_iff]
  constructor
  · rintro (h | h | ⟨u, v, huv, hu, hv⟩)
    · exact Or.inl h
    · exact Or.inr (Or.inl h)
    · rcases u with _ | ⟨x₁, _ | ⟨x₂, _ | ⟨x₃, _ | ⟨x₄, _ | ⟨x₅, u⟩⟩⟩⟩⟩
      · exact Or.inr (Or.inl (huv ▸ hv.isInfix))
      · cases huv
        exact Or.inr (Or.inr (Or.inl ⟨hu, hv⟩))
      · cases huv
        exact Or.inr (Or.inr (Or.inr (Or.inl ⟨hu, hv⟩)))
      · cases huv
        exact Or.inr (Or.inr (Or.inr (Or.inr (Or.inl ⟨hu, hv⟩))))
      · cases huv
        exact Or.inr (Or.inr (Or.inr (Or.inr (Or.inr ⟨hu, hv⟩))))
      · simp only [endMark, List.cons_append, List.cons.injEq, List.append_eq_nil_iff] at huv
        obtain ⟨rfl, rfl, rfl, rfl, rfl, rfl, rfl⟩ := huv
        exact Or.inl hu.isInfix
  · rintro (h | h | h | h | h | h)
    · exact Or.inl h
    · exact Or.inr (Or.inl h)
    · exact Or.inr (Or.inr ⟨_, _, rfl, h⟩)
    · exact Or.inr (Or.inr ⟨_, _, rfl, h⟩)
    · exact Or.inr (Or.inr ⟨_, _, rfl, h⟩)
    · exact Or.inr (Or.inr ⟨_, _, rfl, h⟩)

/-- A text without the mark that ends with a line. -/
structure EndsLine (a : List UInt8) : Prop where
  clear : ¬endMark <:+: a
  crlf : [13, 10] <:+ a

theorem EndsLine.append_iff {a : List UInt8} (h : EndsLine a) (b : List UInt8) :
    endMark <:+: a ++ b ↔ endMark <:+: b ∨ [46, 13, 10] <+: b := by
  have hcr : ¬[13] <:+ a := fun hs =>
    absurd (List.suffix_of_suffix_length_le hs h.crlf (by decide)) (by decide)
  have hdot : ¬[13, 10, 46] <:+ a := fun hs =>
    absurd (List.suffix_of_suffix_length_le h.crlf hs (by decide)) (by decide)
  have hdotcr : ¬[13, 10, 46, 13] <:+ a := fun hs =>
    absurd (List.suffix_of_suffix_length_le h.crlf hs (by decide)) (by decide)
  rw [endMark_append_iff]
  simp only [h.clear, hcr, hdot, hdotcr, h.crlf, false_and, true_and, false_or, or_false]

/-- A text without the mark that starts by ending a line. -/
structure StartsLine (b : List UInt8) : Prop where
  clear : ¬endMark <:+: b
  crlf : [13, 10] <+: b

theorem StartsLine.append_iff {b : List UInt8} (h : StartsLine b) (a : List UInt8) :
    endMark <:+: a ++ b ↔ endMark <:+: a ∨ [13, 10, 46] <:+ a := by
  have hlf : ¬[10] <+: b := fun hs =>
    absurd (List.prefix_of_prefix_length_le hs h.crlf (by decide)) (by decide)
  have hlfdot : ¬[10, 46, 13, 10] <+: b := fun hs => hlf (List.IsPrefix.trans (by decide) hs)
  have hdot : ¬[46, 13, 10] <+: b := fun hs =>
    absurd (List.prefix_of_prefix_length_le h.crlf hs (by decide)) (by decide)
  rw [endMark_append_iff]
  simp only [h.clear, hlf, hlfdot, hdot, h.crlf, and_false, and_true, false_or, or_false]

/-- Whether a text starts with a line that is a dot does not depend on what follows that line's end. -/
theorem StartsLine.dot_iff {b : List UInt8} (h : StartsLine b) (a : List UInt8) :
    [46, 13, 10] <+: a ++ b ↔ [46, 13, 10] <+: a ++ [13, 10] := by
  obtain ⟨rest, rfl⟩ := h.crlf
  rw [← List.append_assoc]
  constructor
  · intro hdot
    cases a with
    | nil =>
        have hcrlf := List.prefix_of_prefix_length_le (List.prefix_append [13, 10] rest) hdot (by decide)
        exact absurd hcrlf (by decide)
    | cons x a => exact List.prefix_of_prefix_length_le hdot (List.prefix_append _ _) (by simp)
  · intro hdot
    exact hdot.trans (List.prefix_append _ _)

theorem endsLine_info : EndsLine (infoTexts.flatMap ascii) := ⟨by decide +kernel, by decide +kernel⟩

theorem endsLine_doc : EndsLine (docTexts.flatMap ascii) := ⟨by decide +kernel, by decide +kernel⟩

theorem endsLine_crlf : EndsLine (ascii "\r\n") := ⟨by decide, by decide⟩

theorem startsLine_crlf : StartsLine [13, 10] := ⟨by decide, by decide⟩

/-- Between two clear texts, a page shows the mark exactly when it has a line that is a dot. -/
theorem between_iff {before after : List UInt8} (hbefore : EndsLine before) (hafter : StartsLine after)
    (page : List UInt8) :
    endMark <:+: before ++ (page ++ after) ↔ endMark <:+: ascii "\r\n" ++ (page ++ ascii "\r\n") := by
  rw [hbefore.append_iff, hafter.append_iff, hafter.dot_iff, endsLine_crlf.append_iff]
  show _ ↔ endMark <:+: page ++ [13, 10] ∨ [46, 13, 10] <+: page ++ [13, 10]
  rw [startsLine_crlf.append_iff]

theorem not_mem_blocks {c : UInt8} (hpad : c ≠ pad) (hvalue : value c = none) (doc : List UInt8) : c ∉ blocks doc := by
  induction doc using blocks.induct with
  | case1 => simp [blocks_nil]
  | case2 doc hdoc ih =>
      rw [blocks_cons hdoc, List.mem_append, not_or]
      exact ⟨not_mem_encode hpad hvalue _, ih⟩

theorem endMark_append_of_not_mem {a : List UInt8} (h : (13 : UInt8) ∉ a) (b : List UInt8) :
    endMark <:+: a ++ b ↔ endMark <:+: b := by
  have hno {l : List UInt8} (hl : (13 : UInt8) ∈ l) : ¬l <:+: a := fun hs => h (hs.subset hl)
  have hnoEnd {l : List UInt8} (hl : (13 : UInt8) ∈ l) : ¬l <:+ a := fun hs => h (hs.subset hl)
  rw [endMark_append_iff]
  simp [hno, hnoEnd, endMark]

theorem blocks_clear (doc : List UInt8) : ¬endMark <:+: blocks doc ++ [13, 10, 46, 13] := by
  rw [endMark_append_of_not_mem (not_mem_blocks (by decide) (by decide) doc)]
  decide

theorem blocks_no_dot (doc : List UInt8) : ¬[46, 13, 10] <+: blocks doc ++ [13, 10, 46, 13] := by
  have hdot : (46 : UInt8) ∉ blocks doc := not_mem_blocks (by decide) (by decide) doc
  cases hblocks : blocks doc with
  | nil => decide
  | cons x rest =>
      rw [hblocks] at hdot
      rw [List.cons_append, List.cons_prefix_cons]
      rintro ⟨rfl, -⟩
      exact hdot List.mem_cons_self

theorem startsLine_document (doc : List UInt8) :
    StartsLine (docTexts.flatMap ascii ++ (blocks doc ++ [13, 10, 46, 13])) where
  clear := by
    rw [endsLine_doc.append_iff, not_or]
    exact ⟨blocks_clear doc, blocks_no_dot doc⟩
  crlf := List.IsPrefix.trans (by decide) (List.prefix_append _ _)

def opened (html doc : List UInt8) : List UInt8 :=
  infoTexts.flatMap ascii ++ (html ++ (docTexts.flatMap ascii ++ (blocks doc ++ [13, 10, 46, 13])))

theorem message_eq (html doc : List UInt8) : message html doc = opened html doc ++ [10] := by
  have htail : ascii "\r\n.\r\n" = [13, 10, 46, 13] ++ [10] := by decide
  rw [message, opened, htail]
  simp only [List.append_assoc]

/-- The message ends with the mark and shows it nowhere else exactly when no line of the page is a
single dot. -/
theorem end_mark_once_iff (H : Host) (hH : Healthy H) (html doc : List UInt8) (hhtml : H.file htmlFile = some html)
    (hdoc : H.file docFile = some doc) (w : World) :
    Emits (main H) w (loginStream ++ (ascii "DATA\r\n" ++ (message html doc ++ ascii "QUIT\r\n"))) [] (· = 0) ∧
      ((endMark <:+ message html doc ∧
          ∀ before after, message html doc = before ++ (endMark ++ after) → after = []) ↔
        ¬endMark <:+: ascii "\r\n" ++ (html ++ ascii "\r\n")) := by
  have hend : endMark <:+ message html doc := by
    have htail : ascii "\r\n.\r\n" = endMark := by decide
    rw [message, htail]
    simp only [← List.append_assoc]
    exact List.suffix_append _ _
  refine ⟨emits_main hH hhtml hdoc w, ?_⟩
  rw [← between_iff endsLine_info (startsLine_document doc), and_iff_right hend, message_eq]
  exact only_at_end_iff

theorem healthy_localHost (html doc : List UInt8) : Healthy (localHost html doc) where
  connected := ⟨rfl, rfl, rfl⟩
  writes := writes_localHost html doc
  reads _ := ⟨[], rfl, Nat.zero_le _⟩

theorem end_mark_once_hi : endMark <:+ message (ascii "<p>hi</p>") [104, 105] ∧
    ∀ before after, message (ascii "<p>hi</p>") [104, 105] = before ++ (endMark ++ after) → after = [] :=
  (end_mark_once_iff (localHost (ascii "<p>hi</p>") [104, 105]) (healthy_localHost _ _) (ascii "<p>hi</p>") [104, 105]
    rfl rfl ⟨[], 0, 0, []⟩).2.2 (by decide)

def dotPage : List UInt8 := ascii "<p>\r\n.\r\nRSET\r\n"

theorem end_mark_inside :
    Emits (main (localHost dotPage [])) ⟨[], 0, 0, []⟩
      (loginStream ++ (ascii "DATA\r\n" ++ (message dotPage [] ++ ascii "QUIT\r\n"))) [] (· = 0) ∧
    message dotPage [] = (infoTexts.flatMap ascii ++ ascii "<p>") ++ (endMark ++ (ascii "RSET\r\n" ++
      (docTexts.flatMap ascii ++ ascii "\r\n.\r\n"))) := by
  refine ⟨emits_main (healthy_localHost dotPage []) rfl rfl _, ?_⟩
  have hpage : dotPage = ascii "<p>" ++ (endMark ++ ascii "RSET\r\n") := by decide
  rw [message, hpage, blocks_nil]
  simp only [List.append_assoc, List.nil_append]

end StudyNotes.Mail.Transparency
