import StudyNotes.Words.Leftmost

namespace StudyNotes.Codes.HttpRequest

open Words.Leftmost

section lexical

def space : UInt8 := 32
def crlf : List UInt8 := [13, 10]
def separator : List UInt8 := [58, 32]

/-- The text HTTP/1.1. -/
def version : List UInt8 := [72, 84, 84, 80, 47, 49, 46, 49]

/-- Letters, digits and the other characters of a token. -/
def isTokenChar (ch : UInt8) : Bool :=
  (48 ≤ ch && ch ≤ 57) || (65 ≤ ch && ch ≤ 90) || (97 ≤ ch && ch ≤ 122) ||
    [33, 35, 36, 37, 38, 39, 42, 43, 45, 46, 94, 95, 96, 124, 126].contains ch

def isToken (s : List UInt8) : Bool := s != [] && s.all isTokenChar

/-- No line end, nor a part of one. -/
def isClean (s : List UInt8) : Bool := s.all fun ch => ch != 13 && ch != 10

def isTarget (s : List UInt8) : Bool := s != [] && isClean s && !s.contains space

variable {s t : List UInt8}

theorem notMem_of_isToken (h : isToken s = true) {ch : UInt8} (hch : isTokenChar ch = false) : ch ∉ s := by
  intro hmem
  rw [isToken, Bool.and_eq_true, List.all_eq_true] at h
  rw [h.2 ch hmem] at hch
  cases hch

theorem isClean_iff : isClean s = true ↔ 13 ∉ s ∧ 10 ∉ s := by
  rw [isClean, List.all_eq_true]
  constructor
  · intro h
    exact ⟨fun hmem => absurd (h 13 hmem) (by decide), fun hmem => absurd (h 10 hmem) (by decide)⟩
  · rintro ⟨hcr, hlf⟩ ch hch
    rw [Bool.and_eq_true, bne_iff_ne, bne_iff_ne]
    exact ⟨ne_of_mem_of_not_mem hch hcr, ne_of_mem_of_not_mem hch hlf⟩

theorem isTarget_iff : isTarget s = true ↔ s ≠ [] ∧ isClean s = true ∧ space ∉ s := by
  rw [isTarget, Bool.and_eq_true, Bool.and_eq_true, bne_iff_ne, Bool.not_eq_true', List.contains_eq_mem,
    decide_eq_false_iff_not, and_assoc]

theorem not_infix_of_notMem {d : List UInt8} {ch : UInt8} (hd : ch ∈ d) (hs : ch ∉ s) : ¬d <:+: s :=
  fun hpart => hs (hpart.subset hd)

end lexical

section header

abbrev Header := List UInt8 × List UInt8

def Header.Valid (h : Header) : Prop := isToken h.1 = true ∧ isClean h.2 = true

def decodeHeader (line : List UInt8) : Option Header :=
  match line.dropInfix? separator with
  | none => none
  | some (name, value) => if isToken name && isClean value then some (name, value) else none

def headerLine (h : Header) : List UInt8 := h.1 ++ separator ++ h.2

theorem decodeHeader_eq_some_iff {line : List UInt8} {h : Header} :
    decodeHeader line = some h ↔ h.Valid ∧ line = headerLine h := by
  constructor
  · intro hdecode
    rw [decodeHeader] at hdecode
    split at hdecode
    · cases hdecode
    next name value hcut =>
      split at hdecode
      next hvalid =>
        cases hdecode
        exact ⟨Bool.and_eq_true_iff.1 hvalid, (dropInfix?_eq_some.1 hcut).1⟩
      next => cases hdecode
  · rintro ⟨hvalid, rfl⟩
    have hclear : ¬separator <:+: h.1 := not_infix_of_notMem List.mem_cons_self (notMem_of_isToken hvalid.1 (by decide))
    rw [decodeHeader, headerLine, dropInfix?_append (by decide) hclear]
    exact if_pos (Bool.and_eq_true_iff.2 hvalid)

theorem headerLine_ne_nil {h : Header} : headerLine h ≠ [] := by
  simp [headerLine, separator]

theorem headerLine_clear {h : Header} (hvalid : h.Valid) : ¬crlf <:+: headerLine h := by
  have hsep : 13 ∉ separator := by decide
  refine not_infix_of_notMem List.mem_cons_self ?_
  rw [headerLine, List.mem_append, List.mem_append, not_or, not_or]
  exact ⟨⟨notMem_of_isToken hvalid.1 (by decide), hsep⟩, (isClean_iff.1 hvalid.2).1⟩

/-- Header lines up to the blank line, and what follows it. -/
def decodeHeaders (text : List UInt8) : Option (List Header × List UInt8) :=
  match _hcut : text.dropInfix? crlf with
  | none => none
  | some (line, rest) =>
      if line = [] then some ([], rest)
      else do
        let h ← decodeHeader line
        let (hs, body) ← decodeHeaders rest
        return (h :: hs, body)
termination_by text.length
decreasing_by exact length_rest_lt (by decide) _hcut

theorem decodeHeaders_blank {text rest : List UInt8} (hcut : text.dropInfix? crlf = some ([], rest)) :
    decodeHeaders text = some ([], rest) := by
  rw [decodeHeaders]
  split
  next hnone => rw [hcut] at hnone; cases hnone
  next line rest' hsome =>
    cases hcut.symm.trans hsome
    rfl

theorem decodeHeaders_line {text line rest : List UInt8} (hcut : text.dropInfix? crlf = some (line, rest))
    (hline : line ≠ []) :
    decodeHeaders text = (decodeHeader line).bind fun h => (decodeHeaders rest).map fun r => (h :: r.1, r.2) := by
  rw [decodeHeaders]
  split
  next hnone => rw [hcut] at hnone; cases hnone
  next line' rest' hsome =>
    cases hcut.symm.trans hsome
    rw [if_neg hline]
    cases decodeHeader line with
    | none => rfl
    | some h => cases decodeHeaders rest <;> rfl

theorem decodeHeaders_none {text : List UInt8} (hcut : text.dropInfix? crlf = none) : decodeHeaders text = none := by
  rw [decodeHeaders]
  split
  next => rfl
  next hsome => rw [hcut] at hsome; cases hsome

def headerLines (hs : List Header) : List UInt8 := hs.flatMap fun h => headerLine h ++ crlf

theorem decodeHeaders_lines {hs : List Header} (hvalid : ∀ h ∈ hs, h.Valid) (body : List UInt8) :
    decodeHeaders (headerLines hs ++ crlf ++ body) = some (hs, body) := by
  induction hs with
  | nil => exact decodeHeaders_blank (dropInfix?_append (s := []) (by decide) (by decide))
  | cons h hs ih =>
      have hhead := hvalid h List.mem_cons_self
      have htext : headerLines (h :: hs) ++ crlf ++ body = headerLine h ++ crlf ++ (headerLines hs ++ crlf ++ body) := by
        simp only [headerLines, List.flatMap_cons, List.append_assoc]
      rw [htext, decodeHeaders_line (dropInfix?_append (by decide) (headerLine_clear hhead)) headerLine_ne_nil,
        decodeHeader_eq_some_iff.2 ⟨hhead, rfl⟩, ih fun x hx => hvalid x (List.mem_cons_of_mem h hx)]
      rfl

theorem decodeHeaders_sound {text : List UInt8} {hs : List Header} {body : List UInt8}
    (hdecode : decodeHeaders text = some (hs, body)) :
    (∀ h ∈ hs, h.Valid) ∧ text = headerLines hs ++ crlf ++ body := by
  -- The recursion is on what follows the first line, which is shorter.
  induction hn : text.length using Nat.strong_induction_on generalizing text hs with
  | _ n ih =>
      cases hcut : text.dropInfix? crlf with
      | none =>
          rw [decodeHeaders_none hcut] at hdecode
          cases hdecode
      | some lr =>
          obtain ⟨line, rest⟩ := lr
          have htext := (dropInfix?_eq_some.1 hcut).1
          by_cases hline : line = []
          · subst hline
            rw [decodeHeaders_blank hcut] at hdecode
            cases hdecode
            exact ⟨List.forall_mem_nil _, htext⟩
          · rw [decodeHeaders_line hcut hline, Option.bind_eq_some_iff] at hdecode
            obtain ⟨h, hh, hrest⟩ := hdecode
            rw [Option.map_eq_some_iff] at hrest
            obtain ⟨⟨hs', body'⟩, hrest, heq⟩ := hrest
            cases heq
            obtain ⟨hvalid, hline⟩ := decodeHeader_eq_some_iff.1 hh
            obtain ⟨hvalids, hrest⟩ := ih rest.length (hn ▸ length_rest_lt (by decide) hcut) hrest rfl
            refine ⟨List.forall_mem_cons.2 ⟨hvalid, hvalids⟩, ?_⟩
            rw [htext, hline, hrest]
            simp only [headerLines, List.flatMap_cons, List.append_assoc]

end header

section message

structure Message where
  method : List UInt8
  target : List UInt8
  headers : List Header
  body : List UInt8

structure Message.Valid (m : Message) : Prop where
  method : isToken m.method = true
  target : isTarget m.target = true
  headers : ∀ h ∈ m.headers, h.Valid

def requestLine (method target : List UInt8) : List UInt8 := method ++ [space] ++ (target ++ [space] ++ version)

def render (m : Message) : List UInt8 :=
  requestLine m.method m.target ++ crlf ++ (headerLines m.headers ++ crlf ++ m.body)

def decodeLine (line : List UInt8) : Option (List UInt8 × List UInt8) :=
  match line.dropInfix? [space] with
  | none => none
  | some (method, rest) =>
      match rest.dropInfix? [space] with
      | none => none
      | some (target, ver) =>
          if isToken method && isTarget target && ver == version then some (method, target) else none

theorem decodeLine_eq_some_iff {line method target : List UInt8} :
    decodeLine line = some (method, target) ↔
      isToken method = true ∧ isTarget target = true ∧ line = requestLine method target := by
  constructor
  · intro hdecode
    rw [decodeLine] at hdecode
    split at hdecode
    · cases hdecode
    next rest hcut =>
      split at hdecode
      · cases hdecode
      next ver hcut' =>
        split at hdecode
        next hvalid =>
          cases hdecode
          rw [Bool.and_eq_true, Bool.and_eq_true, beq_iff_eq] at hvalid
          obtain ⟨⟨hmethod, htarget⟩, rfl⟩ := hvalid
          refine ⟨hmethod, htarget, ?_⟩
          rw [(dropInfix?_eq_some.1 hcut).1, (dropInfix?_eq_some.1 hcut').1, requestLine]
        next => cases hdecode
  · rintro ⟨hmethod, htarget, rfl⟩
    have hcut : (requestLine method target).dropInfix? [space] = some (method, target ++ [space] ++ version) :=
      dropInfix?_append (by decide) (not_infix_of_notMem List.mem_cons_self (notMem_of_isToken hmethod (by decide)))
    have hcut' : (target ++ [space] ++ version).dropInfix? [space] = some (target, version) :=
      dropInfix?_append (by decide) (not_infix_of_notMem List.mem_cons_self (isTarget_iff.1 htarget).2.2)
    simp only [decodeLine, hcut, hcut', hmethod, htarget, Bool.and_self, beq_self_eq_true, if_true]

/-- A request by the grammar: the request line, header lines, a blank line and the body. -/
def decode (text : List UInt8) : Option Message :=
  match text.dropInfix? crlf with
  | none => none
  | some (line, rest) =>
      match decodeLine line, decodeHeaders rest with
      | some (method, target), some (headers, body) => some ⟨method, target, headers, body⟩
      | _, _ => none

theorem requestLine_clear {method target : List UInt8} (hmethod : isToken method = true)
    (htarget : isTarget target = true) : ¬crlf <:+: requestLine method target := by
  have hspace : 13 ∉ [space] := by decide
  have hversion : 13 ∉ version := by decide
  refine not_infix_of_notMem List.mem_cons_self ?_
  simp only [requestLine, List.mem_append, not_or]
  have hclean := isClean_iff.1 (isTarget_iff.1 htarget).2.1
  exact ⟨⟨notMem_of_isToken hmethod (by decide), hspace⟩, ⟨hclean.1, hspace⟩, hversion⟩

/-- The grammar is unambiguous: a text is read as a message exactly if it is the text of that message
and the message is valid. -/
theorem decode_eq_some_iff {text : List UInt8} {m : Message} : decode text = some m ↔ m.Valid ∧ text = render m := by
  constructor
  · intro hdecode
    rw [decode] at hdecode
    split at hdecode
    · cases hdecode
    next line rest hcut =>
      split at hdecode
      next hline hrest =>
        cases hdecode
        obtain ⟨hmethod, htarget, hline⟩ := decodeLine_eq_some_iff.1 hline
        obtain ⟨hheaders, hrest⟩ := decodeHeaders_sound hrest
        refine ⟨⟨hmethod, htarget, hheaders⟩, ?_⟩
        rw [(dropInfix?_eq_some.1 hcut).1, hline, hrest, render]
      next => cases hdecode
  · rintro ⟨hvalid, rfl⟩
    have hcut : (render m).dropInfix? crlf =
        some (requestLine m.method m.target, headerLines m.headers ++ crlf ++ m.body) :=
      dropInfix?_append (by decide) (requestLine_clear hvalid.method hvalid.target)
    have hline := decodeLine_eq_some_iff.2 ⟨hvalid.method, hvalid.target, rfl⟩
    simp only [decode, hcut, hline, decodeHeaders_lines hvalid.headers]

end message

end StudyNotes.Codes.HttpRequest
