import Mathlib.Data.List.Infix

namespace StudyNotes.Shell.Tokens

/-- Why the words of a command are not known from its text alone: the shell would expand
something, or wait for more input. -/
inductive Unfixed
  | expansion
  | unfinished
  deriving DecidableEq, Repr

inductive Token
  | word (text : List UInt8)
  | number (digits : List UInt8)
  | operator (text : List UInt8)
  deriving DecidableEq, Repr

def newline : UInt8 := 10
def quotationMark : UInt8 := 34
def dollar : UInt8 := 36
def apostrophe : UInt8 := 39
def backslash : UInt8 := 92
def grave : UInt8 := 96

def blanks : List UInt8 := [9, 32]

/-- The characters * ? [ of patterns. -/
def patterns : List UInt8 := [42, 63, 91]

/-- The operators & && ( ) ; ;; | || < << <<- <& <> > >> >& >| and newline. -/
def operators : List (List UInt8) :=
  [[38], [38, 38], [40], [41], [59], [59, 59], [124], [124, 124], [60], [60, 60], [60, 60, 45], [60, 38], [60, 62],
    [62], [62, 62], [62, 38], [62, 124], [newline]]

def digits : List UInt8 := [48, 49, 50, 51, 52, 53, 54, 55, 56, 57]

/-- Where an unquoted character stands. A word is bare as long as nothing in it was quoted. -/
inductive Place
  | between
  | word (text : List UInt8) (bare : Bool)
  | operator (text : List UInt8)
  deriving DecidableEq, Repr

inductive Reading
  | unquoted (place : Place)
  | escape (place : Place)
  | dollar (text : List UInt8)
  | single (text : List UInt8)
  | double (text : List UInt8)
  | doubleEscape (text : List UInt8)
  | doubleDollar (text : List UInt8)
  | comment
  deriving DecidableEq, Repr

namespace Place

def text : Place → List UInt8
  | .word text _ => text
  | _ => []

def bare : Place → Bool
  | .word _ bare => bare
  | _ => true

def inWord : Place → Bool
  | .word _ _ => true
  | _ => false

def extend? (c : UInt8) : Place → Option Place
  | .operator text => if text ++ [c] ∈ operators then some (.operator (text ++ [c])) else none
  | _ => none

def pending : Place → List Token
  | .operator text => [.operator text]
  | _ => []

/-- The token that a blank, an operator or the end of the input ends. Digits right before < or >
are the number of a file. -/
def close (next : Option UInt8) : Place → List Token
  | .between => []
  | .word text bare =>
      if bare && text.all digits.contains && (next == some 60 || next == some 62) then [.number text] else [.word text]
  | .operator text => [.operator text]

end Place

/-- The rules of token recognition and quoting for one character. -/
def step : Reading → UInt8 → Except Unfixed (List Token × Reading)
  | .unquoted place, c =>
      if c = backslash then
        .ok ([], .escape place)
      else if let some longer := place.extend? c then
        .ok ([], .unquoted longer)
      else if c = apostrophe then
        .ok (place.pending, .single place.text)
      else if c = quotationMark then
        .ok (place.pending, .double place.text)
      else if c = dollar then
        .ok (place.pending, .dollar place.text)
      else if c = grave ∨ c ∈ patterns then
        .error .expansion
      else if [c] ∈ operators then
        .ok (place.close (some c), .unquoted (.operator [c]))
      else if c ∈ blanks then
        .ok (place.close (some c), .unquoted .between)
      else if ¬place.inWord ∧ c = 35 then
        .ok (place.pending, .comment)
      else if ¬place.inWord ∧ c = 126 then
        .error .expansion
      else
        .ok (place.pending, .unquoted (.word (place.text ++ [c]) place.bare))
  | .escape place, c =>
      if c = newline then
        .ok ([], .unquoted place)
      else
        .ok (place.pending, .unquoted (.word (place.text ++ [c]) false))
  -- a dollar stands for itself before a blank or a newline and at the end
  | .dollar text, c =>
      if c ∈ blanks then
        .ok ([.word (text ++ [dollar])], .unquoted .between)
      else if c = newline then
        .ok ([.word (text ++ [dollar])], .unquoted (.operator [newline]))
      else
        .error .expansion
  | .single text, c =>
      if c = apostrophe then .ok ([], .unquoted (.word text false)) else .ok ([], .single (text ++ [c]))
  | .double text, c =>
      if c = quotationMark then
        .ok ([], .unquoted (.word text false))
      else if c = backslash then
        .ok ([], .doubleEscape text)
      else if c = dollar then
        .ok ([], .doubleDollar text)
      else if c = grave then
        .error .expansion
      else
        .ok ([], .double (text ++ [c]))
  | .doubleEscape text, c =>
      if c = newline then
        .ok ([], .double text)
      else if c = dollar ∨ c = grave ∨ c = quotationMark ∨ c = backslash then
        .ok ([], .double (text ++ [c]))
      else
        .ok ([], .double (text ++ [backslash, c]))
  | .doubleDollar text, c =>
      if c = quotationMark then
        .ok ([], .unquoted (.word (text ++ [dollar]) false))
      else if c ∈ blanks ∨ c = newline then
        .ok ([], .double (text ++ [dollar, c]))
      else
        .error .expansion
  | .comment, c => .ok ([], if c = newline then .unquoted (.operator [newline]) else .comment)

def read : Reading → List UInt8 → Except Unfixed (List Token × Reading)
  | r, [] => .ok ([], r)
  | r, c :: cs => do
      let (ts, r) ← step r c
      let (us, r) ← read r cs
      return (ts ++ us, r)

def finish : Reading → Except Unfixed (List Token)
  | .unquoted place => .ok (place.close none)
  | .dollar text => .ok [.word (text ++ [dollar])]
  | .comment => .ok []
  | _ => .error .unfinished

def tokens (input : List UInt8) : Except Unfixed (List Token) := do
  let (ts, r) ← read (.unquoted .between) input
  let us ← finish r
  return ts ++ us

structure Redirection where
  number : Option (List UInt8)
  operator : List UInt8
  target : List UInt8
  deriving DecidableEq, Repr

structure Simple where
  words : List (List UInt8)
  redirections : List Redirection
  deriving DecidableEq, Repr

namespace Simple

def empty : Simple := ⟨[], []⟩

def addWord (cmd : Simple) (text : List UInt8) : Simple := { cmd with words := cmd.words ++ [text] }

def redirect (cmd : Simple) (r : Redirection) : Simple := { cmd with redirections := cmd.redirections ++ [r] }

end Simple

/-- The operators < <& <> > >> >& >| that redirect; here-documents are left out. -/
def redirectors : List (List UInt8) := [[60], [60, 38], [60, 62], [62], [62, 62], [62, 38], [62, 124]]

def bar : List UInt8 := [124]

/-- The simple commands of a pipeline, none for every other list of tokens. -/
def pipeline (cmd : Simple) : List Token → Option (List Simple)
  | [] => if cmd = Simple.empty then none else some [cmd]
  | .word text :: rest => pipeline (cmd.addWord text) rest
  | .operator op :: rest =>
      if op = bar then
        if cmd = Simple.empty then none else (pipeline Simple.empty rest).map (cmd :: ·)
      else
        match rest with
        | .word text :: rest => if op ∈ redirectors then pipeline (cmd.redirect ⟨none, op, text⟩) rest else none
        | _ => none
  | .number n :: .operator op :: .word text :: rest =>
      if op ∈ redirectors then pipeline (cmd.redirect ⟨some n, op, text⟩) rest else none
  | .number _ :: _ => none

def parse (input : List UInt8) : Option (List Simple) :=
  match tokens input with
  | .ok ts => pipeline Simple.empty ts
  | .error _ => none

theorem read_cons {r : Reading} {c : UInt8} {cs : List UInt8} {ts : List Token} {r₁ : Reading}
    (hstep : step r c = .ok (ts, r₁)) : read r (c :: cs) = (read r₁ cs).map fun out => (ts ++ out.1, out.2) := by
  simp only [read, hstep, bind, Except.bind]
  cases read r₁ cs <;> rfl

theorem read_append {r r₁ : Reading} {a b : List UInt8} {ts : List Token} (ha : read r a = .ok (ts, r₁)) :
    read r (a ++ b) = (read r₁ b).map fun out => (ts ++ out.1, out.2) := by
  induction a generalizing r ts with
  | nil =>
      cases ha
      cases h : read r₁ b <;> simp [h, Except.map]
  | cons c cs ih =>
      cases hstep : step r c with
      | error e => simp [read, hstep, bind, Except.bind] at ha
      | ok out =>
          rw [read_cons hstep] at ha
          cases hread : read out.2 cs with
          | error e => simp [hread, Except.map] at ha
          | ok rest =>
              rw [hread] at ha
              cases ha
              rw [List.cons_append, read_cons hstep, ih hread]
              cases read rest.2 b <;> simp [Except.map]

def Reads (r : Reading) (input : List UInt8) (ts : List Token) (r' : Reading) : Prop := read r input = .ok (ts, r')

namespace Reads

variable {r r₁ r₂ : Reading} {ts us : List Token} {a b : List UInt8}

theorem nil : Reads r [] [] r := rfl

theorem append (ha : Reads r a ts r₁) (hb : Reads r₁ b us r₂) : Reads r (a ++ b) (ts ++ us) r₂ := by
  rw [Reads, read_append ha, show read r₁ b = _ from hb]
  rfl

theorem step {c : UInt8} (hstep : Tokens.step r c = .ok (ts, r₁)) : Reads r [c] ts r₁ := by
  rw [Reads, read_cons hstep, read, Except.map, List.append_nil]

theorem cons {c : UInt8} (hstep : Tokens.step r c = .ok (ts, r₁)) (hrest : Reads r₁ b us r₂) :
    Reads r (c :: b) (ts ++ us) r₂ := (Reads.step hstep).append hrest

end Reads

theorem reads_cons_iff {r r₂ : Reading} {c : UInt8} {b : List UInt8} {ts : List Token} :
    Reads r (c :: b) ts r₂ ↔ ∃ us r₁ vs, step r c = .ok (us, r₁) ∧ Reads r₁ b vs r₂ ∧ ts = us ++ vs := by
  constructor
  · intro h
    cases hstep : step r c with
    | error e => simp [Reads, read, hstep, bind, Except.bind] at h
    | ok out =>
        obtain ⟨us, r₁⟩ := out
        rw [Reads, read_cons hstep] at h
        cases hread : read r₁ b with
        | error e => simp [hread, Except.map] at h
        | ok rest =>
            rw [hread] at h
            cases h
            exact ⟨us, r₁, rest.1, rfl, hread, rfl⟩
  · rintro ⟨us, r₁, vs, hstep, hrest, rfl⟩
    exact Reads.cons hstep hrest

theorem reads_nil_iff {r r' : Reading} {ts : List Token} : Reads r [] ts r' ↔ ts = [] ∧ r' = r := by
  simp [Reads, read, eq_comm]

theorem reads_append_iff {r r₂ : Reading} {a b : List UInt8} {ts : List Token} :
    Reads r (a ++ b) ts r₂ ↔ ∃ us r₁ vs, Reads r a us r₁ ∧ Reads r₁ b vs r₂ ∧ ts = us ++ vs := by
  constructor
  · intro h
    induction a generalizing r ts with
    | nil => exact ⟨[], r, ts, Reads.nil, h, rfl⟩
    | cons c a ih =>
        obtain ⟨us, r₁, vs, hstep, hrest, rfl⟩ := reads_cons_iff.1 h
        obtain ⟨us', r₁', vs', ha, hb, rfl⟩ := ih hrest
        exact ⟨us ++ us', r₁', vs', Reads.cons hstep ha, hb, (List.append_assoc _ _ _).symm⟩
  · rintro ⟨us, r₁, vs, ha, hb, rfl⟩
    exact ha.append hb

theorem Reads.append_iff {r r₁ r₂ : Reading} {a b : List UInt8} {us ts : List Token} (ha : Reads r a us r₁) :
    Reads r (a ++ b) ts r₂ ↔ ∃ vs, Reads r₁ b vs r₂ ∧ ts = us ++ vs := by
  constructor
  · intro h
    obtain ⟨us', r₁', vs, ha', hb, rfl⟩ := reads_append_iff.1 h
    cases ha.symm.trans ha'
    exact ⟨vs, hb, rfl⟩
  · rintro ⟨vs, hb, rfl⟩
    exact ha.append hb

/-- The tokens of an input that is read to its end. -/
def Yields (r : Reading) (input : List UInt8) (ts : List Token) : Prop :=
  ∃ us vs r', Reads r input us r' ∧ finish r' = .ok vs ∧ ts = us ++ vs

theorem tokens_eq_ok_iff {input : List UInt8} {ts : List Token} :
    tokens input = .ok ts ↔ Yields (.unquoted .between) input ts := by
  constructor
  · intro h
    rw [tokens] at h
    cases hread : read (.unquoted .between) input with
    | error e => simp [hread, bind, Except.bind] at h
    | ok out =>
        cases hfinish : finish out.2 with
        | error e => simp [hread, hfinish, bind, Except.bind] at h
        | ok vs =>
            simp only [hread, hfinish, bind, Except.bind, pure, Except.pure, Except.ok.injEq] at h
            exact ⟨out.1, vs, out.2, hread, hfinish, h.symm⟩
  · rintro ⟨us, vs, r', hread, hfinish, rfl⟩
    simp only [tokens, show read _ input = _ from hread, bind, Except.bind, hfinish]
    rfl

theorem yields_nil_iff {r : Reading} {ts : List Token} : Yields r [] ts ↔ finish r = .ok ts := by
  constructor
  · rintro ⟨us, vs, r', hread, hfinish, rfl⟩
    obtain ⟨rfl, rfl⟩ := reads_nil_iff.1 hread
    exact hfinish
  · intro h
    exact ⟨[], ts, r, Reads.nil, h, rfl⟩

theorem yields_append_iff {r : Reading} {a b : List UInt8} {ts : List Token} :
    Yields r (a ++ b) ts ↔ ∃ us r₁ vs, Reads r a us r₁ ∧ Yields r₁ b vs ∧ ts = us ++ vs := by
  constructor
  · rintro ⟨us, vs, r', hread, hfinish, rfl⟩
    obtain ⟨us₁, r₁, us₂, ha, hb, rfl⟩ := reads_append_iff.1 hread
    exact ⟨us₁, r₁, us₂ ++ vs, ha, ⟨us₂, vs, r', hb, hfinish, rfl⟩, List.append_assoc _ _ _⟩
  · rintro ⟨us, r₁, _, ha, ⟨us₂, vs, r', hb, hfinish, rfl⟩, rfl⟩
    exact ⟨us ++ us₂, vs, r', ha.append hb, hfinish, (List.append_assoc _ _ _).symm⟩

theorem yields_cons_iff {r : Reading} {c : UInt8} {b : List UInt8} {ts : List Token} :
    Yields r (c :: b) ts ↔ ∃ us r₁ vs, step r c = .ok (us, r₁) ∧ Yields r₁ b vs ∧ ts = us ++ vs := by
  constructor
  · intro h
    obtain ⟨us, r₁, vs, hc, hb, rfl⟩ := (yields_append_iff (a := [c])).1 h
    obtain ⟨us', r', vs', hstep, hnil, rfl⟩ := reads_cons_iff.1 hc
    obtain ⟨rfl, rfl⟩ := reads_nil_iff.1 hnil
    exact ⟨us', r₁, vs, hstep, hb, by rw [List.append_nil]⟩
  · rintro ⟨us, r₁, vs, hstep, hb, rfl⟩
    exact (yields_append_iff (a := [c])).2 ⟨us, r₁, vs, Reads.step hstep, hb, rfl⟩

theorem pipeline_words (cmd : Simple) (texts : List (List UInt8)) (rest : List Token) :
    pipeline cmd (texts.map Token.word ++ rest) = pipeline { cmd with words := cmd.words ++ texts } rest := by
  induction texts generalizing cmd with
  | nil => simp only [List.map_nil, List.nil_append, List.append_nil]
  | cons text texts ih =>
      rw [List.map_cons, List.cons_append, pipeline, ih]
      simp only [Simple.addWord, List.append_assoc, List.singleton_append]

theorem pipeline_bar {cmd : Simple} (hcmd : cmd ≠ Simple.empty) (rest : List Token) :
    pipeline cmd (.operator bar :: rest) = (pipeline Simple.empty rest).map (cmd :: ·) := by
  cases rest with
  | nil => simp only [pipeline, if_true, if_neg hcmd]
  | cons t rest => cases t <;> simp only [pipeline, if_true, if_neg hcmd]

/-- Words, a bar and more words are two commands; what follows belongs to the second. -/
theorem parse_of_tokens {input : List UInt8} {words words' : List (List UInt8)} {rest : List Token}
    (h : tokens input = .ok (words.map Token.word ++ .operator bar :: (words'.map Token.word ++ rest))) (hne : words ≠ []) :
    parse input = (pipeline ⟨words', []⟩ rest).map (⟨words, []⟩ :: ·) := by
  have hcmd : (⟨words, []⟩ : Simple) ≠ Simple.empty := fun heq => hne (congrArg Simple.words heq)
  rw [parse, h]
  dsimp only
  rw [pipeline_words]
  exact (pipeline_bar hcmd _).trans (by rw [pipeline_words]; rfl)

theorem pipeline_ne_nil (cmd : Simple) (ts : List Token) : pipeline cmd ts ≠ some [] := by
  fun_induction pipeline cmd ts with
  | case3 _ _ _ ih => exact ih
  | case5 | case2 => simp
  | case6 _ _ _ _ _ _ ih => exact ih
  | case9 _ _ _ _ _ _ ih => exact ih
  | case1 | case4 | case7 | case8 | case10 | case11 => simp

/-- The tokens of the first command of a pipeline, if nothing in it is redirected. -/
theorem pipeline_eq_some {cmd c : Simple} {ts : List Token} {cs : List Simple} (h : pipeline cmd ts = some (c :: cs))
    (hc : c.redirections = []) :
    cmd.redirections = [] ∧ ∃ texts rest, c.words = cmd.words ++ texts ∧ ts = texts.map Token.word ++ rest ∧
      (rest = [] ∧ cs = [] ∨ ∃ rest', rest = .operator bar :: rest' ∧ pipeline Simple.empty rest' = some cs) := by
  -- a redirection is never taken back
  have hredirect (cmd : Simple) (r : Redirection) : (cmd.redirect r).redirections ≠ [] := by simp [Simple.redirect]
  fun_induction pipeline cmd ts with
  | case1 => cases h
  | case2 cmd hcmd =>
      cases h
      exact ⟨hc, [], [], by simp, rfl, Or.inl ⟨rfl, rfl⟩⟩
  | case3 cmd text rest ih =>
      obtain ⟨hcmd, texts, tail, hwords, rfl, htail⟩ := ih h
      refine ⟨hcmd, text :: texts, tail, ?_, rfl, htail⟩
      rw [hwords, Simple.addWord, List.append_assoc, List.singleton_append]
  | case5 cmd rest hcmd ih =>
      obtain ⟨cs', hcs, heq⟩ := Option.map_eq_some_iff.1 h
      cases heq
      exact ⟨hc, [], _, by simp, rfl, Or.inr ⟨rest, rfl, hcs⟩⟩
  | case6 cmd op _ text rest _ ih => exact absurd (ih h).1 (hredirect _ _)
  | case9 cmd n op text rest _ ih => exact absurd (ih h).1 (hredirect _ _)
  | case4 | case7 | case8 | case10 | case11 => cases h

/-- A pipeline of two commands without redirections is written with these tokens only. -/
theorem tokens_of_parse {input : List UInt8} {words words' : List (List UInt8)}
    (h : parse input = some [⟨words, []⟩, ⟨words', []⟩]) :
    tokens input = .ok (words.map Token.word ++ .operator bar :: words'.map Token.word) := by
  rw [parse] at h
  cases htokens : tokens input with
  | error e => simp [htokens] at h
  | ok ts =>
      rw [htokens] at h
      obtain ⟨-, texts, rest, rfl, rfl, ⟨-, hcs⟩ | ⟨rest, rfl, hrest⟩⟩ := pipeline_eq_some h rfl
      · cases hcs
      · obtain ⟨-, texts', rest, rfl, rfl, ⟨rfl, -⟩ | ⟨rest, rfl, hend⟩⟩ := pipeline_eq_some hrest rfl
        · simp
        · exact absurd hend (pipeline_ne_nil _ _)

end StudyNotes.Shell.Tokens
