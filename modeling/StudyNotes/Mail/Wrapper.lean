import StudyNotes.Shell.Templates
import StudyNotes.Mail.Program

namespace StudyNotes.Mail.Wrapper

open Shell.Tokens Shell.Quoting Shell.Templates Words.CLanguage Program

structure MailWrapper where
  smtp : List UInt8
  smtpAuth : List UInt8
  smtpAuthUser : List UInt8
  smtpAuthPass : List UInt8
  subject : List UInt8
  from_ : List UInt8
  rcpts : List (List UInt8)

namespace MailWrapper

def isVaild (M : MailWrapper) : Bool :=
  if M.from_.length ≤ 0 then
    false
  else if M.rcpts.length ≤ 0 then
    false
  else
    true

def formatAuth (M : MailWrapper) : List UInt8 :=
  ascii "mail -s '" ++ M.subject ++ ascii "'" ++
    ascii " -S sendwait" ++
    ascii " -S 'from=" ++ M.from_ ++ ascii "'" ++
    ascii " -S smtp='" ++ M.smtp ++ ascii "'" ++
    ascii " -S smtp-auth='" ++ M.smtpAuth ++ ascii "'" ++
    ascii " -S smtp-auth-user='" ++ M.smtpAuthUser ++ ascii "'" ++
    ascii " -S smtp-auth-password='" ++ M.smtpAuthPass ++ ascii "'" ++
    M.rcpts.flatMap fun rcpt => if rcpt.length > 0 then ascii " \"" ++ rcpt ++ ascii "\"" else []

def toEchoFmt (M : MailWrapper) (text : List UInt8) : List UInt8 :=
  ascii "echo '" ++ text ++ ascii "' | " ++ M.formatAuth

def toFileFmt (M : MailWrapper) (filename : List UInt8) : List UInt8 := M.formatAuth ++ ascii " < " ++ filename

end MailWrapper

/-- The command that popen_mailx gives to the shell. -/
def shellCommand (cmd : List UInt8) : List UInt8 := cStr (cmd ++ ascii " 2>&1")

def popenMailx (popen : List UInt8 → Option (List UInt8)) (cmd errmsg : List UInt8) : Bool × List UInt8 :=
  match popen (shellCommand cmd) with
  | none => (false, ascii "popen() failed!")
  | some output =>
      let buffer := (output.take 255).map fun c => if c = 0 then 32 else c
      if buffer.length > 0 then (false, buffer) else (true, errmsg)

/-- The words that the fields stand for. -/
def mailWords (M : MailWrapper) : List (List UInt8) :=
  [ascii "mail", ascii "-s", M.subject, ascii "-S", ascii "sendwait", ascii "-S", ascii "from=" ++ M.from_,
    ascii "-S", ascii "smtp=" ++ M.smtp, ascii "-S", ascii "smtp-auth=" ++ M.smtpAuth,
    ascii "-S", ascii "smtp-auth-user=" ++ M.smtpAuthUser, ascii "-S", ascii "smtp-auth-password=" ++ M.smtpAuthPass] ++
  M.rcpts.filter (· ≠ [])

/-- The strings of a mail. -/
def strings (M : MailWrapper) (text : List UInt8) : List (List UInt8) :=
  [text, M.subject, M.from_, M.smtp, M.smtpAuth, M.smtpAuthUser, M.smtpAuthPass] ++ M.rcpts

/-- The strings of a mail that come out of their quotes as they are. -/
structure Quotable (M : MailWrapper) (text : List UInt8) : Prop where
  fields : ∀ v ∈ [text, M.subject, M.from_, M.smtp, M.smtpAuth, M.smtpAuthUser, M.smtpAuthPass], apostrophe ∉ v
  rcpts : ∀ v ∈ M.rcpts, Inert v

section items

def fixedWord (k : String) : Item := .fixed (ascii k) [.word (ascii k)]

def fixedWords : List String := ["echo", "mail", "-s", "-S", "sendwait"]

def leads : List String := ["", "smtp=", "smtp-auth=", "smtp-auth-user=", "smtp-auth-password="]

theorem plain_of_all {text : List UInt8} (h : text.all (· ∉ special) = true) : ∀ c ∈ text, c ∉ special := by
  simpa only [List.all_eq_true, decide_eq_true_eq] using h

theorem fixedWord_sound {k : String} (hk : k ∈ fixedWords) : (fixedWord k).Sound := by
  have hplain : ∀ k ∈ fixedWords, ascii k ≠ [] ∧ (ascii k).all (· ∉ special) = true := by decide
  exact rigid_plain (hplain k hk).1 (plain_of_all (hplain k hk).2)

theorem lead_plain {k : String} (hk : k ∈ leads) : ∀ c ∈ ascii k, c ∉ special := by
  have hplain : ∀ k ∈ leads, (ascii k).all (· ∉ special) = true := by decide
  exact plain_of_all (hplain k hk)

/-- The parts of the mail command. -/
def mailItems (M : MailWrapper) : List Item :=
  [fixedWord "mail", fixedWord "-s", .quoted .apostrophe (ascii "") M.subject, fixedWord "-S", fixedWord "sendwait",
    fixedWord "-S", .quoted .apostrophe (ascii "") (ascii "from=" ++ M.from_),
    fixedWord "-S", .quoted .apostrophe (ascii "smtp=") M.smtp,
    fixedWord "-S", .quoted .apostrophe (ascii "smtp-auth=") M.smtpAuth,
    fixedWord "-S", .quoted .apostrophe (ascii "smtp-auth-user=") M.smtpAuthUser,
    fixedWord "-S", .quoted .apostrophe (ascii "smtp-auth-password=") M.smtpAuthPass] ++
  (M.rcpts.filter (· ≠ [])).map (.quoted .quotation (ascii ""))

def echoItems (M : MailWrapper) (text : List UInt8) : List Item :=
  [fixedWord "echo", .quoted .apostrophe (ascii "") text, .fixed bar [.operator bar]] ++ mailItems M

theorem mailItems_ne_nil (M : MailWrapper) : mailItems M ≠ [] := List.cons_ne_nil _ _

theorem echoItems_ne_nil (M : MailWrapper) (text : List UInt8) : echoItems M text ≠ [] := List.cons_ne_nil _ _

/-- What popen_mailx adds to the last command. -/
def mergeItem : Item := .fixed (ascii "2>&1") [.number (ascii "2"), .operator (ascii ">&"), .word (ascii "1")]

theorem mergeItem_sound : mergeItem.Sound := by
  have htext : ascii "2>&1" = [50, 62, 38, 49] := by decide
  have hrigid : Rigid [50, 62, 38, 49] [.number [50], .operator [62, 38], .word [49]] := by
    refine ⟨⟨List.cons_ne_nil _ _, List.cons_ne_nil _ _⟩, fun x hx hne => ?_⟩
    simp only [List.suffix_cons_iff, List.suffix_nil] at hx
    rcases hx with rfl | rfl | rfl | rfl | rfl
    · exact ⟨[.number [50], .operator [62, 38]], .word [49] true, rfl, by decide, by decide⟩
    · exact ⟨[.operator [62, 38]], .word [49] true, rfl, by decide, by decide⟩
    · exact ⟨[.operator [38]], .word [49] true, rfl, by decide, by decide⟩
    · exact ⟨[], .word [49] true, rfl, by decide, by decide⟩
    · exact absurd rfl hne
  have hnumber : ascii "2" = [50] := by decide
  have hmerge : ascii ">&" = [62, 38] := by decide
  have hone : ascii "1" = [49] := by decide
  rw [mergeItem, htext, hnumber, hmerge, hone]
  exact hrigid

variable (M : MailWrapper) (text : List UInt8)

theorem mailItems_sound : ∀ i ∈ mailItems M, i.Sound := by
  have hwords : ∀ k ∈ fixedWords, (fixedWord k).Sound := fun k hk => fixedWord_sound hk
  have hleads : ∀ k ∈ leads, ∀ (mark : Mark) (v : List UInt8), (Item.quoted mark (ascii k) v).Sound :=
    fun k hk _ _ => lead_plain hk
  simp only [fixedWords, leads, List.forall_mem_cons] at hwords hleads
  refine List.forall_mem_append.2 ⟨?_, List.forall_mem_map.2 fun v _ => hleads.1 _ v⟩
  simp [hwords, hleads]

theorem echoItems_sound : ∀ i ∈ echoItems M text, i.Sound := by
  have hbar : (Item.fixed bar [.operator bar]).Sound := rigid_operator (by decide)
  refine List.forall_mem_append.2 ⟨?_, mailItems_sound M⟩
  simp only [List.forall_mem_cons]
  exact ⟨fixedWord_sound (by decide), lead_plain (k := "") (by decide), hbar, by simp⟩

theorem meant_mailItems : meant (mailItems M) = (mailWords M).map Token.word := by
  have hnil : ascii "" = [] := by decide
  have hrcpts (rcpts : List (List UInt8)) :
      rcpts.flatMap (fun v => (Item.quoted .quotation [] v).tokens) = rcpts.map Token.word :=
    List.flatMap_pure_eq_map Token.word rcpts
  simp [meant, mailItems, mailWords, fixedWord, hnil, List.flatMap_map, hrcpts]
  simp [Item.tokens]

theorem safe_iff : (∀ i ∈ echoItems M text, i.Safe) ↔ Quotable M text := by
  have hfrom : apostrophe ∉ ascii "from=" := by decide
  have hrcpts : (∀ i ∈ (M.rcpts.filter (· ≠ [])).map (Item.quoted .quotation (ascii "")), i.Safe) ↔
      ∀ v ∈ M.rcpts, Inert v := by
    simp only [List.forall_mem_map, List.mem_filter, decide_eq_true_eq, and_imp]
    refine forall₂_congr fun v _ => ⟨fun h => ?_, fun h _ => h⟩
    by_cases hnil : v = []
    · rw [hnil]
      exact inert_nil
    · exact h hnil
  have hquotable : Quotable M text ↔
      (∀ v ∈ [text, M.subject, M.from_, M.smtp, M.smtpAuth, M.smtpAuthUser, M.smtpAuthPass], apostrophe ∉ v) ∧
        ∀ v ∈ M.rcpts, Inert v :=
    ⟨fun h => ⟨h.fields, h.rcpts⟩, fun h => ⟨h.1, h.2⟩⟩
  rw [hquotable, echoItems, mailItems, List.forall_mem_append, List.forall_mem_append, hrcpts]
  simp [fixedWord, Item.Safe, Mark.Keeps, hfrom, and_assoc]

theorem spaced_append (items items' : List Item) : spaced (items ++ items') = spaced items ++ spaced items' :=
  List.flatMap_append

theorem spaced_rcpts (rcpts : List (List UInt8)) :
    32 :: spaced ((rcpts.filter (· ≠ [])).map (Item.quoted .quotation (ascii ""))) =
      (rcpts.flatMap fun rcpt => if rcpt.length > 0 then ascii " \"" ++ rcpt ++ ascii "\"" else []) ++ [32] := by
  have hopen : ascii " \"" = [32, quotationMark] := by decide
  have hclose : ascii "\"" = [quotationMark] := by decide
  have hnil : ascii "" = [] := by decide
  induction rcpts with
  | nil => rfl
  | cons rcpt rcpts ih =>
      by_cases hrcpt : rcpt = []
      · subst hrcpt
        simpa using ih
      · have hfilter : (rcpt :: rcpts).filter (· ≠ []) = rcpt :: rcpts.filter (· ≠ []) :=
          List.filter_cons_of_pos (decide_eq_true hrcpt)
        rw [hfilter, List.map_cons, spaced_cons, ih, List.flatMap_cons, if_pos (List.length_pos_iff.2 hrcpt), hopen,
          hclose, hnil]
        simp [Item.render, Mark.byte]

theorem formatAuth_eq : M.formatAuth ++ [32] = spaced (mailItems M) := by
  have h₁ : ascii "mail -s '" = ascii "mail" ++ 32 :: (ascii "-s" ++ [32, apostrophe]) := by decide
  have h₂ : ascii " -S sendwait" = 32 :: (ascii "-S" ++ 32 :: ascii "sendwait") := by decide
  have h₃ : ascii " -S 'from=" = 32 :: (ascii "-S" ++ 32 :: apostrophe :: ascii "from=") := by decide
  have h₄ : ascii " -S smtp='" = 32 :: (ascii "-S" ++ 32 :: (ascii "smtp=" ++ [apostrophe])) := by decide
  have h₅ : ascii " -S smtp-auth='" = 32 :: (ascii "-S" ++ 32 :: (ascii "smtp-auth=" ++ [apostrophe])) := by
    decide
  have h₆ : ascii " -S smtp-auth-user='" = 32 :: (ascii "-S" ++ 32 :: (ascii "smtp-auth-user=" ++ [apostrophe])) := by
    decide
  have h₇ : ascii " -S smtp-auth-password='" =
      32 :: (ascii "-S" ++ 32 :: (ascii "smtp-auth-password=" ++ [apostrophe])) := by
    decide
  have h₈ : ascii "'" = [apostrophe] := by decide
  have hnil : ascii "" = [] := by decide
  have hrcpts := spaced_rcpts M.rcpts
  unfold MailWrapper.formatAuth mailItems
  rw [List.append_assoc, ← hrcpts, spaced_append]
  simp only [h₁, h₂, h₃, h₄, h₅, h₆, h₇, h₈]
  simp [spaced, fixedWord, Item.render, Mark.byte, hnil]

theorem toEchoFmt_eq : M.toEchoFmt text = line (echoItems M text) := by
  have hopen : ascii "echo '" = ascii "echo" ++ [32, apostrophe] := by decide
  have hclose : ascii "' | " = [apostrophe, 32, 124, 32] := by decide
  have hnil : ascii "" = [] := by decide
  refine (List.append_left_inj [32]).1 ?_
  rw [line_spaced (echoItems_ne_nil M text), echoItems, spaced_append, ← formatAuth_eq, MailWrapper.toEchoFmt, hopen, hclose]
  simp [spaced, fixedWord, Item.render, Mark.byte, hnil, bar]

theorem meant_echoItems :
    meant (echoItems M text) = [ascii "echo", text].map Token.word ++ .operator bar :: (mailWords M).map Token.word := by
  have hnil : ascii "" = [] := by decide
  rw [← meant_mailItems]
  simp [echoItems, meant, fixedWord, Item.tokens, hnil]

end items

section zero

variable {M : MailWrapper} {text : List UInt8} (hzero : ∀ v ∈ strings M text, 0 ∉ v)
include hzero

theorem zero_not_mem_toEchoFmt : 0 ∉ M.toEchoFmt text := by
  have hfixed : ∀ k ∈ ["echo '", "' | ", "mail -s '", "'", " -S sendwait", " -S 'from=", " -S smtp='",
      " -S smtp-auth='", " -S smtp-auth-user='", " -S smtp-auth-password='", " \"", "\""], (0 : UInt8) ∉ ascii k := by
    decide
  obtain ⟨hfields, hrcpts⟩ := List.forall_mem_append.1 hzero
  simp only [List.forall_mem_cons] at hfields hfixed
  unfold MailWrapper.toEchoFmt MailWrapper.formatAuth
  simp only [List.mem_append, hfields, hfixed, false_or, List.mem_flatMap, not_exists, not_and]
  intro rcpt hrcpt
  split
  · simp only [List.mem_append, hfixed, hrcpts rcpt hrcpt, or_self, not_false_eq_true]
  · exact List.not_mem_nil

theorem shellCommand_toEchoFmt : shellCommand (M.toEchoFmt text) = line (echoItems M text ++ [mergeItem]) := by
  have hmerge : ascii " 2>&1" = 32 :: mergeItem.render := by
    unfold mergeItem Item.render
    decide
  have hclear : (0 : UInt8) ∉ ascii " 2>&1" := by decide
  rw [shellCommand, cStr_eq_self_iff.2 (List.not_mem_append (zero_not_mem_toEchoFmt hzero) hclear), toEchoFmt_eq, hmerge,
    line_concat (echoItems_ne_nil M text)]

end zero

theorem popenMailx_true_iff (popen : List UInt8 → Option (List UInt8)) (cmd errmsg : List UInt8) :
    (popenMailx popen cmd errmsg).1 = true ↔ popen (shellCommand cmd) = some [] := by
  rw [popenMailx]
  cases popen (shellCommand cmd) with
  | none => simp
  | some output => cases output <;> simp

/-- The shell reads the command as the echo of the text into the mail command, with the words that
the fields stand for, exactly if the fields come out of their quotes as they are. Then popen_mailx
succeeds exactly if this pipeline, its errors included, prints nothing. -/
theorem echo_fmt_pipeline_iff (M : MailWrapper) (text : List UInt8) :
    (parse (M.toEchoFmt text) = some [⟨[ascii "echo", text], []⟩, ⟨mailWords M, []⟩] ↔ Quotable M text) ∧
    (Quotable M text → (∀ v ∈ strings M text, 0 ∉ v) →
      ∀ (shell : Option (List Simple) → Option (List UInt8)) (errmsg : List UInt8),
        (popenMailx (fun cmd => shell (parse cmd)) (M.toEchoFmt text) errmsg).1 = true ↔
          shell (some [⟨[ascii "echo", text], []⟩,
            ⟨mailWords M, [⟨some (ascii "2"), ascii ">&", ascii "1"⟩]⟩]) = some []) := by
  have htokens := tokens_line_iff (echoItems_sound M text)
  rw [← toEchoFmt_eq, meant_echoItems, safe_iff] at htokens
  constructor
  · constructor
    · intro h
      exact htokens.1 (tokens_of_parse h)
    · intro h
      have hok := htokens.2 h
      rw [← List.append_nil ((mailWords M).map Token.word)] at hok
      rw [parse_of_tokens hok (List.cons_ne_nil _ _)]
      rfl
  · intro h hzero shell errmsg
    have hsafe : ∀ i ∈ echoItems M text ++ [mergeItem], i.Safe :=
      List.forall_mem_append.2 ⟨(safe_iff M text).2 h, by simp [mergeItem, Item.Safe]⟩
    have hsound : ∀ i ∈ echoItems M text ++ [mergeItem], i.Sound :=
      List.forall_mem_append.2 ⟨echoItems_sound M text, List.forall_mem_singleton.2 mergeItem_sound⟩
    have hok := (tokens_line_iff hsound).2 hsafe
    have hmeant : meant (echoItems M text ++ [mergeItem]) = [ascii "echo", text].map Token.word ++
        .operator bar :: ((mailWords M).map Token.word ++ mergeItem.tokens) := by
      rw [meant, List.flatMap_append, ← meant, meant_echoItems, List.flatMap_singleton, List.append_assoc, List.cons_append]
    rw [hmeant, ← shellCommand_toEchoFmt hzero] at hok
    rw [popenMailx_true_iff, parse_of_tokens hok (List.cons_ne_nil _ _)]
    rfl

def nick : MailWrapper where
  smtp := ascii "smtp.qiye.163.com"
  smtpAuth := ascii "login"
  smtpAuthUser := ascii "test@xuncetech.com"
  smtpAuthPass := ascii "p$ss \\ \"word\""
  subject := ascii "hi | there"
  from_ := ascii "nick<test@xuncetech.com>"
  rcpts := [ascii "it's me, 5$ off <me@xuncetech.com>", [], ascii "you@xuncetech.com"]

theorem quotable_nick (text : List UInt8) (htext : apostrophe ∉ text) : Quotable nick text where
  fields := List.forall_mem_cons.2 ⟨htext, by decide⟩
  rcpts := by decide

/-- A shell in which one pipeline prints nothing and every other one fails. -/
def onlyRuns (commands : List Simple) : Option (List Simple) → Option (List UInt8) :=
  fun cmds => if cmds = some commands then some [] else none

theorem echo_fmt_pipeline_nick :
    parse (nick.toEchoFmt (ascii "$HOME; $(id)")) =
      some [⟨[ascii "echo", ascii "$HOME; $(id)"], []⟩, ⟨mailWords nick, []⟩] ∧
    (popenMailx (fun cmd => onlyRuns [⟨[ascii "echo", ascii "$HOME; $(id)"], []⟩,
      ⟨mailWords nick, [⟨some (ascii "2"), ascii ">&", ascii "1"⟩]⟩] (parse cmd))
      (nick.toEchoFmt (ascii "$HOME; $(id)")) []).1 = true := by
  have hquotable : Quotable nick (ascii "$HOME; $(id)") := quotable_nick _ (by decide)
  obtain ⟨hiff, hruns⟩ := echo_fmt_pipeline_iff nick (ascii "$HOME; $(id)")
  exact ⟨hiff.2 hquotable, (hruns hquotable (by decide) _ _).2 (if_pos rfl)⟩

section injection

variable {M : MailWrapper}

theorem mailItems_safe {text : List UInt8} (h : Quotable M text) : ∀ i ∈ mailItems M, i.Safe :=
  (List.forall_mem_append.1 ((safe_iff M text).2 h)).2

theorem formatAuth_line : M.formatAuth = line (mailItems M) := by
  refine (List.append_left_inj [32]).1 ?_
  rw [formatAuth_eq, line_spaced (mailItems_ne_nil M)]

/-- An apostrophe in the text ends the argument of echo, and what follows is run. -/
theorem tokens_injected (h : Quotable M []) :
    tokens (M.toEchoFmt (ascii "'; reboot; echo '")) =
      .ok ([.word (ascii "echo"), .word [], .operator (ascii ";"), .word (ascii "reboot"), .operator (ascii ";"),
        .word (ascii "echo"), .word [], .operator (ascii "|")] ++ (mailWords M).map Token.word) := by
  have hopen : Reads (.unquoted .between) (ascii "echo '" ++ ascii "'; reboot; echo '" ++ ascii "' | ")
      [.word (ascii "echo"), .word [], .operator (ascii ";"), .word (ascii "reboot"), .operator (ascii ";"),
        .word (ascii "echo"), .word [], .operator (ascii "|")] (.unquoted .between) := by
    show read _ _ = _
    decide
  rw [tokens_eq_ok_iff, MailWrapper.toEchoFmt, formatAuth_line, ← meant_mailItems]
  exact yields_append_iff.2 ⟨_, _, _, hopen, yields_line (mailItems_sound M) (mailItems_safe h), rfl⟩

end injection

/-- In a recipient the shell expands what follows a dollar. -/
theorem echo_fmt_injected :
    nick.isVaild = true ∧
    tokens (nick.toEchoFmt (ascii "'; reboot; echo '")) =
      .ok ([.word (ascii "echo"), .word [], .operator (ascii ";"), .word (ascii "reboot"), .operator (ascii ";"),
        .word (ascii "echo"), .word [], .operator (ascii "|")] ++ (mailWords nick).map Token.word) ∧
    parse (nick.toEchoFmt (ascii "'; reboot; echo '")) ≠
      some [⟨[ascii "echo", ascii "'; reboot; echo '"], []⟩, ⟨mailWords nick, []⟩] ∧
    tokens (({ nick with rcpts := [ascii "$(reboot)"] } : MailWrapper).toEchoFmt (ascii "hi")) = .error .expansion := by
  have htokens := tokens_injected (quotable_nick [] List.not_mem_nil)
  refine ⟨by decide, htokens, ?_, by decide +kernel⟩
  rw [parse, htokens]
  decide

/-- A file name is not quoted at all. -/
theorem file_fmt_command (M : MailWrapper) {text : List UInt8} (h : Quotable M text) (filename : List UInt8)
    (hne : filename ≠ []) (hplain : ∀ c ∈ filename, c ∉ special) :
    parse (M.toFileFmt filename) = some [⟨mailWords M, [⟨none, ascii "<", filename⟩]⟩] := by
  have hinput : ascii " < " = [32, 60, 32] := by decide
  have hless : ascii "<" = [60] := by decide
  have hsound : ∀ i ∈ mailItems M ++ [.fixed [60] [.operator [60]]] ++ [.fixed filename [.word filename]], i.Sound := by
    refine List.forall_mem_append.2 ⟨List.forall_mem_append.2 ⟨mailItems_sound M, ?_⟩, ?_⟩
    · exact List.forall_mem_singleton.2 (rigid_operator (by decide))
    · exact List.forall_mem_singleton.2 (rigid_plain hne hplain)
  have hsafe : ∀ i ∈ mailItems M ++ [.fixed [60] [.operator [60]]] ++ [.fixed filename [.word filename]], i.Safe :=
    List.forall_mem_append.2 ⟨List.forall_mem_append.2 ⟨mailItems_safe h, by simp [Item.Safe]⟩, by simp [Item.Safe]⟩
  have hok := (tokens_line_iff hsound).2 hsafe
  have hfmt : M.toFileFmt filename =
      line (mailItems M ++ [.fixed [60] [.operator [60]]] ++ [.fixed filename [.word filename]]) := by
    rw [line_concat (by simp), line_concat (mailItems_ne_nil M), ← formatAuth_line,
      MailWrapper.toFileFmt, hinput]
    simp [Item.render]
  have hmeant : meant (mailItems M ++ [.fixed [60] [.operator [60]]] ++ [.fixed filename [.word filename]]) =
      (mailWords M).map Token.word ++ [.operator [60], .word filename] := by
    rw [← meant_mailItems]
    simp [meant, Item.tokens]
  rw [parse, hfmt, hok, hmeant, hless]
  dsimp only
  rw [pipeline_words]
  rfl

end StudyNotes.Mail.Wrapper
