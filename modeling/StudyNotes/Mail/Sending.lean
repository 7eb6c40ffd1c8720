import StudyNotes.Mail.Encoding

namespace StudyNotes.Mail.Sending

open Lists.Overwrite Codes.Base64 Program Encoding

variable {α β : Type}

/-- The code ends with a result of the kind, has sent the bytes, and leaves the rest of the open file. -/
def Emits (p : MailM α) (w : World) (bytes unread : List UInt8) (post : α → Prop) : Prop :=
  ∃ a w', p w = .ok (a, w') ∧ post a ∧ w'.sent = w.sent ++ bytes ∧ w'.unread = unread

theorem emits_pure {a : α} {post : α → Prop} (h : post a) (w : World) : Emits (pure a) w [] w.unread post :=
  ⟨a, w, rfl, h, (List.append_nil _).symm, rfl⟩

theorem Emits.bind {p : MailM α} {f : α → MailM β} {w : World} {bytes bytes' unread unread' : List UInt8}
    {post : α → Prop} {post' : β → Prop} (h : Emits p w bytes unread post)
    (h' : ∀ a w', post a → w'.unread = unread → Emits (f a) w' bytes' unread' post') :
    Emits (p >>= f) w (bytes ++ bytes') unread' post' := by
  obtain ⟨a, w₁, hrun, ha, hsent, hunread⟩ := h
  obtain ⟨b, w₂, hrun', hb, hsent', hunread'⟩ := h' a w₁ ha hunread
  refine ⟨b, w₂, (bind_ok hrun).trans hrun', hb, ?_, hunread'⟩
  rw [hsent', hsent, List.append_assoc]

theorem Emits.of_eq {p : MailM α} {w : World} {bytes bytes' unread : List UInt8} {post : α → Prop}
    (h : Emits p w bytes unread post) (hbytes : bytes = bytes') : Emits p w bytes' unread post := hbytes ▸ h

theorem emits_lift {x : Except Stop α} {a : α} (h : x = .ok a) (w : World) :
    Emits (StateT.lift x) w [] w.unread (· = a) := by
  subst h
  exact ⟨a, w, rfl, rfl, (List.append_nil _).symm, rfl⟩

theorem emits_fread (n : Nat) (w : World) : Emits (fread n) w [] (w.unread.drop n) (· = w.unread.take n) :=
  ⟨_, _, rfl, rfl, (List.append_nil _).symm, rfl⟩

theorem emits_fopen (contents : List UInt8) (w : World) : Emits (fopen contents) w [] contents (fun _ => True) :=
  ⟨_, _, rfl, trivial, (List.append_nil _).symm, rfl⟩

/-- The document in blocks of the input buffer, each in base64. -/
def blocks (doc : List UInt8) : List UInt8 :=
  if doc = [] then [] else encode (doc.take inBufSize) ++ blocks (doc.drop inBufSize)
termination_by doc.length
decreasing_by
  rename_i h
  have hpos : 0 < doc.length := List.length_pos_iff.2 h
  have hsize : 0 < inBufSize := by decide
  rw [List.length_drop]
  omega

theorem blocks_nil : blocks [] = [] := by rw [blocks, if_pos rfl]

theorem blocks_cons {doc : List UInt8} (h : doc ≠ []) :
    blocks doc = encode (doc.take inBufSize) ++ blocks (doc.drop inBufSize) := by
  rw [blocks, if_neg h]

theorem convlen_lt {n : Nat} (h : n ≤ inBufSize) : convlen n < outBufSize := by
  simp only [convlen, outBufSize]
  omega

theorem base64Encode_text {text outBuf : List UInt8} (hlen : text.length ≤ inBufSize)
    (hout : outBuf.length = outBufSize + 1) (rest : List UInt8) :
    base64Encode (text ++ rest) text.length outBuf outBufSize =
      .ok (convlen text.length, encode text ++ 0 :: outBuf.drop (convlen text.length + 1)) := by
  have hconv := convlen_lt hlen
  have hsize : outBufSize < 2 ^ 31 := by decide
  have hread : text.length ≤ (text ++ rest).length := by
    rw [List.length_append]
    exact Nat.le_add_right _ _
  rw [base64Encode_ok (by omega) hread (by omega) (by omega), List.take_left]

theorem length_outBuf {outBuf code : List UInt8} {n : Nat} (hout : outBuf.length = outBufSize + 1)
    (hcode : code.length = n) (hn : n < outBufSize) : (code ++ 0 :: outBuf.drop (n + 1)).length = outBufSize + 1 := by
  rw [List.length_append, List.length_cons, List.length_drop]
  omega

/-- Every write of some bytes writes one of them at least. -/
def Writes (H : Host) : Prop := ∀ k n, 0 < n → 0 < H.write k n

section sending

variable {H : Host} (hH : Writes H)

include hH

theorem emits_sendRest (rounds : Nat) (rest : List UInt8) (hrounds : rest.length ≤ rounds) (w : World) :
    Emits (sendRest H rounds rest) w rest w.unread (fun _ => True) := by
  induction rounds generalizing rest w with
  | zero =>
      obtain rfl : rest = [] := List.eq_nil_of_length_eq_zero (Nat.le_zero.1 hrounds)
      exact emits_pure trivial w
  | succ rounds ih =>
      rw [sendRest]
      split
      next h =>
        subst h
        exact emits_pure trivial w
      next h =>
        have hpos := hH w.writes rest.length (List.length_pos_iff.2 h)
        have hwrite : Emits (write H rest) w (rest.take (H.write w.writes rest.length).toNat) w.unread
            (· = H.write w.writes rest.length) := ⟨_, _, rfl, rfl, rfl, rfl⟩
        refine (hwrite.bind ?_).of_eq (List.take_append_drop _ rest)
        rintro _ w' rfl hw'
        rw [if_neg (Int.not_le.2 hpos), ← hw']
        exact ih _ (by rw [List.length_drop]; omega) w'

theorem emits_sendSocket {text rest : List UInt8} {size : Int}
    (hlen : (if size = -1 then strlen (text ++ rest) else size.toNat) = text.length) (w : World) :
    Emits (sendSocket H (text ++ rest) size) w text w.unread (fun _ => True) := by
  have hrun : sendSocket H (text ++ rest) size = sendRest H text.length text := by
    simp only [sendSocket, hlen]
    rw [if_neg (by simp), List.take_left]
  rw [hrun]
  exact emits_sendRest hH _ _ (Nat.le_refl _) w

/-- A string in the buffer is sent up to its zero. -/
theorem emits_string {text rest : List UInt8} (h : 0 ∉ text) (w : World) :
    Emits (sendSocket H (text ++ 0 :: rest) (-1)) w text w.unread (fun _ => True) := by
  have hall : ∀ b ∈ text, (b != 0) = true := fun b hb => bne_iff_ne.2 fun h0 => h (h0 ▸ hb)
  refine emits_sendSocket hH ?_ w
  rw [if_pos rfl, strlen, List.takeWhile_append_of_pos hall]
  simp

theorem emits_block {block rest : List UInt8} {n : Nat} (h : block.length = n) (w : World) :
    Emits (sendSocket H (block ++ rest) n) w block w.unread (fun _ => True) := by
  refine emits_sendSocket hH ?_ w
  rw [if_neg (by omega), Int.toNat_natCast, h]

theorem emits_sendTexts {texts : List String} (h : ∀ text ∈ texts, 0 ∉ ascii text) (w : World) :
    Emits (sendTexts H texts) w (texts.flatMap ascii) w.unread (fun _ => True) := by
  induction texts generalizing w with
  | nil => exact emits_pure trivial w
  | cons text texts ih =>
      refine (emits_string hH (h text List.mem_cons_self) w).bind fun _ w' _ hw' => ?_
      rw [← hw']
      exact ih (fun text ht => h text (List.mem_cons_of_mem _ ht)) w'

omit hH in
theorem emits_end {a : α} {post : α → Prop} {w : World} (h : post a) (hend : w.unread = []) :
    Emits (pure a) w [] [] post := hend ▸ emits_pure h w

omit hH in
theorem length_chunk {unread : List UInt8} (h : 0 < unread.length) :
    (unread.take inBufSize).length + (unread.drop inBufSize).length = unread.length ∧
      0 < (unread.take inBufSize).length := by
  have hsize : 0 < inBufSize := by decide
  simp only [List.length_take, List.length_drop]
  omega

omit hH in
theorem length_inBuf {inBuf : List UInt8} (h : inBuf.length = inBufSize + 1) (unread : List UInt8) :
    (overwrite inBuf 0 (unread.take inBufSize)).length = inBufSize + 1 := by
  rw [length_overwrite, h]
  rw [Nat.zero_add, List.length_take, h]
  omega

theorem emits_htmlLoop (length rounds count : Nat) (inBuf : List UInt8) (w : World)
    (hcount : count + w.unread.length = length) (hrounds : w.unread.length ≤ rounds)
    (hbuf : inBuf.length = inBufSize + 1) :
    Emits (htmlLoop H length rounds count inBuf) w w.unread []
      (∃ inBuf', · = some inBuf' ∧ inBuf'.length = inBufSize + 1) := by
  induction rounds generalizing count inBuf w with
  | zero =>
      have hnil := List.eq_nil_of_length_eq_zero (Nat.le_zero.1 hrounds)
      rw [htmlLoop, if_neg (by rw [hnil, List.length_nil] at hcount; omega), hnil]
      exact emits_end ⟨inBuf, rfl, hbuf⟩ hnil
  | succ rounds ih =>
      rw [htmlLoop]
      split
      next h =>
        refine ((emits_fread inBufSize w).bind ?_).of_eq (List.nil_append _)
        rintro _ w₁ rfl hw₁
        obtain ⟨hlen, hpos⟩ := length_chunk (show 0 < w.unread.length by omega)
        rw [if_neg (Nat.not_le.2 hpos), overwrite_zero]
        refine ((emits_block hH rfl w₁).bind fun _ w₂ _ hw₂ => ?_).of_eq (List.take_append_drop inBufSize w.unread)
        have hunread : w₂.unread = w.unread.drop inBufSize := hw₂.trans hw₁
        rw [← hunread]
        refine ih _ _ w₂ ?_ ?_ ?_
        · rw [hunread]
          omega
        · rw [hunread]
          omega
        · rw [← overwrite_zero]
          exact length_inBuf hbuf _
      next h =>
        have hnil := List.eq_nil_of_length_eq_zero (show w.unread.length = 0 by omega)
        rw [hnil]
        exact emits_end ⟨inBuf, rfl, hbuf⟩ hnil

theorem emits_docLoop (length rounds count : Nat) (inBuf outBuf : List UInt8) (w : World)
    (hcount : count + w.unread.length = length) (hrounds : w.unread.length ≤ rounds)
    (hin : inBuf.length = inBufSize + 1) (hout : outBuf.length = outBufSize + 1) :
    Emits (docLoop H length rounds count inBuf outBuf) w (blocks w.unread) [] (· = true) := by
  induction rounds generalizing count inBuf outBuf w with
  | zero =>
      have hnil := List.eq_nil_of_length_eq_zero (Nat.le_zero.1 hrounds)
      rw [docLoop, if_neg (by rw [hnil, List.length_nil] at hcount; omega), hnil, blocks_nil]
      exact emits_end rfl hnil
  | succ rounds ih =>
      rw [docLoop]
      split
      next h =>
        refine ((emits_fread inBufSize w).bind ?_).of_eq (List.nil_append _)
        rintro _ w₁ rfl hw₁
        obtain ⟨hlen, hpos⟩ := length_chunk (show 0 < w.unread.length by omega)
        have hcode : (encode (w.unread.take inBufSize)).length = convlen (w.unread.take inBufSize).length :=
          length_encode _
        have hencode := base64Encode_text (List.length_take_le inBufSize w.unread) hout
          (inBuf.drop (w.unread.take inBufSize).length)
        rw [← overwrite_zero] at hencode
        refine ((emits_lift hencode w₁).bind ?_).of_eq (List.nil_append _)
        rintro _ w₂ rfl hw₂
        dsimp only
        rw [if_neg (by omega), blocks_cons (List.ne_nil_of_length_pos (by omega))]
        refine (emits_block hH hcode w₂).bind fun _ w₃ _ hw₃ => ?_
        have hunread : w₃.unread = w.unread.drop inBufSize := hw₃.trans (hw₂.trans hw₁)
        rw [← hunread]
        refine ih _ _ _ w₃ ?_ ?_ (length_inBuf hin _) ?_
        · rw [hunread]
          omega
        · rw [hunread]
          omega
        · exact length_outBuf hout hcode (convlen_lt (List.length_take_le _ _))
      next h =>
        have hnil := List.eq_nil_of_length_eq_zero (show w.unread.length = 0 by omega)
        rw [hnil, blocks_nil]
        exact emits_end rfl hnil

end sending

/-- A host on which no call fails. -/
structure Healthy (H : Host) : Prop where
  connected : H.socket ∧ H.gethostbyname ∧ H.connect
  writes : Writes H
  reads : ∀ k, ∃ bytes, H.read k = some bytes ∧ bytes.length ≤ bufsiz

def loginStream : List UInt8 :=
  ["HELO ", fromIp, "\r\n", "AUTH LOGIN\r\n"].flatMap ascii ++ (encode (ascii user) ++ (ascii "\r\n" ++
    (encode (ascii passwd) ++ (ascii "\r\n" ++
      ["MAIL FROM <", fromIp, ">\r\n", "RCPT TO <", toIp, ">\r\n"].flatMap ascii))))

/-- What is sent between the DATA command and QUIT. -/
def message (html doc : List UInt8) : List UInt8 :=
  infoTexts.flatMap ascii ++ (html ++ (docTexts.flatMap ascii ++ (blocks doc ++ ascii "\r\n.\r\n")))

section main

variable {H : Host} (hH : Healthy H)

include hH

theorem emits_readSocket (w : World) : Emits (readSocket H) w [] w.unread (fun _ => True) := by
  obtain ⟨bytes, hread, hlen⟩ := hH.reads w.reads
  have hrun : readSocket H w = .ok ((), { w with reads := w.reads + 1 }) := by simp only [readSocket, hread, if_pos hlen]
  exact ⟨(), _, hrun, trivial, (List.append_nil _).symm, rfl⟩

omit hH in
theorem crlf_ne_zero : 0 ∉ ascii "\r\n" := by decide

theorem emits_command {texts : List String} (h : ∀ text ∈ texts, 0 ∉ ascii text) {p : MailM α} {w : World}
    {bytes unread : List UInt8} {post : α → Prop} (hp : ∀ w', w'.unread = w.unread → Emits p w' bytes unread post) :
    Emits (do sendTexts H texts; readSocket H; p) w (texts.flatMap ascii ++ bytes) unread post := by
  refine (emits_sendTexts hH.writes h w).bind fun _ w₁ _ h₁ => ?_
  refine ((emits_readSocket hH w₁).bind fun _ w₂ _ h₂ => ?_).of_eq (List.nil_append _)
  exact hp w₂ (h₂.trans h₁)

theorem emits_sendEncoded {text : String} (hlen : (ascii text).length ≤ inBufSize) {outBuf : List UInt8}
    (hout : outBuf.length = outBufSize + 1) (w : World) :
    Emits (sendEncoded H text outBuf) w (encode (ascii text) ++ ascii "\r\n") w.unread
      (fun outBuf' => outBuf'.length = outBufSize + 1) := by
  have hne : 0 ∉ encode (ascii text) := not_mem_encode (by decide) (by decide) _
  refine ((emits_lift (base64Encode_text hlen hout [0]) w).bind ?_).of_eq (List.nil_append _)
  rintro _ w₁ rfl h₁
  refine (emits_string hH.writes hne w₁).bind fun _ w₂ _ h₂ => ?_
  refine ((emits_string hH.writes crlf_ne_zero w₂).bind fun _ w₃ _ h₃ => ?_).of_eq (List.append_nil _)
  refine ((emits_readSocket hH w₃).bind fun _ w₄ _ h₄ => ?_).of_eq (List.nil_append _)
  rw [← h₁, ← h₂, ← h₃, ← h₄]
  refine emits_pure ?_ w₄
  exact length_outBuf hout (length_encode _) (convlen_lt hlen)

theorem emits_login {outBuf : List UInt8} (hout : outBuf.length = outBufSize + 1) (w : World) :
    Emits (login H outBuf) w (["HELO ", fromIp, "\r\n", "AUTH LOGIN\r\n"].flatMap ascii ++
      (encode (ascii user) ++ (ascii "\r\n" ++ (encode (ascii passwd) ++ ascii "\r\n")))) w.unread
      (fun outBuf' => outBuf'.length = outBufSize + 1) := by
  refine ((emits_readSocket hH w).bind fun _ w₁ _ h₁ => ?_).of_eq (List.nil_append _)
  refine (emits_command hH (by decide) fun w₂ h₂ => emits_command hH (by decide) fun w₃ h₃ => ?_).of_eq
    (List.append_assoc _ _ _).symm
  refine ((emits_sendEncoded hH (by decide) hout w₃).bind fun outBuf' w₄ hout' h₄ => ?_).of_eq
    (List.append_assoc _ _ _)
  rw [← h₁, ← h₂, ← h₃, ← h₄]
  exact emits_sendEncoded hH (by decide) hout' w₄

theorem emits_mailHead (w : World) :
    Emits (mailHead H) w (["MAIL FROM <", fromIp, ">\r\n", "RCPT TO <", toIp, ">\r\n"].flatMap ascii) w.unread
      (fun _ => True) := by
  refine (emits_command hH (by decide) fun w₁ h₁ => ?_).of_eq List.flatMap_append.symm
  refine ((emits_sendTexts hH.writes (by decide) w₁).bind fun _ w₂ _ h₂ => ?_).of_eq (List.append_nil _)
  rw [← h₁, ← h₂]
  exact emits_readSocket hH w₂

theorem emits_finish (w : World) :
    Emits (finish H) w (ascii "\r\n.\r\n" ++ ascii "QUIT\r\n") w.unread (· = 0) := by
  have hbytes : ascii "\r\n.\r\n" ++ ascii "QUIT\r\n" =
      ["\r\n.\r\n"].flatMap ascii ++ (["QUIT\r\n"].flatMap ascii ++ []) := by
    simp only [List.flatMap_cons, List.flatMap_nil, List.append_nil]
  rw [hbytes]
  refine emits_command hH (by decide) fun w₁ h₁ => emits_command hH (by decide) fun w₂ h₂ => ?_
  rw [← h₁, ← h₂]
  refine emits_pure ?_ w₂
  rfl

theorem emits_sendDoc {doc inBuf outBuf : List UInt8} (hdoc : H.file docFile = some doc)
    (hin : inBuf.length = inBufSize + 1) (hout : outBuf.length = outBufSize + 1) (w : World) :
    Emits (sendDoc H inBuf outBuf) w (docTexts.flatMap ascii ++ (blocks doc ++
      (ascii "\r\n.\r\n" ++ ascii "QUIT\r\n"))) [] (· = 0) := by
  refine (emits_sendTexts hH.writes (by decide) w).bind fun _ w₁ _ _ => ?_
  rw [hdoc]
  refine ((emits_fopen doc w₁).bind fun _ w₂ _ h₂ => ?_).of_eq (List.nil_append _)
  have hloop := emits_docLoop hH.writes doc.length doc.length 0 inBuf outBuf w₂ (by rw [h₂, Nat.zero_add])
    (Nat.le_of_eq (by rw [h₂])) hin hout
  rw [h₂] at hloop
  refine hloop.bind ?_
  rintro _ w₃ rfl h₃
  rw [if_pos rfl, ← h₃]
  exact emits_finish hH w₃

theorem emits_sendMail {html doc inBuf outBuf : List UInt8} (hhtml : H.file htmlFile = some html)
    (hdoc : H.file docFile = some doc) (hin : inBuf.length = inBufSize + 1) (hout : outBuf.length = outBufSize + 1)
    (w : World) :
    Emits (sendMail H inBuf outBuf) w (ascii "DATA\r\n" ++ (message html doc ++ ascii "QUIT\r\n")) [] (· = 0) := by
  have hbytes : ascii "DATA\r\n" ++ (message html doc ++ ascii "QUIT\r\n") =
      ["DATA\r\n"].flatMap ascii ++ (infoTexts.flatMap ascii ++ (html ++ (docTexts.flatMap ascii ++
        (blocks doc ++ (ascii "\r\n.\r\n" ++ ascii "QUIT\r\n"))))) := by
    simp only [message, List.flatMap_singleton, List.append_assoc]
  rw [hbytes]
  refine emits_command hH (by decide) fun w₁ _ => (emits_sendTexts hH.writes (by decide) w₁).bind fun _ w₂ _ _ => ?_
  rw [hhtml]
  refine ((emits_fopen html w₂).bind fun _ w₃ _ h₃ => ?_).of_eq (List.nil_append _)
  have hloop := emits_htmlLoop hH.writes html.length html.length 0 inBuf w₃ (by rw [h₃, Nat.zero_add])
    (Nat.le_of_eq (by rw [h₃])) hin
  rw [h₃] at hloop
  refine hloop.bind ?_
  rintro _ w₄ ⟨inBuf', rfl, hin'⟩ -
  exact emits_sendDoc hH hdoc hin' hout w₄

/-- Everything that main sends on a healthy host. -/
theorem emits_main {html doc : List UInt8} (hhtml : H.file htmlFile = some html) (hdoc : H.file docFile = some doc)
    (w : World) :
    Emits (main H) w (loginStream ++ (ascii "DATA\r\n" ++ (message html doc ++ ascii "QUIT\r\n"))) [] (· = 0) := by
  have hlogin : loginStream = (["HELO ", fromIp, "\r\n", "AUTH LOGIN\r\n"].flatMap ascii ++
      (encode (ascii user) ++ (ascii "\r\n" ++ (encode (ascii passwd) ++ ascii "\r\n")))) ++
      ["MAIL FROM <", fromIp, ">\r\n", "RCPT TO <", toIp, ">\r\n"].flatMap ascii := by
    simp only [loginStream, List.append_assoc]
  rw [hlogin, List.append_assoc, main, if_pos hH.connected]
  refine (emits_login hH List.length_replicate w).bind fun outBuf w₁ hout _ => ?_
  refine (emits_mailHead hH w₁).bind fun _ w₂ _ _ => ?_
  exact emits_sendMail hH hhtml hdoc List.length_replicate hout w₂

end main

end StudyNotes.Mail.Sending
