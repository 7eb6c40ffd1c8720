import StudyNotes.Echo.Headers
import Mathlib.Data.Multiset.Filter

namespace StudyNotes.Echo.Routing

open Systems.Transition Program Headers

variable {ι : Type} [DecidableEq ι]

def sent (i : ι) : Event ι → List (List UInt8)
  | .clientSend j m => if j = i then [m.mtext] else []
  | _ => []

def received (i : ι) : Event ι → List (List UInt8)
  | .clientReceive j m => if j = i then [m.mtext] else []
  | _ => []

/-- The message that the server has taken and not yet sent back. -/
def held (x : Server) : Multiset (List UInt8) :=
  match x.point with
  | .replying n => {(x.reply n).mtext}
  | .receiving | .exited => 0

/-- The messages in the queue and in the hands of the server. -/
def texts (s : State ι) : Multiset (List UInt8) := Multiset.ofList (s.queue.map Message.mtext) + held s.server

def outstanding (pids : Pids ι) (i : ι) (s : State ι) : Multiset (List UInt8) :=
  (texts s).filter fun mtext => mtext.take 4 = putInt (pids.pid i)

theorem queue_texts {t : Int} {queue : List Message} {m : Message} (h : oldest t queue = some m) :
    Multiset.ofList (queue.map Message.mtext) = m.mtext ::ₘ Multiset.ofList ((remove t queue).map Message.mtext) := by
  obtain ⟨-, l₁, l₂, hq, hr⟩ := oldest_split h
  rw [hr, hq, List.map_append, List.map_append, List.map_cons, Multiset.cons_coe, Multiset.coe_eq_coe]
  exact List.perm_middle

theorem queue_push (queue : List Message) (m : Message) :
    Multiset.ofList ((queue ++ [m]).map Message.mtext) = m.mtext ::ₘ Multiset.ofList (queue.map Message.mtext) := by
  rw [List.map_append, Multiset.cons_coe, Multiset.coe_eq_coe]
  exact List.perm_append_singleton _ _

omit [DecidableEq ι] in
theorem outstanding_cons {pids : Pids ι} {i : ι} {s s' : State ι} {mtext : List UInt8}
    (h : texts s' = mtext ::ₘ texts s) (hown : mtext.take 4 = putInt (pids.pid i)) :
    outstanding pids i s' = mtext ::ₘ outstanding pids i s := by
  rw [outstanding, h, Multiset.filter_cons_of_pos (p := fun x : List UInt8 => x.take 4 = putInt (pids.pid i)) _ hown,
    outstanding]

omit [DecidableEq ι] in
theorem outstanding_other {pids : Pids ι} {i j : ι} {s s' : State ι} {mtext : List UInt8}
    (h : texts s' = mtext ::ₘ texts s) (hown : mtext.take 4 = putInt (pids.pid j)) (hij : i ≠ j) :
    outstanding pids i s' = outstanding pids i s := by
  have hnot : mtext.take 4 ≠ putInt (pids.pid i) := by
    intro heq
    exact hij (putInt_injective pids (heq.symm.trans hown))
  rw [outstanding, h, Multiset.filter_cons_of_neg (p := fun x : List UInt8 => x.take 4 = putInt (pids.pid i)) _ hnot,
    outstanding]

/-- Every message of the client has come back. -/
def Settled (pids : Pids ι) (i : ι) (tr : List (State ι × Event ι)) (s : State ι) : Prop :=
  outstanding pids i s = 0 ∧ along (sent i) tr = along (received i) tr

/-- The last message of the client is on its way, and the others have come back. -/
def Owed (pids : Pids ι) (i : ι) (tr : List (State ι × Event ι)) (s : State ι) : Prop :=
  ∃ mtext, outstanding pids i s = {mtext} ∧ along (sent i) tr = along (received i) tr ++ [mtext]

def Ledger (pids : Pids ι) (i : ι) (tr : List (State ι × Event ι)) (s : State ι) : Prop :=
  match (s.clients i).point with
  | .reading | .sending => Settled pids i tr s
  | .waiting => Owed pids i tr s
  | .exited => Settled pids i tr s ∨ Owed pids i tr s

section frame

variable {pids : Pids ι} {i : ι} {tr : List (State ι × Event ι)} {s s' : State ι} {e : Event ι}

theorem Settled.frame (h : Settled pids i tr s) (hout : outstanding pids i s' = outstanding pids i s)
    (hsent : sent i e = []) (hrec : received i e = []) : Settled pids i (tr ++ [(s, e)]) s' := by
  obtain ⟨hnone, heq⟩ := h
  exact ⟨hout.trans hnone, by rw [along_concat, along_concat, hsent, hrec, heq]⟩

theorem Owed.frame (h : Owed pids i tr s) (hout : outstanding pids i s' = outstanding pids i s)
    (hsent : sent i e = []) (hrec : received i e = []) : Owed pids i (tr ++ [(s, e)]) s' := by
  obtain ⟨mtext, hone, heq⟩ := h
  refine ⟨mtext, hout.trans hone, ?_⟩
  rw [along_concat, along_concat, hsent, hrec, heq, List.append_nil, List.append_nil]

theorem Ledger.frame (h : Ledger pids i tr s) (hpoint : (s'.clients i).point = (s.clients i).point)
    (hout : outstanding pids i s' = outstanding pids i s) (hsent : sent i e = []) (hrec : received i e = []) :
    Ledger pids i (tr ++ [(s, e)]) s' := by
  rw [Ledger] at h ⊢
  rw [hpoint]
  cases hp : (s.clients i).point with
  | reading | sending =>
      rw [hp] at h
      exact Settled.frame h hout hsent hrec
  | waiting =>
      rw [hp] at h
      exact Owed.frame h hout hsent hrec
  | exited =>
      rw [hp] at h
      exact h.imp (Settled.frame · hout hsent hrec) (Owed.frame · hout hsent hrec)

end frame

theorem fgets_point (x : Client) : x.fgets.point = .sending ∨ x.fgets.point = .exited := by
  rw [Client.fgets]
  split
  · exact Or.inr rfl
  · exact Or.inl rfl

theorem ledger_step {pids : Pids ι} {capacity : Nat} {i : ι} {tr : List (State ι × Event ι)} {s s' : State ι}
    {e : Event ι} (hsound : Sound pids s) (h : Ledger pids i tr s) (hs : Step pids capacity s e s') :
    Ledger pids i (tr ++ [(s, e)]) s' := by
  cases hs with
  | fgets j hp =>
      by_cases hji : j = i
      · subst hji
        rw [Ledger, hp] at h
        rcases fgets_point (s.clients j) with hq | hq
        · simp only [Ledger, Function.update_self, hq]
          exact Settled.frame h rfl rfl rfl
        · simp only [Ledger, Function.update_self, hq]
          exact Or.inl (Settled.frame h rfl rfl rfl)
      · refine h.frame ?_ rfl rfl rfl
        simp only [Function.update_of_ne (Ne.symm hji)]
  | clientSend j hp hfit =>
      have htexts : texts { s with
          queue := s.queue ++ [(s.clients j).request]
          clients := Function.update s.clients j (s.clients j).sent } =
          (s.clients j).request.mtext ::ₘ texts s := by
        simp only [texts, queue_push, Multiset.cons_add]
      have hown := ((hsound.clients j).request hp).own
      by_cases hji : j = i
      · subst hji
        rw [Ledger, hp] at h
        obtain ⟨hnone, heq⟩ := h
        simp only [Ledger, Function.update_self, Client.sent]
        refine ⟨(s.clients j).request.mtext, ?_, ?_⟩
        · have hcons := outstanding_cons htexts hown
          rw [hnone] at hcons
          exact hcons
        · simp [along_concat, sent, received, heq]
      · refine h.frame ?_ (outstanding_other htexts hown (Ne.symm hji)) (by simp [sent, hji]) rfl
        simp only [Function.update_of_ne (Ne.symm hji)]
  | clientReceive j m hp hm hlen =>
      have htexts : texts s = m.mtext ::ₘ texts { s with
          queue := remove (pids.pid j) s.queue
          clients := Function.update s.clients j ((s.clients j).receive m) } := by
        simp only [texts, queue_texts hm, Multiset.cons_add]
      have hown := (hsound.oldest_pid hm).own
      by_cases hji : j = i
      · subst hji
        rw [Ledger, hp] at h
        obtain ⟨mtext, hone, heq⟩ := h
        rw [outstanding_cons htexts hown, eq_comm, Multiset.singleton_eq_cons_iff] at hone
        obtain ⟨rfl, hnone⟩ := hone
        simp only [Ledger, Function.update_self, Client.receive]
        refine ⟨hnone, ?_⟩
        simp [along_concat, sent, received, heq]
      · refine h.frame ?_ (outstanding_other htexts hown (Ne.symm hji)).symm rfl (by simp [received, hji])
        simp only [Function.update_of_ne (Ne.symm hji)]
  | clientTooBig j m hp hm hlen =>
      by_cases hji : j = i
      · subst hji
        rw [Ledger, hp] at h
        simp only [Ledger, Function.update_self]
        exact Or.inr (Owed.frame h rfl rfl rfl)
      · refine h.frame ?_ rfl rfl rfl
        simp only [Function.update_of_ne (Ne.symm hji)]
  | serverReceive m hp hm hlen =>
      refine h.frame rfl ?_ rfl rfl
      have htexts : texts { s with queue := remove 1 s.queue, server := s.server.receive m } = texts s := by
        simp only [texts, queue_texts hm, held, hp, Server.receive, Server.reply,
          Lists.Overwrite.take_overwrite_zero, Multiset.add_zero]
        rw [Multiset.add_comm, Multiset.singleton_add]
      rw [outstanding, htexts, outstanding]
  | serverTooBig m hp hm hlen =>
      refine h.frame rfl ?_ rfl rfl
      simp only [outstanding, texts, held, hp]
  | serverSend n hp hpos hfit =>
      refine h.frame rfl ?_ rfl rfl
      have htexts : texts { s with queue := s.queue ++ [s.server.reply n], server := s.server.replied } = texts s := by
        simp only [texts, queue_push, held, hp, Server.replied, Multiset.add_zero]
        rw [Multiset.add_comm, Multiset.singleton_add]
      rw [outstanding, htexts, outstanding]
  | serverInvalid n hp hneg => exact absurd (hsound.server.mtype_pos hp) (Int.not_lt_of_ge hneg)

theorem ledger_run {pids : Pids ι} {capacity : Nat} {stdin : ι → List UInt8} {tr : List (State ι × Event ι)}
    {s : State ι} (h : Run (system pids capacity stdin) tr s) (i : ι) : Ledger pids i tr s := by
  refine Run.induct ?_ (fun tr s e s' hr hI hs => ledger_step (sound_reachable hr.reachable) hI hs) h
  rintro s rfl
  exact ⟨rfl, rfl⟩

section replies

variable {pids : Pids ι} {capacity : Nat} {stdin : ι → List UInt8} {tr : List (State ι × Event ι)} {s : State ι}

/-- The server takes the message at the head of the queue and puts the reply at its end. -/
theorem run_turn {i : ι} {m : Message} {rest : List Message} (h : Run (system pids capacity stdin) tr s)
    (hserver : s.server.point = .receiving) (hq : s.queue = m :: rest) (hm : Tagged pids i m) (hone : m.mtype = 1)
    (hfit : Fits capacity rest ⟨pids.pid i, m.mtext⟩) :
    ∃ tr' s', Run (system pids capacity stdin) (tr ++ tr') s' ∧ events tr' = [.serverReceive, .serverSend] ∧
      s'.queue = rest ++ [⟨pids.pid i, m.mtext⟩] ∧ s'.server.point = .receiving ∧ s'.clients = s.clients := by
  have hreply := reply_receive hm s.server
  have hremove : remove 1 s.queue = rest := by simp [remove, hasType, hq, hone]
  have hpos : 0 < (s.server.receive m).mtype := by
    have hpid : (s.server.receive m).mtype = pids.pid i := congrArg Message.mtype hreply
    have := pids.two_le i
    omega
  have h₁ := h.next (.serverReceive s m hserver (by simp [oldest, hasType, hq, hone]) hm.length.le)
  have h₂ := h₁.next (.serverSend _ m.mtext.length rfl hpos (by rw [hremove, hreply]; exact hfit))
  rw [List.append_assoc] at h₂
  exact ⟨_, _, h₂, rfl, by simp only [hremove, hreply], rfl, rfl⟩

/-- With the queue empty and the server waiting, a client can send its message and the
server can send it back. -/
theorem run_to_reply {i : ι} (h : Run (system pids capacity stdin) tr s) (hq : s.queue = [])
    (hserver : s.server.point = .receiving) (hp : (s.clients i).point = .sending) (hcap : msgMaxlen ≤ capacity) :
    ∃ tr' s', Run (system pids capacity stdin) (tr ++ tr') s' ∧
      events tr' = [.clientSend i (s.clients i).request, .serverReceive, .serverSend] ∧
      (s'.clients i).point = .waiting ∧
      oldest (pids.pid i) s'.queue = some ⟨pids.pid i, (s.clients i).request.mtext⟩ := by
  have hsound := (sound_reachable h.reachable).clients i
  have hm := hsound.request hp
  have hfit : ∀ t, Fits capacity [] ⟨t, (s.clients i).request.mtext⟩ := by
    intro t
    rw [Fits, bytes, List.map_nil, List.sum_nil, Nat.zero_add]
    exact hm.length.le.trans hcap
  have h₁ := h.next (.clientSend s i hp (by rw [hq]; exact hfit _))
  obtain ⟨tr', s', h', hevents, hqueue, -, hclients⟩ :=
    run_turn h₁ hserver (by rw [hq]; rfl) hm (hsound.sending hp).1 (hfit _)
  rw [List.append_assoc] at h'
  refine ⟨_, s', h', congrArg (Event.clientSend i _ :: ·) hevents, ?_, ?_⟩
  · rw [hclients]
    simp [Client.sent]
  · rw [hqueue]
    simp [oldest, hasType]

/-- Two clients can send before the server replies, and receive in the other order. -/
theorem run_crossed {i j : ι} (hij : i ≠ j) (h : Run (system pids capacity stdin) tr s) (hq : s.queue = [])
    (hserver : s.server.point = .receiving) (hi : (s.clients i).point = .sending) (hj : (s.clients j).point = .sending)
    (hleni : (s.clients i).request.mtext.length ≤ msgMaxlen - 4)
    (hlenj : (s.clients j).request.mtext.length ≤ msgMaxlen - 4) (hcap : 2 * msgMaxlen ≤ capacity) :
    ∃ tr' s', Run (system pids capacity stdin) (tr ++ tr') s' ∧
      events tr' = [.clientSend i (s.clients i).request, .clientSend j (s.clients j).request,
        .serverReceive, .serverSend, .serverReceive, .serverSend,
        .clientReceive j ⟨pids.pid j, (s.clients j).request.mtext⟩,
        .clientReceive i ⟨pids.pid i, (s.clients i).request.mtext⟩] := by
  have hmi := ((sound_reachable h.reachable).clients i).request hi
  have hmj := ((sound_reachable h.reachable).clients j).request hj
  have honei := (((sound_reachable h.reachable).clients i).sending hi).1
  have honej := (((sound_reachable h.reachable).clients j).sending hj).1
  have hfit {m m' : Message} (hm : m.mtext.length < msgMaxlen) (hm' : m'.mtext.length < msgMaxlen) :
      Fits capacity [m] m' := by
    rw [Fits, bytes, List.map_singleton, List.sum_singleton]
    omega
  have hempty : Fits capacity s.queue (s.clients i).request := by
    have := hmi.length
    rw [hq, Fits, bytes, List.map_nil, List.sum_nil]
    omega
  have hpid : pids.pid i ≠ pids.pid j := fun heq => hij (pids.injective heq)
  have h₁ := h.next (.clientSend s i hi hempty)
  have hclient : Function.update s.clients i (s.clients i).sent j = s.clients j := Function.update_of_ne (Ne.symm hij) _ _
  have h₂ := h₁.next (.clientSend _ j (by simp only [hclient, hj])
    (by simp only [hclient, hq]; exact hfit hmi.length hmj.length))
  simp only [hclient, hq] at h₂
  obtain ⟨tr₃, s₃, h₃, hevents₃, hq₃, hserver₃, hclients₃⟩ :=
    run_turn h₂ hserver rfl hmi honei (hfit hmj.length hmi.length)
  obtain ⟨tr₄, s₄, h₄, hevents₄, hq₄, -, hclients₄⟩ :=
    run_turn h₃ hserver₃ hq₃ hmj honej (hfit hmi.length hmj.length)
  rw [hclients₃] at hclients₄
  have h₅ := h₄.next (.clientReceive s₄ j ⟨pids.pid j, (s.clients j).request.mtext⟩
    (by rw [hclients₄]; simp [Client.sent]) (by simp [oldest, hasType, hq₄, hpid]) hlenj)
  have h₆ := h₅.next (.clientReceive _ i ⟨pids.pid i, (s.clients i).request.mtext⟩
    (by simp [hclients₄, hij, Client.sent]) (by simp [oldest, remove, hasType, hq₄, hpid]) hleni)
  simp only [List.append_assoc] at h₆
  refine ⟨_, _, h₆, ?_⟩
  simp only [events, List.map_append, List.map_cons, List.map_nil] at hevents₃ hevents₄ ⊢
  rw [hevents₃, hevents₄]
  rfl

end replies

/-- Along every run, each client receives the messages that it sent, in order,
unchanged and once each. -/
theorem received_prefix_sent (ι : Type) [DecidableEq ι] (pids : Pids ι) (capacity : Nat) (stdin : ι → List UInt8)
    (tr : List (State ι × Event ι)) (s : State ι) (h : Run (system pids capacity stdin) tr s) (i : ι) :
    along (received i) tr <+: along (sent i) tr := by
  have hsettled : Settled pids i tr s → along (received i) tr <+: along (sent i) tr := by
    rintro ⟨-, heq⟩
    exact ⟨[], by rw [List.append_nil, heq]⟩
  have howed : Owed pids i tr s → along (received i) tr <+: along (sent i) tr := by
    rintro ⟨mtext, -, heq⟩
    exact ⟨[mtext], heq.symm⟩
  have hledger := ledger_run h i
  rw [Ledger] at hledger
  split at hledger
  · exact hsettled hledger
  · exact hsettled hledger
  · exact howed hledger
  · exact hledger.elim hsettled howed

def pidPair : Pids Bool where
  pid b := cond b 3 2
  two_le := by decide
  lt := by decide
  injective
    | false, false, _ | true, true, _ => rfl

def greeting (b : Bool) : List UInt8 := cond b [104, 105, 10] [104, 111, 10]

/-- The lines hi and ho sent to the server and back. -/
theorem received_prefix_sent_pair : ∃ tr s, Run (system pidPair 16384 greeting) tr s ∧
    ∀ i, along (received i) tr <+: along (sent i) tr ∧ (along (received i) tr).length = 1 := by
  have h₁ : Run (system pidPair 16384 greeting) _ _ := .next (.start rfl) (.fgets _ false rfl)
  have h₂ := h₁.next (.fgets _ true rfl)
  have hshort (b : Bool) : (Client.init (pidPair.pid b) (greeting b)).fgets.request.mtext.length ≤ msgMaxlen - 4 := by
    have hpos : 4 ≤ (Client.init (pidPair.pid b) (greeting b)).mtext.length := by
      rw [(clientSound_init pidPair b _).length]
      decide
    have hstr : strlen ((Client.init (pidPair.pid b) (greeting b)).fgets.mtext.drop 4) ≤ 3 := by
      cases b with
      | false => exact strlen_overwrite hpos [104, 111, 10]
      | true => exact strlen_overwrite hpos [104, 105, 10]
    rw [Client.request, List.length_take, msgMaxlen]
    omega
  obtain ⟨tr, s, hr, hevents⟩ := run_crossed Bool.false_ne_true h₂ rfl rfl rfl rfl (hshort false) (hshort true) (by decide)
  refine ⟨_, s, hr, fun i => ⟨received_prefix_sent Bool _ _ _ _ _ hr i, ?_⟩⟩
  rw [along_append, hevents]
  cases i <;> rfl

end StudyNotes.Echo.Routing
