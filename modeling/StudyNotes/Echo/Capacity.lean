import StudyNotes.Echo.Routing
import Mathlib.Algebra.Order.BigOperators.Group.Multiset
import Mathlib.Algebra.Order.BigOperators.Group.Finset
import Mathlib.Data.Fintype.Card
import Mathlib.Algebra.Group.Action.Defs

namespace StudyNotes.Echo.Capacity

open Systems.Transition Lists.Overwrite Program Headers Routing

variable {ι : Type} [DecidableEq ι] {pids : Pids ι} {capacity : Nat} {stdin : ι → List UInt8}

/-- The longest message of a client, with the id and the longest line. -/
def maxMessage : Nat := msgMaxlen - 1

/-- A client waits for its reply, and no process can take a step. -/
def Deadlock (T : System (State ι) (Event ι)) (s : State ι) : Prop :=
  (∃ i, (s.clients i).point = .waiting) ∧ Stuck T s

theorem card_outstanding {tr : List (State ι × Event ι)} {s : State ι}
    (h : Run (system pids capacity stdin) tr s) (i : ι) :
    (outstanding pids i s).card ≤ 1 ∧ ((s.clients i).point = .waiting → (outstanding pids i s).card = 1) := by
  have hsettled : Settled pids i tr s → (outstanding pids i s).card = 0 := by
    rintro ⟨hnone, -⟩
    rw [hnone, Multiset.card_zero]
  have howed : Owed pids i tr s → (outstanding pids i s).card = 1 := by
    rintro ⟨mtext, hone, -⟩
    rw [hone, Multiset.card_singleton]
  have hledger := ledger_run h i
  rw [Ledger] at hledger
  split at hledger
  next hp => simp [hsettled hledger, hp]
  next hp => simp [hsettled hledger, hp]
  next hp => simp [howed hledger]
  next hp =>
    rcases hledger with hl | hl
    · simp [hsettled hl, hp]
    · simp [howed hl]

omit [DecidableEq ι] in
theorem count_id (pids : Pids ι) (i : ι) (s : State ι) :
    ((texts s).map (List.take 4)).count (putInt (pids.pid i)) = (outstanding pids i s).card := by
  rw [Multiset.count_map, outstanding]
  simp only [eq_comm]

omit [DecidableEq ι] in
theorem texts_tagged {s : State ι} (h : Sound pids s) {mtext : List UInt8} (hm : mtext ∈ texts s) :
    ∃ i, mtext.take 4 = putInt (pids.pid i) ∧ mtext.length ≤ maxMessage := by
  rcases Multiset.mem_add.1 hm with hm | hm
  · obtain ⟨m, hmem, rfl⟩ := List.mem_map.1 (Multiset.mem_coe.1 hm)
    obtain ⟨i, hi⟩ := h.queue m hmem
    exact ⟨i, hi.own, Nat.le_sub_one_of_lt hi.length⟩
  · rw [held] at hm
    split at hm
    next n hp =>
      obtain ⟨i, hi, -⟩ := h.server.replying n hp
      rw [Multiset.mem_singleton.1 hm]
      exact ⟨i, hi.own, Nat.le_sub_one_of_lt hi.length⟩
    next => exact absurd hm (Multiset.notMem_zero _)
    next => exact absurd hm (Multiset.notMem_zero _)

theorem card_texts_le [Fintype ι] {s : State ι} (h : Reachable (system pids capacity stdin) s) :
    (texts s).card ≤ Fintype.card ι := by
  obtain ⟨tr, hr⟩ := h
  have hids : ∀ id ∈ (texts s).map (List.take 4), ∃ i, putInt (pids.pid i) = id := by
    intro id hid
    obtain ⟨mtext, hm, rfl⟩ := Multiset.mem_map.1 hid
    obtain ⟨i, hi, -⟩ := texts_tagged (sound_reachable hr.reachable) hm
    exact ⟨i, hi.symm⟩
  have hnodup : ((texts s).map (List.take 4)).Nodup := by
    rw [Multiset.nodup_iff_count_le_one]
    intro id
    by_cases hid : id ∈ (texts s).map (List.take 4)
    · obtain ⟨i, rfl⟩ := hids id hid
      rw [count_id]
      exact (card_outstanding hr i).1
    · rw [Multiset.count_eq_zero_of_notMem hid]
      exact Nat.zero_le 1
  have hsub : ((texts s).map (List.take 4)).toFinset ⊆ Finset.univ.image fun i => putInt (pids.pid i) := by
    intro id hid
    obtain ⟨i, rfl⟩ := hids id (Multiset.mem_toFinset.1 hid)
    exact Finset.mem_image_of_mem _ (Finset.mem_univ i)
  calc (texts s).card = ((texts s).map (List.take 4)).card := (Multiset.card_map _ _).symm
    _ = ((texts s).map (List.take 4)).toFinset.card := (Multiset.toFinset_card_of_nodup hnodup).symm
    _ ≤ (Finset.univ.image fun i => putInt (pids.pid i)).card := Finset.card_le_card hsub
    _ ≤ Fintype.card ι := Finset.card_image_le

theorem le_card_texts [Fintype ι] {s : State ι} (h : Reachable (system pids capacity stdin) s)
    (hw : ∀ i, (s.clients i).point = .waiting) : Fintype.card ι ≤ (texts s).card := by
  obtain ⟨tr, hr⟩ := h
  have hsub : (Finset.univ.image fun i => putInt (pids.pid i)) ⊆ ((texts s).map (List.take 4)).toFinset := by
    intro id hid
    obtain ⟨i, -, rfl⟩ := Finset.mem_image.1 hid
    rw [Multiset.mem_toFinset, ← Multiset.count_pos, count_id, (card_outstanding hr i).2 (hw i)]
    exact Nat.one_pos
  calc Fintype.card ι = (Finset.univ.image fun i => putInt (pids.pid i)).card :=
        (Finset.card_image_of_injective _ fun _ _ h => putInt_injective pids h).symm
    _ ≤ ((texts s).map (List.take 4)).toFinset.card := Finset.card_le_card hsub
    _ ≤ ((texts s).map (List.take 4)).card := Multiset.toFinset_card_le _
    _ = (texts s).card := Multiset.card_map _ _

omit [DecidableEq ι] in
theorem size_texts {s : State ι} {n : Nat} (hp : s.server.point = .replying n) :
    ((texts s).map List.length).sum = bytes s.queue + (s.server.reply n).mtext.length := by
  simp [texts, held, hp, bytes, Function.comp_def]

/-- With room for a message of every client the server can always send. -/
theorem fits_reply [Fintype ι] {s : State ι} {n : Nat} (hcap : Fintype.card ι * maxMessage ≤ capacity)
    (h : Reachable (system pids capacity stdin) s) (hp : s.server.point = .replying n) :
    Fits capacity s.queue (s.server.reply n) := by
  have hbound : ∀ k ∈ (texts s).map List.length, k ≤ maxMessage := by
    intro k hk
    obtain ⟨mtext, hm, rfl⟩ := Multiset.mem_map.1 hk
    obtain ⟨-, -, hlen⟩ := texts_tagged (sound_reachable h) hm
    exact hlen
  have hsum := Multiset.sum_le_card_nsmul _ _ hbound
  rw [Multiset.card_map, smul_eq_mul, size_texts hp] at hsum
  exact (hsum.trans (Nat.mul_le_mul_right _ (card_texts_le h))).trans hcap

/-- While a client waits and its message is in the queue, the message is of type 1
or the client's own. -/
theorem queued_of_waiting {s : State ι} {i : ι} (h : Reachable (system pids capacity stdin) s)
    (hp : s.server.point = .receiving) (hw : (s.clients i).point = .waiting) :
    ∃ m ∈ s.queue, m.mtype = 1 ∨ m.mtype = pids.pid i := by
  obtain ⟨tr, hr⟩ := h
  have hcard := (card_outstanding hr i).2 hw
  obtain ⟨mtext, hm⟩ := Multiset.card_pos_iff_exists_mem.1 (hcard ▸ Nat.one_pos)
  obtain ⟨hm, hown⟩ := Multiset.mem_filter.1 hm
  rw [texts, held, hp, Multiset.add_zero, Multiset.mem_coe] at hm
  obtain ⟨m, hmem, rfl⟩ := List.mem_map.1 hm
  obtain ⟨j, hj⟩ := (sound_reachable hr.reachable).queue m hmem
  obtain rfl := putInt_injective pids (hown.symm.trans hj.own)
  exact ⟨m, hmem, hj.mtype⟩

theorem oldest_of_mem {t : Int} {queue : List Message} {m : Message} (hm : m ∈ queue) (ht : m.mtype = t) :
    ∃ m', oldest t queue = some m' := by
  rw [← Option.isSome_iff_exists, oldest, List.find?_isSome]
  exact ⟨m, hm, by simp [hasType, ht]⟩

theorem step_of_waiting [Fintype ι] {s : State ι} {i : ι} (hcap : Fintype.card ι * maxMessage ≤ capacity)
    (h : Reachable (system pids capacity stdin) s) (hw : (s.clients i).point = .waiting) :
    ∃ e s', Step pids capacity s e s' := by
  have hsound := sound_reachable h
  cases hp : s.server.point with
  | exited => exact absurd hp hsound.server.alive
  | replying n =>
      exact ⟨_, _, .serverSend s n hp (hsound.server.mtype_pos hp) (fits_reply hcap h hp)⟩
  | receiving =>
      obtain ⟨m, hm, hone | hpid⟩ := queued_of_waiting h hp hw
      · obtain ⟨m', hm'⟩ := oldest_of_mem hm hone
        obtain ⟨j, hj⟩ := hsound.oldest hm'
        exact ⟨_, _, .serverReceive s m' hp hm' hj.length.le⟩
      · obtain ⟨m', hm'⟩ := oldest_of_mem hm hpid
        by_cases hlen : m'.mtext.length ≤ msgMaxlen - 4
        · exact ⟨_, _, .clientReceive s i m' hw hm' hlen⟩
        · exact ⟨_, _, .clientTooBig s i m' hw hm' (Nat.lt_of_not_le hlen)⟩

/-- The longest line, without an end. -/
def fullLine : List UInt8 := List.replicate (msgMaxlen - 5) 97

def started (pids : Pids ι) (i : ι) : Client := Client.init (pids.pid i) fullLine

theorem line_replicate (n : Nat) : line n (List.replicate n 97) = (List.replicate n 97, []) := by
  induction n with
  | zero => rfl
  | succ n ih => simp [List.replicate_succ, line, ih]

theorem strlen_replicate (n : Nat) (rest : List UInt8) : strlen (List.replicate n 97 ++ 0 :: rest) = n := by
  induction n with
  | zero => simp [strlen]
  | succ n ih =>
      rw [strlen] at ih ⊢
      rw [List.replicate_succ, List.cons_append, List.takeWhile_cons_of_pos (by decide), List.length_cons, ih]

theorem fgets_fullLine : Program.fgets (msgMaxlen - 4) fullLine = some (fullLine ++ [0], []) := by
  have hne : fullLine ≠ [] := by
    intro h
    have hzero := congrArg List.length h
    rw [fullLine, List.length_replicate] at hzero
    cases hzero
  have hline : line (msgMaxlen - 4 - 1) fullLine = (fullLine, []) := line_replicate (msgMaxlen - 5)
  rw [Program.fgets, if_neg hne, hline]

omit [DecidableEq ι] in
theorem started_fgets (pids : Pids ι) (i : ι) :
    (started pids i).fgets = ⟨.sending, 1, overwrite (started pids i).mtext 4 (fullLine ++ [0]), []⟩ := by
  have hget : Program.fgets (msgMaxlen - 4) (started pids i).stdin = some (fullLine ++ [0], []) := fgets_fullLine
  rw [Client.fgets, hget]

omit [DecidableEq ι] in
theorem length_request (pids : Pids ι) (i : ι) : (started pids i).fgets.request.mtext.length = maxMessage := by
  have hlen : (started pids i).mtext.length = msgMaxlen := (clientSound_init pids i fullLine).length
  have hpos : 4 ≤ (started pids i).mtext.length := by
    rw [hlen]
    decide
  have hfull : (started pids i).fgets.mtext.length = msgMaxlen := (clientSound_init pids i fullLine).fgets.length
  rw [Client.request, List.length_take, hfull, started_fgets, drop_overwrite hpos, List.append_assoc,
    List.singleton_append, fullLine, strlen_replicate]
  rfl

/-- The server is about to send a longest message, requests of the same length
fill the queue, and the clients are on their first line. -/
structure Jammed (pids : Pids ι) (s : State ι) : Prop where
  clients : ∀ i, s.clients i = started pids i ∨ s.clients i = (started pids i).fgets ∨ (s.clients i).point = .waiting
  queue : ∀ m ∈ s.queue, m.mtype = 1 ∧ m.mtext.length = maxMessage
  server : ∃ n, s.server.point = .replying n ∧ (s.server.reply n).mtext.length = maxMessage
  waiting : ∃ i, (s.clients i).point = .waiting

theorem Jammed.fgets {s : State ι} {i : ι} (h : Jammed pids s) (hi : s.clients i = started pids i) :
    Jammed pids { s with clients := Function.update s.clients i (s.clients i).fgets } := by
  refine ⟨fun j => ?_, h.queue, h.server, ?_⟩
  · by_cases hj : j = i
    · subst hj
      refine Or.inr (Or.inl ?_)
      simp only [Function.update_self, hi]
    · simp only [Function.update_of_ne hj]
      exact h.clients j
  · obtain ⟨j, hw⟩ := h.waiting
    have hj : j ≠ i := by
      rintro rfl
      rw [hi] at hw
      cases hw
    refine ⟨j, ?_⟩
    simp only [Function.update_of_ne hj, hw]

theorem Jammed.send {s : State ι} {i : ι} (h : Jammed pids s) (hi : s.clients i = (started pids i).fgets) :
    Jammed pids { s with
      queue := s.queue ++ [(s.clients i).request]
      clients := Function.update s.clients i (s.clients i).sent } := by
  refine ⟨fun j => ?_, ?_, h.server, i, ?_⟩
  · by_cases hj : j = i
    · subst hj
      refine Or.inr (Or.inr ?_)
      simp only [Function.update_self, Client.sent]
    · simp only [Function.update_of_ne hj]
      exact h.clients j
  · intro m hm
    rcases List.mem_append.1 hm with hm | hm
    · exact h.queue m hm
    · rw [List.mem_singleton.1 hm, hi]
      refine ⟨?_, length_request pids i⟩
      rw [Client.request, started_fgets]
  · simp only [Function.update_self, Client.sent]

theorem exists_jammed (i : ι) (hcap : maxMessage ≤ capacity) :
    ∃ s, Reachable (system pids capacity fun _ => fullLine) s ∧ Jammed pids s := by
  have hfit : Fits capacity [] (started pids i).fgets.request := by
    rw [Fits, length_request, bytes, List.map_nil, List.sum_nil, Nat.zero_add]
    exact hcap
  have hsending : (started pids i).fgets.point = .sending := by rw [started_fgets]
  have htype : (started pids i).fgets.request.mtype = 1 := by rw [Client.request, started_fgets]
  have h₁ : Reachable (system pids capacity fun _ => fullLine)
      ⟨[], Function.update (started pids) i (started pids i).fgets, .init⟩ := .next (.start rfl) (.fgets _ i rfl)
  have h₂ := h₁.next (.clientSend _ i (by simpa only [Function.update_self] using hsending)
    (by simpa only [Function.update_self] using hfit))
  simp only [Function.update_self, Function.update_idem, List.nil_append] at h₂
  have h₃ := h₂.next (.serverReceive _ (started pids i).fgets.request rfl (by simp [oldest, hasType, htype])
    ((length_request pids i).le.trans (Nat.sub_le _ _)))
  refine ⟨_, h₃, ?_, ?_, ?_, i, ?_⟩
  · intro j
    by_cases hj : j = i
    · subst hj
      refine Or.inr (Or.inr ?_)
      simp only [Function.update_self, Client.sent]
    · exact Or.inl (Function.update_of_ne hj _ _)
  · simp [remove, hasType, htype]
  · refine ⟨_, rfl, ?_⟩
    rw [Server.reply, Server.receive, take_overwrite_zero, length_request]
  · simp only [Function.update_self, Client.sent]

def rank : ClientPoint → Nat
  | .reading => 2
  | .sending => 1
  | .waiting | .exited => 0

/-- The steps that the clients can at most take before their first reply. -/
def work [Fintype ι] (clients : ι → Client) : Nat := ∑ i, rank (clients i).point

theorem work_update [Fintype ι] {clients : ι → Client} {i : ι} {x : Client}
    (h : rank x.point < rank (clients i).point) : work (Function.update clients i x) < work clients := by
  refine Finset.sum_lt_sum (fun j _ => ?_) ⟨i, Finset.mem_univ i, ?_⟩
  · by_cases hj : j = i
    · subst hj
      rw [Function.update_self]
      exact h.le
    · rw [Function.update_of_ne hj]
  · rw [Function.update_self]
    exact h

omit [DecidableEq ι] in
theorem Jammed.bytes_queue {s : State ι} (h : Jammed pids s) : bytes s.queue = s.queue.length * maxMessage := by
  rw [bytes, List.map_congr_left fun m hm => (h.queue m hm).2, List.map_const', List.sum_replicate, smul_eq_mul]

omit [DecidableEq ι] in
theorem Jammed.foreign {s : State ι} (h : Jammed pids s) (j : ι) (m : Message) :
    oldest (pids.pid j) s.queue ≠ some m := by
  intro hm
  have hone := (h.queue m (List.mem_of_find?_eq_some hm)).1
  have htype := (oldest_split hm).1
  have := pids.two_le j
  omega

/-- The clients of a jammed state have come as far as they can. -/
structure Exhausted (pids : Pids ι) (capacity : Nat) (s : State ι) : Prop where
  read : ∀ i, (s.clients i).point ≠ .reading
  send : ∀ i, s.clients i = (started pids i).fgets → ¬Fits capacity s.queue (s.clients i).request

theorem exists_exhausted [Fintype ι] (pids : Pids ι) (i : ι) (hcap : maxMessage ≤ capacity) :
    ∃ s, Reachable (system pids capacity fun _ => fullLine) s ∧ Jammed pids s ∧ Exhausted pids capacity s := by
  -- a jammed state with the least work left
  obtain ⟨s, ⟨hreach, hjam⟩, hmin⟩ := (measure fun s : State ι => work s.clients).wf.has_min
    {s | Reachable (system pids capacity fun _ => fullLine) s ∧ Jammed pids s} (exists_jammed i hcap)
  have hpoint : ∀ j, (started pids j).fgets.point = .sending := fun j => by rw [started_fgets]
  refine ⟨s, hreach, hjam, fun j hp => ?_, fun j hj hfit => ?_⟩
  · rcases hjam.clients j with hj | hj | hj
    · refine hmin _ ⟨hreach.next (.fgets s j hp), hjam.fgets hj⟩ (work_update ?_)
      rw [hp, hj, hpoint, rank, rank]
      exact Nat.one_lt_two
    · rw [hj, hpoint] at hp
      cases hp
    · rw [hj] at hp
      cases hp
  · have hp : (s.clients j).point = .sending := by rw [hj, hpoint]
    refine hmin _ ⟨hreach.next (.clientSend s j hp hfit), hjam.send hj⟩ (work_update ?_)
    rw [hp, Client.sent, rank, rank]
    exact Nat.one_pos

/-- If the reply fitted, so would every request, so all clients would wait, each with a
message in the queue or with the server. -/
theorem Exhausted.full [Fintype ι] {s : State ι} {n : Nat} (h : Exhausted pids capacity s) (hjam : Jammed pids s)
    (hreach : Reachable (system pids capacity stdin) s) (hsmall : capacity < Fintype.card ι * maxMessage)
    (hreply : s.server.point = .replying n) : ¬Fits capacity s.queue (s.server.reply n) := by
  intro hfit
  obtain ⟨n', hreply', hlen⟩ := hjam.server
  rw [hreply] at hreply'
  cases hreply'
  rw [Fits, hlen] at hfit
  have hw : ∀ j, (s.clients j).point = .waiting := by
    intro j
    rcases hjam.clients j with hj | hj | hj
    · exact absurd (by rw [hj]; rfl) (h.read j)
    · refine absurd ?_ (h.send j hj)
      rwa [Fits, hj, length_request]
    · exact hj
  have hcard := le_card_texts hreach hw
  have htexts : (texts s).card = s.queue.length + 1 := by simp [texts, held, hreply]
  rw [hjam.bytes_queue, ← Nat.succ_mul] at hfit
  exact absurd ((Nat.mul_le_mul_right maxMessage (hcard.trans_eq htexts)).trans hfit) (Nat.not_le_of_lt hsmall)

theorem Exhausted.stuck [Fintype ι] {s : State ι} (h : Exhausted pids capacity s) (hjam : Jammed pids s)
    (hreach : Reachable (system pids capacity stdin) s) (hsmall : capacity < Fintype.card ι * maxMessage) :
    Stuck (system pids capacity stdin) s := by
  obtain ⟨n, hreply, -⟩ := hjam.server
  intro e s' hstep
  cases hstep with
  | fgets j hp => exact h.read j hp
  | clientSend j hp hfit =>
      rcases hjam.clients j with hj | hj | hj
      · exact absurd (by rw [hj]; rfl) (h.read j)
      · exact h.send j hj hfit
      · rw [hj] at hp
        cases hp
  | clientReceive j m hp hm hl => exact hjam.foreign j m hm
  | clientTooBig j m hp hm hl => exact hjam.foreign j m hm
  | serverReceive m hp hm hl =>
      rw [hreply] at hp
      cases hp
  | serverTooBig m hp hm hl =>
      rw [hreply] at hp
      cases hp
  | serverSend k hp hpos hfit => exact h.full hjam hreach hsmall hp hfit
  | serverInvalid k hp hneg =>
      exact absurd ((sound_reachable hreach).server.mtype_pos hp) (Int.not_lt_of_ge hneg)

/-- With less room, clients that all send a longest line end in a deadlock. -/
theorem exists_deadlock [Fintype ι] (pids : Pids ι) (hcap : maxMessage ≤ capacity)
    (hsmall : capacity < Fintype.card ι * maxMessage) :
    ∃ s, Reachable (system pids capacity fun _ => fullLine) s ∧
      Deadlock (system pids capacity fun _ => fullLine) s := by
  obtain ⟨i⟩ : Nonempty ι := by
    rw [← Fintype.card_pos_iff]
    exact Nat.pos_of_mul_pos_right (Nat.zero_lt_of_lt hsmall)
  obtain ⟨s, hreach, hjam, hexhausted⟩ := exists_exhausted pids i hcap
  exact ⟨s, hreach, hjam.waiting, hexhausted.stuck hjam hreach hsmall⟩

/-- On a queue for two longest messages, no client waits in a stuck state for any
input if and only if a longest message of every client fits. -/
theorem deadlock_free_iff (ι : Type) [Fintype ι] [DecidableEq ι] (pids : Pids ι) (capacity : Nat)
    (hcap : 2 * maxMessage ≤ capacity) :
    (∀ stdin s, Reachable (system pids capacity stdin) s → ¬Deadlock (system pids capacity stdin) s) ↔
      Fintype.card ι * maxMessage ≤ capacity := by
  constructor
  · intro h
    by_contra hsmall
    obtain ⟨s, hreach, hdead⟩ := exists_deadlock pids (by omega) (Nat.lt_of_not_le hsmall)
    exact h _ s hreach hdead
  · rintro hroom stdin s hreach ⟨⟨i, hw⟩, hstuck⟩
    obtain ⟨e, s', hstep⟩ := step_of_waiting hroom hreach hw
    exact hstuck e s' hstep

def pidsFrom (n : Nat) (h : n < 2 ^ 16) : Pids (Fin n) where
  pid i := i + 2
  two_le i := by omega
  lt i := by omega
  injective i j hij := by
    ext
    simpa using hij

theorem deadlock_free_two : 2 * maxMessage ≤ 16384 ∧ ∀ stdin s,
    Reachable (system (pidsFrom 2 (by decide)) 16384 stdin) s →
    ¬Deadlock (system (pidsFrom 2 (by decide)) 16384 stdin) s :=
  ⟨by decide, (deadlock_free_iff (Fin 2) (pidsFrom 2 (by decide)) 16384 (by decide)).2 (by decide)⟩

/-- Of three clients with a longest line each, one has its message with the server
and two have theirs in the queue, which leaves no room for the reply. -/
theorem three_deadlock : ∃ s, Reachable (system (pidsFrom 3 (by decide)) 16384 fun _ => fullLine) s ∧
    Deadlock (system (pidsFrom 3 (by decide)) 16384 fun _ => fullLine) s :=
  exists_deadlock (pidsFrom 3 (by decide)) (by decide) (by decide)

end StudyNotes.Echo.Capacity
