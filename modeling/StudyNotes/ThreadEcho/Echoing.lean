import StudyNotes.ThreadEcho.Serving
import StudyNotes.Systems.Refinement

namespace StudyNotes.ThreadEcho.Echoing

open Heap.Program Heap.Outcome Systems.Transition Systems.Refinement Program Serving

section Flow

/-- The bytes that a thread has read and not yet written. -/
def inFlight : Stage → List UInt8
  | .printing _ recvbuf | .writing _ recvbuf => recvbuf
  | _ => []

def Ended : Stage → Prop
  | .closing _ | .exited => True
  | _ => False

def arrivedAt (k : Nat) : Event → List UInt8
  | .arrive k' bytes => if k' = k then bytes else []
  | _ => []

/-- The bytes that have arrived are those that the thread is through with, and behind them
those it has read and those it has not. The first ones were sent back, unless the peer has
reset the connection. -/
structure Flow (arrived : List UInt8) (conn : Conn) (st : Stage) : Prop where
  split : ∃ past, past ++ (inFlight st ++ conn.buffer) = arrived ∧ conn.echoed.Sublist past ∧
    (conn.reset = false → conn.echoed = past)
  ended : Ended st → conn.buffer = [] ∧ conn.peerClosed = true

variable {arrived bytes recvbuf rest : List UInt8} {conn : Conn} {st st' : Stage} {fd : Fd}

theorem Flow.whole (h : Flow arrived conn st) (hr : conn.reset = false) :
    conn.echoed ++ (inFlight st ++ conn.buffer) = arrived := by
  obtain ⟨past, heq, -, hall⟩ := h.split
  rwa [hall hr]

theorem Flow.sublist (h : Flow arrived conn st) : conn.echoed.Sublist arrived := by
  obtain ⟨past, rfl, hsub, -⟩ := h.split
  exact hsub.trans (List.sublist_append_left _ _)

theorem Flow.inFlight_within (h : Flow arrived conn st) : inFlight st <:+: arrived := by
  obtain ⟨past, rfl, -⟩ := h.split
  exact ⟨past, conn.buffer, List.append_assoc _ _ _⟩

theorem Flow.arrive (h : Flow arrived conn st) (ho : conn.peerClosed = false) :
    Flow (arrived ++ bytes) { conn with buffer := conn.buffer ++ bytes } st := by
  obtain ⟨past, rfl, hsub, hall⟩ := h.split
  refine ⟨⟨past, ?_, hsub, hall⟩, fun he => ?_⟩
  · simp only [List.append_assoc]
  · exact absurd (ho.symm.trans (h.ended he).2) Bool.false_ne_true

theorem Flow.stage (h : Flow arrived conn st) (hi : inFlight st' = inFlight st)
    (he : Ended st' → conn.buffer = [] ∧ conn.peerClosed = true) : Flow arrived conn st' :=
  ⟨hi ▸ h.split, he⟩

theorem Flow.peerClose (h : Flow arrived conn st) : Flow arrived { conn with peerClosed := true } st :=
  ⟨h.split, fun he => ⟨(h.ended he).1, rfl⟩⟩

theorem Flow.reset (h : Flow arrived conn st) : Flow arrived { conn with reset := true } st := by
  obtain ⟨past, heq, hsub, -⟩ := h.split
  exact ⟨⟨past, heq, hsub, fun hr => absurd hr.symm Bool.false_ne_true⟩, h.ended⟩

theorem Flow.read (h : Flow arrived conn (.reading fd)) (hb : conn.buffer = recvbuf ++ rest) :
    Flow arrived { conn with buffer := rest } (.printing fd recvbuf) where
  split := by simpa [inFlight, hb] using h.split
  ended he := he.elim

theorem Flow.write (h : Flow arrived conn (.writing fd recvbuf)) :
    Flow arrived { conn with echoed := conn.echoed ++ recvbuf } (.reading fd) := by
  obtain ⟨past, rfl, hsub, hall⟩ := h.split
  refine ⟨⟨past ++ recvbuf, ?_, hsub.append_right recvbuf, fun hr => ?_⟩, False.elim⟩
  · simp only [inFlight, List.nil_append, List.append_assoc]
  · rw [hall hr]

theorem Flow.writeFailed (h : Flow arrived conn (.writing fd recvbuf)) (hr : conn.reset = true) :
    Flow arrived conn (.reading fd) := by
  obtain ⟨past, rfl, hsub, -⟩ := h.split
  refine ⟨⟨past ++ recvbuf, ?_, hsub.trans (List.sublist_append_left past recvbuf), fun hr' => ?_⟩, False.elim⟩
  · simp only [inFlight, List.nil_append, List.append_assoc]
  · exact absurd (hr'.symm.trans hr) Bool.false_ne_true

variable {A : Allocator Fd} {s s' : State} {e : Event} {k t : Nat}

/-- The stage of one connection changes, all else that is seen of the connections stays. -/
theorem Flow.setStage (h : Flow arrived (s.conns k) (s.stage k))
    (ht : k = t → Flow arrived (s.conns k) st) : Flow arrived (s.conns k) ((s.setStage t st).stage k) := by
  rw [State.setStage_stage]
  split_ifs with hk
  · exact ht hk
  · exact h

theorem Flow.advance (h : Flow arrived (s.conns k) (s.stage k)) (hst : s.stage t = st)
    (hi : inFlight st' = inFlight st) (he : ¬Ended st') : Flow arrived (s.conns k) ((s.setStage t st').stage k) :=
  h.setStage fun hk => h.stage (by rw [hk, hst, hi]) fun he' => absurd he' he

theorem flow_step (hI : Inv s) (hs : Step A s e s') (k : Nat) (h : Flow arrived (s.conns k) (s.stage k)) :
    Flow (arrived ++ arrivedAt k e) (s'.conns k) (s'.stage k) := by
  -- a thread has the descriptor of its own connection
  have hown : ∀ {t k' c}, fdOf (cell s.mem) (s.stage t) = some c → s.fds c = some k' → k' = t :=
    fun ht hk => Option.some_inj.1 (hk.symm.trans (hI.opened ht))
  cases hs
  case arrive k' bytes ho hr =>
    rcases eq_or_ne k k' with rfl | hk
    · simpa [arrivedAt] using h.arrive ho
    · simpa [arrivedAt, hk, hk.symm] using h
  all_goals simp only [arrivedAt, List.append_nil]
  case peerClose k' =>
    rcases eq_or_ne k k' with rfl | hk
    · simpa using h.peerClose
    · simpa [hk] using h
  case reset k' =>
    rcases eq_or_ne k k' with rfl | hk
    · simpa using h.reset
    · simpa [hk] using h
  case acceptFailed => exact h
  case readFailed => exact h
  case brokenPipe => exact h
  case accept fd hd hm hfd => exact h.advance ((hI.unseen s.accepted).2 le_rfl) rfl id
  case allocate t conn p m hd hm hst hp => exact h.advance hst rfl id
  case create t p hd hm hst => exact h.advance hst rfl id
  case createFailed t p hd hm hst => exact h.advance hst rfl id
  case load t arg conn m hd hst hload => exact h.advance hst rfl id
  case release t arg conn m hd hst hfree => exact h.advance hst rfl id
  case print t conn recvbuf hd hst ho => exact h.advance hst rfl id
  case close t conn hd hst =>
    refine h.setStage fun hk => h.stage (by rw [hk, hst]; rfl) fun _ => h.ended ?_
    rw [hk, hst]
    trivial
  case readZero t conn k' hd hst hfd hb ho =>
    obtain rfl := hown (by rw [hst, fdOf]) hfd
    exact h.setStage fun hk => h.stage (by rw [hk, hst]; rfl) fun _ => hk ▸ ⟨hb, ho⟩
  case writeFailed t conn recvbuf k' hd hst hfd hr =>
    obtain rfl := hown (by rw [hst, fdOf]) hfd
    refine h.setStage fun hk => ?_
    subst hk
    rw [hst] at h
    exact h.writeFailed hr
  case read t conn k' recvbuf rest hd hst hfd hb hne hlen =>
    obtain rfl := hown (by rw [hst, fdOf]) hfd
    rcases eq_or_ne k k' with rfl | hk
    · rw [hst] at h
      simpa using h.read hb
    · simpa [hk] using h
  case write t conn recvbuf k' hd hst hfd hr =>
    obtain rfl := hown (by rw [hst, fdOf]) hfd
    rcases eq_or_ne k k' with rfl | hk
    · rw [hst] at h
      simpa using h.write
    · simpa [hk] using h

theorem flow_run {tr : List (State × Event)} (h : Run (system A) tr s) (k : Nat) :
    Flow (along (arrivedAt k) tr) (s.conns k) (s.stage k) := by
  refine Run.induct (I := fun tr s => Flow (along (arrivedAt k) tr) (s.conns k) (s.stage k)) ?_ ?_ h
  · rintro s rfl
    exact ⟨⟨[], rfl, List.Sublist.refl _, fun _ => rfl⟩, False.elim⟩
  · intro tr s e s' hr ih hs
    rw [along_concat]
    exact flow_step (inv_reachable hr.reachable) hs k ih

end Flow

section Progress

/-- The steps that the main thread and its thread take for one connection. -/
def Own (k : Nat) : Event → Prop
  | .allocate | .create => True
  | .load t | .release t | .read t _ | .readFailed t | .print t | .write t | .writeFailed t => t = k
  | _ => False

/-- A connection that has been accepted and is still served. -/
def Served : Stage → Prop
  | .accepted _ | .allocated _ | .started _ | .loaded _ _ | .reading _ | .writing _ _ => True
  | .printing _ recvbuf => ¬Overread recvbuf
  | .unseen | .abandoned _ | .closing _ | .exited => False

def stepsLeft : Stage → Nat
  | .accepted _ => 4
  | .allocated _ => 3
  | .started _ | .printing _ _ => 2
  | .loaded _ _ | .writing _ _ => 1
  | _ => 0

/-- Each byte takes at most three steps, if it is read alone. -/
def left (k : Nat) (s : State) : Nat := 3 * (s.conns k).buffer.length + stepsLeft (s.stage k)

def Drained (k : Nat) (s : State) : Prop := (s.conns k).buffer = [] ∧ ∃ conn, s.stage k = .reading conn

/-- The other connections are as they were. -/
def Apart (k : Nat) (s₀ s : State) : Prop := ∀ j, j ≠ k → s.stage j = s₀.stage j ∧ s.conns j = s₀.conns j

/-- The process runs and serves the connection, with what the peer has done to it. Since a
state s₀ nothing has been done for the other ones. -/
structure Serves (k : Nat) (reset peerClosed : Bool) (s₀ s : State) : Prop where
  up : s.down = false
  served : Served (s.stage k)
  peer : (s.conns k).reset = reset ∧ (s.conns k).peerClosed = peerClosed
  apart : Apart k s₀ s

variable {A : Allocator Fd} {s₀ s s' : State} {e : Event} {k : Nat} {reset peerClosed : Bool}

theorem Apart.setStage (h : Apart k s₀ s) {st : Stage} : Apart k s₀ (s.setStage k st) := by
  intro j hj
  rw [State.setStage_stage, if_neg hj]
  exact h j hj

theorem Apart.setConn (h : Apart k s₀ s) {c : Conn} : Apart k s₀ (s.setConn k c) := by
  intro j hj
  rw [State.setConn_conns, if_neg hj]
  exact h j hj

theorem not_overread_singleton (b : UInt8) : ¬Overread [b] := fun h => absurd h.1 (by simp [sizeofRecvbuf])

theorem exists_own_step (hI : Inv s) (h : Serves k reset peerClosed s₀ s) (hg : ¬Drained k s) :
    ∃ e s', Step A s e s' ∧ Own k e ∧ Serves k reset peerClosed s₀ s' ∧ left k s' < left k s := by
  have hserved := h.served
  cases hst : s.stage k with
  | unseen | abandoned | closing | exited => simp [hst, Served] at hserved
  | accepted conn =>
      obtain ⟨p, m, hm⟩ := exists_malloc A (fun _ => conn) s.mem (show sizeofInt ≤ maxRequest by decide)
      refine ⟨_, _, .allocate s k conn p m h.up (hI.pending k (by rw [hst]; trivial)) hst hm, trivial, ?_, ?_⟩
      · exact ⟨h.up, by simp [Served], h.peer, h.apart.setStage⟩
      · simp [left, hst, stepsLeft]
  | allocated p =>
      refine ⟨_, _, .create s k p h.up (hI.pending k (by rw [hst]; trivial)) hst, trivial, ?_, ?_⟩
      · exact ⟨h.up, by simp [Served], h.peer, h.apart.setStage⟩
      · simp [left, hst, stepsLeft]
  | started arg =>
      obtain ⟨conn, hc⟩ := hI.cell_of_arg (show argOf (s.stage k) = some arg by rw [hst, argOf])
      refine ⟨_, _, .load s k arg conn s.mem h.up hst (load_eq_ok_iff.2 ⟨rfl, hc⟩), rfl, ?_, ?_⟩
      · exact ⟨h.up, by simp [Served], h.peer, h.apart.setStage⟩
      · simp [left, hst, stepsLeft]
  | loaded arg conn =>
      obtain ⟨c, hc⟩ := hI.cell_of_arg (show argOf (s.stage k) = some arg by rw [hst, argOf])
      obtain ⟨m, hm⟩ := exists_free_of_cell hc
      refine ⟨_, _, .release s k arg conn m h.up hst hm, rfl, ?_, ?_⟩
      · exact ⟨h.up, by simp [Served], h.peer, h.apart.setStage⟩
      · simp [left, hst, stepsLeft]
  | reading conn =>
      -- the kernel may hand out the bytes one by one
      have hfd := hI.opened (show fdOf (cell s.mem) (s.stage k) = some conn by rw [hst, fdOf])
      cases hb : (s.conns k).buffer with
      | nil => exact absurd ⟨hb, conn, hst⟩ hg
      | cons b rest =>
          refine ⟨_, _, .read s k conn k [b] rest h.up hst hfd hb (List.cons_ne_nil b []) (by simp [sizeofRecvbuf]),
            rfl, ?_, ?_⟩
          · exact ⟨h.up, by simpa [Served] using not_overread_singleton b, by simpa using h.peer, h.apart.setStage.setConn⟩
          · simp [left, hst, hb, stepsLeft]
            omega
  | printing conn recvbuf =>
      rw [hst] at hserved
      refine ⟨_, _, .print s k conn recvbuf h.up hst hserved, rfl, ?_, ?_⟩
      · exact ⟨h.up, by simp [Served], h.peer, h.apart.setStage⟩
      · simp [left, hst, stepsLeft]
  | writing conn recvbuf =>
      have hfd := hI.opened (show fdOf (cell s.mem) (s.stage k) = some conn by rw [hst, fdOf])
      cases hr : (s.conns k).reset with
      | false =>
          refine ⟨_, _, .write s k conn recvbuf k h.up hst hfd hr, rfl, ?_, ?_⟩
          · exact ⟨h.up, by simp [Served], by simpa using h.peer, h.apart.setStage.setConn⟩
          · simp [left, hst, stepsLeft]
      | true =>
          refine ⟨_, _, .writeFailed s k conn recvbuf k h.up hst hfd hr, rfl, ?_, ?_⟩
          · exact ⟨h.up, by simp [Served], h.peer, h.apart.setStage⟩
          · simp [left, hst, stepsLeft]

/-- A connection that is served can be read empty while the other ones wait. -/
theorem exists_drained {tr : List (State × Event)} (h : Run (system A) tr s) (hd : s.down = false)
    (hs : Served (s.stage k)) (hp : (s.conns k).reset = reset ∧ (s.conns k).peerClosed = peerClosed) :
    ∃ tr' s', Run (system A) (tr ++ tr') s' ∧ Serves k reset peerClosed s s' ∧ Drained k s' ∧ ∀ p ∈ tr', Own k p.2 := by
  have hstart : Serves k reset peerClosed s s := ⟨hd, hs, hp, fun _ _ => ⟨rfl, rfl⟩⟩
  exact exists_goal (left k) (fun _ hr hs hg => exists_own_step (inv_reachable hr) hs hg) h hstart

theorem arrivedAt_of_own (h : Own k e) : arrivedAt k e = [] := by
  cases e <;> first | rfl | exact h.elim

theorem along_own {tr tr' : List (State × Event)} (h : ∀ p ∈ tr', Own k p.2) :
    along (arrivedAt k) (tr ++ tr') = along (arrivedAt k) tr := by
  have hnil : (events tr').flatMap (arrivedAt k) = [] := by
    rw [events, List.flatMap_map, List.flatMap_eq_nil_iff]
    exact fun p hp => arrivedAt_of_own (h p hp)
  rw [along_append, hnil, List.append_nil]

theorem Flow.echoed_of_drained {arrived : List UInt8} (h : Flow arrived (s.conns k) (s.stage k)) (hd : Drained k s)
    (hr : (s.conns k).reset = false) : (s.conns k).echoed = arrived := by
  obtain ⟨hb, conn, hst⟩ := hd
  simpa [hb, hst, inFlight] using h.whole hr

theorem Flow.echoed_of_exited {arrived : List UInt8} {conn : Conn} (h : Flow arrived conn .exited)
    (hr : conn.reset = false) : conn.echoed = arrived := by
  simpa [inFlight, (h.ended trivial).1] using h.whole hr

end Progress

variable {A : Allocator Fd} {tr : List (State × Event)} {s : State} {k : Nat}

section Down

variable {s' : State} {e : Event}

/-- The process ends, and a connection is reset, only by what has been seen in the run. -/
structure Blamed (tr : List (State × Event)) (s : State) : Prop where
  reset : ∀ k, (s.conns k).reset = true → .reset k ∈ events tr
  down : s.down = true → .acceptFailed ∈ events tr ∨ ∃ k, .reset k ∈ events tr

theorem blamed_step (h : Blamed tr s) (hs : Step A s e s') : Blamed (tr ++ [(s, e)]) s' := by
  obtain ⟨hreset, hdown⟩ := h
  have hmem : ∀ e', e' ∈ events (tr ++ [(s, e)]) ↔ e' ∈ events tr ∨ e' = e := by
    intro e'
    rw [events_concat, List.mem_append, List.mem_singleton]
  constructor
  · intro k hr
    rw [hmem]
    cases hs <;> grind
  · intro hd
    simp only [hmem]
    cases hs <;> grind

theorem blamed_run (h : Run (system A) tr s) : Blamed tr s := by
  refine Run.induct (I := Blamed) ?_ (fun _ _ _ _ _ => blamed_step) h
  rintro s rfl
  exact ⟨fun k hr => absurd hr Bool.false_ne_true, fun hd => absurd hd Bool.false_ne_true⟩

theorem Drained.readFailed (h : Drained k s) (hI : Inv s) {peerClosed : Bool} {s₀ : State}
    (hs : Serves k true peerClosed s₀ s) : Step A s (.readFailed k) { s with down := true } := by
  obtain ⟨hb, conn, hst⟩ := h
  exact .readFailed s k conn k hs.up hst (hI.opened (by rw [hst, fdOf])) hb hs.peer.1

end Down

section Printing

variable {recvbuf : List UInt8}

theorem overread_arrived (h : Run (system A) tr s) (hf : Faulty s .overread) :
    ∃ k recvbuf, Overread recvbuf ∧ recvbuf <:+: along (arrivedAt k) tr := by
  cases hf with
  | print k conn recvbuf hst ho =>
      have hwithin := (flow_run h k).inFlight_within
      rw [hst] at hwithin
      exact ⟨k, recvbuf, ho, hwithin⟩

/-- A peer whose bytes have all been read sends a full buffer, which the thread reads at once. -/
theorem Drained.overread (h : Drained k s) (hrun : Run (system A) tr s) {s₀ : State} (hs : Serves k false false s₀ s)
    (ho : Overread recvbuf) :
    ∃ tr' s', Run (system A) (tr ++ tr') s' ∧ (∀ p ∈ tr', Own k p.2 ∨ p.2 = .arrive k recvbuf) ∧
      Faulty s' .overread := by
  obtain ⟨hb, conn, hst⟩ := h
  have hfd := (inv_reachable hrun.reachable).opened (show fdOf (cell s.mem) (s.stage k) = some conn by rw [hst, fdOf])
  have hne : recvbuf ≠ [] := by
    rintro rfl
    exact absurd ho.1 (by decide)
  have harrived := hrun.next (Step.arrive s k recvbuf hs.peer.2 hs.peer.1)
  have hread := harrived.next (Step.read _ k conn k recvbuf [] hs.up hst hfd (by simp [hb]) hne ho.1.le)
  rw [List.append_assoc] at hread
  refine ⟨_, _, hread, ?_, .print k conn recvbuf (by simp) ho⟩
  simp [Own]

end Printing

/-- A print beyond the buffer needs 1024 bytes other than zero in a row on one connection,
and any peer that is served can bring it about with them. -/
theorem overread_by_peer (h : Run (system A) tr s) :
    (Faulty s .overread → ∃ k recvbuf, Overread recvbuf ∧ recvbuf <:+: along (arrivedAt k) tr) ∧
    ∀ k recvbuf, Overread recvbuf → s.down = false → Served (s.stage k) → (s.conns k).reset = false →
      (s.conns k).peerClosed = false →
      ∃ tr' s', Run (system A) (tr ++ tr') s' ∧ (∀ p ∈ tr', Own k p.2 ∨ p.2 = .arrive k recvbuf) ∧
        Faulty s' .overread := by
  refine ⟨overread_arrived h, fun k recvbuf ho hd hs hr hc => ?_⟩
  obtain ⟨tr₁, s₁, hrun, hserves, hdrained, hown⟩ := exists_drained h hd hs ⟨hr, hc⟩
  obtain ⟨tr₂, s₂, hrun', hown', hfaulty⟩ := hdrained.overread hrun hserves ho
  rw [List.append_assoc] at hrun'
  refine ⟨tr₁ ++ tr₂, s₂, hrun', fun p hp => ?_, hfaulty⟩
  rcases List.mem_append.1 hp with hp | hp
  · exact .inl (hown p hp)
  · exact hown' p hp

theorem overread_by_peer_ones : ∃ tr s, Run (system bump) tr s ∧ Faulty s .overread := by
  have hfull : Overread (List.replicate sizeofRecvbuf 1) := by
    refine ⟨List.length_replicate, fun hmem => ?_⟩
    exact absurd (List.eq_of_mem_replicate hmem) (by decide)
  obtain ⟨tr', s', hrun, -, hfaulty⟩ :=
    (overread_by_peer (demo_accepted bump)).2 0 (List.replicate sizeofRecvbuf 1) hfull rfl trivial rfl rfl
  exact ⟨_, s', hrun, hfaulty⟩

end StudyNotes.ThreadEcho.Echoing
