import StudyNotes.Epoll.Program
import Mathlib.Data.List.TakeWhile

namespace StudyNotes.Epoll.Reading

open Systems.Transition Program

variable {κ : Type} [DecidableEq κ]

def arrived (c : κ) : Event κ → List UInt8
  | .arrive d bytes => if d = c then bytes else []
  | _ => []

def received (c : κ) : Event κ → List UInt8
  | .recv d chunk => if d = c then chunk else []
  | _ => []

def reported (c : κ) : Event κ → List UInt8
  | .recv d chunk => if d = c then printed chunk else []
  | _ => []

theorem printed_of_zero_not_mem {chunk : List UInt8} (h : 0 ∉ chunk) : printed chunk = chunk := by
  have hall : ∀ b ∈ chunk, (b != 0) = true := by
    intro b hb
    simp only [bne_iff_ne, ne_eq]
    rintro rfl
    exact h hb
  rw [printed, List.takeWhile_append_of_pos hall]
  simp

theorem zero_not_mem_printed (chunk : List UInt8) : 0 ∉ printed chunk := by
  intro h
  have := List.mem_takeWhile_imp h
  simp at this

theorem zero_not_mem_reported (c : κ) (tr : List (State κ × Event κ)) : 0 ∉ along (reported c) tr := by
  simp only [along, List.mem_flatMap, not_exists, not_and]
  rintro ⟨s, e⟩ -
  cases e with
  | recv d chunk =>
      rw [reported]
      split
      · exact zero_not_mem_printed chunk
      · exact List.not_mem_nil
  | _ => exact List.not_mem_nil

theorem reported_eq_received {c : κ} {tr : List (State κ × Event κ)} (h : 0 ∉ along (received c) tr) :
    along (reported c) tr = along (received c) tr := by
  simp only [along, List.mem_flatMap, not_exists, not_and] at h ⊢
  refine List.flatMap_congr fun p hp => ?_
  obtain ⟨s, e⟩ := p
  have hz := h _ hp
  cases e with
  | recv d chunk =>
      simp only [received, reported] at hz ⊢
      split
      next hd => exact printed_of_zero_not_mem (by simpa [hd] using hz)
      next => rfl
  | _ => rfl

/-- The server is bound to read from the connection: its flag is set, an event of
the batch names it, or the loop is at it. -/
def Attended (s : State κ) (c : κ) : Prop :=
  (s.conns c).ready = true ∨ ⟨.conn c, true⟩ ∈ s.server.events ∨ ∃ events, s.server = .reading c events

structure Kept (c : κ) (tr : List (State κ × Event κ)) (s : State κ) : Prop where
  flow : along (received c) tr ++ (s.conns c).buffer = along (arrived c) tr
  closed : (s.conns c).status = .closed → (s.conns c).buffer = []
  attended : (s.conns c).status = .registered → (s.conns c).buffer ≠ [] ∨ (s.conns c).peerClosed = true → Attended s c

theorem Kept.frame {c : κ} {tr : List (State κ × Event κ)} {s s' : State κ} {e : Event κ} (h : Kept c tr s)
    (hstatus : (s'.conns c).status = (s.conns c).status) (hbuffer : (s'.conns c).buffer = (s.conns c).buffer)
    (hpeer : (s'.conns c).peerClosed = (s.conns c).peerClosed) (hrec : received c e = []) (harr : arrived c e = [])
    (hatt : Attended s c → Attended s' c) : Kept c (tr ++ [(s, e)]) s' := by
  obtain ⟨hflow, hclosed, hattended⟩ := h
  constructor
  case flow => rw [along_concat, along_concat, hrec, harr, List.append_nil, List.append_nil, hbuffer, hflow]
  case closed => rwa [hstatus, hbuffer]
  case attended =>
    rw [hstatus, hbuffer, hpeer]
    exact fun hr ho => hatt (hattended hr ho)

omit [DecidableEq κ] in
theorem Attended.next_event {c : κ} {s s' : State κ} {x : EpollEvent κ} {events : List (EpollEvent κ)}
    (h : Attended s c) (hp : s.server = .processing (x :: events)) (hx : x ≠ ⟨.conn c, true⟩)
    (hready : (s'.conns c).ready = (s.conns c).ready) (hp' : s'.server = .processing events) : Attended s' c := by
  rcases h with hr | hm | ⟨events', hl⟩
  · exact Or.inl (hready.trans hr)
  · rw [hp, Server.events, List.mem_cons] at hm
    rcases hm with rfl | hm
    · exact absurd rfl hx
    · refine Or.inr (Or.inl ?_)
      rwa [hp', Server.events]
  · rw [hp] at hl
    cases hl

omit [DecidableEq κ] in
theorem Attended.next_loop {c d : κ} {s s' : State κ} {events : List (EpollEvent κ)} (h : Attended s c)
    (hr : s.server = .reading d events) (hdc : d ≠ c) (hready : (s'.conns c).ready = (s.conns c).ready)
    (hp : s'.server = .processing events) : Attended s' c := by
  rcases h with hf | hm | ⟨events', hl⟩
  · exact Or.inl (hready.trans hf)
  · refine Or.inr (Or.inl ?_)
    rw [hr, Server.events] at hm
    rwa [hp, Server.events]
  · rw [hr] at hl
    cases hl
    exact absurd rfl hdc

theorem attended_epollWait {c : κ} {s : State κ} {fds : List (Fd κ)} (h : Attended s c) (hw : s.server = .waiting) :
    Attended { s.clear fds with server := .processing (fds.map fun fd => ⟨fd, true⟩) } c := by
  rcases h with hf | hm | ⟨events, hl⟩
  · by_cases hc : Fd.conn c ∈ fds
    · refine Or.inr (Or.inl ?_)
      simpa [Server.events] using hc
    · refine Or.inl ?_
      simp [State.clear, hf, hc]
  · rw [hw] at hm
    cases hm
  · rw [hw] at hl
    cases hl

omit [DecidableEq κ] in
theorem attended_enterLoop {c d : κ} {s : State κ} {events : List (EpollEvent κ)} (h : Attended s c)
    (hp : s.server = .processing (⟨.conn d, true⟩ :: events)) : Attended { s with server := .reading d events } c := by
  rcases h with hf | hm | ⟨events', hl⟩
  · exact Or.inl hf
  · rw [hp, Server.events, List.mem_cons] at hm
    rcases hm with heq | hm
    · cases heq
      exact Or.inr (Or.inr ⟨events, rfl⟩)
    · exact Or.inr (Or.inl hm)
  · rw [hp] at hl
    cases hl

theorem kept_step {c : κ} {tr : List (State κ × Event κ)} {s s' : State κ} {e : Event κ} (h : Kept c tr s)
    (hs : Step s e s') : Kept c (tr ++ [(s, e)]) s' := by
  have hflow := h.flow
  cases hs with
  | connect d hd =>
      by_cases hdc : d = c
      · subst hdc
        refine ⟨?_, ?_, ?_⟩
        · simpa [along_concat, received, arrived] using hflow
        · simp
        · simp
      · have hcd := Ne.symm hdc
        apply h.frame <;> simp [hcd, received, arrived, Attended]
  | arrive d bytes hne hd ho =>
      by_cases hdc : d = c
      · subst hdc
        refine ⟨?_, ?_, ?_⟩
        · simp [along_concat, received, arrived, Conn.raise, ← hflow]
        · intro hclosed
          rcases hd with hd | hd <;> simp [Conn.raise, hd] at hclosed
        · intro hreg _
          refine Or.inl ?_
          simp_all [Conn.raise]
      · have hcd := Ne.symm hdc
        apply h.frame <;> simp [hcd, hdc, received, arrived, Attended]
  | peerClose d hd ho =>
      by_cases hdc : d = c
      · subst hdc
        refine ⟨?_, ?_, ?_⟩
        · simpa [along_concat, received, arrived, Conn.raise] using hflow
        · intro hclosed
          rcases hd with hd | hd <;> simp [Conn.raise, hd] at hclosed
        · intro hreg _
          refine Or.inl ?_
          simp_all [Conn.raise]
      · have hcd := Ne.symm hdc
        apply h.frame <;> simp [hcd, received, arrived, Attended]
  | epollWait fds hw hne hn hlen hready =>
      exact h.frame rfl rfl rfl rfl rfl (attended_epollWait · hw)
  | accept b events d backlog hp hb =>
      by_cases hdc : d = c
      · subst hdc
        refine ⟨?_, ?_, ?_⟩
        · simpa [along_concat, received, arrived, Conn.register] using hflow
        · simp [Conn.register]
        · intro _ ho
          refine Or.inl ?_
          simpa [Conn.register] using ho
      · have hcd := Ne.symm hdc
        refine h.frame ?_ ?_ ?_ rfl rfl (Attended.next_event · hp (by simp) ?_ rfl) <;> simp [hcd]
  | acceptFails b events hp hb => exact h.frame rfl rfl rfl rfl rfl (Attended.next_event · hp (by simp) rfl rfl)
  | enterLoop d events hp => exact h.frame rfl rfl rfl rfl rfl (attended_enterLoop · hp)
  | unsupported d events hp => exact h.frame rfl rfl rfl rfl rfl (Attended.next_event · hp (by simp) rfl rfl)
  | recv d events chunk rest hr hb hne hlen =>
      by_cases hdc : d = c
      · subst hdc
        refine ⟨?_, ?_, ?_⟩
        · rw [hb] at hflow
          simpa [along_concat, received, arrived] using hflow
        · intro hclosed
          have hnil := h.closed (by simpa using hclosed)
          simp_all
        · exact fun _ _ => Or.inr (Or.inr ⟨events, hr⟩)
      · have hcd := Ne.symm hdc
        apply h.frame <;> simp [hcd, hdc, received, arrived, Attended]
  | endOfStream d events hr hb ho =>
      by_cases hdc : d = c
      · subst hdc
        refine ⟨?_, ?_, ?_⟩
        · simpa [along_concat, received, arrived] using hflow
        · simpa using hb
        · simp
      · have hcd := Ne.symm hdc
        refine h.frame ?_ ?_ ?_ rfl rfl (Attended.next_loop · hr hdc ?_ rfl) <;> simp [hcd]
  | again d events hr hb ho =>
      by_cases hdc : d = c
      · subst hdc
        refine ⟨?_, h.closed, ?_⟩
        · simpa [along_concat, received, arrived] using hflow
        · simp [hb, ho]
      · exact h.frame rfl rfl rfl rfl rfl (Attended.next_loop · hr hdc rfl rfl)
  | endBatch hp =>
      refine h.frame rfl rfl rfl rfl rfl ?_
      simp [Attended, hp, Server.events]

theorem kept_run {tr : List (State κ × Event κ)} {s : State κ} (h : Run (system κ) tr s) (c : κ) : Kept c tr s := by
  refine Run.induct ?_ (fun tr s e s' _ hI hs => kept_step hI hs) h
  rintro s rfl
  refine ⟨rfl, fun _ => rfl, ?_⟩
  simp [State.init]

omit [DecidableEq κ] in
theorem not_attended_of_blocked {s : State κ} (hb : Blocked s) (c : κ) : ¬Attended s c := by
  obtain ⟨hw, hflags⟩ := hb
  rintro (hf | hm | ⟨events, hl⟩)
  · have := hflags (.conn c)
    rw [State.isReady, hf] at this
    cases this
  · rw [hw] at hm
    cases hm
  · rw [hw] at hl
    cases hl

/-- A connection is accepted, and one chunk that arrives on it is read. -/
theorem run_chunk {bytes : List UInt8} (hne : bytes ≠ []) (hlen : bytes.length ≤ maxBufferSize) :
    ∃ tr s, Run (system Unit) tr s ∧ Blocked s ∧ (s.conns ()).status = .registered ∧
      along (arrived ()) tr = bytes ∧ along (reported ()) tr = printed bytes := by
  have h₁ : Run (system Unit) _ _ := .next (.start rfl) (.connect _ () rfl)
  have h₂ : Run (system Unit) _ _ :=
    h₁.next (.epollWait _ [.listen] rfl (by simp) (by simp) (by decide) (by simp [State.isReady]))
  have h₃ : Run (system Unit) _ _ := h₂.next (.accept _ true [] () [] rfl rfl)
  have h₄ : Run (system Unit) _ _ := h₃.next (.endBatch _ rfl)
  have h₅ : Run (system Unit) _ _ := h₄.next (.arrive _ () bytes hne (Or.inr rfl) rfl)
  have h₆ : Run (system Unit) _ _ :=
    h₅.next (.epollWait _ [.conn ()] rfl (by simp) (by simp) (by simp [maxEventFdSize]) (by
      intro fd hfd
      rw [List.mem_singleton.1 hfd]
      rfl))
  have h₇ : Run (system Unit) _ _ := h₆.next (.enterLoop _ () [] rfl)
  have h₈ : Run (system Unit) _ _ := h₇.next (.recv _ () [] bytes [] rfl (List.append_nil bytes).symm hne hlen)
  have h₉ : Run (system Unit) _ _ := h₈.next (.again _ () [] rfl rfl rfl)
  have h₁₀ : Run (system Unit) _ _ := h₉.next (.endBatch _ rfl)
  refine ⟨_, _, h₁₀, ⟨rfl, ?_⟩, rfl, ?_, ?_⟩
  · rintro (_ | _)
    · rfl
    · simp [State.isReady, State.clear]
  · simp [along, arrived]
  · simp [along, reported]

/-- In a blocked state nothing is left to read on an open connection, what was
received on a connection of the server is what arrived, and the printed texts
spell it out if and only if there is no zero byte in it. -/
theorem all_read (κ : Type) [DecidableEq κ] (tr : List (State κ × Event κ)) (s : State κ)
    (h : Run (system κ) tr s) (hb : Blocked s) (c : κ) :
    ((s.conns c).status = .registered → (s.conns c).buffer = []) ∧
    ((s.conns c).status = .registered ∨ (s.conns c).status = .closed →
      along (received c) tr = along (arrived c) tr ∧
      (along (reported c) tr = along (arrived c) tr ↔ 0 ∉ along (arrived c) tr)) := by
  have hk := kept_run h c
  have hempty : (s.conns c).status = .registered → (s.conns c).buffer = [] := by
    intro hr
    by_contra hne
    exact not_attended_of_blocked hb c (hk.attended hr (Or.inl hne))
  refine ⟨hempty, fun hstatus => ?_⟩
  have hbuffer : (s.conns c).buffer = [] := hstatus.elim hempty hk.closed
  have hflow : along (received c) tr = along (arrived c) tr := by
    rw [← hk.flow, hbuffer, List.append_nil]
  refine ⟨hflow, ?_, ?_⟩
  · intro heq
    rw [← heq]
    exact zero_not_mem_reported c tr
  · intro hz
    rw [← hflow] at hz ⊢
    exact reported_eq_received hz

theorem all_read_line : ∃ tr s, Run (system Unit) tr s ∧ Blocked s ∧ along (arrived ()) tr = [104, 105] ∧
    along (reported ()) tr = [104, 105] := by
  obtain ⟨tr, s, h, hb, hr, harr, -⟩ := run_chunk (show [104, 105] ≠ [] by simp) (by decide)
  refine ⟨tr, s, h, hb, harr, ?_⟩
  rw [← harr]
  exact ((all_read Unit tr s h hb ()).2 (Or.inl hr)).2.2 (by rw [harr]; decide)

/-- Of the three bytes A, zero and B the report shows the first. -/
theorem report_cut : ∃ tr s, Run (system Unit) tr s ∧ Blocked s ∧ (s.conns ()).status = .registered ∧
    along (arrived ()) tr = [65, 0, 66] ∧ along (reported ()) tr = [65] := by
  obtain ⟨tr, s, h, hb, hr, harr, hrep⟩ := run_chunk (show [65, 0, 66] ≠ [] by simp) (by decide)
  exact ⟨tr, s, h, hb, hr, harr, hrep⟩

end StudyNotes.Epoll.Reading
