import StudyNotes.Echo.Capacity

namespace StudyNotes.Echo.Sizes

open Systems.Transition Lists.Overwrite Program Headers Routing Capacity

variable {ι : Type} [DecidableEq ι] {pids : Pids ι} {capacity : Nat} {stdin : ι → List UInt8}

def lineText (pids : Pids ι) (i : ι) (ln : List UInt8) : List UInt8 := putInt (pids.pid i) ++ ln

omit [DecidableEq ι] in
theorem length_lineText (pids : Pids ι) (i : ι) (ln : List UInt8) : (lineText pids i ln).length = 4 + ln.length := by
  rw [lineText, List.length_append, length_putInt]

theorem strlen_of_ne_zero {ln : List UInt8} (h : ∀ b ∈ ln, b ≠ 0) (rest : List UInt8) :
    strlen (ln ++ 0 :: rest) = ln.length := by
  have hall : ∀ b ∈ ln, (b != 0) = true := fun b hb => bne_iff_ne.2 (h b hb)
  rw [strlen, List.takeWhile_append_of_pos hall]
  simp

omit [DecidableEq ι] in
theorem request_fgets {i : ι} {x : Client} (hx : ClientSound pids i x) {ln rest : List UInt8}
    (hline : Program.fgets (msgMaxlen - 4) x.stdin = some (ln ++ [0], rest)) (hne : ∀ b ∈ ln, b ≠ 0) :
    x.fgets.point = .sending ∧ x.fgets.request = ⟨1, lineText pids i ln⟩ := by
  have hpos : 4 ≤ x.mtext.length := by rw [hx.length]; decide
  have hfgets : x.fgets = ⟨.sending, 1, overwrite x.mtext 4 (ln ++ [0]), rest⟩ := by rw [Client.fgets, hline]
  have hstr : strlen ((overwrite x.mtext 4 (ln ++ [0])).drop 4) = ln.length := by
    rw [drop_overwrite hpos, List.append_assoc, List.singleton_append, strlen_of_ne_zero hne]
  refine ⟨by rw [hfgets], ?_⟩
  rw [Client.request, hfgets, hstr, overwrite, hx.own, List.append_assoc, ← List.append_assoc, ← lineText,
    ← length_lineText pids i ln, List.take_left]

def outward (pids : Pids ι) (i : ι) (ln : List UInt8) : List (Event ι) :=
  [.fgets i, .clientSend i ⟨1, lineText pids i ln⟩, .serverReceive, .serverSend]

theorem run_outward {tr : List (State ι × Event ι)} {s : State ι} {i : ι} {ln rest : List UInt8}
    (h : Run (system pids capacity stdin) tr s) (hcap : msgMaxlen ≤ capacity) (hq : s.queue = [])
    (hserver : s.server.point = .receiving) (hp : (s.clients i).point = .reading)
    (hline : Program.fgets (msgMaxlen - 4) (s.clients i).stdin = some (ln ++ [0], rest)) (hne : ∀ b ∈ ln, b ≠ 0) :
    ∃ tr' s', Run (system pids capacity stdin) (tr ++ tr') s' ∧ events tr' = outward pids i ln ∧
      (s'.clients i).point = .waiting ∧
      oldest (pids.pid i) s'.queue = some ⟨pids.pid i, lineText pids i ln⟩ := by
  obtain ⟨hsending, hrequest⟩ := request_fgets ((sound_reachable h.reachable).clients i) hline hne
  have h₁ := h.next (.fgets s i hp)
  obtain ⟨tr', s', h', hevents, hwaiting, hm⟩ := run_to_reply (i := i) h₁ hq hserver
    (by simpa only [Function.update_self] using hsending) hcap
  rw [List.append_assoc] at h'
  simp only [Function.update_self, hrequest] at hevents hm
  refine ⟨_, s', h', ?_, hwaiting, hm⟩
  exact congrArg (Event.fgets i :: ·) hevents

omit [DecidableEq ι] in
theorem lineText_fits_iff (pids : Pids ι) (i : ι) (ln : List UInt8) :
    (lineText pids i ln).length ≤ msgMaxlen - 4 ↔ ln.length ≤ 8184 := by
  rw [length_lineText, msgMaxlen]
  omega

/-- The reply to a longer line is refused, and the client ends. -/
theorem run_too_long {tr : List (State ι × Event ι)} {s : State ι} {i : ι} {ln rest : List UInt8}
    (h : Run (system pids capacity stdin) tr s) (hcap : msgMaxlen ≤ capacity) (hq : s.queue = [])
    (hserver : s.server.point = .receiving) (hp : (s.clients i).point = .reading)
    (hline : Program.fgets (msgMaxlen - 4) (s.clients i).stdin = some (ln ++ [0], rest)) (hne : ∀ b ∈ ln, b ≠ 0)
    (hlong : 8184 < ln.length) :
    ∃ tr' s', Run (system pids capacity stdin) (tr ++ tr') s' ∧
      events tr' = outward pids i ln ++ [.clientFail i] := by
  obtain ⟨tr', s', h', hevents, hwaiting, hm⟩ := run_outward h hcap hq hserver hp hline hne
  rw [← hevents]
  refine h'.next_after (.clientTooBig s' i _ hwaiting hm ?_)
  exact not_le.1 fun hlen => absurd ((lineText_fits_iff pids i ln).1 hlen) (not_le.2 hlong)

theorem mem_sent_of_oldest {tr : List (State ι × Event ι)} {s : State ι} {i : ι} {m : Message}
    (h : Run (system pids capacity stdin) tr s) (hp : (s.clients i).point = .waiting)
    (hm : oldest (pids.pid i) s.queue = some m) : m.mtext ∈ along (sent i) tr := by
  have hledger := ledger_run h i
  rw [Ledger, hp] at hledger
  obtain ⟨mtext, hone, hsent⟩ := hledger
  have hmem : m.mtext ∈ outstanding pids i s := by
    refine Multiset.mem_filter.2 ⟨Multiset.mem_add.2 (Or.inl ?_), ((sound_reachable h.reachable).oldest_pid hm).own⟩
    exact Multiset.mem_coe.2 (List.mem_map_of_mem (List.mem_of_find?_eq_some hm))
  rw [hone, Multiset.mem_singleton] at hmem
  rw [hsent, hmem]
  exact List.mem_append_right _ (List.mem_singleton_self _)

theorem step_failure {tr : List (State ι × Event ι)} {s s' : State ι} {e : Event ι}
    (h : Run (system pids capacity stdin) tr s) (hs : Step pids capacity s e s') (i : ι) :
    e ≠ .serverFail ∧ (e = .clientFail i → ∃ text ∈ along (sent i) tr, msgMaxlen - 4 < text.length) := by
  have hsound := sound_reachable h.reachable
  cases hs with
  | fgets j hp => simp
  | clientSend j hp hfit => simp
  | clientReceive j m hp hm hlen => simp
  | clientTooBig j m hp hm hlen =>
      refine ⟨by simp, fun hj => ?_⟩
      cases hj
      exact ⟨m.mtext, mem_sent_of_oldest h hp hm, hlen⟩
  | serverReceive m hp hm hlen => simp
  | serverTooBig m hp hm hlen =>
      obtain ⟨j, hj⟩ := hsound.oldest hm
      exact absurd hj.length (Nat.lt_asymm hlen)
  | serverSend n hp hpos hfit => simp
  | serverInvalid n hp hneg => exact absurd (hsound.server.mtype_pos hp) (Int.not_lt_of_ge hneg)

/-- The server's msgrcv fails in no run, and that of a client only on a message that is longer
than it asks for. -/
theorem failures {tr : List (State ι × Event ι)} {s : State ι} (h : Run (system pids capacity stdin) tr s) (i : ι) :
    .serverFail ∉ events tr ∧
      (.clientFail i ∈ events tr → ∃ text ∈ along (sent i) tr, msgMaxlen - 4 < text.length) := by
  refine Run.induct (I := fun tr _ => .serverFail ∉ events tr ∧
    (.clientFail i ∈ events tr → ∃ text ∈ along (sent i) tr, msgMaxlen - 4 < text.length)) ?_ ?_ h
  · intro s _
    exact ⟨List.not_mem_nil, fun h => absurd h List.not_mem_nil⟩
  · rintro tr s e s' hr ⟨hserver, hclient⟩ hs
    obtain ⟨hne, hfail⟩ := step_failure hr hs i
    simp only [events_concat, along_concat, List.mem_append, List.mem_singleton, not_or]
    refine ⟨⟨hserver, hne.symm⟩, ?_⟩
    rintro (hold | hnow)
    · obtain ⟨text, hmem, hlong⟩ := hclient hold
      exact ⟨text, Or.inl hmem, hlong⟩
    · obtain ⟨text, hmem, hlong⟩ := hfail hnow.symm
      exact ⟨text, Or.inl hmem, hlong⟩

/-- A line comes back to the client exactly when it has at most 8184 bytes; a longer one ends
the client. The server receives every message, and a client fails only on a longer one. -/
theorem line_returns_iff (ι : Type) [DecidableEq ι] (pids : Pids ι) (capacity : Nat) (hcap : msgMaxlen ≤ capacity)
    (stdin : ι → List UInt8) (tr : List (State ι × Event ι)) (s : State ι)
    (h : Run (system pids capacity stdin) tr s) (hq : s.queue = []) (hserver : s.server.point = .receiving) (i : ι)
    (hp : (s.clients i).point = .reading) (ln rest : List UInt8)
    (hline : Program.fgets (msgMaxlen - 4) (s.clients i).stdin = some (ln ++ [0], rest)) (hne : ∀ b ∈ ln, b ≠ 0) :
    ((∃ tr' s', Run (system pids capacity stdin) (tr ++ tr') s' ∧
      events tr' = outward pids i ln ++ [.clientReceive i ⟨pids.pid i, lineText pids i ln⟩]) ↔
        ln.length ≤ 8184) ∧
    (8184 < ln.length → ∃ tr' s', Run (system pids capacity stdin) (tr ++ tr') s' ∧
      events tr' = outward pids i ln ++ [.clientFail i]) ∧
    ∀ tr' s', Run (system pids capacity stdin) tr' s' → .serverFail ∉ events tr' ∧
      ∀ j, .clientFail j ∈ events tr' → ∃ text ∈ along (sent j) tr', 8188 < text.length := by
  refine ⟨⟨?_, fun hlen => ?_⟩, fun hlong => run_too_long h hcap hq hserver hp hline hne hlong,
    fun tr' s' h' => ⟨(failures h' i).1, fun j => (failures h' j).2⟩⟩
  · rintro ⟨tr', s', h', hevents⟩
    obtain ⟨tr₁, s₁, rfl⟩ := events_eq_concat hevents
    rw [← List.append_assoc] at h'
    cases h'.last with
    | clientReceive _ _ _ _ hlen => exact (lineText_fits_iff pids i ln).1 hlen
  · obtain ⟨tr', s', h', hevents, hwaiting, hm⟩ := run_outward h hcap hq hserver hp hline hne
    rw [← hevents]
    exact h'.next_after (.clientReceive s' i _ hwaiting hm ((lineText_fits_iff pids i ln).2 hlen))

def pidTwo : Pids Unit := ⟨fun _ => 2, by simp, by simp, fun _ _ _ => rfl⟩

theorem line_returns_hi : ∃ tr s, Run (system pidTwo 16384 fun _ => [104, 105, 10]) tr s ∧
    events tr = outward pidTwo () [104, 105, 10] ++ [.clientReceive () ⟨2, lineText pidTwo () [104, 105, 10]⟩] := by
  have h : Run (system pidTwo 16384 fun _ => [104, 105, 10]) [] _ := .start rfl
  have hline : Program.fgets (msgMaxlen - 4) [104, 105, 10] = some ([104, 105, 10] ++ [0], []) := rfl
  have hne : ∀ b ∈ ([104, 105, 10] : List UInt8), b ≠ 0 := by simp
  exact (line_returns_iff Unit pidTwo 16384 (by decide) _ [] _ h rfl rfl () rfl _ _ hline hne).1.2 (by decide)

theorem full_line_lost : fullLine.length = 8187 ∧ (∀ b ∈ fullLine, b ≠ 0) ∧
    ∃ tr s, Run (system pidTwo 16384 fun _ => fullLine) tr s ∧
      events tr = outward pidTwo () fullLine ++ [.clientFail ()] := by
  have hne : ∀ b ∈ fullLine, b ≠ 0 := by
    intro b hb
    rw [List.eq_of_mem_replicate hb]
    decide
  have hlength : fullLine.length = 8187 := List.length_replicate
  have h : Run (system pidTwo 16384 fun _ => fullLine) [] _ := .start rfl
  refine ⟨hlength, hne, ?_⟩
  exact run_too_long (i := ()) h (by decide) rfl rfl rfl fgets_fullLine hne (by rw [hlength]; decide)

end StudyNotes.Echo.Sizes
