import StudyNotes.Curl.Sockets

namespace StudyNotes.Curl.Delivery

open Heap.Program Heap.Triple Systems.Transition Program Transfers Sockets

section Runs

variable {A : Allocator Block} {strerror : Nat → List UInt8}

theorem inv_step {past : Past} {order : List Nat} {s : State} (e : Event) (h : Inv strerror 0 past order s)
    (hidle : s.performing = false → s.done = []) (he : Enabled s e) :
    ∃ s' order', e.exec A strerror s = .ok s' ∧ Inv strerror 0 (past.after e) (order ++ order') s' ∧
      (s'.performing = false → s'.done = []) := by
  cases e with
  | send =>
      obtain ⟨s', hexec, hinv, hdone, -⟩ := sendGet_ok (A := A) h
      exact ⟨s', [], hexec, by rwa [List.append_nil], fun _ => hdone.trans (hidle he)⟩
  | enter trigger =>
      obtain ⟨s', hexec, hinv, hperf⟩ := enter_ok (A := A) h he
      exact ⟨s', [], hexec, by rwa [List.append_nil], fun hnot => absurd (hperf.symm.trans hnot) (by decide)⟩
  | write easy buf =>
      obtain ⟨s', hexec, hinv, hdone, hperf⟩ := write_ok (A := A) buf h he.2
      exact ⟨s', [], hexec, by rwa [List.append_nil], fun hnot => hdone.trans (hidle (hperf ▸ hnot))⟩
  | finish easy rc =>
      obtain ⟨s', hexec, hinv, hperf⟩ := finish_ok (A := A) rc h he.2
      exact ⟨s', [], hexec, by rwa [List.append_nil], fun hnot => absurd ((hperf.trans he.1).symm.trans hnot) (by decide)⟩
  | socket sockfd action =>
      obtain ⟨s', hexec, hinv, hdone, hperf⟩ := socket_ok (A := A) sockfd action h
      exact ⟨s', [], hexec, by rwa [List.append_nil], fun hnot => hdone.trans (hidle (hperf ▸ hnot))⟩
  | timeout timeoutMs =>
      refine ⟨startTimer s timeoutMs, [], rfl, ?_, ?_⟩
      · rw [List.append_nil, startTimer]
        split <;> exact ⟨h.holds, h.reqid, h.easies, h.sockets, h.reports, h.numbers, h.done, h.running, h.reported, h.fresh,
          h.watched⟩
      · rw [startTimer]
        split <;> exact hidle
  | leave sends =>
      have hleft : Inv strerror 0 past order { s with performing := false } :=
        ⟨h.holds, h.reqid, h.easies, h.sockets, h.reports, h.numbers, h.done, h.running, h.reported, h.fresh, h.watched⟩
      obtain ⟨s', order', hexec, hinv, hdone, -⟩ := checkMultiInfo_ok (A := A) (s := { s with performing := false }) s.done sends hleft
      exact ⟨s', order', hexec, hinv, fun _ => hdone⟩
  | closed sockfd context =>
      obtain ⟨s', hexec, hinv, hdone, hperf⟩ := closed_ok (A := A) h he.2
      exact ⟨s', [], hexec, by rwa [List.append_nil], fun hnot => hdone.trans (hidle (hperf ▸ hnot))⟩

/-- What libcurl has done along a run. -/
def pastOf (tr : List (State × Event)) : Past := (events tr).foldl Past.after Past.start

theorem pastOf_concat (tr : List (State × Event)) (s : State) (e : Event) :
    pastOf (tr ++ [(s, e)]) = (pastOf tr).after e := by
  rw [pastOf, events_concat, List.foldl_append]
  rfl

theorem inv_start : Inv strerror 0 Past.start [] State.init where
  holds := holds_empty
  reqid := rfl
  easies _ he := absurd he (Multiset.notMem_zero _)
  sockets := List.nodup_nil
  reports := rfl
  numbers := rfl
  done _ hp := absurd hp List.not_mem_nil
  running _ he := absurd he List.not_mem_nil
  reported _ hn := absurd hn List.not_mem_nil
  fresh _ _ := ⟨rfl, rfl⟩
  watched _ := iff_of_false List.not_mem_nil (fun h => h rfl)

theorem inv_run {tr : List (State × Event)} {s : State} (h : Run (system A strerror) tr s) :
    ∃ order, Inv strerror 0 (pastOf tr) order s ∧ (s.performing = false → s.done = []) := by
  refine Run.induct (I := fun tr s => ∃ order, Inv strerror 0 (pastOf tr) order s ∧ (s.performing = false → s.done = []))
    (fun s hinit => ?_) (fun tr s e s' _ hI hs => ?_) h
  · rw [hinit]
    exact ⟨[], inv_start, fun _ => rfl⟩
  · obtain ⟨order, hinv, hidle⟩ := hI
    obtain ⟨s'', order', hexec, hinv', hidle'⟩ := inv_step (A := A) e hinv hidle hs.1
    obtain rfl : s'' = s' := Except.ok.inj (hexec.symm.trans hs.2)
    exact ⟨order ++ order', pastOf_concat tr s e ▸ hinv', hidle'⟩

/-- No event makes the client fail. Every request that was sent is under way or has been
reported once, under its own id, with the bytes that came for it or the text of its error.
Outside curl_multi_socket_action no finished transfer waits. -/
theorem requests_reported_once (A : Allocator Block) (strerror : Nat → List UInt8) (tr : List (State × Event)) (s : State)
    (h : Run (system A strerror) tr s) :
    (∀ e, Enabled s e → ∃ s', e.exec A strerror s = .ok s') ∧ (s.performing = false → s.done = []) ∧
      ∃ order : List Nat, s.reports = order.map (reportOf strerror (pastOf tr).chunks (pastOf tr).codes) ∧
        (∀ n ∈ order, (pastOf tr).codes n ≠ none) ∧
        (order : Multiset Nat) + (flights s).map Easy.number = Multiset.range s.sent := by
  obtain ⟨order, hinv, hidle⟩ := inv_run h
  refine ⟨fun e he => ?_, hidle, order, hinv.reports, hinv.reported, hinv.numbers⟩
  obtain ⟨s', -, hexec, -⟩ := inv_step (A := A) e hinv hidle he
  exact ⟨s', hexec⟩

/-- A socket has a context exactly when libcurl wants it to be polled, and the context
polls for what libcurl asked for last. The blocks that live are those of the transfers
under way and one for each context that has not been closed. -/
theorem sockets_polled_and_freed (A : Allocator Block) (strerror : Nat → List UInt8) (tr : List (State × Event)) (s : State)
    (h : Run (system A strerror) tr s) :
    (∀ k, (∃ context, (k, context) ∈ s.sockets) ↔ (pastOf tr).watch k ≠ 0) ∧
      (∀ k context, (k, context) ∈ s.sockets →
        s.mem.cells.lookup context = some (.context k ((pastOf tr).watch k) false)) ∧
      s.mem.cells.keys.card = s.running.length + s.done.length + (s.sockets.length + s.closing.length) := by
  obtain ⟨order, hinv, -⟩ := inv_run h
  refine ⟨fun k => ?_, fun k context hmem => ?_, ?_⟩
  · rw [← hinv.watched k, List.mem_map]
    constructor
    · rintro ⟨context, hmem⟩
      exact ⟨_, hmem, rfl⟩
    · rintro ⟨⟨k, context⟩, hmem, rfl⟩
      exact ⟨context, hmem⟩
  · refine hinv.holds.lookup ?_
    rw [zero_add, cells, polled, Multiset.mem_add, Multiset.mem_add]
    exact .inr (.inl (List.mem_map.mpr ⟨_, hmem, rfl⟩))
  · rw [← Finset.card_val, holds_keys hinv.holds]
    simp [cells, polled, flights, Nat.add_assoc]

end Runs

section Demo

def demoState (cells : List (Addr × Block)) (clock : Nat) : State :=
  { State.init with mem := ⟨(cells.map Prod.toSigma).toFinmap, clock⟩ }

def easy₀ : Easy := ⟨0, 1, 1⟩

def easy₁ : Easy := ⟨1, 3, 3⟩

def waiting : State := { demoState [(1, .request 1 0 [])] 1 with reqid := 1, sent := 1, running := [easy₀] }

def started : State := { waiting with performing := true }

def polling : State :=
  { started with
    mem := (demoState [(2, .context 7 2 false), (1, .request 1 0 [])] 2).mem
    sockets := [(7, 2)] }

def received : State :=
  { polling with mem := (demoState [(1, .request 1 0 [104, 105]), (2, .context 7 2 false)] 2).mem }

def finished : State := { received with running := [], done := [(easy₀, 0)] }

def removed : State :=
  { finished with
    mem := (demoState [(2, .context 7 0 true), (1, .request 1 0 [104, 105])] 2).mem
    sockets := []
    closing := [(7, 2)] }

def reported : State :=
  { demoState [(3, .request 2 0 []), (2, .context 7 0 true)] 3 with
    reqid := 2
    sent := 2
    running := [easy₁]
    closing := [(7, 2)]
    reports := [⟨0, [104, 105], 1⟩] }

theorem run_event {tr : List (State × Event)} {s s' : State} (h : Run (system bump fun _ => []) tr s) (e : Event)
    (he : Enabled s e) (hr : e.exec bump (fun _ => []) s = .ok s') : Run (system bump fun _ => []) (tr ++ [(s, e)]) s' :=
  h.next ⟨he, hr⟩

/-- One request is answered with the text hi, and the callback sends another. -/
theorem demo_run : ∃ tr, Run (system bump fun _ => []) tr reported ∧ (pastOf tr).chunks 0 = [104, 105] ∧
    (pastOf tr).codes 0 = some 0 ∧ (pastOf tr).watch 7 = 0 := by
  have h₁ : Run _ _ waiting := run_event (.start rfl) .send rfl rfl
  have h₂ : Run _ _ { waiting with timer := some 1 } := run_event h₁ (.timeout 0) trivial rfl
  have h₃ : Run _ _ started := run_event h₂ (.enter .timer) ⟨rfl, by decide⟩ rfl
  have h₄ : Run _ _ polling := run_event h₃ (.socket 7 .pollOut) trivial rfl
  have h₅ : Run _ _ received := run_event h₄ (.write easy₀ [104, 105]) ⟨rfl, by decide⟩ rfl
  have h₆ : Run _ _ finished := run_event h₅ (.finish easy₀ 0) ⟨rfl, by decide⟩ rfl
  have h₇ : Run _ _ removed := run_event h₆ (.socket 7 .pollRemove) trivial rfl
  have h₈ : Run _ _ reported := run_event h₇ (.leave [1]) rfl rfl
  exact ⟨_, h₈, rfl, rfl, rfl⟩

theorem requests_reported_once_demo : ∃ tr, Run (system bump fun _ => []) tr reported ∧ ∃ order : List Nat,
    reported.reports = order.map (reportOf (fun _ => []) (pastOf tr).chunks (pastOf tr).codes) ∧
    (order : Multiset Nat) + {1} = Multiset.range 2 := by
  obtain ⟨tr, h, -⟩ := demo_run
  obtain ⟨-, -, order, hreports, -, hnumbers⟩ := requests_reported_once bump (fun _ => []) tr reported h
  exact ⟨tr, h, order, hreports, hnumbers⟩

theorem sockets_polled_and_freed_demo : ∃ tr, Run (system bump fun _ => []) tr reported ∧
    (¬∃ context, (7, context) ∈ reported.sockets) ∧ reported.mem.cells.keys.card = 2 := by
  obtain ⟨tr, h, -, -, hwatch⟩ := demo_run
  obtain ⟨hpolled, -, hcard⟩ := sockets_polled_and_freed bump (fun _ => []) tr reported h
  exact ⟨tr, h, fun hmem => (hpolled 7).mp hmem hwatch, hcard⟩

end Demo

end StudyNotes.Curl.Delivery
