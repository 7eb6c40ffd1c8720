import StudyNotes.Curl.Program
import Mathlib.Algebra.Order.Group.Multiset
import Mathlib.Data.Multiset.Range
import Mathlib.Tactic.Abel

namespace StudyNotes.Curl.Transfers

open Heap.Program Heap.Triple Heap.Variants Program

section Cells

def flights (s : State) : Multiset Easy := ↑s.running + ↑(s.done.map Prod.fst)

variable (chunks : Nat → List UInt8) (watch : Nat → Nat)

def requestCell (e : Easy) : Addr × Block := (e.priv, .request (UInt64.ofNat (e.number + 1)) 0 (chunks e.number))

def contextCell (p : Nat × Addr) : Addr × Block := (p.2, .context p.1 (watch p.1) false)

def closingCell (p : Nat × Addr) : Addr × Block := (p.2, .context p.1 0 true)

/-- The memory of the sockets and of the contexts that are being closed. -/
def polled (s : State) : Multiset (Addr × Block) :=
  ↑(s.sockets.map (contextCell watch)) + ↑(s.closing.map closingCell)

def cells (s : State) : Multiset (Addr × Block) := (flights s).map (requestCell chunks) + polled watch s

end Cells

/-- What the callback is told about the transfer of a number. -/
def reportOf (strerror : Nat → List UInt8) (chunks : Nat → List UInt8) (codes : Nat → Option Nat) (n : Nat) : Report :=
  let rc := (codes n).getD 0
  ⟨rc, if rc ≠ 0 then strerror rc else chunks n, UInt64.ofNat (n + 1)⟩

/-- What libcurl has done so far: the bytes of every transfer, the results of those that
are over, and what it wants the sockets to be polled for. -/
structure Past where
  chunks : Nat → List UInt8
  codes : Nat → Option Nat
  watch : Nat → Nat

/-- The transfers in the order of their reports and those under way are all that were
sent, and the memory has what they need, besides F. -/
structure Inv (strerror : Nat → List UInt8) (F : Multiset (Addr × Block)) (past : Past) (order : List Nat) (s : State) :
    Prop where
  holds : Holds (F + cells past.chunks past.watch s) s.mem
  reqid : s.reqid = UInt64.ofNat s.sent
  easies : ∀ e ∈ flights s, e.writeData = e.priv ∧ e.priv ≠ 0
  sockets : (s.sockets.map Prod.fst).Nodup
  reports : s.reports = order.map (reportOf strerror past.chunks past.codes)
  numbers : ↑order + (flights s).map Easy.number = Multiset.range s.sent
  done : ∀ p ∈ s.done, past.codes p.1.number = some p.2
  running : ∀ e ∈ s.running, past.codes e.number = none
  reported : ∀ n ∈ order, past.codes n ≠ none
  fresh : ∀ n, s.sent ≤ n → past.chunks n = [] ∧ past.codes n = none
  watched : ∀ k, k ∈ s.sockets.map Prod.fst ↔ past.watch k ≠ 0

section Steps

variable {A : Allocator Block} {strerror : Nat → List UInt8} {F : Multiset (Addr × Block)} {past : Past} {order : List Nat}
variable {s : State}

theorem onMem_ok {α : Type} {S : Multiset (Addr × Block)} {x : HeapM Block α} {Q : α → Mem Block → Prop}
    (h : Spec (Holds S) x Q (fun _ => False)) (hs : Holds S s.mem) :
    ∃ v m, onMem s x = .ok (v, { s with mem := m }) ∧ Q v m := by
  obtain ⟨v, m, hx, hq⟩ := (h s.mem hs).exists_ok
  refine ⟨v, m, ?_, hq⟩
  rw [onMem, hx]
  rfl

theorem flights_addHandle (s : State) (resp : Addr) : flights (addHandle s resp) = ⟨s.sent, resp, resp⟩ ::ₘ flights s := by
  rw [flights, flights, addHandle, ← Multiset.coe_add, Multiset.coe_singleton, ← Multiset.singleton_add]
  abel

theorem sendGet_ok (h : Inv strerror F past order s) :
    ∃ s', sendGet A s = .ok s' ∧ Inv strerror F past order s' ∧ s'.done = s.done ∧ s'.performing = s.performing := by
  have hspec : Spec (Holds (F + cells past.chunks past.watch s))
      (malloc A requestSize (fun _ => Block.request (s.reqid + 1) 0 [])) (fun resp m => resp ≠ 0 ∧
        Holds ((resp, .request (s.reqid + 1) 0 []) ::ₘ (F + cells past.chunks past.watch s)) m) (fun _ => False) := by
    rw [← bind_pure (malloc _ _ _)]
    exact spec_malloc_bind (Or.inl (by decide)) fun x _ hx => spec_pure fun m hm => ⟨hx, hm⟩
  obtain ⟨resp, m, hmalloc, hne, hm⟩ := onMem_ok (s := { s with reqid := s.reqid + 1 }) hspec h.holds
  have hid : s.reqid + 1 = UInt64.ofNat (s.sent + 1) := by
    rw [h.reqid, UInt64.ofNat_add]
    rfl
  obtain ⟨hchunks, hcodes⟩ := h.fresh s.sent (Nat.le_refl _)
  have hflights : flights (addHandle { s with reqid := s.reqid + 1, mem := m } resp) = ⟨s.sent, resp, resp⟩ ::ₘ flights s :=
    flights_addHandle _ _
  have hcells : cells past.chunks past.watch (addHandle { s with reqid := s.reqid + 1, mem := m } resp) =
      (resp, .request (s.reqid + 1) 0 []) ::ₘ cells past.chunks past.watch s := by
    rw [cells, hflights, Multiset.map_cons, Multiset.cons_add, requestCell, hchunks, hid]
    rfl
  refine ⟨addHandle { s with reqid := s.reqid + 1, mem := m } resp, ?_,
    ⟨?_, hid, ?_, h.sockets, h.reports, ?_, h.done, ?_, h.reported, ?_, h.watched⟩, rfl, rfl⟩
  · rw [sendGet, hmalloc]
    rfl
  · rw [hcells, Multiset.add_cons]
    exact hm
  · intro e he
    rcases Multiset.mem_cons.mp (hflights ▸ he) with rfl | he
    · exact ⟨rfl, hne⟩
    · exact h.easies e he
  · rw [hflights, Multiset.map_cons, Multiset.add_cons, h.numbers]
    exact (Multiset.range_succ _).symm
  · intro e he
    rcases List.mem_append.mp he with he | he
    · exact h.running e he
    · rw [List.mem_singleton.mp he]
      exact hcodes
  · exact fun n hn => h.fresh n (Nat.le_of_succ_le hn)

theorem sendGets_ok (n : Nat) (h : Inv strerror F past order s) :
    ∃ s', sendGets A s n = .ok s' ∧ Inv strerror F past order s' ∧ s'.done = s.done ∧ s'.performing = s.performing := by
  induction n generalizing s with
  | zero => exact ⟨s, rfl, h, rfl, rfl⟩
  | succ n ih =>
      obtain ⟨s₁, h₁, hinv, hdone, hperf⟩ := sendGet_ok (A := A) h
      obtain ⟨s₂, h₂, hinv₂, hdone₂, hperf₂⟩ := ih hinv
      refine ⟨s₂, ?_, hinv₂, hdone₂.trans hdone, hperf₂.trans hperf⟩
      rw [sendGets, h₁]
      exact h₂

/-- A message has been taken off the queue: the transfer is reported, and its memory is
freed after the callback has returned. -/
theorem deliver_ok {e : Easy} {rc : Nat} {rest : List (Easy × Nat)} (sends : Nat)
    (h : Inv strerror 0 past order { s with done := (e, rc) :: rest }) :
    ∃ s', deliver A strerror { s with done := rest } e rc sends = .ok s' ∧
      Inv strerror 0 past (order ++ [e.number]) s' ∧ s'.done = rest ∧ s'.performing = s.performing := by
  have hflights : flights { s with done := (e, rc) :: rest } = e ::ₘ flights { s with done := rest } := by
    simp only [flights, List.map_cons, ← Multiset.cons_coe, Multiset.add_cons]
  have hmem : e ∈ flights { s with done := (e, rc) :: rest } := hflights ▸ Multiset.mem_cons_self _ _
  have hne : e.priv ≠ 0 := (h.easies e hmem).2
  have hcode : past.codes e.number = some rc := h.done (e, rc) (List.mem_cons_self)
  have hcells : 0 + cells past.chunks past.watch { s with done := (e, rc) :: rest } =
      requestCell past.chunks e ::ₘ cells past.chunks past.watch { s with done := rest } := by
    rw [cells, hflights, Multiset.map_cons, Multiset.cons_add, zero_add]
    rfl
  have hreport : (⟨rc, if rc ≠ 0 then strerror rc else past.chunks e.number, UInt64.ofNat (e.number + 1)⟩ : Report) =
      reportOf strerror past.chunks past.codes e.number := by
    rw [reportOf, hcode]
    rfl
  have htake : Spec (Holds (requestCell past.chunks e ::ₘ cells past.chunks past.watch { s with done := rest }))
      (takeResponse strerror e.priv rc) (fun report m => report = reportOf strerror past.chunks past.codes e.number ∧
        ∃ b, Holds ((e.priv, b) ::ₘ cells past.chunks past.watch { s with done := rest }) m) (fun _ => False) := by
    rw [takeResponse]
    refine spec_assert_bind hne (spec_loadAs_bind (Multiset.mem_cons_self _ _) rfl ?_)
    exact spec_store_bind (spec_pure fun m hm => ⟨hreport, _, hm⟩)
  have hstart := h.holds
  rw [hcells] at hstart
  obtain ⟨report, m, hexec, hreport', b, hm⟩ := onMem_ok (s := { s with done := rest }) htake hstart
  -- the callback runs while the memory of the transfer is still there
  have hinv : Inv strerror {(e.priv, b)} past (order ++ [e.number])
      { s with done := rest, mem := m, reports := s.reports ++ [report] } := by
    refine ⟨hm, h.reqid, fun x hx => ?_, h.sockets, ?_, ?_, fun p hp => ?_, h.running, ?_, h.fresh, h.watched⟩
    · exact h.easies x (hflights ▸ Multiset.mem_cons_of_mem hx)
    · rw [List.map_append, hreport']
      exact congrArg (· ++ _) h.reports
    · have hnumbers := h.numbers
      rw [hflights, Multiset.map_cons, Multiset.add_cons] at hnumbers
      rw [← Multiset.coe_add, Multiset.coe_singleton, add_assoc, Multiset.singleton_add, Multiset.add_cons]
      exact hnumbers
    · exact h.done p (List.mem_cons_of_mem _ hp)
    · intro n hn
      rcases List.mem_append.mp hn with hn | hn
      · exact h.reported n hn
      · rw [List.mem_singleton.mp hn, hcode]
        exact Option.some_ne_none rc
  obtain ⟨s₁, hsend, hinv₁, hdone₁, hperf₁⟩ := sendGets_ok (A := A) sends hinv
  have hfree : Spec (Holds ({(e.priv, b)} + cells past.chunks past.watch s₁)) (free e.priv)
      (fun _ m => Holds (0 + cells past.chunks past.watch s₁) m) (fun _ => False) := by
    rw [Multiset.singleton_add, zero_add, ← bind_pure (free _)]
    exact spec_free_bind (spec_pure fun _ hm => hm)
  obtain ⟨_, m', hexec', hm'⟩ := onMem_ok hfree hinv₁.holds
  refine ⟨{ s₁ with mem := m' }, ?_, ⟨hm', hinv₁.reqid, hinv₁.easies, hinv₁.sockets, hinv₁.reports, hinv₁.numbers,
    hinv₁.done, hinv₁.running, hinv₁.reported, hinv₁.fresh, hinv₁.watched⟩, hdone₁, hperf₁⟩
  rw [deliver, hexec]
  change (sendGets A _ sends >>= _) = _
  rw [hsend]
  change (onMem s₁ (free e.priv) >>= _) = _
  rw [hexec']
  rfl

theorem checkMultiInfo_ok (msgs : List (Easy × Nat)) (sends : List Nat) (h : Inv strerror 0 past order { s with done := msgs }) :
    ∃ s' order', checkMultiInfo A strerror msgs sends { s with done := msgs } = .ok s' ∧
      Inv strerror 0 past (order ++ order') s' ∧ s'.done = [] ∧ s'.performing = s.performing := by
  induction msgs generalizing s order sends with
  | nil => exact ⟨{ s with done := [] }, [], rfl, by rwa [List.append_nil], rfl, rfl⟩
  | cons msg rest ih =>
      obtain ⟨e, rc⟩ := msg
      obtain ⟨s₁, h₁, hinv₁, hdone₁, hperf₁⟩ := deliver_ok (A := A) (sends.headD 0) h
      obtain ⟨s₂, order', h₂, hinv₂, hdone₂, hperf₂⟩ := ih sends.tail (hdone₁ ▸ hinv₁ : Inv strerror 0 past (order ++ [e.number]) { s₁ with done := rest })
      refine ⟨s₂, e.number :: order', ?_, ?_, hdone₂, hperf₂.trans hperf₁⟩
      · rw [checkMultiInfo]
        change (deliver A strerror { s with done := rest } e rc (sends.headD 0) >>= _) = _
        rw [h₁]
        change checkMultiInfo A strerror rest sends.tail s₁ = _
        rw [← h₂, ← hdone₁]
      · rwa [List.append_assoc] at hinv₂

/-- A running transfer is told from all others by its number. -/
theorem Inv.flights_running (h : Inv strerror F past order s) {e : Easy} (he : e ∈ s.running) :
    ∃ R, flights s = e ::ₘ R ∧ R = ↑(s.running.erase e) + ↑(s.done.map Prod.fst) ∧ (∀ x ∈ R, x.number ≠ e.number) ∧
      ∀ n ∈ order, n ≠ e.number := by
  have hsplit : flights s = e ::ₘ (↑(s.running.erase e) + ↑(s.done.map Prod.fst)) := by
    rw [flights, ← Multiset.cons_add, Multiset.cons_coe]
    exact congrArg (· + _) (Multiset.coe_eq_coe.mpr (List.perm_cons_erase he))
  have hnodup : (↑order + (flights s).map Easy.number).Nodup := h.numbers ▸ Multiset.nodup_range _
  rw [hsplit, Multiset.map_cons, Multiset.add_cons] at hnodup
  have hnot := (Multiset.nodup_cons.mp hnodup).1
  refine ⟨_, hsplit, rfl, fun x hx heq => hnot ?_, fun n hn heq => hnot ?_⟩
  · exact Multiset.mem_add.mpr (.inr (heq ▸ Multiset.mem_map_of_mem Easy.number hx))
  · exact Multiset.mem_add.mpr (.inl (heq ▸ hn))

theorem Inv.number_lt (h : Inv strerror F past order s) {e : Easy} (he : e ∈ flights s) : e.number < s.sent := by
  have hin : e.number ∈ ↑order + (flights s).map Easy.number :=
    Multiset.mem_add.mpr (.inr (Multiset.mem_map_of_mem _ he))
  exact Multiset.mem_range.mp (h.numbers ▸ hin)

end Steps

/-- What an event adds to the past. -/
def Past.after (past : Past) : Event → Past
  | .write easy buf => { past with chunks := Function.update past.chunks easy.number (past.chunks easy.number ++ buf) }
  | .finish easy rc => { past with codes := Function.update past.codes easy.number (some rc) }
  | .socket sockfd action => { past with watch := Function.update past.watch sockfd action.events }
  | _ => past

def Past.start : Past := ⟨fun _ => [], fun _ => none, fun _ => 0⟩

section Events

variable {A : Allocator Block} {strerror : Nat → List UInt8} {past : Past} {order : List Nat} {s : State}

theorem reportOf_congr {chunks chunks' : Nat → List UInt8} {codes codes' : Nat → Option Nat} {n : Nat}
    (h : chunks n = chunks' n) (h' : codes n = codes' n) : reportOf strerror chunks codes n = reportOf strerror chunks' codes' n := by
  rw [reportOf, reportOf, h, h']

theorem write_ok {e : Easy} (buf : List UInt8) (h : Inv strerror 0 past order s) (he : e ∈ s.running) :
    ∃ s', Event.exec A strerror s (.write e buf) = .ok s' ∧ Inv strerror 0 (past.after (.write e buf)) order s' ∧
      s'.done = s.done ∧ s'.performing = s.performing := by
  obtain ⟨R, hflights, -, hR, horder⟩ := h.flights_running he
  have hmem : e ∈ flights s := hflights ▸ Multiset.mem_cons_self _ _
  obtain ⟨hdata, hne⟩ := h.easies e hmem
  have hothers : ∀ n, n ≠ e.number → (past.after (.write e buf)).chunks n = past.chunks n :=
    fun n hn => Function.update_of_ne hn _ _
  have hself : (past.after (.write e buf)).chunks e.number = past.chunks e.number ++ buf := Function.update_self _ _ _
  -- only the cell of the transfer itself changes
  have hcells : ∀ m : Mem Block, cells (past.after (.write e buf)).chunks past.watch { s with mem := m } =
      (e.priv, .request (UInt64.ofNat (e.number + 1)) 0 (past.chunks e.number ++ buf)) ::ₘ
        (R.map (requestCell past.chunks) + polled past.watch s) := by
    intro m
    have hrest : R.map (requestCell (past.after (.write e buf)).chunks) = R.map (requestCell past.chunks) :=
      Multiset.map_congr rfl fun x hx => by rw [requestCell, requestCell, hothers x.number (hR x hx)]
    rw [cells, show flights { s with mem := m } = e ::ₘ R from hflights, Multiset.map_cons, Multiset.cons_add, hrest,
      requestCell, hself]
    rfl
  have hspec : Spec (Holds (requestCell past.chunks e ::ₘ (R.map (requestCell past.chunks) + polled past.watch s)))
      (callbackGetHead buf e.writeData) (fun _ m => Holds (0 + cells (past.after (.write e buf)).chunks past.watch
        { s with mem := m }) m) (fun _ => False) := by
    rw [callbackGetHead, hdata]
    simp only [zero_add, hcells]
    refine spec_ite (fun _ => ?_) (fun hempty => spec_pure fun m hm => ?_)
    · exact spec_assert_bind hne (spec_loadAs_bind (Multiset.mem_cons_self _ _) rfl (spec_store_bind (spec_pure fun _ hm => hm)))
    · rw [List.length_eq_zero_iff.mp (Nat.eq_zero_of_not_pos hempty), List.append_nil]
      exact hm
  have hstart := h.holds
  rw [zero_add, cells, hflights, Multiset.map_cons, Multiset.cons_add] at hstart
  obtain ⟨v, m, hexec, hm⟩ := onMem_ok hspec hstart
  refine ⟨{ s with mem := m }, ?_, ⟨hm, h.reqid, h.easies, h.sockets, ?_, h.numbers, h.done, h.running, h.reported, ?_,
    h.watched⟩, rfl, rfl⟩
  · rw [Event.exec, hexec]
    rfl
  · refine h.reports.trans (List.map_congr_left fun n hn => ?_)
    exact reportOf_congr (hothers n (horder n hn)).symm rfl
  · intro n hn
    have hne : n ≠ e.number := Nat.ne_of_gt (Nat.lt_of_lt_of_le (h.number_lt hmem) hn)
    exact ⟨(hothers n hne).trans (h.fresh n hn).1, (h.fresh n hn).2⟩

theorem finish_ok {e : Easy} (rc : Nat) (h : Inv strerror 0 past order s) (he : e ∈ s.running) :
    ∃ s', Event.exec A strerror s (.finish e rc) = .ok s' ∧ Inv strerror 0 (past.after (.finish e rc)) order s' ∧
      s'.performing = s.performing := by
  obtain ⟨R, hflights, hR', hR, horder⟩ := h.flights_running he
  have hothers : ∀ n, n ≠ e.number → (past.after (.finish e rc)).codes n = past.codes n :=
    fun n hn => Function.update_of_ne hn _ _
  have hself : (past.after (.finish e rc)).codes e.number = some rc := Function.update_self _ _ _
  have hsame : flights { s with running := s.running.erase e, done := s.done ++ [(e, rc)] } = flights s := by
    rw [hflights, hR', flights, List.map_append, ← Multiset.coe_add, ← add_assoc, ← Multiset.singleton_add, add_comm]
    rfl
  have hmem : e ∈ flights s := hflights ▸ Multiset.mem_cons_self _ _
  refine ⟨_, rfl, ⟨?_, h.reqid, fun x hx => h.easies x (hsame ▸ hx), h.sockets, ?_, ?_, ?_, ?_, ?_, ?_, h.watched⟩, rfl⟩
  · rw [cells, hsame]
    exact h.holds
  · refine h.reports.trans (List.map_congr_left fun n hn => ?_)
    exact reportOf_congr rfl (hothers n (horder n hn)).symm
  · rw [hsame]
    exact h.numbers
  · intro p hp
    rcases List.mem_append.mp hp with hp | hp
    · have hin : p.1 ∈ R := hR' ▸ Multiset.mem_add.mpr (.inr (List.mem_map_of_mem hp))
      exact (hothers p.1.number (hR p.1 hin)).trans (h.done p hp)
    · rw [List.mem_singleton.mp hp]
      exact hself
  · intro x hx
    have hin : x ∈ R := hR' ▸ Multiset.mem_add.mpr (.inl hx)
    exact (hothers x.number (hR x hin)).trans (h.running x (List.mem_of_mem_erase hx))
  · intro n hn
    rw [hothers n (horder n hn)]
    exact h.reported n hn
  · intro n hn
    rw [hothers n (Nat.ne_of_gt (Nat.lt_of_lt_of_le (h.number_lt hmem) hn))]
    exact h.fresh n hn

theorem enter_ok {trigger : Trigger} (h : Inv strerror 0 past order s) (he : Enabled s (.enter trigger)) :
    ∃ s', Event.exec A strerror s (.enter trigger) = .ok s' ∧ Inv strerror 0 past order s' ∧ s'.performing = true := by
  cases trigger with
  | timer =>
      exact ⟨_, rfl, ⟨h.holds, h.reqid, h.easies, h.sockets, h.reports, h.numbers, h.done, h.running, h.reported, h.fresh,
        h.watched⟩, rfl⟩
  | poll context =>
      obtain ⟨-, sockfd, hmem⟩ := he
      have hin : contextCell past.watch (sockfd, context) ∈ 0 + cells past.chunks past.watch s := by
        rw [zero_add, cells, polled, Multiset.mem_add, Multiset.mem_add]
        exact .inr (.inl (List.mem_map_of_mem hmem))
      have hspec : Spec (Holds (0 + cells past.chunks past.watch s)) (loadAs Block.asContext context)
          (fun _ m => Holds (0 + cells past.chunks past.watch s) m) (fun _ => False) := by
        rw [← bind_pure (loadAs _ _)]
        exact spec_loadAs_bind hin rfl (spec_pure fun _ hm => hm)
      obtain ⟨v, m, hexec, hm⟩ := onMem_ok hspec h.holds
      refine ⟨{ s with mem := m, performing := true }, ?_, ⟨hm, h.reqid, h.easies, h.sockets, h.reports, h.numbers, h.done,
        h.running, h.reported, h.fresh, h.watched⟩, rfl⟩
      rw [Event.exec, enterPerform, hexec]
      rfl

theorem closed_ok {sockfd : Nat} {context : Addr} (h : Inv strerror 0 past order s) (hmem : (sockfd, context) ∈ s.closing) :
    ∃ s', Event.exec A strerror s (.closed sockfd context) = .ok s' ∧ Inv strerror 0 past order s' ∧
      s'.done = s.done ∧ s'.performing = s.performing := by
  have hpolled : polled past.watch s = closingCell (sockfd, context) ::ₘ
      polled past.watch { s with closing := s.closing.erase (sockfd, context) } := by
    rw [polled, polled, ← Multiset.add_cons, ← Multiset.map_coe closingCell, ← Multiset.map_coe closingCell,
      ← Multiset.map_cons, Multiset.cons_coe, Multiset.coe_eq_coe.mpr (List.perm_cons_erase hmem)]
  have hspec : Spec (Holds (closingCell (sockfd, context) ::ₘ
        cells past.chunks past.watch { s with closing := s.closing.erase (sockfd, context) })) (free context)
      (fun _ m => Holds (cells past.chunks past.watch { s with closing := s.closing.erase (sockfd, context) }) m)
      (fun _ => False) := by
    rw [← bind_pure (free _)]
    exact spec_free_bind (spec_pure fun _ hm => hm)
  have hstart := h.holds
  rw [zero_add, cells, hpolled, Multiset.add_cons] at hstart
  obtain ⟨v, m, hexec, hm⟩ := onMem_ok hspec hstart
  refine ⟨{ s with mem := m, closing := s.closing.erase (sockfd, context) }, ?_, ⟨?_, h.reqid, h.easies, h.sockets, h.reports,
    h.numbers, h.done, h.running, h.reported, h.fresh, h.watched⟩, rfl, rfl⟩
  · rw [Event.exec, hexec]
    rfl
  · rw [zero_add]
    exact hm

end Events

end StudyNotes.Curl.Transfers
