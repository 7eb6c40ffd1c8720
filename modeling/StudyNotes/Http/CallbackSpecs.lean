import StudyNotes.Http.Callbacks
import Mathlib.Algebra.Order.Group.Multiset
import Mathlib.Tactic.Abel

namespace StudyNotes.Http.CallbackSpecs

open Heap.Program Heap.Triple Heap.Variants Systems.Transition Callbacks
open Words.CLanguage (cStr)
open Http.Program (strPortSize)
open Mail.Program (ascii)

section Rules

variable {α : Type} {S : Multiset (Addr × Block)} {a : Addr} {b : Block} {Q : α → Mem Block → Prop} {E : Fault → Prop}
variable {R : List Command → Mem Block → Prop}

/-- The fault of a text with no zero in it is left to the caller. -/
theorem spec_readString_bind (bytes : List UInt8) {f : List UInt8 → CallM α} (hb : (a, .text bytes) ∈ S)
    (hE : 0 ∉ bytes → E .outOfBounds) (h : Spec (Holds S) (f (cStr bytes)) Q E) :
    Spec (Holds S) (readString a >>= f) Q E := by
  rw [readString, bind_assoc]
  refine spec_loadAs_bind hb rfl ?_
  by_cases hz : 0 ∈ bytes
  · rw [if_pos hz]
    exact h
  · rw [if_neg hz]
    exact spec_fail (hE hz)

theorem spec_printPort_bind {port : Int} {f : Unit → CallM α}
    (hE : strPortSize ≤ (ascii (ToString.toString port)).length → E .outOfBounds) (h : Spec (Holds S) (f ()) Q E) :
    Spec (Holds S) (printPort port >>= f) Q E := by
  rw [printPort]
  by_cases hport : (ascii (ToString.toString port)).length < strPortSize
  · rw [if_pos hport]
    exact h
  · rw [if_neg hport]
    exact spec_fail (hE (Nat.le_of_not_lt hport))

theorem spec_uvClose {data : Addr} {onClose : Bool}
    (h : ∀ m, Holds ((a, .tcp data true) ::ₘ S) m → R [.close a onClose] m) :
    Spec (Holds ((a, .tcp data false) ::ₘ S)) (uvClose a onClose) R E := by
  rw [uvClose]
  refine spec_loadAs_bind (Multiset.mem_cons_self _ _) rfl ?_
  exact spec_assert_bind rfl (spec_store_bind (spec_pure h))

theorem spec_freeIfSet_bind {f : Unit → CallM α} (ha : a ≠ 0) (h : Spec (Holds S) (f ()) Q E) :
    Spec (Holds ((a, b) ::ₘ S)) (freeIfSet a >>= f) Q E := by
  rw [freeIfSet, if_pos ha]
  exact spec_free_bind h

end Rules

/-- Where the request of an object is, with the addresses of what belongs to it: the
resolver, the message, the list of addresses, the request to connect, the handle, and
the request to write. -/
inductive Stage
  | fresh
  | resolving (resolver message : Addr) (text : List UInt8)
  | connecting (res connectReq handle message : Addr) (text : List UInt8)
  | writing (res connectReq handle writeReq message : Addr) (text : List UInt8)
  | reading (res connectReq handle writeReq message : Addr)
  | closing (res connectReq handle writeReq message : Addr) (onClose : Bool)
  | ended (left : Multiset (Addr × Block))

/-- What is left of a request that has been connected and written. -/
def leftover (o res connectReq handle writeReq message : Addr) (S : Multiset (Addr × Block)) : Multiset (Addr × Block) :=
  (writeReq, .writeReq o handle message) ::ₘ (connectReq, .connectReq o handle) ::ₘ (res, .addrinfo) ::ₘ S

/-- The blocks that the constructor of an object allocates, and the others. -/
def parts (c : Call) (data : Addr) (S : Multiset (Addr × Block)) : Multiset (Addr × Block) :=
  (c.parser, .parser data) ::ₘ (c.settings, .settings) ::ₘ S

/-- The blocks of a request, and the others. -/
def Stage.cells (o : Addr) (S : Multiset (Addr × Block)) : Stage → Multiset (Addr × Block)
  | .fresh => S
  | .resolving resolver message text => (resolver, .resolver o) ::ₘ (message, .text text) ::ₘ S
  | .connecting res connectReq handle message text =>
      (connectReq, .connectReq o handle) ::ₘ (handle, .tcp 0 false) ::ₘ (message, .text text) ::ₘ (res, .addrinfo) ::ₘ S
  | .writing res connectReq handle writeReq message text =>
      (message, .text text) ::ₘ (handle, .tcp 0 false) ::ₘ leftover o res connectReq handle writeReq message S
  | .reading res connectReq handle writeReq message =>
      (handle, .tcp o false) ::ₘ leftover o res connectReq handle writeReq message S
  | .closing res connectReq handle writeReq message _ =>
      (handle, .tcp o true) ::ₘ leftover o res connectReq handle writeReq message S
  | .ended left => left + S

def Stage.job : Stage → Option Job
  | .fresh | .ended _ => none
  | .resolving resolver _ _ => some (.resolve resolver)
  | .connecting _ connectReq _ _ _ => some (.connect connectReq)
  | .writing _ _ _ writeReq _ _ => some (.write writeReq)
  | .reading _ _ handle _ _ => some (.read handle)
  | .closing _ _ handle _ _ onClose => some (.close handle onClose)

/-- The fields of an object at a stage of its request. A response that has been
completed has led to the close without a callback. -/
def Stage.Fits (o : Addr) (c : Call) : Stage → Prop
  | .fresh => c.messageToSend = 0 ∧ c.handleToClose = 0 ∧ c.completed = []
  | .resolving _ message text =>
      message ≠ 0 ∧ c.messageToSend = message ∧ 0 ∈ text ∧ c.handleToClose = 0 ∧ c.completed = []
  | .connecting _ _ handle message text | .writing _ _ handle _ message text =>
      handle ≠ 0 ∧ message ≠ 0 ∧ c.messageToSend = message ∧ 0 ∈ text ∧ c.handleToClose = 0 ∧ c.completed = []
  | .reading _ _ handle _ _ =>
      handle ≠ 0 ∧ c.messageToSend ≠ 0 ∧ (c.handleToClose = 0 ∨ c.handleToClose = handle) ∧ c.completed = []
  | .closing _ _ _ _ _ onClose => c.messageToSend ≠ 0 ∧ (c.completed ≠ [] → onClose = false)
  | .ended left => c.messageToSend ≠ 0 ∧ (c.completed ≠ [] → ∃ res connectReq handle writeReq message,
      left = (handle, .tcp o true) ::ₘ leftover o res connectReq handle writeReq message 0)

def Stage.jobs (o : Addr) (st : Stage) : Multiset (Job × Addr) :=
  match st.job with
  | none => 0
  | some job => {(job, o)}

def bodyOf : Parsed → List UInt8
  | .body p => p
  | .messageComplete _ => []

def statusOf : Parsed → List Nat
  | .body _ => []
  | .messageComplete statusCode => [statusCode]

/-- What the parser finds in an event. -/
def parsedIn : Event → List Parsed
  | .readable _ (.received _ _ parsed) => parsed
  | _ => []

/-- The text of a port does not fit into str_port, or the bytes that were received have no zero among them. -/
def Overruns (c : Call) : Event → Prop
  | .send (some (port, _)) _ => strPortSize ≤ (ascii (ToString.toString port)).length
  | .readable _ (.received suggestedSize bytes _) => 0 ∉ bytes.take (bufferSize c suggestedSize)
  | _ => False

/-- The fields that are never written after the constructor. -/
structure Same (c c' : Call) : Prop where
  chunkSize : c'.chunkSize = c.chunkSize
  parser : c'.parser = c.parser
  settings : c'.settings = c.settings

/-- After an event the request of the object is at another stage, and the loop has the
job of that stage instead of the old one. -/
def After (o : Addr) (e : Event) (c : Call) (st : Stage) (S : Multiset (Addr × Block)) (commands : List Command)
    (m : Mem Block) : Prop :=
  ∃ (c' : Call) (st' : Stage), Holds ((o, .call c') ::ₘ st'.cells o S) m ∧ st'.Fits o c' ∧ Same c c' ∧
    (∀ J, (∀ p ∈ J, p.2 ≠ o) → commands.foldl (addCommand o) (takeJob (st.jobs o + J) o e.job) = st'.jobs o + J) ∧
    c'.responseBuffer = c.responseBuffer ++ (parsedIn e).flatMap bodyOf ∧
    c'.completed = c.completed ++ (parsedIn e).flatMap statusOf

def Tolerated (c : Call) (e : Event) (f : Fault) : Prop := f = .outOfBounds ∧ Overruns c e

section Events

variable {A : Allocator Block} {o : Addr} {c : Call} {S : Multiset (Addr × Block)}

/-- An event in which nothing is parsed. -/
theorem after_unparsed {e : Event} {st t : Stage} {d : Call} {commands : List Command} {m : Mem Block}
    (he : parsedIn e = []) (hm : Holds ((o, .call d) ::ₘ t.cells o S) m) (hfits : t.Fits o d)
    (hsame : Same c d ∧ d.responseBuffer = c.responseBuffer ∧ d.completed = c.completed)
    (hjobs : ∀ J, (∀ p ∈ J, p.2 ≠ o) → commands.foldl (addCommand o) (takeJob (st.jobs o + J) o e.job) = t.jobs o + J) :
    After o e c st S commands m := by
  refine ⟨d, t, hm, hfits, hsame.1, hjobs, ?_, ?_⟩
  · rw [he, hsame.2.1, List.flatMap_nil, List.append_nil]
  · rw [he, hsame.2.2, List.flatMap_nil, List.append_nil]

theorem takeJob_self {st : Stage} {job : Job} (hst : st.job = some job) (hread : ∀ handle, job ≠ .read handle)
    (J : Multiset (Job × Addr)) : takeJob (st.jobs o + J) o (some job) = J := by
  rw [Stage.jobs, hst]
  cases job with
  | read handle => exact absurd rfl (hread handle)
  | _ => simp [takeJob]

/-- The callback of a job starts the next one. -/
theorem jobs_started {st st' : Stage} {e : Event} {job job' : Job} (hst : st.job = some job) (he : e.job = some job)
    (hread : ∀ handle, job ≠ .read handle) (hst' : st'.job = some job') (J : Multiset (Job × Addr)) (_ : ∀ p ∈ J, p.2 ≠ o) :
    [Command.start job'].foldl (addCommand o) (takeJob (st.jobs o + J) o e.job) = st'.jobs o + J := by
  rw [he, takeJob_self hst hread, Stage.jobs, hst']
  rfl

theorem jobs_ended {st st' : Stage} {e : Event} {job : Job} (hst : st.job = some job) (he : e.job = some job)
    (hread : ∀ handle, job ≠ .read handle) (hst' : st'.job = none) (J : Multiset (Job × Addr)) (_ : ∀ p ∈ J, p.2 ≠ o) :
    ([] : List Command).foldl (addCommand o) (takeJob (st.jobs o + J) o e.job) = st'.jobs o + J := by
  rw [he, takeJob_self hst hread, Stage.jobs, hst', zero_add]
  rfl

/-- Closing a handle ends the reading of it. -/
theorem jobs_closed {st : Stage} {e : Event} {res connectReq handle writeReq message : Addr} {onClose : Bool}
    (hst : st.job = e.job) (hjob : ∃ job, st.job = some job ∧ ∀ h, job = .read h → h = handle) (J : Multiset (Job × Addr))
    (hJ : ∀ p ∈ J, p.2 ≠ o) :
    [Command.close handle onClose].foldl (addCommand o) (takeJob (st.jobs o + J) o e.job) =
      (Stage.closing res connectReq handle writeReq message onClose).jobs o + J := by
  have hnot : (Job.read handle, o) ∉ J := fun hmem => hJ _ hmem rfl
  obtain ⟨job, hjob, hread⟩ := hjob
  have herase : (takeJob (st.jobs o + J) o e.job).erase (.read handle, o) = J := by
    rw [← hst, hjob]
    cases job with
    | read h =>
        rw [hread h rfl] at hjob ⊢
        simp [takeJob, Stage.jobs, hjob]
    | _ =>
        rw [takeJob_self hjob (by simp)]
        exact Multiset.erase_of_notMem hnot
  rw [List.foldl_cons, List.foldl_nil, addCommand, herase]
  rfl

theorem spec_httpRequestCall (chunkSize : Int) {E : Fault → Prop} :
    Spec (Holds S) (httpRequestCall A chunkSize) (fun this m => ∃ parser settings,
      Holds ((this, .call (Call.new chunkSize parser settings)) ::ₘ parts (Call.new chunkSize parser settings) 0 S) m) E := by
  refine spec_malloc_bind (Or.inl (by decide)) fun this _ _ => ?_
  refine spec_malloc_bind (Or.inl (by decide)) fun parser _ _ => ?_
  refine spec_malloc_bind (Or.inl (by decide)) fun settings _ _ => ?_
  have hcells (c : Call) : (settings, Block.settings) ::ₘ (parser, .parser 0) ::ₘ (this, .call c) ::ₘ S =
      (this, .call c) ::ₘ (parser, .parser 0) ::ₘ (settings, .settings) ::ₘ S := by
    simp only [← Multiset.singleton_add]
    abel
  rw [hcells]
  exact spec_store_bind (spec_pure fun m hm => ⟨parser, settings, hm⟩)

theorem spec_send {request : Option (Int × List UInt8)} {started : Bool} (hc : Stage.fresh.Fits o c)
    (hlen : ∀ port tmp, request = some (port, tmp) → tmp.length + 1 < 2 ^ 31) :
    Spec (Holds ((o, .call c) ::ₘ Stage.fresh.cells o S)) (send A o request started)
      (After o (.send request started) c .fresh S) (Tolerated c (.send request started)) := by
  cases request with
  | none => exact spec_pure fun m hm => after_unparsed (t := .fresh) rfl hm hc ⟨⟨rfl, rfl, rfl⟩, rfl, rfl⟩ (fun _ _ => rfl)
  | some r =>
      obtain ⟨port, tmp⟩ := r
      obtain ⟨-, hclose, hcompleted⟩ := hc
      have hsize : tmp.length + 1 ≤ maxRequest := by
        have h := hlen port tmp rfl
        rw [maxRequest]
        omega
      refine spec_malloc_bind (Or.inl hsize) fun message g hne => ?_
      have hzero : 0 ∈ cStr tmp ++ 0 :: List.replicate (tmp.length - (cStr tmp).length) g := by simp
      generalize cStr tmp ++ 0 :: List.replicate (tmp.length - (cStr tmp).length) g = text at hzero
      refine spec_loadAs_bind (b := .call c) (by simp) rfl ?_
      rw [Multiset.cons_swap]
      refine spec_store_bind ?_
      refine spec_malloc_bind (Or.inl (by decide)) fun resolver _ _ => ?_
      refine spec_printPort_bind (fun hlong => ⟨rfl, hlong⟩) (spec_pure fun m hm => ?_)
      rw [Multiset.cons_swap] at hm
      cases started with
      | true =>
          refine after_unparsed (t := .resolving resolver message text) rfl hm ?_ ⟨⟨rfl, rfl, rfl⟩, rfl, rfl⟩ (fun J _ => ?_)
          · exact ⟨hne, rfl, hzero, hclose, hcompleted⟩
          · simp [startIf, Stage.jobs, Stage.job, Event.job, takeJob, addCommand]
      | false =>
          refine after_unparsed (d := { c with messageToSend := message })
            (t := .ended ((Stage.resolving resolver message text).cells o 0)) rfl ?_
            ⟨hne, fun h => absurd hcompleted h⟩ ⟨⟨rfl, rfl, rfl⟩, rfl, rfl⟩ (fun _ _ => rfl)
          simpa [Stage.cells] using hm

theorem spec_resolved {resolver message : Addr} {text : List UInt8} {status : Int} {started : Bool}
    (hc : (Stage.resolving resolver message text).Fits o c) :
    Spec (Holds ((o, .call c) ::ₘ (Stage.resolving resolver message text).cells o S))
      (Event.exec A o (.resolved resolver status started))
      (After o (.resolved resolver status started) c (.resolving resolver message text) S)
      (Tolerated c (.resolved resolver status started)) := by
  obtain ⟨hne, hmsg, htext, hclose, hcompleted⟩ := hc
  have hover : c.messageToSend ≠ 0 ∧ ∀ P : Prop, c.completed ≠ [] → P := ⟨hmsg ▸ hne, fun _ h => absurd hcompleted h⟩
  rw [Event.exec]
  split_ifs with hstatus
  · rw [onDnsResolved, if_pos hstatus]
    refine spec_pure fun m hm => ?_
    refine after_unparsed (t := .ended ((Stage.resolving resolver message text).cells o 0)) rfl ?_
      ⟨hover.1, hover.2 _⟩ ⟨⟨rfl, rfl, rfl⟩, rfl, rfl⟩ (jobs_ended rfl rfl (fun _ => by nofun) rfl)
    simpa [Stage.cells] using hm
  · refine spec_malloc_bind (Or.inl (by decide)) fun res _ _ => ?_
    rw [onDnsResolved, if_neg hstatus]
    refine spec_loadAs_bind (b := .addrinfo) (by simp) rfl ?_
    refine spec_loadAs_bind (b := .resolver o) (by simp [Stage.cells]) rfl ?_
    rw [sendRequestToIp4, bind_assoc]
    refine spec_malloc_bind (Or.inl (by decide)) fun handle _ hhandle => ?_
    rw [bind_assoc]
    refine spec_malloc_bind (Or.inl (by decide)) fun connectReq _ _ => ?_
    have hcells : (connectReq, Block.connectReq o handle) ::ₘ (handle, .tcp 0 false) ::ₘ (res, .addrinfo) ::ₘ (o, .call c) ::ₘ
        (Stage.resolving resolver message text).cells o S = (resolver, .resolver o) ::ₘ (o, .call c) ::ₘ
          (Stage.connecting res connectReq handle message text).cells o S := by
      simp only [Stage.cells, ← Multiset.singleton_add]
      abel
    rw [pure_bind, hcells]
    refine spec_free_bind (spec_pure fun m hm => ?_)
    cases started with
    | true =>
        exact after_unparsed (t := .connecting res connectReq handle message text) rfl hm
          ⟨hhandle, hne, hmsg, htext, hclose, hcompleted⟩ ⟨⟨rfl, rfl, rfl⟩, rfl, rfl⟩ (jobs_started rfl rfl (fun _ => by nofun) rfl)
    | false =>
        refine after_unparsed (t := .ended ((Stage.connecting res connectReq handle message text).cells o 0)) rfl ?_
          ⟨hover.1, hover.2 _⟩ ⟨⟨rfl, rfl, rfl⟩, rfl, rfl⟩ (jobs_ended rfl rfl (fun _ => by nofun) rfl)
        simpa [Stage.cells] using hm

theorem spec_connected {res connectReq handle message : Addr} {text : List UInt8} {status : Int} {started : Bool}
    (hc : (Stage.connecting res connectReq handle message text).Fits o c) :
    Spec (Holds ((o, .call c) ::ₘ (Stage.connecting res connectReq handle message text).cells o S))
      (onConnect A connectReq status started)
      (After o (.connected connectReq status started) c (.connecting res connectReq handle message text) S)
      (Tolerated c (.connected connectReq status started)) := by
  obtain ⟨hhandle, hne, rfl, htext, hclose, hcompleted⟩ := hc
  have hover : c.messageToSend ≠ 0 ∧ ∀ P : Prop, c.completed ≠ [] → P := ⟨hne, fun _ h => absurd hcompleted h⟩
  refine spec_loadAs_bind (b := .connectReq o handle) (by simp [Stage.cells]) rfl ?_
  refine spec_ite (fun _ => spec_pure fun m hm => ?_) (fun _ => ?_)
  · refine after_unparsed (t := .ended ((Stage.connecting res connectReq handle c.messageToSend text).cells o 0)) rfl ?_
      ⟨hover.1, hover.2 _⟩ ⟨⟨rfl, rfl, rfl⟩, rfl, rfl⟩ (jobs_ended rfl rfl (fun _ => by nofun) rfl)
    simpa [Stage.cells] using hm
  · refine spec_loadAs_bind (b := .call c) (by simp) rfl ?_
    refine spec_readString_bind text (by simp [Stage.cells]) (fun h => absurd htext h) ?_
    refine spec_malloc_bind (Or.inl (by decide)) fun writeReq _ _ => spec_pure fun m hm => ?_
    have hcells : (writeReq, Block.writeReq o handle c.messageToSend) ::ₘ (o, .call c) ::ₘ
        (Stage.connecting res connectReq handle c.messageToSend text).cells o S = (o, .call c) ::ₘ
          (Stage.writing res connectReq handle writeReq c.messageToSend text).cells o S := by
      simp only [Stage.cells, leftover, ← Multiset.singleton_add]
      abel
    rw [hcells] at hm
    cases started with
    | true =>
        exact after_unparsed (t := .writing res connectReq handle writeReq c.messageToSend text) rfl hm
          ⟨hhandle, hne, rfl, htext, hclose, hcompleted⟩ ⟨⟨rfl, rfl, rfl⟩, rfl, rfl⟩ (jobs_started rfl rfl (fun _ => by nofun) rfl)
    | false =>
        refine after_unparsed (t := .ended ((Stage.writing res connectReq handle writeReq c.messageToSend text).cells o 0))
          rfl ?_ ⟨hover.1, hover.2 _⟩ ⟨⟨rfl, rfl, rfl⟩, rfl, rfl⟩ (jobs_ended rfl rfl (fun _ => by nofun) rfl)
        simpa [Stage.cells, leftover] using hm

theorem spec_written {res connectReq handle writeReq message : Addr} {text : List UInt8} {status : Int} {reading : Bool}
    (hc : (Stage.writing res connectReq handle writeReq message text).Fits o c) :
    Spec (Holds ((o, .call c) ::ₘ (Stage.writing res connectReq handle writeReq message text).cells o S))
      (afterWrite writeReq status reading)
      (After o (.written writeReq status reading) c (.writing res connectReq handle writeReq message text) S)
      (Tolerated c (.written writeReq status reading)) := by
  obtain ⟨hhandle, hne, hmsg, htext, hclose, hcompleted⟩ := hc
  have hover : c.messageToSend ≠ 0 ∧ ∀ P : Prop, c.completed ≠ [] → P := ⟨hmsg ▸ hne, fun _ h => absurd hcompleted h⟩
  refine spec_loadAs_bind (b := .writeReq o handle message) (by simp [Stage.cells, leftover]) rfl ?_
  dsimp only [Stage.cells]
  rw [Multiset.cons_swap]
  refine spec_free_bind (spec_loadAs_bind (b := .tcp 0 false) (by simp) rfl ?_)
  dsimp only
  rw [Multiset.cons_swap]
  refine spec_store_bind ?_
  refine spec_ite (fun _ => spec_pure fun m hm => ?_) (fun _ => ?_)
  · rw [Multiset.cons_swap] at hm
    cases reading with
    | true =>
        exact after_unparsed (t := .reading res connectReq handle writeReq message) rfl hm
          ⟨hhandle, hover.1, Or.inl hclose, hcompleted⟩ ⟨⟨rfl, rfl, rfl⟩, rfl, rfl⟩ (jobs_started rfl rfl (fun _ => by nofun) rfl)
    | false =>
        refine after_unparsed (t := .ended ((Stage.reading res connectReq handle writeReq message).cells o 0)) rfl ?_
          ⟨hover.1, hover.2 _⟩ ⟨⟨rfl, rfl, rfl⟩, rfl, rfl⟩ (jobs_ended rfl rfl (fun _ => by nofun) rfl)
        simpa [Stage.cells, leftover] using hm
  · rw [if_pos rfl]
    refine spec_uvClose fun m hm => ?_
    rw [Multiset.cons_swap] at hm
    exact after_unparsed (t := .closing res connectReq handle writeReq message true) rfl hm
      ⟨hover.1, hover.2 _⟩ ⟨⟨rfl, rfl, rfl⟩, rfl, rfl⟩ (jobs_closed rfl ⟨_, rfl, by nofun⟩)

theorem spec_closed {res connectReq handle writeReq message : Addr} {onClose : Bool}
    (hc : (Stage.closing res connectReq handle writeReq message onClose).Fits o c) :
    Spec (Holds ((o, .call c) ::ₘ (Stage.closing res connectReq handle writeReq message onClose).cells o S))
      (Event.exec A o (.closed handle onClose))
      (After o (.closed handle onClose) c (.closing res connectReq handle writeReq message onClose) S)
      (Tolerated c (.closed handle onClose)) := by
  obtain ⟨hsent, hcompleted⟩ := hc
  cases onClose with
  | true =>
      rw [Event.exec, Stage.cells, Multiset.cons_swap]
      refine spec_free_bind (spec_pure fun m hm => ?_)
      refine after_unparsed (t := .ended (leftover o res connectReq handle writeReq message 0)) rfl ?_
        ⟨hsent, fun h => absurd (hcompleted h) Bool.noConfusion⟩ ⟨⟨rfl, rfl, rfl⟩, rfl, rfl⟩ (jobs_ended rfl rfl (fun _ => by nofun) rfl)
      simpa [Stage.cells, leftover] using hm
  | false =>
      refine spec_pure fun m hm => ?_
      refine after_unparsed (t := .ended ((handle, .tcp o true) ::ₘ leftover o res connectReq handle writeReq message 0))
        rfl ?_ ⟨hsent, fun _ => ⟨res, connectReq, handle, writeReq, message, rfl⟩⟩ ⟨⟨rfl, rfl, rfl⟩, rfl, rfl⟩
        (jobs_ended rfl rfl (fun _ => by nofun) rfl)
      simpa [Stage.cells, leftover] using hm

end Events

section Reading

variable {A : Allocator Block} {o handle : Addr} {c : Call} {T : Multiset (Addr × Block)} {E : Fault → Prop}

/-- The response has been completed. -/
def finished (parsed : List Parsed) : Bool := !(parsed.flatMap statusOf).isEmpty

/-- The object after some callbacks of the parser. -/
structure Digested (c : Call) (handle : Addr) (parsed : List Parsed) (c' : Call) : Prop where
  same : Same c c'
  messageToSend : c'.messageToSend = c.messageToSend
  responseBuffer : c'.responseBuffer = c.responseBuffer ++ parsed.flatMap bodyOf
  completed : c'.completed = c.completed ++ parsed.flatMap statusOf
  handleToClose : c'.handleToClose = if finished parsed then 0 else handle

/-- The handle is closed by the first complete message, and only by it. -/
def Parsing (o handle : Addr) (c : Call) (T : Multiset (Addr × Block)) (parsed : List Parsed) (commands : List Command)
    (m : Mem Block) : Prop :=
  ∃ c', Digested c handle parsed c' ∧ commands = (if finished parsed then [.close handle false] else []) ∧
    Holds ((o, .call c') ::ₘ (handle, .tcp o (finished parsed)) ::ₘ T) m

theorem finished_body (pre : List Parsed) (p : List UInt8) : finished (pre ++ [.body p]) = finished pre := by
  simp [finished, statusOf]

theorem finished_complete (pre : List Parsed) (statusCode : Nat) : finished (pre ++ [.messageComplete statusCode]) = true := by
  simp [finished, statusOf]

theorem Digested.body {pre : List Parsed} {c' : Call} (h : Digested c handle pre c') (p : List UInt8) :
    Digested c handle (pre ++ [.body p]) { c' with responseBuffer := c'.responseBuffer ++ p } := by
  refine ⟨⟨h.same.chunkSize, h.same.parser, h.same.settings⟩, h.messageToSend, ?_, ?_, ?_⟩
  · simp [h.responseBuffer, bodyOf]
  · simp [h.completed, statusOf]
  · rw [finished_body]
    exact h.handleToClose

theorem Digested.complete {pre : List Parsed} {c' : Call} (h : Digested c handle pre c') (statusCode : Nat) :
    Digested c handle (pre ++ [.messageComplete statusCode])
      { c' with handleToClose := 0, completed := c'.completed ++ [statusCode] } := by
  refine ⟨⟨h.same.chunkSize, h.same.parser, h.same.settings⟩, h.messageToSend, ?_, ?_, ?_⟩
  · simp [h.responseBuffer, bodyOf]
  · simp [h.completed, statusOf]
  · rw [finished_complete, if_pos rfl]

theorem spec_body (hparser : (c.parser, .parser o) ∈ T) (pre : List Parsed) (p : List UInt8) (commands : List Command) :
    Spec (Parsing o handle c T pre commands) (parserCallback c.parser (.body p) >>= fun more => pure (commands ++ more))
      (Parsing o handle c T (pre ++ [.body p])) E := by
  rintro m ⟨c', hd, rfl, hm⟩
  refine Spec.mono (P := Holds _) ?_ (fun _ hm => hm) (fun _ _ h => h) (fun _ h => h) m hm
  rw [parserCallback, onBodyCb, bind_assoc]
  refine spec_loadAs_bind (b := .parser o) (by simp [hparser]) rfl ?_
  rw [bind_assoc]
  refine spec_loadAs_bind (Multiset.mem_cons_self _ _) rfl ?_
  rw [bind_assoc]
  refine spec_store_bind (spec_pure fun m hm => ⟨_, hd.body p, ?_, ?_⟩)
  · rw [finished_body, List.append_nil]
  · rw [finished_body]
    exact hm

theorem spec_complete (hne : handle ≠ 0) (hparser : (c.parser, .parser o) ∈ T) (pre : List Parsed) (statusCode : Nat) (commands : List Command) :
    Spec (Parsing o handle c T pre commands)
      (parserCallback c.parser (.messageComplete statusCode) >>= fun more => pure (commands ++ more))
      (Parsing o handle c T (pre ++ [.messageComplete statusCode])) E := by
  rintro m ⟨c', hd, rfl, hm⟩
  have hparsing (m : Mem Block) (hm : Holds ((o, .call { c' with handleToClose := 0, completed := c'.completed ++ [statusCode] }) ::ₘ
      (handle, .tcp o true) ::ₘ T) m) :
      Parsing o handle c T (pre ++ [.messageComplete statusCode]) [.close handle false] m := by
    refine ⟨_, hd.complete statusCode, ?_, ?_⟩
    · rw [finished_complete, if_pos rfl]
    · rw [finished_complete]
      exact hm
  refine Spec.mono (P := Holds _) ?_ (fun _ hm => hm) (fun _ _ h => h) (fun _ h => h) m hm
  rw [parserCallback, onMessageCompleteCb, bind_assoc]
  refine spec_loadAs_bind (b := .parser o) (by simp [hparser]) rfl ?_
  rw [bind_assoc]
  refine spec_loadAs_bind (Multiset.mem_cons_self _ _) rfl ?_
  cases hpre : finished pre with
  | true =>
      have hzero : c'.handleToClose = 0 := by rw [hd.handleToClose, hpre, if_pos rfl]
      rw [if_neg (not_not.mpr hzero), bind_assoc]
      refine spec_store_bind (spec_pure fun m hm => hparsing m ?_)
      rwa [hzero] at hm
  | false =>
      have hhandle : c'.handleToClose = handle := by rw [hd.handleToClose, hpre, if_neg Bool.false_ne_true]
      rw [hhandle, if_pos hne, bind_assoc, Multiset.cons_swap]
      refine spec_bind (spec_uvClose (R := fun commands m => commands = [.close handle false] ∧
        Holds ((handle, .tcp o true) ::ₘ (o, .call c') ::ₘ T) m) fun m hm => ⟨rfl, hm⟩) fun commands => ?_
      rintro m ⟨rfl, hm⟩
      rw [Multiset.cons_swap] at hm
      refine Spec.mono (P := Holds _) ?_ (fun _ hm => hm) (fun _ _ h => h) (fun _ h => h) m hm
      rw [bind_assoc]
      exact spec_store_bind (spec_pure fun m hm => hparsing m hm)

theorem spec_httpParserExecute (hne : handle ≠ 0) (hc : c.handleToClose = handle) (hparser : (c.parser, .parser o) ∈ T)
    (hsettings : (c.settings, .settings) ∈ T) (parsed : List Parsed) :
    Spec (Holds ((o, .call c) ::ₘ (handle, .tcp o false) ::ₘ T)) (httpParserExecute c.parser c.settings parsed)
      (Parsing o handle c T parsed) E := by
  have hstart (m : Mem Block) (hm : Holds ((o, .call c) ::ₘ (handle, .tcp o false) ::ₘ T) m) :
      Parsing o handle c T [] [] m :=
    ⟨c, ⟨⟨rfl, rfl, rfl⟩, rfl, by simp, by simp, hc⟩, rfl, hm⟩
  refine spec_loadAs_bind (b := .settings) (by simp [hsettings]) rfl ?_
  refine Spec.mono (spec_foldlM parsed fun pre x _ commands => ?_) hstart (fun _ _ h => h) (fun _ h => h)
  cases x with
  | body p => exact spec_body hparser pre p commands
  | messageComplete statusCode => exact spec_complete hne hparser pre statusCode commands

/-- A read of the socket, up to the buffer. -/
theorem spec_allocBuffer_bind {α : Type} {f : Addr × Nat → CallM α} {Q : α → Mem Block → Prop} {suggestedSize : Nat}
    (hchunk : c.chunkSize < 2 ^ 31) (hsize : suggestedSize ≤ maxRequest)
    (h : ∀ base g, base ≠ 0 → Spec (Holds ((base, .text (List.replicate (bufferSize c suggestedSize) g)) ::ₘ
      (o, .call c) ::ₘ (handle, .tcp o false) ::ₘ T)) (f (base, bufferSize c suggestedSize)) Q E) :
    Spec (Holds ((o, .call c) ::ₘ (handle, .tcp o false) ::ₘ T)) (allocBuffer A handle suggestedSize >>= f) Q E := by
  have hsize : bufferSize c suggestedSize ≤ maxRequest := by
    rw [bufferSize]
    split_ifs
    · rw [maxRequest]
      omega
    · exact hsize
  rw [allocBuffer, bind_assoc]
  refine spec_loadAs_bind (b := .tcp o false) (by simp) rfl ?_
  rw [bind_assoc]
  refine spec_loadAs_bind (b := .call c) (by simp) rfl ?_
  rw [bind_assoc]
  exact spec_malloc_bind (Or.inl hsize) h

variable {res connectReq writeReq message : Addr} {S : Multiset (Addr × Block)}

/-- The end of a connection that the parser has not ended. -/
theorem spec_ended {e : Event} {onClose : Bool} (hc : (Stage.reading res connectReq handle writeReq message).Fits o c)
    (he : parsedIn e = []) (hjob : e.job = some (.read handle)) :
    Spec (Holds ((o, .call c) ::ₘ (Stage.reading res connectReq handle writeReq message).cells o S))
      (uvClose handle onClose) (After o e c (.reading res connectReq handle writeReq message) S) E := by
  obtain ⟨-, hsent, -, hcompleted⟩ := hc
  rw [Stage.cells, Multiset.cons_swap]
  refine spec_uvClose fun m hm => ?_
  rw [Multiset.cons_swap] at hm
  refine after_unparsed (t := .closing res connectReq handle writeReq message onClose) he hm
    ⟨hsent, fun h => absurd hcompleted h⟩ ⟨⟨rfl, rfl, rfl⟩, rfl, rfl⟩ (jobs_closed hjob.symm ⟨_, rfl, ?_⟩)
  rintro h ⟨⟩
  rfl

theorem spec_received {suggestedSize : Nat} {bytes content : List UInt8} {parsed : List Parsed} {base data : Addr}
    (hc : (Stage.reading res connectReq handle writeReq message).Fits o c) (hbase : base ≠ 0)
    (hcontent : 0 ∉ content → 0 ∉ bytes.take (bufferSize c suggestedSize)) :
    Spec (Holds ((base, .text content) ::ₘ (o, .call c) ::ₘ
        (Stage.reading res connectReq handle writeReq message).cells o (parts c data S)))
      (receiveData handle base parsed)
      (After o (.readable handle (.received suggestedSize bytes parsed)) c (.reading res connectReq handle writeReq message)
        (parts c o S))
      (Tolerated c (.readable handle (.received suggestedSize bytes parsed))) := by
  obtain ⟨hne, hsent, -, hcompleted⟩ := hc
  refine spec_loadAs_bind (b := .tcp o false) (by simp [Stage.cells]) rfl ?_
  refine spec_loadAs_bind (b := .call c) (by simp) rfl ?_
  refine spec_loadAs_bind (b := .parser data) (by simp [Stage.cells, leftover, parts]) rfl ?_
  have hfirst (data : Addr) : (base, Block.text content) ::ₘ (o, .call c) ::ₘ
      (Stage.reading res connectReq handle writeReq message).cells o (parts c data S) = (c.parser, .parser data) ::ₘ
        (o, .call c) ::ₘ (handle, .tcp o false) ::ₘ (base, .text content) ::ₘ
          leftover o res connectReq handle writeReq message ((c.settings, .settings) ::ₘ S) := by
    simp only [Stage.cells, leftover, parts, ← Multiset.singleton_add]
    abel
  rw [hfirst]
  refine spec_store_bind ?_
  rw [← hfirst, Multiset.cons_swap]
  refine spec_store_bind ?_
  dsimp only [Stage.cells]
  rw [Multiset.cons_swap (base, _)]
  refine spec_bind (spec_httpParserExecute hne rfl (by simp [leftover, parts]) (by simp [leftover, parts]) parsed)
    fun commands => ?_
  rintro m ⟨c', hd, rfl, hm⟩
  refine Spec.mono (P := Holds _) ?_ (fun _ hm => hm) (fun _ _ h => h) (fun _ h => h) m hm
  refine spec_readString_bind content (by simp) (fun hz => ⟨rfl, hcontent hz⟩) ?_
  have hcells : (o, Block.call c') ::ₘ (handle, .tcp o (finished parsed)) ::ₘ (base, .text content) ::ₘ
      leftover o res connectReq handle writeReq message (parts c o S) = (base, .text content) ::ₘ (o, .call c') ::ₘ
        (handle, .tcp o (finished parsed)) ::ₘ leftover o res connectReq handle writeReq message (parts c o S) := by
    rw [Multiset.cons_swap (handle, _), Multiset.cons_swap (o, _)]
  rw [hcells]
  refine spec_freeIfSet_bind hbase (spec_pure fun m hm => ?_)
  have hsame : Same c c' := ⟨hd.same.chunkSize, hd.same.parser, hd.same.settings⟩
  have hbody : c'.responseBuffer = c.responseBuffer ++ parsed.flatMap bodyOf := hd.responseBuffer
  have hsent' : c'.messageToSend ≠ 0 := by
    rw [hd.messageToSend]
    exact hsent
  cases hfin : finished parsed with
  | true =>
      rw [hfin] at hm
      refine ⟨c', .closing res connectReq handle writeReq message false, hm, ⟨hsent', fun _ => rfl⟩, hsame, ?_,
        hbody, hd.completed⟩
      rw [if_pos rfl]
      refine jobs_closed rfl ⟨_, rfl, ?_⟩
      rintro h ⟨⟩
      rfl
  | false =>
      rw [hfin] at hm
      have hnone : parsed.flatMap statusOf = [] := by simpa [finished] using hfin
      refine ⟨c', .reading res connectReq handle writeReq message, hm, ⟨hne, hsent', Or.inr ?_, ?_⟩, hsame,
        fun J _ => ?_, hbody, hd.completed⟩
      · rw [hd.handleToClose, hfin, if_neg Bool.false_ne_true]
      · rw [hd.completed, hnone, List.append_nil]
        exact hcompleted
      · rw [if_neg Bool.false_ne_true]
        rfl

/-- A read makes the parser point to the object, if there is something to parse. -/
theorem spec_readable {input : Input} {data : Addr} (hc : (Stage.reading res connectReq handle writeReq message).Fits o c)
    (hchunk : c.chunkSize < 2 ^ 31) (hlegal : input.Legal) :
    Spec (Holds ((o, .call c) ::ₘ (Stage.reading res connectReq handle writeReq message).cells o (parts c data S)))
      (readSocket A handle input)
      (fun commands m => ∃ data', After o (.readable handle input) c (.reading res connectReq handle writeReq message)
        (parts c data' S) commands m)
      (Tolerated c (.readable handle input)) := by
  have hhandle {S : Multiset (Addr × Block)} (hS : (handle, Block.tcp o false) ∈ S) {α : Type} {f : Addr × Bool → CallM α}
      {Q : α → Mem Block → Prop} {E : Fault → Prop} (h : Spec (Holds S) (f (o, false)) Q E) :
      Spec (Holds S) (loadTcp handle >>= f) Q E := spec_loadAs_bind hS rfl h
  cases input with
  | failed nread suggestedSize =>
      obtain ⟨hneg, hsize⟩ := hlegal
      cases suggestedSize with
      | none =>
          rw [readSocket, receiveResponse]
          refine hhandle (by simp [Stage.cells]) ?_
          rw [if_pos hneg, freeIfSet, if_neg (not_not.mpr rfl), pure_bind]
          exact (spec_ended hc rfl rfl).post fun _ _ h => ⟨data, h⟩
      | some n =>
          refine spec_allocBuffer_bind hchunk (hsize n rfl) fun base g hbase => ?_
          dsimp only
          rw [receiveResponse]
          refine hhandle (by simp) ?_
          rw [if_pos hneg]
          exact spec_freeIfSet_bind hbase ((spec_ended hc rfl rfl).post fun _ _ h => ⟨data, h⟩)
  | nothing suggestedSize =>
      refine spec_allocBuffer_bind hchunk hlegal fun base g hbase => ?_
      dsimp only
      rw [receiveResponse]
      refine hhandle (by simp) ?_
      rw [if_neg (by decide), if_pos rfl]
      exact spec_freeIfSet_bind hbase ((spec_ended hc rfl rfl).post fun _ _ h => ⟨data, h⟩)
  | received suggestedSize bytes parsed =>
      obtain ⟨hpos, hsize, hbytes⟩ := hlegal
      refine spec_allocBuffer_bind hchunk hsize fun base g hbase => ?_
      dsimp only
      have hsize' : 0 < bufferSize c suggestedSize := by
        rw [bufferSize]
        split_ifs <;> omega
      have hlen : 0 < (bytes.take (bufferSize c suggestedSize)).length := by
        have hb := List.length_pos_of_ne_nil hbytes
        rw [List.length_take]
        omega
      generalize hreceived : bytes.take (bufferSize c suggestedSize) = received at hlen
      refine spec_loadAs_bind (Multiset.mem_cons_self _ _) rfl (spec_store_bind ?_)
      rw [receiveResponse]
      refine hhandle (by simp) ?_
      rw [if_neg (by omega), if_neg (by omega)]
      refine (spec_received hc hbase fun hz => ?_).post fun _ _ h => ⟨o, h⟩
      rw [hreceived]
      exact fun hmem => hz (List.mem_append.mpr (Or.inl hmem))

end Reading

end StudyNotes.Http.CallbackSpecs
