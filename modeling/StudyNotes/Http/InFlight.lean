import StudyNotes.Http.CallbackSpecs
import Mathlib.Algebra.BigOperators.Group.Finset.Basic

namespace StudyNotes.Http.InFlight

open Heap.Program Heap.Triple Systems.Transition Callbacks CallbackSpecs

section Runs

variable {A : Allocator Block} {objects : Finset Addr} {w w' : World} {o : Addr} {e : Event}

/-- The cells of all objects and their requests. -/
def allCells (objects : Finset Addr) (stage : Addr → Stage) (call : Addr → Call) (data : Addr → Addr) :
    Multiset (Addr × Block) :=
  ∑ o ∈ objects, ((o, .call (call o)) ::ₘ (stage o).cells o (parts (call o) (data o) 0))

def allJobs (objects : Finset Addr) (stage : Addr → Stage) : Multiset (Job × Addr) := ∑ o ∈ objects, (stage o).jobs o

/-- The memory has the objects and the blocks of their requests and nothing else, and
the loop has one job for each request that goes on. -/
structure Owned (objects : Finset Addr) (w : World) (stage : Addr → Stage) (call : Addr → Call) (data : Addr → Addr) :
    Prop where
  holds : Holds (allCells objects stage call data) w.mem
  jobs : w.jobs = allJobs objects stage
  fits : ∀ o ∈ objects, (stage o).Fits o (call o) ∧ (call o).chunkSize < 2 ^ 31

theorem cells_add (st : Stage) (o : Addr) (S : Multiset (Addr × Block)) : st.cells o S = st.cells o 0 + S := by
  cases st <;> simp [Stage.cells, leftover]

theorem parts_add (c : Call) (data : Addr) (S : Multiset (Addr × Block)) : parts c data S = parts c data 0 + S := by
  simp [parts]

theorem allCells_eq (stage : Addr → Stage) (call : Addr → Call) (data : Addr → Addr) (ho : o ∈ objects) :
    allCells objects stage call data = (o, .call (call o)) ::ₘ
      (stage o).cells o (parts (call o) (data o) (allCells (objects.erase o) stage call data)) := by
  rw [allCells, ← Finset.add_sum_erase _ _ ho, parts_add _ _ (allCells (objects.erase o) stage call data),
    cells_add _ _ (_ + _), cells_add _ _ (parts _ _ 0), Multiset.cons_add, add_assoc]
  rfl

theorem allCells_update (stage : Addr → Stage) (call : Addr → Call) (data : Addr → Addr) (st : Stage) (c : Call) (d : Addr)
    (ho : o ∈ objects) :
    allCells objects (Function.update stage o st) (Function.update call o c) (Function.update data o d) =
      (o, .call c) ::ₘ st.cells o (parts c d (allCells (objects.erase o) stage call data)) := by
  have hrest : allCells (objects.erase o) (Function.update stage o st) (Function.update call o c) (Function.update data o d) =
      allCells (objects.erase o) stage call data :=
    Finset.sum_congr rfl fun x hx => by simp only [Function.update_of_ne (Finset.ne_of_mem_erase hx)]
  rw [allCells_eq _ _ _ ho, Function.update_self, Function.update_self, Function.update_self, hrest]

theorem allJobs_eq (stage : Addr → Stage) (ho : o ∈ objects) :
    allJobs objects stage = (stage o).jobs o + allJobs (objects.erase o) stage :=
  (Finset.add_sum_erase _ _ ho).symm

theorem allJobs_update (stage : Addr → Stage) (st : Stage) (ho : o ∈ objects) :
    allJobs objects (Function.update stage o st) = st.jobs o + allJobs (objects.erase o) stage := by
  have hrest : allJobs (objects.erase o) (Function.update stage o st) = allJobs (objects.erase o) stage :=
    Finset.sum_congr rfl fun x hx => by rw [Function.update_of_ne (Finset.ne_of_mem_erase hx)]
  rw [allJobs_eq _ ho, Function.update_self, hrest]

theorem mem_allJobs {stage : Addr → Stage} {job : Job} (h : (job, o) ∈ allJobs objects stage) :
    o ∈ objects ∧ (stage o).job = some job := by
  rw [allJobs, Multiset.mem_sum] at h
  obtain ⟨x, hx, hmem⟩ := h
  rw [Stage.jobs] at hmem
  cases hjob : (stage x).job with
  | none => simp [hjob] at hmem
  | some j =>
      rw [hjob, Multiset.mem_singleton, Prod.mk.injEq] at hmem
      obtain ⟨rfl, rfl⟩ := hmem
      exact ⟨hx, hjob⟩

theorem lookup_object {stage : Addr → Stage} {call : Addr → Call} {data : Addr → Addr} (h : Owned objects w stage call data)
    (ho : o ∈ objects) :
    w.mem.cells.lookup o = some (.call (call o)) := by
  refine h.holds.lookup ?_
  rw [allCells_eq stage call data ho]
  exact Multiset.mem_cons_self _ _

/-- Only an object that has not been sent has no message. -/
theorem fresh_of_unsent {st : Stage} {c : Call} (h : st.Fits o c) (hc : c.messageToSend = 0) : st = .fresh := by
  cases st with
  | fresh => rfl
  | resolving => exact absurd (h.2.1 ▸ hc) h.1
  | connecting => exact absurd (h.2.2.1 ▸ hc) h.2.1
  | writing => exact absurd (h.2.2.1 ▸ hc) h.2.1
  | reading => exact absurd hc h.2.1
  | closing => exact absurd hc h.1
  | ended => exact absurd hc h.1

/-- An event that can happen finds the object at the stage it belongs to. -/
theorem exec_spec {stage : Addr → Stage} {call : Addr → Call} {data : Addr → Addr} (h : Owned objects w stage call data)
    (he : Enabled objects w o e) : o ∈ objects ∧
    Spec (Holds ((o, .call (call o)) ::ₘ
        (stage o).cells o (parts (call o) (data o) (allCells (objects.erase o) stage call data)))) (e.exec A o)
      (fun commands m => ∃ d, After o e (call o) (stage o)
        (parts (call o) d (allCells (objects.erase o) stage call data)) commands m) (Tolerated (call o) e) := by
  have hjob {job : Job} (hmem : (job, o) ∈ w.jobs) : o ∈ objects ∧ (stage o).job = some job :=
    mem_allJobs (h.jobs ▸ hmem)
  cases e with
  | send request started =>
      obtain ⟨ho, ⟨c, hlookup, hunsent⟩, hlen⟩ := he
      have hc : call o = c := by simpa [lookup_object h ho] using hlookup
      have hfits := (h.fits o ho).1
      have hst := fresh_of_unsent hfits (hc ▸ hunsent)
      rw [hst] at hfits ⊢
      exact ⟨ho, (spec_send hfits hlen).post fun _ _ h => ⟨data o, h⟩⟩
  | resolved resolver status started =>
      obtain ⟨job, ⟨⟩, hmem⟩ := he
      obtain ⟨ho, hst⟩ := hjob hmem
      have hfits := (h.fits o ho).1
      cases hstage : stage o with
      | resolving r message text =>
          rw [hstage] at hst hfits
          cases hst
          exact ⟨ho, (spec_resolved hfits).post fun _ _ h => ⟨data o, h⟩⟩
      | _ => rw [hstage] at hst; cases hst
  | connected req status started =>
      obtain ⟨job, ⟨⟩, hmem⟩ := he
      obtain ⟨ho, hst⟩ := hjob hmem
      have hfits := (h.fits o ho).1
      cases hstage : stage o with
      | connecting =>
          rw [hstage] at hst hfits
          cases hst
          exact ⟨ho, (spec_connected hfits).post fun _ _ h => ⟨data o, h⟩⟩
      | _ => rw [hstage] at hst; cases hst
  | written req status reading =>
      obtain ⟨job, ⟨⟩, hmem⟩ := he
      obtain ⟨ho, hst⟩ := hjob hmem
      have hfits := (h.fits o ho).1
      cases hstage : stage o with
      | writing =>
          rw [hstage] at hst hfits
          cases hst
          exact ⟨ho, (spec_written hfits).post fun _ _ h => ⟨data o, h⟩⟩
      | _ => rw [hstage] at hst; cases hst
  | readable handle input =>
      obtain ⟨hmem, hlegal⟩ := he
      obtain ⟨ho, hst⟩ := hjob hmem
      obtain ⟨hfits, hchunk⟩ := h.fits o ho
      cases hstage : stage o with
      | reading =>
          rw [hstage] at hst hfits
          cases hst
          exact ⟨ho, spec_readable hfits hchunk hlegal⟩
      | _ => rw [hstage] at hst; cases hst
  | closed handle onClose =>
      obtain ⟨job, ⟨⟩, hmem⟩ := he
      obtain ⟨ho, hst⟩ := hjob hmem
      have hfits := (h.fits o ho).1
      cases hstage : stage o with
      | closing =>
          rw [hstage] at hst hfits
          cases hst
          exact ⟨ho, (spec_closed hfits).post fun _ _ h => ⟨data o, h⟩⟩
      | _ => rw [hstage] at hst; cases hst

/-- What the parser has found in the input of an object so far. -/
def parsedFor (o : Addr) (tr : List (World × (Addr × Event))) : List Parsed :=
  along (fun p : Addr × Event => if p.1 = o then parsedIn p.2 else []) tr

/-- Every object has what came for it, and nothing else. -/
structure Routed (objects : Finset Addr) (tr : List (World × (Addr × Event))) (call : Addr → Call) : Prop where
  body : ∀ o ∈ objects, (call o).responseBuffer = (parsedFor o tr).flatMap bodyOf
  statuses : ∀ o ∈ objects, (call o).completed = (parsedFor o tr).flatMap statusOf

theorem parsedFor_concat (tr : List (World × (Addr × Event))) (w : World) (o x : Addr) (e : Event) :
    parsedFor x (tr ++ [(w, (o, e))]) = parsedFor x tr ++ if o = x then parsedIn e else [] :=
  along_concat _ _ _ _

theorem owned_step {tr : List (World × (Addr × Event))} {stage : Addr → Stage} {call : Addr → Call} {data : Addr → Addr}
    (h : Owned objects w stage call data) (hr : Routed objects tr call) (hs : Step A objects w (o, e) w') :
    ∃ stage' call' data', Owned objects w' stage' call' data' ∧ Routed objects (tr ++ [(w, (o, e))]) call' := by
  cases hs with
  | mk _ _ commands m he hexec =>
      obtain ⟨ho, hspec⟩ := exec_spec (A := A) h he
      have hends := hspec w.mem (by rw [← allCells_eq stage call data ho]; exact h.holds)
      rw [hexec] at hends
      obtain ⟨d, c', st', hm, hfits, hsame, hjobs, hbody, hstatus⟩ := hends
      have hparts : parts c' d = parts (call o) d := by
        funext S
        rw [parts, parts, hsame.parser, hsame.settings]
      refine ⟨Function.update stage o st', Function.update call o c', Function.update data o d,
        ⟨?_, ?_, fun x hx => ?_⟩, ⟨fun x hx => ?_, fun x hx => ?_⟩⟩
      · rw [allCells_update stage call data st' c' d ho, hparts]
        exact hm
      · have hothers : ∀ p ∈ allJobs (objects.erase o) stage, p.2 ≠ o := by
          rintro ⟨job, x⟩ hp
          exact Finset.ne_of_mem_erase (mem_allJobs hp).1
        rw [allJobs_update stage st' ho, ← hjobs _ hothers, ← allJobs_eq stage ho, ← h.jobs]
        rfl
      · by_cases hxo : x = o
        · subst hxo
          rw [Function.update_self, Function.update_self, hsame.chunkSize]
          exact ⟨hfits, (h.fits x hx).2⟩
        · rw [Function.update_of_ne hxo, Function.update_of_ne hxo]
          exact h.fits x hx
      · rw [parsedFor_concat]
        by_cases hxo : x = o
        · subst hxo
          rw [Function.update_self, if_pos rfl, List.flatMap_append, ← hr.body x hx]
          exact hbody
        · rw [Function.update_of_ne hxo, if_neg (Ne.symm hxo), List.append_nil]
          exact hr.body x hx
      · rw [parsedFor_concat]
        by_cases hxo : x = o
        · subst hxo
          rw [Function.update_self, if_pos rfl, List.flatMap_append, ← hr.statuses x hx]
          exact hstatus
        · rw [Function.update_of_ne hxo, if_neg (Ne.symm hxo), List.append_nil]
          exact hr.statuses x hx

/-- The objects that the constructor has made so far. -/
def Made (chunkSizes : List Int) (made : List Addr) (m : Mem Block) : Prop :=
  ∃ call : Addr → Call, Holds (allCells made.toFinset (fun _ => .fresh) call fun _ => 0) m ∧
    ∀ o ∈ made, ∃ n ∈ chunkSizes, ∃ parser settings, call o = Call.new n parser settings

theorem made_concat {chunkSizes : List Int} {made : List Addr} {m : Mem Block} {call : Addr → Call} {n : Int}
    {this parser settings : Addr}
    (hm : Holds ((this, .call (Call.new n parser settings)) ::ₘ parts (Call.new n parser settings) 0
      (allCells made.toFinset (fun _ => .fresh) call fun _ => 0)) m)
    (hcall : ∀ o ∈ made, ∃ n ∈ chunkSizes, ∃ parser settings, call o = Call.new n parser settings) :
    Made (chunkSizes ++ [n]) (made ++ [this]) m := by
  have hnew : this ∉ made := by
    intro hmem
    refine hm.head_notMem (Multiset.mem_map.mpr ⟨(this, .call (call this)), ?_, rfl⟩)
    rw [allCells_eq _ _ _ (List.mem_toFinset.mpr hmem)]
    simp [parts]
  have hrest (o : Addr) (ho : o ∈ made) : Function.update call this (Call.new n parser settings) o = call o :=
    Function.update_of_ne (fun heq : o = this => hnew (heq ▸ ho)) _ _
  refine ⟨Function.update call this (Call.new n parser settings), ?_, fun o ho => ?_⟩
  · have hset : (made ++ [this]).toFinset = insert this made.toFinset := by
      ext x
      simp
    rw [hset, allCells, Finset.sum_insert (by simpa using hnew), Function.update_self,
      Finset.sum_congr rfl fun o ho => by rw [hrest o (List.mem_toFinset.mp ho)]]
    simpa [parts, Stage.cells, allCells] using hm
  · rcases List.mem_append.mp ho with ho | ho
    · obtain ⟨n', hn', hc⟩ := hcall o ho
      rw [hrest o ho]
      exact ⟨n', List.mem_append_left _ hn', hc⟩
    · rw [List.mem_singleton.mp ho, Function.update_self]
      exact ⟨n, by simp, parser, settings, rfl⟩

theorem spec_makeCalls (chunkSizes : List Int) :
    Spec (Holds 0) (makeCalls A chunkSizes) (Made chunkSizes) (fun _ => False) := by
  have hstart (m : Mem Block) (hm : Holds 0 m) : Made [] [] m :=
    ⟨fun _ => Call.new 0 0 0, hm, fun _ h => absurd h List.not_mem_nil⟩
  refine Spec.mono (spec_foldlM chunkSizes fun pre n _ made => ?_) hstart (fun _ _ h => h) (fun _ h => h)
  rintro m ⟨call, hm, hcall⟩
  refine spec_bind (spec_httpRequestCall n) (fun this => ?_) m hm
  rintro m ⟨parser, settings, hm⟩
  exact made_concat hm hcall

theorem owned_start (h : Start A objects w) :
    ∃ stage call data, Owned objects w stage call data ∧ Routed objects [] call := by
  obtain ⟨hjobs, chunkSizes, made, hchunk, hmade, rfl⟩ := h
  have hends := spec_makeCalls (A := A) chunkSizes emptyMem holds_empty
  rw [hmade] at hends
  obtain ⟨call, hm, hcall⟩ := hends
  refine ⟨fun _ => .fresh, call, fun _ => 0, ⟨hm, ?_, fun o ho => ?_⟩, ⟨fun o ho => ?_, fun o ho => ?_⟩⟩
  · rw [hjobs, allJobs]
    exact (Finset.sum_eq_zero fun _ _ => rfl).symm
  all_goals obtain ⟨n, hn, parser, settings, hc⟩ := hcall o (List.mem_toFinset.mp ho); rw [hc]
  · exact ⟨⟨rfl, rfl, rfl⟩, hchunk n hn⟩
  · rfl
  · rfl

theorem owned_run {tr : List (World × (Addr × Event))} (h : Run (system A objects) tr w) :
    ∃ stage call data, Owned objects w stage call data ∧ Routed objects tr call := by
  refine Run.induct (I := fun tr w => ∃ stage call data, Owned objects w stage call data ∧ Routed objects tr call)
    (fun w hw => owned_start hw) ?_ h
  rintro tr w ⟨o, e⟩ w' - ⟨stage, call, data, ho, hr⟩ hs
  exact owned_step ho hr hs

/-- For any number of objects whose requests are in flight at the same time: a send can only
fail in the sprintf of a port with ten characters or more, a callback of any of them only in
the printf of a buffer in which no zero was received, and every object has exactly the
response that came in on its own connection. -/
theorem callbacks_safe_and_routed (A : Allocator Block) (objects : Finset Addr) (tr : List (World × (Addr × Event)))
    (w : World) (h : Run (system A objects) tr w) :
    (∀ o e, Enabled objects w o e → ∃ c, w.mem.cells.lookup o = some (.call c) ∧
      ((∃ w', Step A objects w (o, e) w') ∨ e.exec A o w.mem = .error .outOfBounds ∧ Overruns c e)) ∧
    ∀ o ∈ objects, ∃ c, w.mem.cells.lookup o = some (.call c) ∧
      c.responseBuffer = (parsedFor o tr).flatMap bodyOf ∧ c.completed = (parsedFor o tr).flatMap statusOf := by
  obtain ⟨stage, call, data, howned, hrouted⟩ := owned_run h
  refine ⟨fun o e he => ?_, fun o ho => ⟨call o, lookup_object howned ho, hrouted.body o ho, hrouted.statuses o ho⟩⟩
  obtain ⟨ho, hspec⟩ := exec_spec (A := A) howned he
  refine ⟨call o, lookup_object howned ho, ?_⟩
  have hends := hspec w.mem (by rw [← allCells_eq stage call data ho]; exact howned.holds)
  cases hexec : e.exec A o w.mem with
  | ok p => exact Or.inl ⟨_, .mk w o e p.1 p.2 he hexec⟩
  | error f =>
      rw [hexec] at hends
      obtain ⟨rfl, hun⟩ := hends
      exact Or.inr ⟨rfl, hun⟩

/-- When nothing is pending and every response has been completed, seven blocks are left for
each object: itself, its parser, its settings, the list of addresses, the two requests, and the handle. -/
theorem blocks_left (A : Allocator Block) (objects : Finset Addr) (tr : List (World × (Addr × Event))) (w : World)
    (h : Run (system A objects) tr w) (hquiet : w.jobs = 0)
    (hdone : ∀ o ∈ objects, (parsedFor o tr).flatMap statusOf ≠ []) :
    w.mem.cells.keys.card = 7 * objects.card := by
  obtain ⟨stage, call, data, howned, hrouted⟩ := owned_run h
  have hcard (o : Addr) (ho : o ∈ objects) :
      Multiset.card ((o, Block.call (call o)) ::ₘ (stage o).cells o (parts (call o) (data o) 0)) = 7 := by
    have hfits := (howned.fits o ho).1
    have hcompleted : (call o).completed ≠ [] := hrouted.statuses o ho ▸ hdone o ho
    have hnone : (stage o).jobs o = 0 := by
      have hzero : (stage o).jobs o + allJobs (objects.erase o) stage = 0 := by
        rw [← allJobs_eq stage ho, ← howned.jobs, hquiet]
      exact Multiset.le_zero.mp (hzero ▸ Multiset.le_add_right _ _)
    cases hstage : stage o with
    | ended left =>
        rw [hstage] at hfits
        obtain ⟨res, connectReq, handle, writeReq, message, rfl⟩ := hfits.2 hcompleted
        simp [Stage.cells, leftover, parts]
    | fresh =>
        rw [hstage] at hfits
        exact absurd hfits.2.2 hcompleted
    | _ => simp [hstage, Stage.jobs, Stage.job] at hnone
  rw [← Finset.card_val, holds_keys howned.holds, Multiset.card_map, allCells, Multiset.card_sum,
    Finset.sum_congr rfl hcard, Finset.sum_const]
  exact Nat.mul_comm _ _

end Runs

section Demo

/-- The memory as a list of its cells, the newest first. -/
def demoWorld (cells : List (Addr × Block)) (clock : Nat) (jobs : Multiset (Job × Addr)) : World :=
  ⟨⟨(cells.map Prod.toSigma).toFinmap, clock⟩, jobs⟩

def sentCall : Call := { Call.new 0 2 3 with messageToSend := 4 }

def doneCall : Call := { sentCall with responseBuffer := [104, 105], completed := [200] }

def world₀ : World := demoWorld [(1, .call (Call.new 0 2 3)), (3, .settings), (2, .parser 0)] 3 0
def world₁ : World := demoWorld [(5, .resolver 1), (1, .call sentCall), (4, .text [0]), (3, .settings), (2, .parser 0)] 5
  {(.resolve 5, 1)}
def world₂ : World := demoWorld [(8, .connectReq 1 7), (7, .tcp 0 false), (6, .addrinfo), (1, .call sentCall), (4, .text [0]),
  (3, .settings), (2, .parser 0)] 8 {(.connect 8, 1)}
def world₃ : World := demoWorld [(9, .writeReq 1 7 4), (8, .connectReq 1 7), (7, .tcp 0 false), (6, .addrinfo), (1, .call sentCall),
  (4, .text [0]), (3, .settings), (2, .parser 0)] 9 {(.write 9, 1)}
def world₄ : World := demoWorld [(7, .tcp 1 false), (9, .writeReq 1 7 4), (8, .connectReq 1 7), (6, .addrinfo), (1, .call sentCall),
  (3, .settings), (2, .parser 0)] 9 {(.read 7, 1)}
def world₅ : World := demoWorld [(1, .call doneCall), (7, .tcp 1 true), (2, .parser 1), (9, .writeReq 1 7 4), (8, .connectReq 1 7),
  (6, .addrinfo), (3, .settings)] 10 {(.close 7 false, 1)}
def world₆ : World := { world₅ with jobs := 0 }

theorem demo_start : Start bump {1} world₀ := ⟨rfl, [0], [1], by decide, rfl, rfl⟩

theorem run_event {tr : List (World × (Addr × Event))} {w w' : World} (h : Run (system bump {1}) tr w) (e : Event)
    (commands : List Command) (he : Enabled {1} w 1 e) (hr : e.exec bump 1 w.mem = .ok (commands, w'.mem))
    (hjobs : settle w.jobs 1 e commands = w'.jobs) : Run (system bump {1}) (tr ++ [(w, (1, e))]) w' := by
  have hstep : Step bump {1} w (1, e) _ := Step.mk w 1 e commands w'.mem he hr
  rw [hjobs] at hstep
  exact h.next hstep

/-- A request whose response is the text hi, up to the end of its connection. -/
theorem demo_run : ∃ tr w, Run (system bump {1}) tr w ∧ w.jobs = 0 ∧
    parsedFor 1 tr = [.body [104, 105], .messageComplete 200] := by
  have h₁ : Run _ _ world₁ := run_event (.start demo_start) (.send (some (80, [])) true) [.start (.resolve 5)]
    ⟨by decide, ⟨_, rfl, rfl⟩, by simp⟩ rfl rfl
  have h₂ : Run _ _ world₂ := run_event h₁ (.resolved 5 0 true) [.start (.connect 8)] ⟨_, rfl, by decide⟩ rfl rfl
  have h₃ : Run _ _ world₃ := run_event h₂ (.connected 8 0 true) [.start (.write 9)] ⟨_, rfl, by decide⟩ rfl rfl
  have h₄ : Run _ _ world₄ := run_event h₃ (.written 9 0 true) [.start (.read 7)] ⟨_, rfl, by decide⟩ rfl rfl
  have h₅ : Run _ _ world₅ := run_event h₄ (.readable 7 (.received 3 [104, 105] [.body [104, 105], .messageComplete 200]))
    [.close 7 false] ⟨by decide, by decide, by decide, by decide⟩ rfl rfl
  have h₆ : Run _ _ world₆ := run_event h₅ (.closed 7 false) [] ⟨_, rfl, by decide⟩ rfl rfl
  exact ⟨_, _, h₆, rfl, rfl⟩

theorem callbacks_safe_and_routed_demo : ∃ tr w c, Run (system bump {1}) tr w ∧ w.mem.cells.lookup 1 = some (.call c) ∧
    c.responseBuffer = [104, 105] ∧ c.completed = [200] := by
  obtain ⟨tr, w, h, -, hparsed⟩ := demo_run
  obtain ⟨c, hlookup, hbody, hstatus⟩ := (callbacks_safe_and_routed bump {1} tr w h).2 1 (by decide)
  rw [hparsed] at hbody hstatus
  exact ⟨tr, w, c, h, hlookup, hbody, hstatus⟩

theorem blocks_left_demo : ∃ tr w, Run (system bump {1}) tr w ∧ w.jobs = 0 ∧ w.mem.cells.keys.card = 7 := by
  obtain ⟨tr, w, h, hjobs, hparsed⟩ := demo_run
  refine ⟨tr, w, h, hjobs, blocks_left bump {1} tr w h hjobs fun o ho => ?_⟩
  rw [Finset.mem_singleton] at ho
  rw [ho, hparsed]
  decide

end Demo

end StudyNotes.Http.InFlight
