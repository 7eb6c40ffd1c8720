import StudyNotes.Cluster.Contracts

namespace StudyNotes.Cluster.Consistency

open Systems.Interaction Program Service Contracts

variable {ι : Type}

/-- The children will be read again: an event is on its way, or its callback has yet to ask. -/
def Due (x : Session ι) (p : Phase) (h : Handle) : Prop := 0 < x.pending ∨ p = .toRead h

/-- The mode is the one that the first child decides, or is about to be. -/
def Informed (S : Setup ι) (z : Zk ι) (i : ι) (mode : NodeMode) (p : Phase) : Prop :=
  ∃ first, (S.order z.children).head? = some first ∧
    (p = .toWrite first ∨ p = .settled ∧ mode = modeFor (S.name i) first)

/-- How the session of a manager stands, by the stage of the manager. -/
def Tracks (S : Setup ι) (z : Zk ι) (i : ι) (mode : NodeMode) (p : Phase) : Stage → Prop
  | .closed => p = .settled
  | .opened h => p = .settled ∧ z.sessions h = some ⟨i, false, 0⟩
  | .watched h => (∀ h', p = .toRead h' → h' = h) ∧
      ∃ x, z.sessions h = some x ∧ x.owner = i ∧ (Due x p h ∨ x.armed = true)
  | .created h => (∀ h', p = .toRead h' → h' = h) ∧
      ∃ x, z.sessions h = some x ∧ x.owner = i ∧ (Due x p h ∨ x.armed = true ∧ Informed S z i mode p)

structure Consistent (S : Setup ι) (z : Zk ι) (m : ι → Manager) (g : ι → Ghost) (p : ι → Phase) : Prop where
  fields (i : ι) (f : Field) : f ≠ .nodeMode → m i f = (g i).1 f
  node (i : ι) : (g i).2.Watching → (g i).1 .node = S.name i
  tracks (i : ι) : Tracks S z i (m i .nodeMode) (p i) (g i).2
  owner (h : Handle) (x : Session ι) : z.sessions h = some x → (g x.owner).2.handle = some h
  fresh (h : Handle) (x : Session ι) : z.sessions h = some x → h < z.next
  nodes (n : String) (h : Handle) : (n, h) ∈ z.nodes ↔ ∃ i, n = S.name i ∧ (g i).2 = .created h

/-- The phase of a callback that has read the children. -/
def phaseAfter : List String → Phase
  | [] => .settled
  | first :: _ => .toWrite first

theorem phaseAfter_ne (children : List String) (h : Handle) : phaseAfter children ≠ .toRead h := by
  cases children <;> simp [phaseAfter]

section tracks

variable {S : Setup ι} {z z' : Zk ι} {i : ι} {mode : NodeMode} {p : Phase} {st : Stage} {h : Handle}

theorem Tracks.session (ht : Tracks S z i mode p st) (hst : st.handle = some h) :
    ∃ x, z.sessions h = some x ∧ x.owner = i := by
  cases st with
  | closed => cases hst
  | opened h' =>
      cases hst
      exact ⟨_, ht.2, rfl⟩
  | watched h' | created h' =>
      cases hst
      obtain ⟨-, x, hx, howner, -⟩ := ht
      exact ⟨x, hx, howner⟩

/-- A callback that is not settled runs in a session that watches. -/
theorem Tracks.watching (ht : Tracks S z i mode p st) (hp : p ≠ .settled) : st.Watching := by
  cases st with
  | closed => exact hp ht
  | opened h => exact hp ht.1
  | watched h | created h => trivial

theorem Tracks.frame (ht : Tracks S z i mode p st) (hs : ∀ h, st.handle = some h → z'.sessions h = z.sessions h)
    (hc : z'.children = z.children) : Tracks S z' i mode p st := by
  cases st with
  | closed => exact ht
  | opened h => exact ⟨ht.1, (hs h rfl).trans ht.2⟩
  | watched h =>
      obtain ⟨hread, x, hx, hrest⟩ := ht
      exact ⟨hread, x, (hs h rfl).trans hx, hrest⟩
  | created h =>
      obtain ⟨hread, x, hx, howner, hrest⟩ := ht
      refine ⟨hread, x, (hs h rfl).trans hx, howner, ?_⟩
      rw [Informed, hc]
      exact hrest

theorem Due.fire {x : Session ι} (hd : Due x p h ∨ x.armed = true) : Due x.fire p h := by
  rcases hd with (hpending | hp) | harmed
  · exact Or.inl (Nat.lt_of_lt_of_le hpending (Nat.le_add_right _ _))
  · exact Or.inr hp
  · refine Or.inl ?_
    rw [Session.fire, harmed]
    exact Nat.succ_pos _

/-- Whatever the change of the children, the watches that fire make up for it. -/
theorem Tracks.fire (ht : Tracks S z i mode p st)
    (hs : ∀ h, st.handle = some h → z'.sessions h = (z.sessions h).map Session.fire) : Tracks S z' i mode p st := by
  cases st with
  | closed => exact ht
  | opened h => exact ⟨ht.1, by rw [hs h rfl, ht.2]; rfl⟩
  | watched h =>
      obtain ⟨hread, x, hx, howner, hdue⟩ := ht
      exact ⟨hread, x.fire, by rw [hs h rfl, hx]; rfl, howner, Or.inl (Due.fire hdue)⟩
  | created h =>
      obtain ⟨hread, x, hx, howner, hdue⟩ := ht
      exact ⟨hread, x.fire, by rw [hs h rfl, hx]; rfl, howner, Or.inl (Due.fire (hdue.imp_right And.left))⟩

/-- An event is taken from the session and its callback begins. -/
theorem Tracks.take {x : Session ι} (ht : Tracks S z i mode p st) (hst : st.handle = some h)
    (hx : z.sessions h = some x) (howner : x.owner = i) (hpending : 0 < x.pending) :
    Tracks S (z.modify h Session.take) i mode (.toRead h) st := by
  have hread : ∀ h', Phase.toRead h = .toRead h' → h' = h := fun h' heq => (Phase.toRead.inj heq).symm
  cases st with
  | closed => cases hst
  | opened h' =>
      cases hst
      rw [ht.2] at hx
      cases hx
      cases hpending
  | watched h' | created h' =>
      cases hst
      exact ⟨hread, _, z.modify_self Session.take hx, howner, Or.inl (Or.inr rfl)⟩

/-- The callback reads the children and sets the watch again. -/
theorem Tracks.read (ht : Tracks S z i mode (.toRead h) st) (hmem : ∀ h', st = .created h' → S.name i ∈ z.children) :
    st.handle = some h ∧ Tracks S (z.modify h Session.arm) i mode (phaseAfter (S.order z.children)) st := by
  have hread : ∀ h', phaseAfter (S.order z.children) = .toRead h' → h' = h :=
    fun h' heq => absurd heq (phaseAfter_ne _ h')
  cases st with
  | closed => cases ht
  | opened h' => cases ht.1
  | watched h' =>
      obtain ⟨hown, x, hx, howner, -⟩ := ht
      obtain rfl := hown h rfl
      exact ⟨rfl, hread, _, z.modify_self Session.arm hx, howner, Or.inr rfl⟩
  | created h' =>
      obtain ⟨hown, x, hx, howner, -⟩ := ht
      obtain rfl := hown h rfl
      refine ⟨rfl, hread, _, z.modify_self Session.arm hx, howner, Or.inr ⟨rfl, ?_⟩⟩
      have hown := (S.mem_order _ _).2 (hmem h rfl)
      change ∃ first, (S.order z.children).head? = some first ∧ _
      cases horder : S.order z.children with
      | nil =>
          rw [horder] at hown
          cases hown
      | cons first rest => exact ⟨first, rfl, Or.inl rfl⟩

/-- The callback stores the mode. -/
theorem Tracks.settle {first : String} (ht : Tracks S z i mode (.toWrite first) st) :
    Tracks S z i (modeFor (S.name i) first) .settled st := by
  have hdue {x : Session ι} {h : Handle} (hd : Due x (.toWrite first) h) : Due x .settled h :=
    hd.imp_right (fun heq => by cases heq)
  cases st with
  | closed => rfl
  | opened h => cases ht.1
  | watched h =>
      obtain ⟨-, x, hx, howner, ht⟩ := ht
      exact ⟨nofun, x, hx, howner, ht.imp_left hdue⟩
  | created h =>
      obtain ⟨-, x, hx, howner, ht⟩ := ht
      refine ⟨nofun, x, hx, howner, ht.imp hdue (And.imp_right ?_)⟩
      rintro ⟨first', hfirst, heq | ⟨heq, -⟩⟩
      · cases heq
        exact ⟨first, hfirst, Or.inr ⟨rfl, rfl⟩⟩
      · cases heq

end tracks

section consistent

variable {S : Setup ι} {z : Zk ι} {m : ι → Manager} {g : ι → Ghost} {p : ι → Phase} {i : ι}

theorem Consistent.handle_injective (hc : Consistent S z m g p) {j : ι} {h : Handle} (hi : (g i).2.handle = some h)
    (hj : (g j).2.handle = some h) : i = j := by
  obtain ⟨x, hx, rfl⟩ := (hc.tracks i).session hi
  obtain ⟨y, hy, rfl⟩ := (hc.tracks j).session hj
  rw [hx] at hy
  cases hy
  rfl

theorem Consistent.mem_children (hc : Consistent S z m g p) : S.name i ∈ z.children ↔ ∃ h, (g i).2 = .created h := by
  simp only [Zk.children, Finset.mem_image, Prod.exists, exists_and_right, exists_eq_right]
  refine exists_congr fun h => (hc.nodes _ h).trans ⟨?_, fun hg => ⟨i, rfl, hg⟩⟩
  rintro ⟨j, hj, hg⟩
  rw [S.injective hj]
  exact hg

theorem Consistent.ne_of_session (hc : Consistent S z m g p) {h : Handle} {x : Session ι} (hx : z.sessions h = some x)
    (hi : (g i).2.handle ≠ some h) : x.owner ≠ i := by
  rintro rfl
  exact hi (hc.owner h x hx)

variable [DecidableEq ι]

/-- The manager is at another stage. -/
def restage (g : ι → Ghost) (i : ι) (st : Stage) : ι → Ghost := Function.update g i ((g i).1, st)

theorem restage_fst (g : ι → Ghost) (i : ι) (st : Stage) (j : ι) : (restage g i st j).1 = (g j).1 := by
  rcases eq_or_ne j i with rfl | hne
  · rw [restage, Function.update_self]
  · rw [restage, Function.update_of_ne hne]

theorem restage_self (g : ι → Ghost) (i : ι) (st : Stage) : (restage g i st i).2 = st := by
  rw [restage, Function.update_self]

theorem restage_ne (g : ι → Ghost) (st : Stage) {i j : ι} (hne : j ≠ i) : restage g i st j = g j := by
  rw [restage, Function.update_of_ne hne]

theorem restage_eq_self (g : ι → Ghost) (i : ι) : restage g i (g i).2 = g := Function.update_eq_self ..

/-- The rule for a step of the service that moves one manager to another stage and phase. -/
theorem Consistent.move (hc : Consistent S z m g p) {z' : Zk ι} {st : Stage} {ph : Phase}
    (hnode : st.Watching → (g i).1 .node = S.name i) (hi : Tracks S z' i (m i .nodeMode) ph st)
    (hj : ∀ j ≠ i, Tracks S z' j (m j .nodeMode) (p j) (g j).2)
    (howner : ∀ h x, z'.sessions h = some x → x.owner = i ∧ st.handle = some h ∨
      x.owner ≠ i ∧ ∃ y, z.sessions h = some y ∧ y.owner = x.owner)
    (hfresh : ∀ h x, z'.sessions h = some x → h < z'.next)
    (hnodes : ∀ n h, (n, h) ∈ z'.nodes ↔
      n = S.name i ∧ st = .created h ∨ (n, h) ∈ z.nodes ∧ (g i).2.handle ≠ some h) :
    Consistent S z' m (restage g i st) (Function.update p i ph) where
  fields j f hf := by
    rw [restage_fst]
    exact hc.fields j f hf
  node j hw := by
    rw [restage_fst]
    rcases eq_or_ne j i with rfl | hne
    · rw [restage_self] at hw
      exact hnode hw
    · rw [restage_ne g st hne] at hw
      exact hc.node j hw
  tracks j := by
    rcases eq_or_ne j i with rfl | hne
    · rw [restage_self, Function.update_self]
      exact hi
    · rw [restage_ne g st hne, Function.update_of_ne hne]
      exact hj j hne
  owner h x hx := by
    rcases howner h x hx with ⟨rfl, hst⟩ | ⟨hne, y, hy, heq⟩
    · rw [restage_self]
      exact hst
    · rw [restage_ne g st hne, ← heq]
      exact hc.owner h y hy
  fresh := hfresh
  nodes n h := by
    rw [hnodes, hc.nodes]
    constructor
    · rintro (⟨rfl, hst⟩ | ⟨⟨j, rfl, hcreated⟩, hne⟩)
      · exact ⟨i, rfl, by rw [restage_self, hst]⟩
      · have hji : j ≠ i := by
          rintro rfl
          exact hne (by rw [hcreated]; rfl)
        exact ⟨j, rfl, by rw [restage_ne g st hji, hcreated]⟩
    · rintro ⟨j, rfl, hcreated⟩
      rcases eq_or_ne j i with rfl | hne
      · rw [restage_self] at hcreated
        exact Or.inl ⟨rfl, hcreated⟩
      · rw [restage_ne g st hne] at hcreated
        refine Or.inr ⟨⟨j, rfl, hcreated⟩, fun hi => hne ?_⟩
        exact hc.handle_injective (by rw [hcreated]; rfl) hi

omit [DecidableEq ι] in
theorem Consistent.mem_nodes (hc : Consistent S z m g p) (i : ι) (n : String) (h : Handle) :
    (n, h) ∈ z.nodes ↔
      n = S.name i ∧ (g i).2 = .created h ∨ (n, h) ∈ z.nodes ∧ (g i).2.handle ≠ some h := by
  constructor
  · intro hn
    by_cases hi : (g i).2.handle = some h
    · obtain ⟨j, rfl, hj⟩ := (hc.nodes n h).1 hn
      obtain rfl : j = i := hc.handle_injective (by rw [hj]; rfl) hi
      exact Or.inl ⟨rfl, hj⟩
    · exact Or.inr ⟨hn, hi⟩
  · rintro (⟨hn, hi⟩ | ⟨hn, -⟩)
    · exact (hc.nodes n h).2 ⟨i, hn, hi⟩
    · exact hn

/-- The rule for a step within a session. -/
theorem Consistent.advance (hc : Consistent S z m g p) {z' : Zk ι} {st : Stage} {ph : Phase}
    (hhandle : st.handle = (g i).2.handle) (hnode : st.Watching → (g i).1 .node = S.name i)
    (hi : Tracks S z' i (m i .nodeMode) ph st) (hj : ∀ j ≠ i, Tracks S z' j (m j .nodeMode) (p j) (g j).2)
    (hinherits : z.Inherits z') (hnext : z'.next = z.next)
    (hnodes : ∀ n h, (n, h) ∈ z'.nodes ↔
      n = S.name i ∧ st = .created h ∨ (n, h) ∈ z.nodes ∧ (g i).2.handle ≠ some h) :
    Consistent S z' m (restage g i st) (Function.update p i ph) := by
  refine hc.move hnode hi hj (fun h x hx => ?_) (fun h x hx => ?_) hnodes
  · obtain ⟨y, hy, heq⟩ := hinherits h x hx
    rcases eq_or_ne x.owner i with rfl | hne
    · refine Or.inl ⟨rfl, hhandle.trans ?_⟩
      rw [← heq]
      exact hc.owner h y hy
    · exact Or.inr ⟨hne, y, hy, heq⟩
  · obtain ⟨y, hy, -⟩ := hinherits h x hx
    rw [hnext]
    exact hc.fresh h y hy

/-- The rule for a step that only concerns the session of the manager. -/
theorem Consistent.modify (hc : Consistent S z m g p) {f : Session ι → Session ι} (hf : ∀ x, (f x).owner = x.owner)
    {h : Handle} {st : Stage} {ph : Phase} (hhandle : (g i).2.handle = some h) (hst : st.handle = some h)
    (hnode : st.Watching → (g i).1 .node = S.name i) (hi : Tracks S (z.modify h f) i (m i .nodeMode) ph st)
    (hcreated : ∀ h', st = .created h' ↔ (g i).2 = .created h') :
    Consistent S (z.modify h f) m (restage g i st) (Function.update p i ph) := by
  refine hc.advance (hst.trans hhandle.symm) hnode hi (fun j hji => (hc.tracks j).frame (fun h' hj => ?_) rfl)
    (z.inherits_modify hf) rfl fun n h' => ?_
  · refine z.modify_ne _ ?_
    rintro rfl
    exact hji (hc.handle_injective hj hhandle)
  · rw [hcreated]
    exact hc.mem_nodes i n h'

theorem Consistent.openSession (hc : Consistent S z m g p) (hclosed : (g i).2 = .closed) :
    Consistent S (z.openSession i) m (restage g i (.opened z.next)) p := by
  have hi := hc.tracks i
  rw [hclosed] at hi
  rw [← Function.update_eq_self i p]
  refine hc.move nofun ⟨hi, z.openSession_self i⟩ (fun j _ => (hc.tracks j).frame (fun h hst => ?_) rfl) ?_ ?_ ?_
  · obtain ⟨x, hx, -⟩ := (hc.tracks j).session hst
    exact z.openSession_ne i (hc.fresh h x hx).ne
  · intro h x hx
    rcases eq_or_ne h z.next with rfl | hne
    · rw [z.openSession_self] at hx
      cases hx
      exact Or.inl ⟨rfl, rfl⟩
    · rw [z.openSession_ne i hne] at hx
      exact Or.inr ⟨hc.ne_of_session hx (by rw [hclosed]; nofun), x, hx, rfl⟩
  · intro h x hx
    rcases eq_or_ne h z.next with rfl | hne
    · exact Nat.lt_succ_self _
    · rw [z.openSession_ne i hne] at hx
      exact Nat.lt_succ_of_lt (hc.fresh h x hx)
  · intro n h
    rw [hclosed]
    simp [Zk.openSession, Stage.handle]

/-- Closing the session of a manager whose callback is settled. -/
theorem Consistent.close (hc : Consistent S z m g p) {h : Handle} (hhandle : (g i).2.handle = some h)
    (hp : p i = .settled) : Consistent S (z.close h) m (restage g i .closed) p := by
  have hne : ∀ j ≠ i, ∀ h', (g j).2.handle = some h' → h' ≠ h := by
    rintro j hji h' hj rfl
    exact hji (hc.handle_injective hj hhandle)
  rw [← Function.update_eq_self i p]
  refine hc.move nofun hp (fun j hji => ?_) ?_ ?_ ?_
  · rcases z.close_others (h := h) with ⟨hchildren, hs⟩ | hs
    · exact (hc.tracks j).frame (fun h' hj => hs h' (hne j hji h' hj)) hchildren
    · exact (hc.tracks j).fire fun h' hj => hs h' (hne j hji h' hj)
  · intro h' x hx
    obtain ⟨y, hy, heq⟩ := z.inherits_close h' x hx
    refine Or.inr ⟨?_, y, hy, heq⟩
    rw [← heq]
    refine hc.ne_of_session hy ?_
    rw [hhandle]
    rintro ⟨⟩
    rw [z.close_self] at hx
    cases hx
  · intro h' x hx
    obtain ⟨y, hy, -⟩ := z.inherits_close h' x hx
    rw [z.close_next]
    exact hc.fresh h' y hy
  · intro n h'
    rw [z.mem_close_nodes, hhandle, ne_comm]
    simp

theorem Consistent.create (hc : Consistent S z m g p) {h : Handle} (hwatched : (g i).2 = .watched h) :
    Consistent S (z.create h (S.name i)) m (restage g i (.created h)) p := by
  have hi := hc.tracks i
  rw [hwatched] at hi
  obtain ⟨hread, x, hx, howner, hdue⟩ := hi
  have htracks : Tracks S (z.create h (S.name i)) i (m i .nodeMode) (p i) (.created h) :=
    ⟨hread, x.fire, by simp only [Zk.create, Zk.fire, hx, Option.map_some], howner, Or.inl (Due.fire hdue)⟩
  rw [← Function.update_eq_self i p]
  refine hc.advance (by rw [hwatched]; rfl) (fun _ => hc.node i (by rw [hwatched]; trivial)) htracks
    (fun j _ => (hc.tracks j).fire fun h' _ => rfl) (Zk.inherits_fire _) rfl fun n h' => ?_
  have hmem := hc.mem_nodes i n h'
  rw [hwatched] at hmem ⊢
  simp only [reduceCtorEq, and_false, false_or] at hmem
  simp only [Zk.create, Zk.fire, Finset.mem_insert, Prod.mk.injEq, Stage.created.injEq, ← hmem, eq_comm (a := h)]

/-- The first watch, which the caller sets. -/
theorem Consistent.watch (hc : Consistent S z m g p) {h : Handle} (hopened : (g i).2 = .opened h)
    (hnode : (g i).1 .node = S.name i) :
    Consistent S (z.modify h Session.arm) m (restage g i (.watched h)) p := by
  have hi := hc.tracks i
  rw [hopened] at hi
  obtain ⟨hp, hx⟩ := hi
  have hread : ∀ h', p i = .toRead h' → h' = h := by
    rw [hp]
    nofun
  have htracks : Tracks S (z.modify h Session.arm) i (m i .nodeMode) (p i) (.watched h) :=
    ⟨hread, _, z.modify_self _ hx, rfl, Or.inr rfl⟩
  rw [← Function.update_eq_self i p]
  refine hc.modify (f := Session.arm) (fun _ => rfl) (by rw [hopened]; rfl) rfl (fun _ => hnode) htracks ?_
  rw [hopened]
  exact fun h' => ⟨nofun, nofun⟩

theorem Consistent.store (hc : Consistent S z m g p) {f : Field} {v : f.type} (hf : f ≠ .nodeMode)
    (hnode : Function.update (g i).1 f v .node = (g i).1 .node ∨ Function.update (g i).1 f v .node = S.name i) :
    Consistent S z (Function.update m i (Function.update (m i) f v))
      (Function.update g i (Function.update (g i).1 f v, (g i).2)) p := by
  have hstage : ∀ j, (Function.update g i (Function.update (g i).1 f v, (g i).2) j).2 = (g j).2 := by
    intro j
    rcases eq_or_ne j i with rfl | hne
    · rw [Function.update_self]
    · rw [Function.update_of_ne hne]
  constructor
  · intro j f' hf'
    rcases eq_or_ne j i with rfl | hne
    · rcases eq_or_ne f' f with rfl | hff
      · simp only [Function.update_self]
      · simp only [Function.update_self, Function.update_of_ne hff]
        exact hc.fields j f' hf'
    · rw [Function.update_of_ne hne, Function.update_of_ne hne]
      exact hc.fields j f' hf'
  · intro j hw
    rw [hstage] at hw
    rcases eq_or_ne j i with rfl | hne
    · rw [Function.update_self]
      exact hnode.elim (fun h => h.trans (hc.node j hw)) id
    · rw [Function.update_of_ne hne]
      exact hc.node j hw
  · intro j
    have hmode : Function.update m i (Function.update (m i) f v) j .nodeMode = m j .nodeMode := by
      rcases eq_or_ne j i with rfl | hne
      · rw [Function.update_self, Function.update_of_ne hf.symm]
      · rw [Function.update_of_ne hne]
    rw [hstage, hmode]
    exact hc.tracks j
  · intro h x hx
    rw [hstage]
    exact hc.owner h x hx
  · exact hc.fresh
  · intro n h
    simp only [hstage]
    exact hc.nodes n h

theorem Consistent.take (hc : Consistent S z m g p) {h : Handle} {x : Session ι} (hx : z.sessions h = some x)
    (howner : x.owner = i) (hpending : 0 < x.pending) :
    Consistent S (z.modify h Session.take) m g (Function.update p i (.toRead h)) := by
  have hhandle := hc.owner h x hx
  rw [howner] at hhandle
  have htracks := (hc.tracks i).take hhandle hx howner hpending
  have hmodify := hc.modify (f := Session.take) (fun _ => rfl) hhandle hhandle (hc.node i) htracks fun _ => Iff.rfl
  rwa [restage_eq_self] at hmodify

theorem Consistent.read (hc : Consistent S z m g p) {h : Handle} (hp : p i = .toRead h) :
    Consistent S (z.modify h Session.arm) m g (Function.update p i (phaseAfter (S.order z.children))) := by
  have hi := hc.tracks i
  rw [hp] at hi
  obtain ⟨hhandle, htracks⟩ := hi.read fun h' hst => hc.mem_children.2 ⟨h', hst⟩
  have hmodify := hc.modify (f := Session.arm) (fun _ => rfl) hhandle hhandle (hc.node i) htracks fun _ => Iff.rfl
  rwa [restage_eq_self] at hmodify

theorem Consistent.settle (hc : Consistent S z m g p) {first : String} (hp : p i = .toWrite first) :
    Consistent S z (Function.update m i (Function.update (m i) .nodeMode (modeFor (S.name i) first))) g
      (Function.update p i .settled) := by
  constructor
  · intro j f hf
    rcases eq_or_ne j i with rfl | hne
    · rw [Function.update_self, Function.update_of_ne hf]
      exact hc.fields j f hf
    · rw [Function.update_of_ne hne]
      exact hc.fields j f hf
  · exact hc.node
  · intro j
    rcases eq_or_ne j i with rfl | hne
    · rw [Function.update_self, Function.update_self, Function.update_self]
      have hj := hc.tracks j
      rw [hp] at hj
      exact hj.settle
    · rw [Function.update_of_ne hne, Function.update_of_ne hne]
      exact hc.tracks j
  · exact hc.owner
  · exact hc.fresh
  · exact hc.nodes

variable {q : Request} {r : Reply q} {z' : Zk ι} {m' : Manager}

/-- The service answers the caller as its contract says. -/
theorem serve_caller (hc : Consistent S z m g p) (hserve : Serve S i z (m i) q r z' m')
    (hpre : CallerPre S i (g i) q) (hjoin : ∀ h, q = .zookeeperClose h → p i = .settled) :
    ∃ g', CallerReply S (g i) q r g' ∧ Consistent S z' (Function.update m i m') (Function.update g i g') p := by
  cases hserve with
  | load f =>
      refine ⟨g i, ⟨hc.fields i f hpre, rfl⟩, ?_⟩
      rwa [Function.update_eq_self, Function.update_eq_self]
  | store f v =>
      refine ⟨_, rfl, hc.store ?_ ?_⟩
      · rintro rfl
        exact hpre
      · cases f with
        | node => exact Or.inr hpre
        | nodeMode => cases hpre
        | _ => exact Or.inl rfl
  | onMasterEvent => cases hpre
  | zookeeperInit hosts timeout =>
      refine ⟨_, ⟨z.next, rfl, rfl⟩, ?_⟩
      rw [Function.update_eq_self]
      exact hc.openSession hpre
  | zookeeperClose h =>
      refine ⟨_, rfl, ?_⟩
      rw [Function.update_eq_self]
      exact hc.close hpre (hjoin h rfl)
  | existsPath h x hx =>
      refine ⟨g i, ⟨rfl, Or.inl rfl, fun _ => Or.inl rfl, fun _ => rfl⟩, ?_⟩
      rwa [Function.update_eq_self, Function.update_eq_self]
  | existsNode h name x hx hname =>
      have hown := childPath_injective S (hpre.2.resolve_left (childPath_ne S name))
      rw [hown] at hname
      refine ⟨g i, ⟨rfl, Or.inl rfl, fun _ => Or.inr (hc.mem_children.1 hname), fun _ => rfl⟩, ?_⟩
      rwa [Function.update_eq_self, Function.update_eq_self]
  | existsNot h path x hx hpath hname =>
      have hown := hpre.2.resolve_left hpath
      refine ⟨g i, ⟨rfl, Or.inr rfl, nofun, ?_⟩, ?_⟩
      · rintro (heq | hcreated)
        · exact absurd heq hpath
        · exact absurd hown (hname _ (hc.mem_children.2 hcreated))
      · rwa [Function.update_eq_self, Function.update_eq_self]
  | zooCreate h name value x hx hname =>
      obtain ⟨⟨h', heq, hwatched⟩, hpath, -⟩ := hpre
      cases heq
      obtain rfl := childPath_injective S hpath
      refine ⟨_, ⟨rfl, h, rfl, rfl⟩, ?_⟩
      rw [Function.update_eq_self]
      exact hc.create hwatched
  | zooGetChildren h x hx =>
      obtain ⟨⟨h', heq, hopened⟩, -, hnode⟩ := hpre
      cases heq
      refine ⟨_, ⟨h, rfl, rfl⟩, ?_⟩
      rw [Function.update_eq_self]
      exact hc.watch hopened hnode

/-- The service answers the callback as its contract says. -/
theorem serve_callback (hc : Consistent S z m g p) (hserve : Serve S i z (m i) q r z' m')
    (hpre : CallbackPre S i (p i) q) :
    ∃ p', CallbackReply S i (p i) q r p' ∧ Consistent S z' (Function.update m i m') g (Function.update p i p') := by
  cases hserve with
  | load f =>
      refine ⟨p i, ?_, by rwa [Function.update_eq_self, Function.update_eq_self]⟩
      cases f with
      | node =>
          obtain ⟨first, hp⟩ := hpre
          refine ⟨?_, rfl⟩
          rw [hc.fields i .node nofun]
          exact hc.node i ((hc.tracks i).watching (by rw [hp]; nofun))
      | eventHandlers => exact rfl
      | _ => cases hpre
  | store f v =>
      cases f with
      | nodeMode =>
          obtain ⟨first, hp, rfl⟩ := hpre
          exact ⟨.settled, rfl, hc.settle hp⟩
      | _ => cases hpre
  | onMasterEvent => exact ⟨p i, rfl, by rwa [Function.update_eq_self, Function.update_eq_self]⟩
  | zooGetChildren h x hx =>
      obtain ⟨⟨h', heq, hp⟩, -⟩ := hpre
      cases heq
      refine ⟨phaseAfter (S.order z.children), ?_, ?_⟩
      · cases S.order z.children <;> exact ⟨rfl, rfl⟩
      · rw [Function.update_eq_self]
        exact hc.read hp
  | _ => cases hpre

end consistent

end StudyNotes.Cluster.Consistency
