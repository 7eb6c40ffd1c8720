import StudyNotes.Curl.Transfers

namespace StudyNotes.Curl.Sockets

open Heap.Program Heap.Triple Heap.Variants Program Transfers

variable {A : Allocator Block} {strerror : Nat → List UInt8} {past : Past} {order : List Nat} {s : State}
variable {watch : Nat → Nat} {sockfd : Nat}

def without (sockets : List (Nat × Addr)) (sockfd : Nat) : List (Nat × Addr) := sockets.filter (fun p => p.1 ≠ sockfd)

theorem mem_without {sockets : List (Nat × Addr)} {p : Nat × Addr} (hp : p ∈ without sockets sockfd) : p.1 ≠ sockfd :=
  of_decide_eq_true (List.mem_filter.mp hp).2

theorem coe_of_lookup {sockets : List (Nat × Addr)} {context : Addr} (hnodup : (sockets.map Prod.fst).Nodup)
    (h : sockets.lookup sockfd = some context) :
    (sockets : Multiset (Nat × Addr)) = (sockfd, context) ::ₘ ↑(without sockets sockfd) := by
  induction sockets with
  | nil => exact absurd h (by simp)
  | cons p rest ih =>
      obtain ⟨k, c⟩ := p
      obtain ⟨hk, hrest⟩ := List.nodup_cons.mp hnodup
      by_cases hkey : k = sockfd
      · subst hkey
        rw [List.lookup_cons_self] at h
        cases h
        have hall : ∀ p ∈ rest, decide (p.1 ≠ k) = true :=
          fun p hp => decide_eq_true fun heq => hk (List.mem_map.mpr ⟨p, hp, heq⟩)
        rw [without, List.filter_cons_of_neg (by simp), List.filter_eq_self.mpr hall]
        rfl
      · have hlookup : rest.lookup sockfd = some context := by
          rwa [List.lookup_cons, beq_false_of_ne (Ne.symm hkey)] at h
        rw [without, List.filter_cons_of_pos (by simpa using hkey), ← Multiset.cons_coe, ih hrest hlookup,
          Multiset.cons_swap, Multiset.cons_coe (k, c)]
        rfl

theorem without_of_lookup {sockets : List (Nat × Addr)} (h : sockets.lookup sockfd = none) : without sockets sockfd = sockets := by
  refine List.filter_eq_self.mpr fun p hp => decide_eq_true fun heq => ?_
  have := List.lookup_eq_none_iff.mp h p hp
  simp [heq] at this

theorem mem_keys_without {sockets : List (Nat × Addr)} {k : Nat} (hk : k ≠ sockfd) :
    k ∈ (without sockets sockfd).map Prod.fst ↔ k ∈ sockets.map Prod.fst := by
  simp only [without, List.mem_map, List.mem_filter, decide_eq_true_eq]
  constructor
  · rintro ⟨p, ⟨hp, -⟩, heq⟩
    exact ⟨p, hp, heq⟩
  · rintro ⟨p, hp, rfl⟩
    exact ⟨p, ⟨hp, hk⟩, rfl⟩

theorem watched_removed {sockets sockets' : List (Nat × Addr)} (h : without sockets sockfd = sockets')
    (hw : ∀ k, k ∈ sockets.map Prod.fst ↔ watch k ≠ 0) (k : Nat) :
    k ∈ sockets'.map Prod.fst ↔ Function.update watch sockfd 0 k ≠ 0 := by
  rw [← h]
  by_cases hk : k = sockfd
  · subst hk
    rw [Function.update_self]
    refine iff_of_false (fun hmem => ?_) (fun h => h rfl)
    obtain ⟨p, hp, heq⟩ := List.mem_map.mp hmem
    exact mem_without hp heq
  · rw [Function.update_of_ne hk, mem_keys_without hk]
    exact hw k

theorem watched_assigned {sockets : List (Nat × Addr)} {context : Addr} {events : Nat} (hne : events ≠ 0)
    (hw : ∀ k, k ∈ sockets.map Prod.fst ↔ watch k ≠ 0) (k : Nat) :
    k ∈ (assign sockets sockfd context).map Prod.fst ↔ Function.update watch sockfd events k ≠ 0 := by
  by_cases hk : k = sockfd
  · subst hk
    rw [Function.update_self]
    exact iff_of_true List.mem_cons_self hne
  · rw [Function.update_of_ne hk, ← hw k]
    exact (List.mem_cons.trans (or_iff_right hk)).trans (mem_keys_without hk)

theorem events_ne_zero {action : Action} (ha : action ≠ .pollRemove) : action.events ≠ 0 := by
  cases action with
  | pollRemove => exact absurd rfl ha
  | pollIn | pollOut | pollInout => decide

/-- The memory of the other sockets and of the contexts that are being closed. -/
def others (watch : Nat → Nat) (s : State) (sockfd : Nat) : Multiset (Addr × Block) :=
  ↑((without s.sockets sockfd).map (contextCell watch)) + ↑(s.closing.map closingCell)

theorem polled_of_lookup {context : Addr} (hnodup : (s.sockets.map Prod.fst).Nodup)
    (h : s.sockets.lookup sockfd = some context) :
    polled watch s = (context, .context sockfd (watch sockfd) false) ::ₘ others watch s sockfd := by
  rw [polled, others, ← Multiset.map_coe, coe_of_lookup hnodup h, Multiset.map_cons, Multiset.cons_add]
  rfl

theorem polled_of_lookup_none (h : s.sockets.lookup sockfd = none) : polled watch s = others watch s sockfd := by
  rw [polled, others, without_of_lookup h]

theorem map_contextCell_update (sockets : List (Nat × Addr)) (events : Nat) :
    (without sockets sockfd).map (contextCell (Function.update watch sockfd events)) =
      (without sockets sockfd).map (contextCell watch) := by
  refine List.map_congr_left fun p hp => ?_
  rw [contextCell, contextCell, Function.update_of_ne (mem_without hp)]

theorem polled_assign (s : State) (context : Addr) (events : Nat) :
    polled (Function.update watch sockfd events) { s with sockets := assign s.sockets sockfd context } =
      (context, .context sockfd events false) ::ₘ others watch s sockfd := by
  have hself : contextCell (Function.update watch sockfd events) (sockfd, context) =
      (context, .context sockfd events false) := by
    rw [contextCell, Function.update_self]
  have hlist : (assign s.sockets sockfd context).map (contextCell (Function.update watch sockfd events)) =
      (context, .context sockfd events false) :: (without s.sockets sockfd).map (contextCell watch) := by
    rw [assign, List.map_cons, hself, ← without, map_contextCell_update]
  rw [polled, hlist, ← Multiset.cons_coe, Multiset.cons_add]
  rfl

theorem polled_release (s : State) (context : Addr) (events : Nat) :
    polled (Function.update watch sockfd events)
        { s with sockets := without s.sockets sockfd, closing := (sockfd, context) :: s.closing } =
      (context, .context sockfd 0 true) ::ₘ others watch s sockfd := by
  rw [polled, map_contextCell_update, List.map_cons, ← Multiset.cons_coe, Multiset.add_cons]
  rfl

theorem handleSocket_poll {action : Action} (ha : action ≠ .pollRemove) :
    handleSocket A s sockfd action = (do
      let (context, s) ← pollContext A s sockfd
      let (_, s) ← onMem { s with sockets := assign s.sockets sockfd context } (uvPollStart context action.events)
      return s) := by
  cases action with
  | pollRemove => exact absurd rfl ha
  | pollIn | pollOut | pollInout => rfl

theorem pollContext_ok (sockfd : Nat) (h : Inv strerror 0 past order s) :
    ∃ context m, pollContext A s sockfd = .ok (context, { s with mem := m }) ∧
      ∃ events, Holds ((context, .context sockfd events false) ::ₘ
        ((flights s).map (requestCell past.chunks) + others past.watch s sockfd)) m := by
  have hstart := h.holds
  rw [zero_add, cells] at hstart
  cases hlookup : s.sockets.lookup sockfd with
  | some context =>
      rw [polled_of_lookup h.sockets hlookup, Multiset.add_cons] at hstart
      exact ⟨context, s.mem, by rw [pollContext, hlookup], _, hstart⟩
  | none =>
      rw [polled_of_lookup_none hlookup] at hstart
      have hspec : Spec (Holds ((flights s).map (requestCell past.chunks) + others past.watch s sockfd))
          (createCurlContext A sockfd) (fun context m => Holds ((context, .context sockfd 0 false) ::ₘ
            ((flights s).map (requestCell past.chunks) + others past.watch s sockfd)) m) (fun _ => False) :=
        spec_of_bind_pure (spec_malloc_bind (Or.inl (by decide)) fun x _ _ => spec_pure fun m hm => hm)
      obtain ⟨context, m, hexec, hm⟩ := onMem_ok hspec hstart
      exact ⟨context, m, by rw [pollContext, hlookup]; exact hexec, 0, hm⟩

theorem poll_ok {action : Action} (ha : action ≠ .pollRemove) (h : Inv strerror 0 past order s) :
    ∃ s', handleSocket A s sockfd action = .ok s' ∧ Inv strerror 0 (past.after (.socket sockfd action)) order s' ∧
      s'.done = s.done ∧ s'.performing = s.performing := by
  obtain ⟨context, m, hcontext, events, hm⟩ := pollContext_ok (A := A) sockfd h
  have hspec : Spec (Holds ((context, .context sockfd events false) ::ₘ
        ((flights s).map (requestCell past.chunks) + others past.watch s sockfd)))
      (uvPollStart context action.events) (fun _ m => Holds ((context, .context sockfd action.events false) ::ₘ
        ((flights s).map (requestCell past.chunks) + others past.watch s sockfd)) m) (fun _ => False) := by
    refine spec_loadAs_bind (Multiset.mem_cons_self _ _) rfl (spec_assert_bind rfl ?_)
    exact spec_of_bind_pure (spec_store_bind (spec_pure fun _ hm => hm))
  obtain ⟨_, m', hexec, hm'⟩ :=
    onMem_ok (s := { s with mem := m, sockets := assign s.sockets sockfd context }) hspec hm
  refine ⟨{ s with mem := m', sockets := assign s.sockets sockfd context }, ?_, ⟨?_, h.reqid, h.easies, ?_, h.reports,
    h.numbers, h.done, h.running, h.reported, h.fresh, watched_assigned (events_ne_zero ha) h.watched⟩, rfl, rfl⟩
  · rw [handleSocket_poll ha, hcontext]
    change (onMem { s with mem := m, sockets := assign s.sockets sockfd context } _ >>= _) = _
    rw [hexec]
    rfl
  · rw [zero_add, cells, Past.after, polled_assign { s with mem := m' }, Multiset.add_cons]
    exact hm'
  · refine List.nodup_cons.mpr ⟨fun hmem => ?_, h.sockets.sublist (List.filter_sublist.map _)⟩
    obtain ⟨p, hp, heq⟩ := List.mem_map.mp hmem
    exact mem_without hp heq

theorem remove_ok (h : Inv strerror 0 past order s) :
    ∃ s', handleSocket A s sockfd .pollRemove = .ok s' ∧
      Inv strerror 0 (past.after (.socket sockfd .pollRemove)) order s' ∧ s'.done = s.done ∧
      s'.performing = s.performing := by
  cases hlookup : s.sockets.lookup sockfd with
  | none =>
      refine ⟨s, by rw [handleSocket, hlookup], ⟨?_, h.reqid, h.easies, h.sockets, h.reports, h.numbers, h.done, h.running,
        h.reported, h.fresh, watched_removed (without_of_lookup hlookup) h.watched⟩, rfl, rfl⟩
      have hpolled : polled (Function.update past.watch sockfd Action.pollRemove.events) s = polled past.watch s := by
        rw [polled_of_lookup_none hlookup, polled_of_lookup_none hlookup, others, map_contextCell_update]
        rfl
      rw [cells, Past.after, hpolled]
      exact h.holds
  | some context =>
      have hstart := h.holds
      rw [zero_add, cells, polled_of_lookup h.sockets hlookup, Multiset.add_cons] at hstart
      have hstop : Spec (Holds ((context, .context sockfd (past.watch sockfd) false) ::ₘ
            ((flights s).map (requestCell past.chunks) + others past.watch s sockfd)))
          (uvPollStop context) (fun _ m => Holds ((context, .context sockfd 0 false) ::ₘ
            ((flights s).map (requestCell past.chunks) + others past.watch s sockfd)) m) (fun _ => False) := by
        refine spec_loadAs_bind (Multiset.mem_cons_self _ _) rfl ?_
        exact spec_of_bind_pure (spec_store_bind (spec_pure fun _ hm => hm))
      obtain ⟨_, m, hexec, hm⟩ := onMem_ok hstop hstart
      have hdestroy : Spec (Holds ((context, .context sockfd 0 false) ::ₘ
            ((flights s).map (requestCell past.chunks) + others past.watch s sockfd)))
          (destroyCurlContext context) (fun _ m => Holds ((context, .context sockfd 0 true) ::ₘ
            ((flights s).map (requestCell past.chunks) + others past.watch s sockfd)) m) (fun _ => False) := by
        refine spec_loadAs_bind (Multiset.mem_cons_self _ _) rfl (spec_assert_bind rfl ?_)
        exact spec_of_bind_pure (spec_store_bind (spec_pure fun _ hm => hm))
      obtain ⟨_, m', hexec', hm'⟩ := onMem_ok (s := { s with mem := m }) hdestroy hm
      refine ⟨{ s with mem := m', sockets := without s.sockets sockfd, closing := (sockfd, context) :: s.closing }, ?_, ⟨?_,
        h.reqid, h.easies, h.sockets.sublist (List.filter_sublist.map _), h.reports, h.numbers, h.done, h.running,
        h.reported, h.fresh, watched_removed rfl h.watched⟩, rfl, rfl⟩
      · rw [handleSocket, hlookup]
        change (onMem s (uvPollStop context) >>= _) = _
        rw [hexec]
        change (onMem { s with mem := m } (destroyCurlContext context) >>= _) = _
        rw [hexec']
        rfl
      · rw [zero_add, cells, Past.after, polled_release { s with mem := m' }, Multiset.add_cons]
        exact hm'

theorem socket_ok (sockfd : Nat) (action : Action) (h : Inv strerror 0 past order s) :
    ∃ s', Event.exec A strerror s (.socket sockfd action) = .ok s' ∧
      Inv strerror 0 (past.after (.socket sockfd action)) order s' ∧ s'.done = s.done ∧ s'.performing = s.performing := by
  by_cases ha : action = .pollRemove
  · subst ha
    exact remove_ok (A := A) h
  · exact poll_ok (A := A) ha h

end StudyNotes.Curl.Sockets
