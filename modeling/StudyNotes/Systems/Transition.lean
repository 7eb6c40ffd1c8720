import Mathlib.Data.List.Basic

namespace StudyNotes.Systems.Transition

variable {σ ε : Type}

structure System (σ ε : Type) where
  init : σ → Prop
  step : σ → ε → σ → Prop

/-- A finite run, with the events taken and the states in which they were taken. -/
inductive Run (T : System σ ε) : List (σ × ε) → σ → Prop
  | start {s : σ} (h : T.init s) : Run T [] s
  | next {tr : List (σ × ε)} {s s' : σ} {e : ε} (h : Run T tr s) (hs : T.step s e s') : Run T (tr ++ [(s, e)]) s'

def Reachable (T : System σ ε) (s : σ) : Prop := ∃ tr, Run T tr s

/-- No event is possible. -/
def Stuck (T : System σ ε) (s : σ) : Prop := ∀ e s', ¬T.step s e s'

/-- What the events of a run show, in order. -/
def along {α : Type} (f : ε → List α) (tr : List (σ × ε)) : List α := tr.flatMap fun p => f p.2

theorem along_concat {α : Type} (f : ε → List α) (tr : List (σ × ε)) (s : σ) (e : ε) :
    along f (tr ++ [(s, e)]) = along f tr ++ f e := by
  simp [along]

def events (tr : List (σ × ε)) : List ε := tr.map Prod.snd

theorem events_concat (tr : List (σ × ε)) (s : σ) (e : ε) : events (tr ++ [(s, e)]) = events tr ++ [e] :=
  List.map_append

theorem events_eq_concat {tr : List (σ × ε)} {es : List ε} {e : ε} (h : events tr = es ++ [e]) :
    ∃ tr' s, tr = tr' ++ [(s, e)] := by
  obtain ⟨tr', last, rfl, -, hlast⟩ := List.map_eq_append_iff.1 h
  obtain ⟨⟨s, e'⟩, rfl, rfl⟩ := List.map_eq_singleton_iff.1 hlast
  exact ⟨tr', s, rfl⟩

theorem along_append {α : Type} (f : ε → List α) (tr tr' : List (σ × ε)) :
    along f (tr ++ tr') = along f tr ++ (events tr').flatMap f := by
  simp [along, events, List.flatMap_map]

variable {T : System σ ε}

theorem Run.last {tr : List (σ × ε)} {s s' : σ} {e : ε} (h : Run T (tr ++ [(s, e)]) s') : T.step s e s' := by
  generalize htr : tr ++ [(s, e)] = tr' at h
  cases h with
  | start h => exact absurd htr (List.concat_ne_nil _ _)
  | next h hs =>
      obtain ⟨-, heq⟩ := List.append_inj' htr rfl
      cases heq
      exact hs

theorem Run.next_after {tr tr' : List (σ × ε)} {s s' : σ} {e : ε} (h : Run T (tr ++ tr') s) (hs : T.step s e s') :
    ∃ tr'' s'', Run T (tr ++ tr'') s'' ∧ events tr'' = events tr' ++ [e] := by
  refine ⟨tr' ++ [(s, e)], s', ?_, events_concat tr' s e⟩
  rw [← List.append_assoc]
  exact h.next hs

theorem Run.reachable {tr : List (σ × ε)} {s : σ} (h : Run T tr s) : Reachable T s := ⟨tr, h⟩

theorem Reachable.start {s : σ} (h : T.init s) : Reachable T s := ⟨[], .start h⟩

theorem Reachable.next {s s' : σ} {e : ε} (h : Reachable T s) (hs : T.step s e s') : Reachable T s' := by
  obtain ⟨tr, h⟩ := h
  exact ⟨_, .next h hs⟩

/-- The rule for what holds along every run, of the state and of what led to it. -/
theorem Run.induct {I : List (σ × ε) → σ → Prop} (hinit : ∀ s, T.init s → I [] s)
    (hstep : ∀ tr s e s', Run T tr s → I tr s → T.step s e s' → I (tr ++ [(s, e)]) s')
    {tr : List (σ × ε)} {s : σ} (h : Run T tr s) : I tr s := by
  induction h with
  | start h => exact hinit _ h
  | next h hs ih => exact hstep _ _ _ _ h ih hs

theorem Reachable.invariant {I : σ → Prop} (hinit : ∀ s, T.init s → I s)
    (hstep : ∀ s e s', I s → T.step s e s' → I s') {s : σ} (h : Reachable T s) : I s := by
  obtain ⟨tr, h⟩ := h
  exact Run.induct (I := fun _ => I) hinit (fun _ s e s' _ hI hs => hstep s e s' hI hs) h

end StudyNotes.Systems.Transition
