import StudyNotes.Systems.Transition

namespace StudyNotes.Systems.Refinement

open Transition

variable {σ τ ε δ : Type}

/-- The events of a run that the upper system sees, with its states. -/
def shadow (abs : σ → τ) (ev : ε → Option δ) (tr : List (σ × ε)) : List (τ × δ) :=
  tr.filterMap fun p => (ev p.2).map (Prod.mk (abs p.1))

/-- Under the invariant a step of the lower system is a step of the upper one, or
is not seen there. -/
structure Simulates (T : System σ ε) (U : System τ δ) (abs : σ → τ) (ev : ε → Option δ) (I : σ → Prop) : Prop where
  init : ∀ s, T.init s → I s ∧ U.init (abs s)
  keep : ∀ s e s', I s → T.step s e s' → I s'
  silent : ∀ s e s', I s → T.step s e s' → ev e = none → abs s' = abs s
  visible : ∀ s e s' d, I s → T.step s e s' → ev e = some d → U.step (abs s) d (abs s')

variable {T : System σ ε} {U : System τ δ} {abs : σ → τ} {ev : ε → Option δ} {I : σ → Prop}

theorem shadow_concat (tr : List (σ × ε)) (s : σ) (e : ε) :
    shadow abs ev (tr ++ [(s, e)]) = shadow abs ev tr ++ ((ev e).map (Prod.mk (abs s))).toList := by
  rw [shadow, List.filterMap_append, shadow]
  cases he : ev e <;> simp [he]

theorem Simulates.reachable (h : Simulates T U abs ev I) {s : σ} (hr : Reachable T s) : I s :=
  Reachable.invariant (fun s hs => (h.init s hs).1) h.keep hr

theorem Simulates.run (h : Simulates T U abs ev I) {tr : List (σ × ε)} {s : σ} (hr : Run T tr s) :
    Run U (shadow abs ev tr) (abs s) := by
  refine Run.induct (I := fun tr s => Run U (shadow abs ev tr) (abs s)) (fun s hs => .start (h.init s hs).2) ?_ hr
  intro tr s e s' hr ih hs
  have hI := h.reachable hr.reachable
  rw [shadow_concat]
  cases he : ev e with
  | none =>
      rw [h.silent s e s' hI hs he]
      simpa using ih
  | some d => exact ih.next (h.visible s e s' d hI hs he)

/-- If every reachable state in K that is no goal has a step in P that stays in K and
goes down in the measure, a run can be continued to a goal by steps in P. -/
theorem exists_goal {K goal : σ → Prop} {P : ε → Prop} (μ : σ → Nat)
    (h : ∀ s, Reachable T s → K s → ¬goal s → ∃ e s', T.step s e s' ∧ P e ∧ K s' ∧ μ s' < μ s)
    {tr : List (σ × ε)} {s : σ} (hr : Run T tr s) (hs : K s) :
    ∃ tr' s', Run T (tr ++ tr') s' ∧ K s' ∧ goal s' ∧ ∀ p ∈ tr', P p.2 := by
  induction hn : μ s using Nat.strongRecOn generalizing tr s with
  | ind n ih =>
      by_cases hg : goal s
      · exact ⟨[], s, by rwa [List.append_nil], hs, hg, fun _ hp => absurd hp List.not_mem_nil⟩
      · obtain ⟨e, s', hstep, he, hs', hlt⟩ := h s hr.reachable hs hg
        obtain ⟨tr', t, ht, htK, hgt, htP⟩ := ih _ (hn ▸ hlt) (hr.next hstep) hs' rfl
        refine ⟨(s, e) :: tr', t, by rwa [← List.singleton_append, ← List.append_assoc], htK, hgt, ?_⟩
        exact List.forall_mem_cons.mpr ⟨he, htP⟩

end StudyNotes.Systems.Refinement
