import Mathlib.Data.List.Basic

namespace StudyNotes.Systems.Interaction

/-- A program that makes requests of its environment and goes on with the replies. -/
inductive Prog (Q : Type) (R : Q → Type) (α : Type)
  | done (a : α)
  | ask (q : Q) (k : R q → Prog Q R α)
  | diverge

variable {Q : Type} {R : Q → Type} {α β σ : Type}

def Prog.bind : Prog Q R α → (α → Prog Q R β) → Prog Q R β
  | .done a, f => f a
  | .ask q k, f => .ask q fun r => (k r).bind f
  | .diverge, _ => .diverge

instance : Monad (Prog Q R) where
  pure := .done
  bind := .bind

theorem Prog.pure_bind (a : α) (f : α → Prog Q R β) : (pure a : Prog Q R α) >>= f = f a := rfl

theorem Prog.ite_bind (b : Prop) [Decidable b] (p p' : Prog Q R α) (f : α → Prog Q R β) :
    (if b then p else p') >>= f = if b then p >>= f else p' >>= f := by
  split <;> rfl

theorem Prog.bind_assoc {γ : Type} (p : Prog Q R α) (f : α → Prog Q R β) (g : β → Prog Q R γ) :
    p >>= f >>= g = p >>= fun a => f a >>= g := by
  induction p with
  | done a => rfl
  | ask q k ih => exact congrArg (Prog.ask q) (funext ih)
  | diverge => rfl

@[simp] def request (q : Q) : Prog Q R (R q) := .ask q .done

/-- The program with each request carried out by a program over other requests. -/
def Prog.interpret {Q' : Type} {R' : Q' → Type} (f : (q : Q) → Prog Q' R' (R q)) : Prog Q R α → Prog Q' R' α
  | .done a => .done a
  | .ask q k => (f q).bind fun r => (k r).interpret f
  | .diverge => .diverge

/-- What may be asked in a state, and the replies with the states they lead to. -/
structure Contract (Q : Type) (R : Q → Type) (σ : Type) where
  pre : σ → Q → Prop
  reply : σ → (q : Q) → R q → σ → Prop

/-- Every request is allowed, and the result has the property whatever the replies. -/
def Contract.wp (C : Contract Q R σ) : Prog Q R α → (α → σ → Prop) → σ → Prop
  | .done a, post, s => post a s
  | .ask q k, post, s => C.pre s q ∧ ∀ r s', C.reply s q r s' → C.wp (k r) post s'
  | .diverge, _, _ => True

variable {C : Contract Q R σ}

@[simp] theorem wp_done (a : α) (post : α → σ → Prop) (s : σ) : C.wp (.done a) post s ↔ post a s := Iff.rfl

@[simp] theorem wp_pure (a : α) (post : α → σ → Prop) (s : σ) : C.wp (pure a) post s ↔ post a s := Iff.rfl

@[simp] theorem wp_diverge (post : α → σ → Prop) (s : σ) : C.wp .diverge post s := trivial

theorem wp_ask (q : Q) (k : R q → Prog Q R α) (post : α → σ → Prop) (s : σ) :
    C.wp (.ask q k) post s ↔ C.pre s q ∧ ∀ r s', C.reply s q r s' → C.wp (k r) post s' := Iff.rfl

@[simp] theorem wp_bind (p : Prog Q R α) (f : α → Prog Q R β) (post : β → σ → Prop) (s : σ) :
    C.wp (p >>= f) post s ↔ C.wp p (fun a s' => C.wp (f a) post s') s := by
  induction p generalizing s with
  | done a => rfl
  | ask q k ih =>
      refine and_congr_right fun _ => forall_congr' fun r => forall_congr' fun s' => ?_
      exact imp_congr_right fun _ => ih r s'
  | diverge => rfl

@[simp] theorem wp_ite (b : Prop) [Decidable b] (p p' : Prog Q R α) (post : α → σ → Prop) (s : σ) :
    C.wp (if b then p else p') post s ↔ (b → C.wp p post s) ∧ (¬b → C.wp p' post s) := by
  split <;> simp [*]

theorem wp_mono {p : Prog Q R α} {post post' : α → σ → Prop} {s : σ} (h : C.wp p post s)
    (hpost : ∀ a s', post a s' → post' a s') : C.wp p post' s := by
  induction p generalizing s with
  | done a => exact hpost a s h
  | ask q k ih => exact ⟨h.1, fun r s' hr => ih r (h.2 r s' hr)⟩
  | diverge => trivial

theorem wp_and {p : Prog Q R α} {post post' : α → σ → Prop} {s : σ} (h : C.wp p post s) (h' : C.wp p post' s) :
    C.wp p (fun a s' => post a s' ∧ post' a s') s := by
  induction p generalizing s with
  | done a => exact ⟨h, h'⟩
  | ask q k ih => exact ⟨h.1, fun r s' hr => ih r (h.2 r s' hr) (h'.2 r s' hr)⟩
  | diverge => trivial

/-- A finished execution of the program. -/
inductive Exec (C : Contract Q R σ) : σ → Prog Q R α → α → σ → Prop
  | done (s : σ) (a : α) : Exec C s (.done a) a s
  | ask {s s' s'' : σ} {q : Q} {k : R q → Prog Q R α} {r : R q} {a : α} (hr : C.reply s q r s')
      (hk : Exec C s' (k r) a s'') : Exec C s (.ask q k) a s''

theorem Exec.of_wp {p : Prog Q R α} {post : α → σ → Prop} {s s' : σ} {a : α} (h : Exec C s p a s')
    (hwp : C.wp p post s) : post a s' := by
  induction h with
  | done s a => exact hwp
  | ask hr hk ih => exact ih (hwp.2 _ _ hr)

/-- The execution against an environment that answers by a function. -/
def Prog.run (serve : σ → (q : Q) → R q × σ) : Prog Q R α → σ → Option (α × σ)
  | .done a, s => some (a, s)
  | .ask q k, s => (k (serve s q).1).run serve (serve s q).2
  | .diverge, _ => none

theorem Exec.of_run {serve : σ → (q : Q) → R q × σ} (hserve : ∀ s q, C.reply s q (serve s q).1 (serve s q).2)
    {p : Prog Q R α} {s s' : σ} {a : α} (h : p.run serve s = some (a, s')) : Exec C s p a s' := by
  induction p generalizing s with
  | done b =>
      cases h
      exact .done _ _
  | ask q k ih => exact .ask (hserve s q) (ih _ h)
  | diverge => cases h

end StudyNotes.Systems.Interaction
