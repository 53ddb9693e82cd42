import Mathlib.Data.List.Basic

namespace CheshireCat.Base

variable {σ τ ε ω : Type}

/-- The answers of a machine that executes one call after the other. -/
def answers (step : σ → ε → ω × σ) : σ → List ε → List ω
  | _, [] => []
  | s, e :: es => (step s e).1 :: answers step (step s e).2 es

/-- The state after the calls. -/
def after (step : σ → ε → ω × σ) (s : σ) (es : List ε) : σ :=
  es.foldl (fun s e => (step s e).2) s

/-- The condition is true after each call. -/
def Always (step : σ → ε → ω × σ) (cond : σ → Prop) : σ → List ε → Prop
  | _, [] => True
  | s, e :: es => cond (step s e).2 ∧ Always step cond (step s e).2 es

theorem after_keeps {step : σ → ε → ω × σ} {I : σ → Prop} (keep : ∀ s e, I s → I (step s e).2)
    {s : σ} (es : List ε) (hs : I s) : I (after step s es) := by
  induction es generalizing s with
  | nil => exact hs
  | cons e es ih => exact ih (keep s e hs)

/-- Two machines that answer alike in related states, and stay related, give the same
answers. -/
theorem answers_eq {step : σ → ε → ω × σ} {step' : τ → ε → ω × τ} {R : σ → τ → Prop}
    {Q : ε → Prop} {cond : τ → Prop}
    (sim : ∀ s t e, Q e → R s t → cond (step' t e).2 →
      (step s e).1 = (step' t e).1 ∧ R (step s e).2 (step' t e).2)
    {s : σ} {t : τ} {es : List ε} (hasked : ∀ e ∈ es, Q e) (hcond : Always step' cond t es)
    (h : R s t) : answers step s es = answers step' t es := by
  induction es generalizing s t with
  | nil => rfl
  | cons e es ih =>
    obtain ⟨hsame, hrelated⟩ := sim s t e (hasked e List.mem_cons_self) h hcond.1
    rw [answers, answers, hsame,
      ih (fun e' he' => hasked e' (List.mem_cons_of_mem e he')) hcond.2 hrelated]

theorem always_true (step : σ → ε → ω × σ) (s : σ) (es : List ε) :
    Always step (fun _ => True) s es := by
  induction es generalizing s with
  | nil => trivial
  | cons e es ih => exact ⟨trivial, ih _⟩

end CheshireCat.Base
