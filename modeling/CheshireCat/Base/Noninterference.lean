import CheshireCat.Base.Answers

/-! A machine that serves many: what one of them sees does not depend on the calls of the others. -/

namespace CheshireCat.Base

variable {σ ε ω : Type}

/-- The answers to some of the calls. -/
def answersTo (mine : ε → Bool) (step : σ → ε → ω × σ) : σ → List ε → List ω
  | _, [] => []
  | s, e :: es =>
    if mine e then (step s e).1 :: answersTo mine step (step s e).2 es
    else answersTo mine step (step s e).2 es

/-- Every call finds the condition true in the state in which it is executed. -/
def Along (step : σ → ε → ω × σ) (cond : σ → ε → Prop) : σ → List ε → Prop
  | _, [] => True
  | s, e :: es => cond s e ∧ Along step cond (step s e).2 es

/-- A condition that each of the calls meets wherever it is executed. -/
theorem along_and {step : σ → ε → ω × σ} {cond : σ → ε → Prop} {cond' : ε → Prop} {s : σ}
    {es : List ε} (h : Along step cond s es) (h' : ∀ e ∈ es, cond' e) :
    Along step (fun s e => cond s e ∧ cond' e) s es := by
  induction es generalizing s with
  | nil => trivial
  | cons e es ih =>
    exact ⟨⟨h.1, h' e List.mem_cons_self⟩,
      ih h.2 (fun e' he' => h' e' (List.mem_cons_of_mem e he'))⟩

theorem after_cons (step : σ → ε → ω × σ) (s : σ) (e : ε) (es : List ε) :
    after step s (e :: es) = after step (step s e).2 es := rfl

/-- The calls of the others keep the relation to the run without them, and the own calls are answered
alike in related states and keep it. Then the run without the others gives the same answers. -/
theorem unwinding {mine : ε → Bool} {step : σ → ε → ω × σ} {cond : σ → ε → Prop} {R : σ → σ → Prop}
    (others : ∀ s t e, mine e = false → cond s e → R s t → R (step s e).2 t)
    (own : ∀ s t e, mine e = true → cond s e → R s t →
      (step s e).1 = (step t e).1 ∧ R (step s e).2 (step t e).2)
    {s t : σ} {es : List ε} (hcond : Along step cond s es) (h : R s t) :
    answersTo mine step s es = answers step t (es.filter mine) ∧
      R (after step s es) (after step t (es.filter mine)) := by
  induction es generalizing s t with
  | nil => exact ⟨rfl, h⟩
  | cons e es ih =>
    rw [answersTo, after_cons]
    cases hmine : mine e with
    | true =>
      obtain ⟨hsame, hrelated⟩ := own s t e hmine hcond.1 h
      obtain ⟨hanswers, hafter⟩ := ih hcond.2 hrelated
      rw [List.filter_cons_of_pos hmine, answers, after_cons, if_pos rfl, hsame, hanswers]
      exact ⟨rfl, hafter⟩
    | false =>
      rw [List.filter_cons_of_neg (by simp [hmine]), if_neg (by simp)]
      exact ih hcond.2 (others s t e hmine hcond.1 h)

end CheshireCat.Base
