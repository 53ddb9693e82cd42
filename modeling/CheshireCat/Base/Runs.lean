import Mathlib.Data.List.Basic

namespace CheshireCat.Base

variable {σ ε : Type}

/-- The events are executed in order; an event that is not enabled ends in `none`. -/
def run (step : σ → ε → Option σ) : σ → List ε → Option σ
  | s, [] => some s
  | s, e :: es => (step s e).bind (fun t => run step t es)

/-- Every event finds the condition true in the state in which it is executed. -/
def Meets (step : σ → ε → Option σ) (cond : σ → ε → Prop) : σ → List ε → Prop
  | _, [] => True
  | s, e :: es => cond s e ∧ ∀ t, step s e = some t → Meets step cond t es

instance decidableMeets {step : σ → ε → Option σ} {cond : σ → ε → Prop}
    [∀ s e, Decidable (cond s e)] : (s : σ) → (es : List ε) → Decidable (Meets step cond s es)
  | _, [] => isTrue trivial
  | s, e :: es =>
    match h : step s e with
    | none => decidable_of_iff (cond s e) (by simp [Meets, h])
    | some t =>
      have : Decidable (Meets step cond t es) := decidableMeets t es
      decidable_of_iff (cond s e ∧ Meets step cond t es) (by simp [Meets, h])

theorem run_cons_some {step : σ → ε → Option σ} {s u : σ} {e : ε} {es : List ε}
    (h : run step s (e :: es) = some u) : ∃ t, step s e = some t ∧ run step t es = some u :=
  Option.bind_eq_some_iff.mp h

theorem run_append (step : σ → ε → Option σ) (s : σ) (es more : List ε) :
    run step s (es ++ more) = (run step s es).bind (fun t => run step t more) := by
  induction es generalizing s with
  | nil => rfl
  | cons e es ih =>
    rw [List.cons_append, run, run, Option.bind_assoc]
    congr 1
    exact funext ih

/-- What each step preserves, a whole run preserves. -/
theorem run_keeps {step : σ → ε → Option σ} {I : σ → Prop}
    (keep : ∀ s e t, I s → step s e = some t → I t)
    {s t : σ} {es : List ε} (hs : I s) (h : run step s es = some t) : I t := by
  induction es generalizing s with
  | nil => exact Option.some.inj h ▸ hs
  | cons e es ih =>
    obtain ⟨u, hu, ht⟩ := run_cons_some h
    exact ih (keep s e u hs hu) ht

/-- A step may use the condition that the run meets. -/
theorem run_keeps_when {step : σ → ε → Option σ} {cond : σ → ε → Prop} {I : σ → Prop}
    (keep : ∀ s e t, cond s e → I s → step s e = some t → I t)
    {s t : σ} {es : List ε} (hm : Meets step cond s es) (hs : I s)
    (h : run step s es = some t) : I t := by
  induction es generalizing s with
  | nil => exact Option.some.inj h ▸ hs
  | cons e es ih =>
    obtain ⟨u, hu, ht⟩ := run_cons_some h
    exact ih (hm.2 u hu) (keep s e u hm.1 hs hu) ht

/-- A condition that an invariant turns into another one. -/
theorem Meets.of_invariant {step : σ → ε → Option σ} {cond cond' : σ → ε → Prop} {I : σ → Prop}
    (keep : ∀ s e t, cond s e → I s → step s e = some t → I t)
    (imp : ∀ s e, cond s e → I s → cond' s e)
    {s : σ} {es : List ε} (hm : Meets step cond s es) (hs : I s) : Meets step cond' s es := by
  induction es generalizing s with
  | nil => trivial
  | cons e es ih =>
    refine ⟨imp s e hm.1 hs, ?_⟩
    intro t ht
    exact ih (hm.2 t ht) (keep s e t hm.1 hs ht)

/-- Where the condition says of each step whether it keeps the invariant, a run keeps the
invariant in all its states exactly when it meets the condition. -/
theorem keeps_iff_meets {step : σ → ε → Option σ} {cond : σ → ε → Prop} {I : σ → Prop}
    (exact : ∀ s e, I s → (cond s e ↔ ∀ t, step s e = some t → I t))
    {s : σ} {es : List ε} (hs : I s) :
    (∀ p, p <+: es → ∀ t, run step s p = some t → I t) ↔ Meets step cond s es := by
  induction es generalizing s with
  | nil =>
    refine ⟨fun _ => trivial, ?_⟩
    intro _ p hp t ht
    rw [List.prefix_nil.mp hp] at ht
    exact Option.some.inj ht ▸ hs
  | cons e es ih =>
    constructor
    · intro h
      have hstep : ∀ t, step s e = some t → I t := by
        intro t ht
        apply h [e] ⟨es, rfl⟩ t
        rw [run, ht, Option.bind_some, run]
      refine ⟨(exact s e hs).mpr hstep, ?_⟩
      intro t ht
      apply (ih (hstep t ht)).mp
      intro p hp u hu
      apply h (e :: p) ((List.prefix_cons_inj e).mpr hp) u
      rw [run, ht]
      exact hu
    · intro hm p hp t ht
      cases p with
      | nil => exact Option.some.inj ht ▸ hs
      | cons e' p =>
        obtain ⟨rfl, hrest⟩ := List.cons_prefix_cons.mp hp
        obtain ⟨u, hu, ht⟩ := run_cons_some ht
        have hI : I u := (exact s e' hs).mp hm.1 u hu
        exact (ih hI).mpr (hm.2 u hu) p hrest t ht

/-- What is true after a run of steps that never fail was true at the start, or came with one of the
steps. -/
theorem foldl_origin {step : σ → ε → σ} {P : σ → Prop} {New : σ → ε → Prop}
    (origin : ∀ s e, P (step s e) → P s ∨ New s e) {s : σ} {es : List ε} (h : P (es.foldl step s)) :
    P s ∨ ∃ before e rest, es = before ++ e :: rest ∧ New (before.foldl step s) e := by
  induction es generalizing s with
  | nil => exact Or.inl h
  | cons e es ih =>
    rcases ih h with hstep | ⟨before, e', rest, rfl, hnew⟩
    · exact (origin s e hstep).imp_right (fun hnew => ⟨[], e, es, rfl, hnew⟩)
    · exact Or.inr ⟨e :: before, e', rest, rfl, hnew⟩

end CheshireCat.Base
