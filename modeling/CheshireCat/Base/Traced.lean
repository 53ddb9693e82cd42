import Mathlib.Data.List.Basic

namespace CheshireCat.Base

variable {σ ε α β : Type}

/-- How a program ended, the state it left and the events of its run in their order. -/
structure Ran (σ ε α : Type) where
  result : Except String α
  state : σ
  trace : List ε

/-- A program over a state that returns or raises. An exception undoes nothing. -/
def Traced (σ ε α : Type) : Type := σ → Ran σ ε α

namespace Traced

def run (c : Traced σ ε α) (s : σ) : Ran σ ε α := c s

def andThen (c : Traced σ ε α) (f : α → Traced σ ε β) : Traced σ ε β := fun s =>
  match c s with
  | ⟨.ok a, s', trace⟩ => ⟨(f a s').result, (f a s').state, trace ++ (f a s').trace⟩
  | ⟨.error error, s', trace⟩ => ⟨.error error, s', trace⟩

def rescue (c : Traced σ ε α) (handler : String → Traced σ ε α) : Traced σ ε α := fun s =>
  match c s with
  | ⟨.ok a, s', trace⟩ => ⟨.ok a, s', trace⟩
  | ⟨.error error, s', trace⟩ =>
    ⟨(handler error s').result, (handler error s').state, trace ++ (handler error s').trace⟩

instance : Monad (Traced σ ε) where
  pure a := fun s => ⟨.ok a, s, []⟩
  bind := andThen

instance : MonadExcept String (Traced σ ε) where
  throw error := fun s => ⟨.error error, s, []⟩
  tryCatch := rescue

def lift (result : Except String α) : Traced σ ε α := fun s => ⟨result, s, []⟩

/-- Code that leaves no events of its own. -/
def call (c : ExceptT String (StateM σ) α) : Traced σ ε α := fun s =>
  ⟨(c.run.run s).1, (c.run.run s).2, []⟩

instance : MonadStateOf σ (Traced σ ε) where
  get := fun s => ⟨.ok s, s, []⟩
  set s := fun _ => ⟨.ok ⟨⟩, s, []⟩
  modifyGet f := fun s => ⟨.ok (f s).1, (f s).2, []⟩

def note (event : ε) : Traced σ ε Unit := fun s => ⟨.ok ⟨⟩, s, [event]⟩

/-- The event tells how the program ended. -/
def observe (event : Except String α → ε) (c : Traced σ ε α) : Traced σ ε α := fun s =>
  ⟨(c s).result, (c s).state, (c s).trace ++ [event (c s).result]⟩

/-- The events of a part as events of the whole. -/
def relabel {ε' : Type} (event : ε → ε') (c : Traced σ ε α) : Traced σ ε' α := fun s =>
  ⟨(c s).result, (c s).state, (c s).trace.map event⟩

/-- The postcondition holds of the result, the state that is left and the events. -/
def Ends (c : Traced σ ε α) (s : σ) (P : Except String α → σ → List ε → Prop) : Prop :=
  P (c s).result (c s).state (c s).trace

variable {P Q : Except String α → σ → List ε → Prop} {R : Except String β → σ → List ε → Prop}
  {c : Traced σ ε α} {s : σ}

theorem ends_run : c.Ends s P ↔ P (c.run s).result (c.run s).state (c.run s).trace := Iff.rfl

theorem Ends.mono (h : c.Ends s P) (hpq : ∀ r s' t, P r s' t → Q r s' t) : c.Ends s Q :=
  hpq _ _ _ h

theorem Ends.and (hp : c.Ends s P) (hq : c.Ends s Q) : c.Ends s (fun r s' t => P r s' t ∧ Q r s' t) :=
  ⟨hp, hq⟩

theorem ends_pure {a : α} (h : P (.ok a) s []) : (pure a : Traced σ ε α).Ends s P := h

theorem ends_lift {result : Except String α} (h : P result s []) :
    (lift result : Traced σ ε α).Ends s P := h

theorem ends_get {P : Except String σ → σ → List ε → Prop} (h : P (.ok s) s []) :
    (get : Traced σ ε σ).Ends s P := h

theorem ends_modify {P : Except String PUnit → σ → List ε → Prop} {f : σ → σ}
    (h : P (.ok ⟨⟩) (f s) []) : (modify f : Traced σ ε PUnit).Ends s P := h

theorem ends_call {c : ExceptT String (StateM σ) α} (h : ∀ r s', P r s' []) :
    (call c : Traced σ ε α).Ends s P := h _ _

theorem ends_call_run {c : ExceptT String (StateM σ) α} (h : P (c.run.run s).1 (c.run.run s).2 []) :
    (call c : Traced σ ε α).Ends s P := h

theorem ends_throw {error : String} (h : P (.error error) s []) :
    (throw error : Traced σ ε α).Ends s P := h

theorem ends_relabel {ε' : Type} {event : ε → ε'} {P : Except String α → σ → List ε' → Prop}
    (h : c.Ends s (fun r s' t => P r s' (t.map event))) : (relabel event c).Ends s P := h

theorem ends_note {P : Except String Unit → σ → List ε → Prop} {event : ε}
    (h : P (.ok ⟨⟩) s [event]) : (note event : Traced σ ε Unit).Ends s P := h

theorem ends_observe {event : Except String α → ε}
    (h : c.Ends s (fun r s' t => P r s' (t ++ [event r]))) : (observe event c).Ends s P := h

/-- What follows runs after a normal return, and not after an exception. -/
theorem ends_bind {f : α → Traced σ ε β}
    (h : c.Ends s (fun r s' t => match r with
      | .ok a => (f a).Ends s' (fun r' s'' t' => R r' s'' (t ++ t'))
      | .error error => R (.error error) s' t)) : (c >>= f).Ends s R := by
  show R (andThen c f s).result (andThen c f s).state (andThen c f s).trace
  rw [Ends] at h
  rw [andThen]
  cases hran : c s with
  | mk result s' t =>
    rw [hran] at h
    cases result with
    | ok a => exact h
    | error error => exact h

/-- The handler sees the state at the exception. -/
theorem ends_try {handler : String → Traced σ ε α}
    (h : c.Ends s (fun r s' t => match r with
      | .ok a => P (.ok a) s' t
      | .error error => (handler error).Ends s' (fun r' s'' t' => P r' s'' (t ++ t')))) :
    (tryCatch c handler).Ends s P := by
  show P (rescue c handler s).result (rescue c handler s).state (rescue c handler s).trace
  rw [Ends] at h
  rw [rescue]
  cases hran : c s with
  | mk result s' t =>
    rw [hran] at h
    cases result with
    | ok a => exact h
    | error error => exact h

/-! ### Loops -/

variable {δ γ : Type} {body : δ → γ → Traced σ ε δ}

/-- The iterations that are done, and the one that has raised. The others have not begun. -/
theorem ends_foldlM {D F : γ → List ε → Prop}
    (h : ∀ acc x s, (body acc x).Ends s (fun r _ t =>
      (∀ acc', r = .ok acc' → D x t) ∧ (∀ error, r = .error error → F x t)))
    (xs : List γ) (acc : δ) (s : σ) :
    (xs.foldlM body acc).Ends s (fun r _ t => ∃ done traces rest last, xs = done ++ rest ∧
      List.Forall₂ D done traces ∧ t = traces.flatten ++ last ∧
      (∀ acc', r = .ok acc' → rest = [] ∧ last = []) ∧
      (∀ error, r = .error error → ∃ x after, rest = x :: after ∧ F x last)) := by
  induction xs generalizing acc s with
  | nil => exact ends_pure ⟨[], [], [], [], rfl, .nil, rfl, fun _ _ => ⟨rfl, rfl⟩, nofun⟩
  | cons x xs ih =>
    rw [List.foldlM_cons]
    apply ends_bind
    apply (h acc x s).mono
    intro r s' t hfirst
    cases r with
    | error error =>
      exact ⟨[], [], x :: xs, t, rfl, .nil, rfl, nofun, fun _ _ => ⟨x, xs, rfl, hfirst.2 error rfl⟩⟩
    | ok acc' =>
      apply (ih acc' s').mono
      intro r' s'' t' hrest
      obtain ⟨done, traces, rest, last, hxs, hdone, ht, hr⟩ := hrest
      exact ⟨x :: done, t :: traces, rest, last, by rw [hxs, List.cons_append], .cons (hfirst.1 acc' rfl) hdone,
        by rw [ht, List.flatten_cons, List.append_assoc], hr⟩

/-- What the accumulator tells of the events so far. -/
theorem ends_foldlM_keeps {I : δ → List ε → Prop}
    (h : ∀ acc x s before, I acc before → (body acc x).Ends s (fun r _ t => ∀ acc', r = .ok acc' →
      I acc' (before ++ t))) (xs : List γ) {acc : δ} {before : List ε} (hacc : I acc before) (s : σ) :
    (xs.foldlM body acc).Ends s (fun r _ t => ∀ acc', r = .ok acc' → I acc' (before ++ t)) := by
  induction xs generalizing acc before s with
  | nil =>
    apply ends_pure
    intro acc' hacc'
    cases hacc'
    rw [List.append_nil]
    exact hacc
  | cons x xs ih =>
    rw [List.foldlM_cons]
    apply ends_bind
    apply (h acc x s before hacc).mono
    intro r s' t hfirst
    cases r with
    | error error => exact nofun
    | ok acc' =>
      apply (ih (hfirst acc' rfl) s').mono
      intro r' s'' t' hrest acc'' hacc''
      rw [← List.append_assoc]
      exact hrest acc'' hacc''

/-! ### Logs -/

/-- Part of the state is the log of some of the events. -/
def Logs (view : σ → List γ) (emit : ε → Option γ) (c : Traced σ ε α) : Prop :=
  ∀ s, c.Ends s (fun _ s' t => view s' = view s ++ t.filterMap emit)

variable {view : σ → List γ} {emit : ε → Option γ}

theorem logs_pure (a : α) : Logs view emit (pure a : Traced σ ε α) :=
  fun s => ends_pure (List.append_nil (view s)).symm

theorem logs_lift (result : Except String α) : Logs view emit (lift result : Traced σ ε α) :=
  fun s => ends_lift (List.append_nil (view s)).symm

theorem logs_note {event : ε} (h : emit event = none) : Logs view emit (note event : Traced σ ε Unit) := by
  intro s
  apply ends_note
  simp [h]

theorem logs_bind {f : α → Traced σ ε β} (hc : Logs view emit c) (hf : ∀ a, Logs view emit (f a)) :
    Logs view emit (c >>= f) := by
  intro s
  apply ends_bind
  apply (hc s).mono
  intro r s' t h
  cases r with
  | error error => exact h
  | ok a =>
    apply (hf a s').mono
    intro r' s'' t' h'
    rw [h', h, List.filterMap_append, List.append_assoc]

theorem logs_foldlM {η : Type} {body : δ → η → Traced σ ε δ} (h : ∀ acc x, Logs view emit (body acc x))
    (xs : List η) (acc : δ) : Logs view emit (xs.foldlM body acc) := by
  induction xs generalizing acc with
  | nil => exact logs_pure acc
  | cons x xs ih =>
    rw [List.foldlM_cons]
    exact logs_bind (h acc x) ih

/-! ### Results -/

/-- Where the program returns, the postcondition holds of what it returns. -/
def Gives (P : α → Prop) (c : Traced σ ε α) : Prop :=
  ∀ s, c.Ends s (fun r _ _ => ∀ a, r = .ok a → P a)

theorem gives_any (c : Traced σ ε α) : Gives (fun _ => True) c := fun _ _ _ => trivial

theorem gives_pure {P : α → Prop} {a : α} (h : P a) : Gives P (pure a : Traced σ ε α) := by
  intro s a' ha'
  cases ha'
  exact h

theorem gives_bind {P : α → Prop} {Q : β → Prop} {f : α → Traced σ ε β} (hc : Gives P c)
    (hf : ∀ a, P a → Gives Q (f a)) : Gives Q (c >>= f) := by
  intro s
  apply ends_bind
  apply (hc s).mono
  intro r s' t h
  cases r with
  | ok a => exact hf a (h a rfl) s'
  | error error => exact nofun

end Traced

/-! ### What code leaves as it is -/

section Spares

variable {τ : Type} {view : σ → τ}

/-- The part of the state that is viewed is as it was, however the code ends. -/
def Spares (view : σ → τ) (c : ExceptT String (StateM σ) α) : Prop :=
  ∀ s, view (c.run.run s).2 = view s

theorem spares_pure (a : α) : Spares view (pure a : ExceptT String (StateM σ) α) := fun _ => rfl

theorem spares_throw (error : String) : Spares view (throw error : ExceptT String (StateM σ) α) :=
  fun _ => rfl

theorem spares_bind {c : ExceptT String (StateM σ) α} {f : α → ExceptT String (StateM σ) β}
    (hc : Spares view c) (hf : ∀ a, Spares view (f a)) : Spares view (c >>= f) := by
  intro s
  have hfirst := hc s
  have hran : (c >>= f).run.run s = (ExceptT.bindCont f (c.run.run s).1).run (c.run.run s).2 := rfl
  rw [hran]
  cases (c.run.run s).1 with
  | ok a => exact (hf a _).trans hfirst
  | error error => exact hfirst

theorem spares_mapM {f : α → ExceptT String (StateM σ) β} (hf : ∀ a, Spares view (f a)) (l : List α) :
    Spares view (l.mapM f) := by
  induction l with
  | nil => exact spares_pure []
  | cons a l ih =>
    rw [List.mapM_cons]
    exact spares_bind (hf a) (fun b => spares_bind ih (fun bs => spares_pure _))

theorem spares_foldlM {f : β → α → ExceptT String (StateM σ) β} (hf : ∀ b a, Spares view (f b a))
    (l : List α) (b : β) : Spares view (l.foldlM f b) := by
  induction l generalizing b with
  | nil => exact spares_pure b
  | cons a l ih =>
    rw [List.foldlM_cons]
    exact spares_bind (hf b a) ih

/-! ### What code returns -/

/-- Where the code returns, the postcondition holds of what it returns. -/
def Gives (P : α → Prop) (c : ExceptT String (StateM σ) α) : Prop :=
  ∀ s a s', c.run.run s = (.ok a, s') → P a

theorem gives_pure {P : α → Prop} {a : α} (h : P a) : Gives P (pure a : ExceptT String (StateM σ) α) := by
  intro s a' s' hran
  cases hran
  exact h

theorem gives_lift {P : α → Prop} {c : StateM σ α} (h : ∀ s, P (c.run s).1) :
    Gives P (liftM c : ExceptT String (StateM σ) α) := by
  intro s a s' hran
  cases hran
  exact h s

/-- What has returned as a whole has returned in each part. -/
theorem bind_ran {c : ExceptT String (StateM σ) α} {f : α → ExceptT String (StateM σ) β} {s s' : σ} {b : β}
    (h : (c >>= f).run.run s = (.ok b, s')) :
    ∃ a t, c.run.run s = (.ok a, t) ∧ (f a).run.run t = (.ok b, s') := by
  have hbind : (c >>= f).run.run s = (ExceptT.bindCont f (c.run.run s).1).run (c.run.run s).2 := rfl
  rw [hbind] at h
  cases hc : c.run.run s with
  | mk result t =>
    rw [hc] at h
    cases result with
    | ok a => exact ⟨a, t, rfl, h⟩
    | error error => cases h

theorem gives_bind {P : α → Prop} {Q : β → Prop} {c : ExceptT String (StateM σ) α}
    {f : α → ExceptT String (StateM σ) β} (hc : Gives P c) (hf : ∀ a, P a → Gives Q (f a)) :
    Gives Q (c >>= f) := by
  intro s b s' hran
  obtain ⟨a, t, hfirst, hrest⟩ := bind_ran hran
  exact hf a (hc s a t hfirst) t b s' hrest

/-- A map changes the result and nothing else. -/
theorem run_map (f : α → β) (c : ExceptT String (StateM σ) α) (s : σ) :
    (f <$> c).run.run s = ((c.run.run s).1.map f, (c.run.run s).2) := by
  rw [ExceptT.run_map, StateT.run_map]
  cases c.run.run s with
  | mk result t => cases result <;> rfl

theorem gives_any (c : ExceptT String (StateM σ) α) : Gives (fun _ => True) c := fun _ _ _ _ => trivial

namespace Traced

/-- Code that leaves a part of the state leaves it in a program. -/
theorem ends_call_spares {c : ExceptT String (StateM σ) α} (hc : Spares view c) (s : σ) :
    (call c : Traced σ ε α).Ends s (fun _ s' _ => view s' = view s) := hc s

/-- What each part leaves, the whole leaves. -/
theorem spares_bind {c : Traced σ ε α} {f : α → Traced σ ε β}
    (hc : ∀ s, c.Ends s (fun _ s' _ => view s' = view s))
    (hf : ∀ a s, (f a).Ends s (fun _ s' _ => view s' = view s)) (s : σ) :
    (c >>= f).Ends s (fun _ s' _ => view s' = view s) := by
  apply ends_bind
  apply (hc s).mono
  intro r s' t h
  cases r with
  | ok a =>
    apply (hf a s').mono
    intro _ s'' _ h'
    exact h'.trans h
  | error error => exact h

theorem spares_try {c : Traced σ ε α} {handler : String → Traced σ ε α}
    (hc : ∀ s, c.Ends s (fun _ s' _ => view s' = view s))
    (hhandler : ∀ error s, (handler error).Ends s (fun _ s' _ => view s' = view s)) (s : σ) :
    (tryCatch c handler).Ends s (fun _ s' _ => view s' = view s) := by
  apply ends_try
  apply (hc s).mono
  intro r s' t h
  cases r with
  | ok a => exact h
  | error error =>
    apply (hhandler error s').mono
    intro _ s'' _ h'
    exact h'.trans h

end Traced

end Spares

end CheshireCat.Base
