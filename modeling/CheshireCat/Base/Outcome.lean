namespace CheshireCat.Base

/-- A procedure ends by returning or by raising. The state reached is kept in
both cases, since an exception undoes nothing. -/
inductive Outcome (σ : Type) where
  | returned (s : σ)
  | raised (error : String) (s : σ)

namespace Outcome

variable {σ α : Type}

def state : Outcome σ → σ
  | .returned s => s
  | .raised _ s => s

def returns : Outcome σ → Bool
  | .returned _ => true
  | .raised _ _ => false

/-- The rest of the procedure runs only after a normal return. -/
def andThen (o : Outcome σ) (rest : σ → Outcome σ) : Outcome σ :=
  match o with
  | .returned s => rest s
  | .raised error s => .raised error s

/-- A `try` whose handler sees the error and the state at the raise. -/
def rescue (o : Outcome σ) (handler : String → σ → Outcome σ) : Outcome σ :=
  match o with
  | .returned s => .returned s
  | .raised error s => handler error s

def loop (body : σ → α → Outcome σ) : List α → σ → Outcome σ
  | [], s => .returned s
  | x :: xs, s => (body s x).andThen (loop body xs)

/-- The postcondition `Q` holds on return, `E` holds on a raise. -/
def Ends (o : Outcome σ) (Q E : σ → Prop) : Prop :=
  match o with
  | .returned s => Q s
  | .raised _ s => E s

theorem eq_returned_of_returns {o : Outcome σ} (h : o.returns = true) : o = .returned o.state := by
  cases o with
  | returned s => rfl
  | raised error s => cases h

theorem eq_raised_of_not_returns {o : Outcome σ} (h : o.returns = false) :
    ∃ error, o = .raised error o.state := by
  cases o with
  | returned s => cases h
  | raised error s => exact ⟨error, rfl⟩

theorem ends_returns (o : Outcome σ) :
    o.Ends (fun _ => o.returns = true) (fun _ => o.returns = false) := by
  cases o <;> rfl

theorem Ends.mono {o : Outcome σ} {Q Q' E E' : σ → Prop} (h : o.Ends Q E)
    (hq : ∀ s, Q s → Q' s) (he : ∀ s, E s → E' s) : o.Ends Q' E' := by
  cases o with
  | returned s => exact hq s h
  | raised error s => exact he s h

theorem Ends.both {o : Outcome σ} {Q Q' E E' : σ → Prop} (h : o.Ends Q E) (h' : o.Ends Q' E') :
    o.Ends (fun s => Q s ∧ Q' s) (fun s => E s ∧ E' s) := by
  cases o with
  | returned s => exact ⟨h, h'⟩
  | raised error s => exact ⟨h, h'⟩

theorem Ends.andThen {o : Outcome σ} {rest : σ → Outcome σ} {R Q E : σ → Prop}
    (h : o.Ends R E) (hr : ∀ s, R s → (rest s).Ends Q E) : (o.andThen rest).Ends Q E := by
  cases o with
  | returned s => exact hr s h
  | raised error s => exact h

theorem Ends.rescue {o : Outcome σ} {handler : String → σ → Outcome σ} {Q R E : σ → Prop}
    (h : o.Ends Q R) (hh : ∀ error s, R s → (handler error s).Ends Q E) :
    (o.rescue handler).Ends Q E := by
  cases o with
  | returned s => exact h
  | raised error s => exact hh error s h

/-- The loop rule: what every iteration keeps holds at the end. -/
theorem Ends.loop {body : σ → α → Outcome σ} {I E : σ → Prop} {xs : List α}
    (hb : ∀ x ∈ xs, ∀ s, I s → (body s x).Ends I E) {s : σ} (hs : I s) :
    (Outcome.loop body xs s).Ends I E := by
  induction xs generalizing s with
  | nil => exact hs
  | cons x xs ih =>
    refine Ends.andThen (hb x (by simp) s hs) (fun t ht => ?_)
    exact ih (fun y hy => hb y (by simp [hy])) ht

theorem loop_idle {body : σ → α → Outcome σ} {xs : List α} {s : σ}
    (h : ∀ x ∈ xs, body s x = .returned s) : Outcome.loop body xs s = .returned s := by
  induction xs with
  | nil => rfl
  | cons x xs ih =>
    rw [loop, h x List.mem_cons_self, andThen]
    exact ih (fun y hy => h y (List.mem_cons_of_mem x hy))

theorem loop_append {body : σ → α → Outcome σ} (xs ys : List α) (s : σ) :
    Outcome.loop body (xs ++ ys) s = (Outcome.loop body xs s).andThen (Outcome.loop body ys) := by
  induction xs generalizing s with
  | nil => rfl
  | cons x xs ih =>
    rw [List.cons_append, loop, loop]
    cases body s x with
    | returned t => exact ih t
    | raised error t => rfl

/-- The loop rule for an invariant about the elements that are done. -/
theorem Ends.loop_done {body : σ → α → Outcome σ} {I : List α → σ → Prop} {E : σ → Prop}
    {xs : List α} (hb : ∀ done x rest, xs = done ++ x :: rest → ∀ s, I done s →
      (body s x).Ends (I (done ++ [x])) E) {s : σ} (hs : I [] s) :
    (Outcome.loop body xs s).Ends (I xs) E := by
  have hrest (rest done : List α) (hxs : xs = done ++ rest) (t : σ) (ht : I done t) :
      (Outcome.loop body rest t).Ends (I xs) E := by
    induction rest generalizing done t with
    | nil =>
      rw [List.append_nil] at hxs
      exact hxs ▸ ht
    | cons x rest ih =>
      apply (hb done x rest hxs t ht).andThen
      intro u hu
      exact ih (done ++ [x]) (by rw [hxs, List.append_assoc]; rfl) u hu
  exact hrest xs [] rfl s hs

theorem Ends.of_returned {o : Outcome σ} {Q E : σ → Prop} {t : σ} (h : o.Ends Q E)
    (ho : o = .returned t) : Q t := by
  subst ho
  exact h

/-- A procedure that says why it returns and why it raises. -/
theorem Ends.returns_iff {o : Outcome σ} {p : Prop} {Q E : σ → Prop}
    (h : o.Ends (fun s => Q s ∧ p) (fun s => E s ∧ ¬ p)) : o.returns = true ↔ p := by
  cases o with
  | returned s => exact iff_of_true rfl h.2
  | raised error s => exact iff_of_false Bool.false_ne_true h.2

theorem Ends.state {o : Outcome σ} {I : σ → Prop} (h : o.Ends I I) : I o.state := by
  cases o with
  | returned s => exact h
  | raised error s => exact h

/-! ### A part of the state -/

variable {τ : Type}

def map (g : σ → τ) : Outcome σ → Outcome τ
  | .returned s => .returned (g s)
  | .raised error s => .raised error (g s)

theorem ends_map {g : σ → τ} {o : Outcome σ} {Q E : τ → Prop} :
    (o.map g).Ends Q E ↔ o.Ends (fun s => Q (g s)) (fun s => E (g s)) := by
  cases o <;> exact Iff.rfl

theorem map_map {υ : Type} (g : σ → τ) (f : υ → σ) (o : Outcome υ) : (o.map f).map g = o.map (g ∘ f) := by
  cases o <;> rfl

theorem map_id (o : Outcome σ) : o.map id = o := by
  cases o <;> rfl

theorem map_andThen {g : σ → τ} {o : Outcome σ} {rest : σ → Outcome σ} {k : τ → Outcome τ}
    (h : ∀ s, (rest s).map g = k (g s)) : (o.andThen rest).map g = (o.map g).andThen k := by
  cases o with
  | returned s => exact h s
  | raised error s => rfl

theorem map_rescue {g : σ → τ} {o : Outcome σ} {handler : String → σ → Outcome σ}
    {k : String → τ → Outcome τ} (h : ∀ error s, (handler error s).map g = k error (g s)) :
    (o.rescue handler).map g = (o.map g).rescue k := by
  cases o with
  | returned s => rfl
  | raised error s => exact h error s

theorem map_loop {g : σ → τ} {body : σ → α → Outcome σ} {body' : τ → α → Outcome τ}
    (h : ∀ s x, (body s x).map g = body' (g s) x) (xs : List α) (s : σ) :
    (Outcome.loop body xs s).map g = Outcome.loop body' xs (g s) := by
  induction xs generalizing s with
  | nil => rfl
  | cons x xs ih =>
    rw [Outcome.loop, Outcome.loop, map_andThen ih, h]

end Outcome

end CheshireCat.Base
