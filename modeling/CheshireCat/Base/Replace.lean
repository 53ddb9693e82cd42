import Mathlib.Data.List.Infix

namespace CheshireCat.Base

/-- Texts are gone through by their own characters, not by all there are. -/
instance (priority := high) decidableAllChars (text : List Char) (p : Char → Prop) [DecidablePred p] :
    Decidable (∀ c, c ∈ text → p c) :=
  List.decidableBAll p text

instance (priority := high) decidableAnyChar (text : List Char) (p : Char → Prop) [DecidablePred p] :
    Decidable (∃ c, c ∈ text ∧ p c) :=
  List.decidableBEx p text

variable {α : Type} [DecidableEq α] {old new : List α}

/-- The rest of a replacement, where the first items are already replaced. -/
def replaceFrom (old new : List α) : Nat → List α → List α
  | _, [] => []
  | skip + 1, _ :: rest => replaceFrom old new skip rest
  | 0, c :: rest =>
    if old <+: c :: rest then new ++ replaceFrom old new (old.length - 1) rest
    else c :: replaceFrom old new 0 rest

/-- `text.replace(old, new)`, from left to right and without overlaps, for an `old` that is
not empty. -/
def replaceAll (old new text : List α) : List α := replaceFrom old new 0 text

@[simp] theorem replace_nil (old new : List α) : replaceAll old new [] = [] := rfl

theorem replace_from_skip (done rest : List α) :
    replaceFrom old new done.length (done ++ rest) = replaceAll old new rest := by
  induction done with
  | nil => rfl
  | cons c done ih => exact ih

theorem replace_match (h : old ≠ []) (rest : List α) :
    replaceAll old new (old ++ rest) = new ++ replaceAll old new rest := by
  obtain ⟨c, old', rfl⟩ := List.exists_cons_of_ne_nil h
  rw [replaceAll, List.cons_append, replaceFrom, if_pos ⟨rest, rfl⟩]
  exact congrArg (fun l => new ++ l) (replace_from_skip old' rest)

theorem replace_step {c : α} {rest : List α} (h : ¬ old <+: c :: rest) :
    replaceAll old new (c :: rest) = c :: replaceAll old new rest := by
  rw [replaceAll, replaceFrom, if_neg h]
  rfl

/-- A replacement goes on after a match or after one item. -/
theorem replace_induction {motive : List α → Prop} (h : old ≠ []) (nil : motive [])
    (found : ∀ rest, motive rest → motive (old ++ rest))
    (step : ∀ c rest, ¬ old <+: c :: rest → motive rest → motive (c :: rest)) (text : List α) :
    motive text := by
  have hlength (n : Nat) : ∀ text : List α, text.length ≤ n → motive text := by
    induction n with
    | zero =>
      intro text htext
      rw [List.length_eq_zero_iff.mp (Nat.le_zero.mp htext)]
      exact nil
    | succ n ih =>
      intro text htext
      cases text with
      | nil => exact nil
      | cons c rest =>
        by_cases hold : old <+: c :: rest
        · obtain ⟨rest', hrest⟩ := hold
          rw [← hrest] at htext ⊢
          apply found
          apply ih
          have hpos := List.length_pos_iff.mpr h
          rw [List.length_append] at htext
          omega
        · exact step c rest hold (ih rest (Nat.le_of_succ_le_succ htext))
  exact hlength text.length text (Nat.le_refl _)

/-- Nothing happens where the text is not found. -/
theorem replace_absent {text : List α} (h : ¬ old <:+: text) : replaceAll old new text = text := by
  induction text with
  | nil => rfl
  | cons c rest ih =>
    rw [replace_step (fun hold => h hold.isInfix), ih]
    exact fun hrest => h (List.infix_cons hrest)

/-- No occurrence goes over an item that it does not have. -/
theorem replace_boundary {q : α} (hne : old ≠ []) (hq : q ∉ old) (before after : List α) :
    replaceAll old new (before ++ q :: after) =
      replaceAll old new before ++ q :: replaceAll old new after := by
  have hstart (text : List α) (h : old <+: text ++ q :: after) : old <+: text := by
    rcases Nat.lt_or_ge text.length old.length with hlong | hshort
    · have hwhole : text ++ [q] <+: text ++ q :: after := ⟨after, by rw [List.append_assoc]; rfl⟩
      have hinside : text ++ [q] <+: old :=
        List.prefix_of_prefix_length_le hwhole h (by rw [List.length_append]; exact hlong)
      exact absurd (hinside.subset (List.mem_append_right _ (List.mem_singleton_self q))) hq
    · exact List.prefix_of_prefix_length_le h (List.prefix_append _ _) hshort
  induction before using replace_induction hne with
  | nil =>
    rw [List.nil_append, replace_step]
    · rfl
    · intro h
      exact hne (List.prefix_nil.mp (hstart [] h))
  | found rest ih =>
    rw [List.append_assoc, replace_match hne, replace_match hne, ih, List.append_assoc]
  | step c rest hno ih =>
    have hno' : ¬ old <+: c :: (rest ++ q :: after) := fun h => hno (hstart (c :: rest) h)
    rw [List.cons_append, replace_step hno', replace_step hno, ih]
    rfl

/-- A replacement stops where something follows that no occurrence has. -/
theorem replace_append (hne : old ≠ []) {rest : List α} (hrest : ∀ q ∈ rest.head?, q ∉ old)
    (before : List α) :
    replaceAll old new (before ++ rest) = replaceAll old new before ++ replaceAll old new rest := by
  cases rest with
  | nil => rw [List.append_nil, replace_nil, List.append_nil]
  | cons q rest =>
    have hq : q ∉ old := hrest q rfl
    have hnone : replaceAll old new (q :: rest) = q :: replaceAll old new rest :=
      replace_boundary hne hq [] rest
    rw [replace_boundary hne hq]
    exact congrArg _ hnone.symm

/-- Nothing is replaced where no occurrence starts. -/
theorem replace_skip {c : α} {tail before : List α} (h : c ∉ before) (rest : List α) :
    replaceAll (c :: tail) new (before ++ rest) = before ++ replaceAll (c :: tail) new rest := by
  induction before with
  | nil => rfl
  | cons d before ih =>
    obtain ⟨hd, hbefore⟩ := not_or.mp (fun hmem => h (List.mem_cons.mpr hmem))
    have hno : ¬ c :: tail <+: d :: (before ++ rest) :=
      fun hp => hd (List.cons_prefix_cons.mp hp).1
    rw [List.cons_append, replace_step hno, ih hbefore]
    rfl

/-- No occurrence starts in what is passed over. -/
theorem replace_pass {before rest : List α}
    (h : ∀ done todo, before = done ++ todo → todo ≠ [] → ¬ old <+: todo ++ rest) :
    replaceAll old new (before ++ rest) = before ++ replaceAll old new rest := by
  induction before with
  | nil => rfl
  | cons c before ih =>
    have hno := h [] (c :: before) rfl (List.cons_ne_nil c before)
    rw [List.cons_append] at hno ⊢
    rw [replace_step hno, ih]
    · rfl
    · intro done todo heq
      apply h (c :: done)
      rw [heq]
      rfl

omit [DecidableEq α] in
/-- An occurrence starts after what does not have its first item. -/
theorem infix_skip {c : α} {tail before rest : List α} (h : c ∉ before)
    (hoccurs : c :: tail <:+: before ++ rest) : c :: tail <:+: rest := by
  induction before with
  | nil => exact hoccurs
  | cons d before ih =>
    obtain ⟨hd, hbefore⟩ := not_or.mp (fun hmem => h (List.mem_cons.mpr hmem))
    rcases List.infix_cons_iff.mp hoccurs with hp | hoccurs
    · exact absurd (List.cons_prefix_cons.mp hp).1 hd
    · exact ih hbefore hoccurs

theorem mem_replace (hne : old ≠ []) {text : List α} {c : α} (h : c ∈ replaceAll old new text) :
    c ∈ new ∨ c ∈ text := by
  induction text using replace_induction hne with
  | nil => exact Or.inr h
  | found rest ih =>
    rw [replace_match hne] at h
    rcases List.mem_append.mp h with h | h
    · exact Or.inl h
    · exact (ih h).imp_right (fun hrest => List.mem_append_right _ hrest)
  | step c' rest hno ih =>
    rw [replace_step hno] at h
    rcases List.mem_cons.mp h with rfl | h
    · exact Or.inr List.mem_cons_self
    · exact (ih h).imp_right (fun hrest => List.mem_cons_of_mem c' hrest)

theorem replace_ne_nil (hne : old ≠ []) (hnew : new ≠ []) {text : List α} (h : text ≠ []) :
    replaceAll old new text ≠ [] := by
  induction text using replace_induction hne with
  | nil => exact absurd rfl h
  | found rest ih =>
    rw [replace_match hne]
    exact List.append_ne_nil_of_left_ne_nil hnew _
  | step c rest hno ih =>
    rw [replace_step hno]
    exact List.cons_ne_nil _ _

theorem replace_length_le (hne : old ≠ []) (h : new.length ≤ old.length) (text : List α) :
    (replaceAll old new text).length ≤ text.length := by
  induction text using replace_induction hne with
  | nil => exact Nat.le_refl _
  | found rest ih =>
    rw [replace_match hne, List.length_append, List.length_append]
    omega
  | step c rest hno ih =>
    rw [replace_step hno]
    exact Nat.succ_le_succ ih

/-- Where an occurrence is replaced by less, the text gets shorter. -/
theorem replace_shorter (hne : old ≠ []) (h : new.length < old.length) {text : List α}
    (hfound : old <:+: text) : (replaceAll old new text).length < text.length := by
  induction text using replace_induction hne with
  | nil => exact absurd (List.infix_nil.mp hfound) hne
  | found rest ih =>
    have hrest := replace_length_le hne (Nat.le_of_lt h) rest
    rw [replace_match hne, List.length_append, List.length_append]
    omega
  | step c rest hno ih =>
    rw [replace_step hno]
    apply Nat.succ_lt_succ
    apply ih
    exact (List.infix_cons_iff.mp hfound).resolve_left hno

theorem replace_same_length (hne : old ≠ []) (h : new.length = old.length) (text : List α) :
    (replaceAll old new text).length = text.length := by
  induction text using replace_induction hne with
  | nil => rfl
  | found rest ih => rw [replace_match hne, List.length_append, List.length_append, h, ih]
  | step c rest hno ih => rw [replace_step hno, List.length_cons, List.length_cons, ih]

/-- Where an occurrence is replaced by something else of its length, the text changes. -/
theorem replace_changes (hne : old ≠ []) (h : new.length = old.length) (hnew : new ≠ old)
    {text : List α} (hfound : old <:+: text) : replaceAll old new text ≠ text := by
  induction text using replace_induction hne with
  | nil => exact absurd (List.infix_nil.mp hfound) hne
  | found rest ih =>
    rw [replace_match hne]
    intro hsame
    exact hnew (List.append_inj hsame h).1
  | step c rest hno ih =>
    rw [replace_step hno]
    intro hsame
    exact ih ((List.infix_cons_iff.mp hfound).resolve_left hno) (List.cons.inj hsame).2

/-- Replacing one item goes through the text item by item. -/
theorem replace_item (a b : α) (text : List α) :
    replaceAll [a] [b] text = text.map (fun c => if c = a then b else c) := by
  induction text with
  | nil => rfl
  | cons c rest ih =>
    rw [List.map_cons, ← ih]
    by_cases hc : c = a
    · rw [if_pos hc, hc]
      exact replace_match (List.cons_ne_nil a []) rest
    · rw [if_neg hc, replace_step]
      exact fun h => hc (List.cons_prefix_cons.mp h).1.symm

/-- A map that makes no new occurrence can go before the replacement or after it. -/
theorem replace_map {f : α → α} (hne : old ≠ []) (hold : old.map f = old) (hnew : new.map f = new)
    {text : List α} (h : ∀ todo, todo <:+ text → old <+: todo.map f → old <+: todo) :
    replaceAll old new (text.map f) = (replaceAll old new text).map f := by
  induction text using replace_induction hne with
  | nil => rfl
  | found rest ih =>
    rw [List.map_append, hold, replace_match hne, replace_match hne, List.map_append, hnew, ih]
    exact fun todo htodo => h todo (htodo.trans (List.suffix_append _ _))
  | step c rest hno ih =>
    have hno' : ¬ old <+: f c :: rest.map f := fun hp => hno (h _ (List.suffix_refl _) hp)
    rw [List.map_cons, replace_step hno', replace_step hno, List.map_cons, ih]
    exact fun todo htodo => h todo (htodo.trans (List.suffix_cons _ _))

end CheshireCat.Base
