import Mathlib.Data.List.Infix
import Mathlib.Data.List.Flatten

/-! Texts in lines, and texts at the last place of a marker. -/

namespace CheshireCat.Base

variable {α : Type} [DecidableEq α]

/-- What stands before and after the last occurrence of the marker. -/
def splitLast (marker : List α) : List α → Option (List α × List α)
  | [] => none
  | c :: rest =>
    match splitLast marker rest with
    | some (before, after) => some (c :: before, after)
    | none => if marker <+: c :: rest then some ([], (c :: rest).drop marker.length) else none

theorem split_last_none {marker : List α} (hne : marker ≠ []) {text : List α} :
    splitLast marker text = none ↔ ¬ marker <:+: text := by
  induction text with
  | nil => simp [splitLast, hne]
  | cons c rest ih =>
    rw [splitLast, List.infix_cons_iff, not_or]
    cases hrest : splitLast marker rest with
    | some p =>
      have hfound : ¬ ¬ marker <:+: rest := by
        rw [← ih, hrest]
        exact Option.some_ne_none p
      exact iff_of_false (Option.some_ne_none _) (fun h => hfound h.2)
    | none =>
      have hno := ih.mp hrest
      by_cases hhere : marker <+: c :: rest <;> simp [hhere, hno]

/-- The two parts and the marker make up the text. -/
theorem split_last_joins {marker text : List α} {p : List α × List α}
    (h : splitLast marker text = some p) : p.1 ++ (marker ++ p.2) = text := by
  induction text generalizing p with
  | nil => cases h
  | cons c rest ih =>
    rw [splitLast] at h
    cases hrest : splitLast marker rest with
    | some q =>
      rw [hrest] at h
      obtain rfl := Option.some.inj h
      rw [List.cons_append, ih hrest]
    | none =>
      rw [hrest] at h
      dsimp only at h
      split at h
      · rename_i hprefix
        obtain rfl := Option.some.inj h
        obtain ⟨after, hafter⟩ := hprefix
        rw [← hafter, List.nil_append, List.drop_left]
      · cases h

/-- An occurrence that starts after what stands first is found there. -/
theorem split_last_append {marker text : List α} {p : List α × List α} (before : List α)
    (h : splitLast marker text = some p) :
    splitLast marker (before ++ text) = some (before ++ p.1, p.2) := by
  induction before with
  | nil => exact h
  | cons c before ih => rw [List.cons_append, splitLast, ih]; rfl

/-- A text is split at the marker that was put there exactly when no later one begins. -/
theorem split_last_iff {marker : List α} (hne : marker ≠ []) (before after : List α) :
    splitLast marker (before ++ (marker ++ after)) = some (before, after) ↔
      ¬ marker <:+: marker.tail ++ after := by
  obtain ⟨c, tail, rfl⟩ := List.exists_cons_of_ne_nil hne
  rw [List.tail_cons]
  constructor
  · intro h hlater
    cases hsplit : splitLast (c :: tail) (tail ++ after) with
    | none => exact (split_last_none hne).mp hsplit hlater
    | some p =>
      have hcons : splitLast (c :: tail) (c :: tail ++ after) = some (c :: p.1, p.2) := by
        rw [List.cons_append, splitLast, hsplit]
      rw [split_last_append _ hcons] at h
      have hlen := congrArg List.length (Prod.mk.inj (Option.some.inj h)).1
      simp at hlen
  · intro hno
    have hhere : splitLast (c :: tail) (c :: tail ++ after) = some ([], after) := by
      rw [List.cons_append, splitLast, (split_last_none hne).mpr hno]
      have hprefix : c :: tail <+: c :: (tail ++ after) := List.prefix_append (c :: tail) after
      rw [if_pos hprefix, ← List.cons_append, List.drop_left]
    have h := split_last_append before hhere
    rwa [List.append_nil] at h

omit [DecidableEq α] in
/-- No occurrence takes in a last item that it does not end with. -/
theorem infix_concat_iff {marker text : List α} {q : α} (hlast : ∀ c ∈ marker.getLast?, c ≠ q)
    (hne : marker ≠ []) : marker <:+: text ++ [q] ↔ marker <:+: text := by
  constructor
  · rintro ⟨before, after, h⟩
    rcases List.eq_nil_or_concat after with rfl | ⟨after, c, rfl⟩
    · have hend := congrArg List.getLast? h
      rw [List.append_nil, List.getLast?_append_of_ne_nil before hne, List.getLast?_concat] at hend
      exact absurd rfl (hlast q hend)
    · rw [List.concat_eq_append, ← List.append_assoc] at h
      exact ⟨before, after, (List.append_inj' h rfl).1⟩
  · intro h
    exact h.trans (List.prefix_append _ _).isInfix

/-- The lines of items that are written after a heading, each after a line break. -/
theorem lines_of_items (newline : α) (heading : List α) (items : List (List α)) :
    (heading ++ items.flatMap (newline :: ·)).splitOn newline =
      heading.splitOn newline ++ items.flatMap (·.splitOn newline) := by
  induction items generalizing heading with
  | nil => simp
  | cons item items ih =>
    rw [List.flatMap_cons, List.flatMap_cons, List.cons_append, List.splitOn_append_cons_self, ih item]

/-- Texts without line breaks are lines. -/
theorem lines_of_texts {newline : α} {texts : List (List α)} (h : ∀ text ∈ texts, newline ∉ text) :
    texts.flatMap (·.splitOn newline) = texts := by
  induction texts with
  | nil => rfl
  | cons text texts ih =>
    rw [List.flatMap_cons, List.splitOn_eq_singleton (h text List.mem_cons_self),
      ih (fun t ht => h t (List.mem_cons_of_mem text ht)), List.singleton_append]

/-- There are as many lines as texts exactly where no text has a line break. -/
theorem lines_of_texts_iff (newline : α) (texts : List (List α)) :
    (texts.flatMap (·.splitOn newline)).length = texts.length ↔ ∀ text ∈ texts, newline ∉ text := by
  constructor
  · intro hlen text htext hbreak
    obtain ⟨before, after, rfl⟩ := List.append_of_mem hbreak
    obtain ⟨left, right, rfl⟩ := List.append_of_mem htext
    have hpos (l : List α) : 0 < (l.splitOn newline).length :=
      List.length_pos_of_ne_nil (List.splitOn_ne_nil newline l)
    have hle (ts : List (List α)) : ts.length ≤ (ts.flatMap (·.splitOn newline)).length := by
      induction ts with
      | nil => exact Nat.zero_le 0
      | cons t ts ih =>
        rw [List.flatMap_cons, List.length_append, List.length_cons]
        have := hpos t
        omega
    rw [List.flatMap_append, List.flatMap_cons, List.splitOn_append_cons_self] at hlen
    simp only [List.length_append, List.length_cons] at hlen
    have := hle left
    have := hle right
    have := hpos before
    have := hpos after
    omega
  · intro h
    rw [lines_of_texts h]

end CheshireCat.Base
