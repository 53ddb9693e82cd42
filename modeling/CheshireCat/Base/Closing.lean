import CheshireCat.Base.Trees

namespace CheshireCat.Base

/-! ### What a truncated text leaves open -/

/-- The brackets that are still to be closed, the innermost one first. -/
def closePunct (stack : List Punct) : Punct → Option (List Punct)
  | .openList => some (.closeList :: stack)
  | .openDict => some (.closeDict :: stack)
  | .comma => some stack
  | .colon => some stack
  | .closeList => if stack.head? = some .closeList then some stack.tail else none
  | .closeDict => if stack.head? = some .closeDict then some stack.tail else none

inductive Scan where
  | outside
  | inside
  | escaped

/-- The quote and the brackets that close a text, unless a bracket in it closes another one. -/
def closingFrom : Scan → List Punct → List Char → Option (List Char)
  | .outside, stack, [] => some (stack.map Punct.char)
  | .inside, stack, [] => some ('"' :: stack.map Punct.char)
  | .escaped, _, [] => none
  | .outside, stack, c :: rest =>
    if c = '"' then closingFrom .inside stack rest
    else match Punct.ofChar? c with
      | some p => (closePunct stack p).bind (fun stack => closingFrom .outside stack rest)
      | none => closingFrom .outside stack rest
  | .inside, stack, c :: rest =>
    if c = '"' then closingFrom .outside stack rest
    else if c = '\\' then closingFrom .escaped stack rest
    else closingFrom .inside stack rest
  | .escaped, stack, _ :: rest => closingFrom .inside stack rest

def closing (text : List Char) : Option (List Char) := closingFrom .outside [] text

def closePiece (stack : List Punct) : Piece → Option (List Punct)
  | .punct p => closePunct stack p
  | _ => some stack

theorem closing_quoted {body : List Char} (h : Closed '"' body) (stack : List Punct) (rest : List Char) :
    closingFrom .inside stack (body ++ '"' :: rest) = closingFrom .outside stack rest := by
  induction h with
  | nil => exact if_pos rfl
  | plain hquote hescape _ ih =>
    rw [List.cons_append, closingFrom, if_neg hquote, if_neg hescape, ih]
  | escape c _ ih =>
    rw [List.cons_append, List.cons_append, closingFrom, if_neg (by decide), if_pos rfl, closingFrom, ih]

/-- A character outside of strings that is no bracket. -/
theorem closing_skip {c : Char} (hquote : c ≠ '"') (hpunct : Punct.ofChar? c = none)
    (stack : List Punct) (rest : List Char) :
    closingFrom .outside stack (c :: rest) = closingFrom .outside stack rest := by
  rw [closingFrom, if_neg hquote, hpunct]

/-- The brackets among the pieces of a text are those that count. -/
theorem closing_pieces {pieces : List Piece} (hvalid : ∀ p ∈ pieces, p.Valid)
    (hquotes : ∀ quote body, .quoted quote body ∈ pieces → quote = '"') (stack : List Punct) :
    closingFrom .outside stack (textOf pieces) =
      (pieces.foldlM closePiece stack).map (fun stack => stack.map Punct.char) := by
  induction pieces generalizing stack with
  | nil => rfl
  | cons p pieces ih =>
    rw [List.forall_mem_cons] at hvalid
    have hrest := ih hvalid.2 (fun quote body h => hquotes quote body (List.mem_cons_of_mem p h))
    rw [textOf, List.flatMap_cons, List.foldlM_cons]
    change closingFrom .outside stack (p.text ++ textOf pieces) = _
    cases p with
    | blank c =>
      have hc : isBlankChar c = true := hvalid.1
      have hblank : c = ' ' ∨ c = '\t' ∨ c = '\n' ∨ c = '\r' := by simpa [isBlankChar] using hc
      rw [Piece.text, List.singleton_append, closing_skip]
      · exact hrest stack
      · rintro rfl
        cases hc
      · rcases hblank with rfl | rfl | rfl | rfl <;> decide
    | punct a =>
      have hquote : a.char ≠ '"' := by cases a <;> decide
      rw [Piece.text, List.singleton_append, closingFrom, if_neg hquote, punct_of_char]
      change (closePunct stack a).bind _ = Option.map _ ((closePunct stack a).bind _)
      cases closePunct stack a with
      | none => rfl
      | some stack => exact hrest stack
    | word w =>
      have hword (w : List Char) (hw : ∀ c ∈ w, isWordChar c = true) :
          closingFrom .outside stack (w ++ textOf pieces) = closingFrom .outside stack (textOf pieces) := by
        induction w with
        | nil => rfl
        | cons c w ihw =>
          rw [List.forall_mem_cons] at hw
          obtain ⟨_, hpunct, hquote⟩ := (word_char_iff c).mp hw.1
          rw [List.cons_append, closing_skip _ hpunct, ihw hw.2]
          rintro rfl
          cases hquote
      rw [Piece.text, hword w hvalid.1.2]
      exact hrest stack
    | quoted quote body =>
      have hq := hquotes quote body List.mem_cons_self
      subst hq
      rw [Piece.text, List.cons_append, closingFrom, if_pos rfl, List.append_assoc, List.singleton_append,
        closing_quoted hvalid.1.2]
      exact hrest stack

/-! ### The brackets of a text that is being read -/

def Frame.closer : Frame → Punct
  | .items _ => .closeList
  | .entries _ => .closeDict
  | .entry _ _ => .closeDict

theorem read_value_closes {frames : List Frame} {p : Piece} {s : ParseState}
    (h : readValue frames p = some s) :
    closePiece (frames.map Frame.closer) p = some (s.1.map Frame.closer) := by
  unfold readValue at h
  split at h <;> cases h <;> rfl

/-- A step of the parser opens and closes the brackets of the text. -/
theorem step_closes {trailing : Bool} {s s' : ParseState} {p : Piece}
    (h : parseStep trailing s p = some s') :
    closePiece (s.1.map Frame.closer) p = some (s'.1.map Frame.closer) := by
  obtain ⟨frames, mode⟩ := s
  unfold parseStep at h
  split at h
  · cases h
    rfl
  · cases mode with
    | start =>
      change readStart frames p = some s' at h
      unfold readStart at h
      split at h
      · split at h
        · rename_i hp
          cases h
          rw [hp]
          rfl
        · exact read_value_closes h
      · split at h
        · rename_i hp
          cases h
          rw [hp]
          rfl
        · exact read_value_closes h
      · exact read_value_closes h
    | value => exact read_value_closes h
    | done t =>
      change readNext trailing frames t p = some s' at h
      unfold readNext at h
      dsimp only at h
      split at h
      · cases h
      · split at h
        · rename_i hp
          cases h
          rw [hp]
          rfl
        · split at h
          · rename_i hp
            cases h
            rw [hp]
            rfl
          · cases h
      · split at h
        · split at h
          · rename_i hp
            cases h
            rw [hp]
            rfl
          · cases h
        · cases h
      · split at h
        · rename_i hp
          cases h
          rw [hp]
          rfl
        · split at h
          · rename_i hp
            cases h
            rw [hp]
            rfl
          · cases h

theorem run_closes {trailing : Bool} {s s' : ParseState} {pieces : List Piece}
    (h : pieces.foldlM (parseStep trailing) s = some s') :
    pieces.foldlM closePiece (s.1.map Frame.closer) = some (s'.1.map Frame.closer) := by
  induction pieces generalizing s with
  | nil =>
    cases h
    rfl
  | cons p pieces ih =>
    obtain ⟨u, hu, hrest⟩ := Option.bind_eq_some_iff.mp h
    rw [List.foldlM_cons, step_closes hu]
    exact ih hrest

theorem closed_by_braces {n : Nat} {stack : List Punct}
    (h : (List.replicate n (Piece.punct .closeDict)).foldlM closePiece stack = some []) :
    stack = List.replicate n .closeDict := by
  induction n generalizing stack with
  | zero =>
    cases h
    rfl
  | succ n ih =>
    obtain ⟨rest, hrest, hclosed⟩ := Option.bind_eq_some_iff.mp h
    change (if stack.head? = some .closeDict then some stack.tail else none) = some rest at hrest
    split at hrest
    · rename_i hhead
      cases hrest
      obtain ⟨tail, rfl⟩ := List.head?_eq_some_iff.mp hhead
      rw [List.replicate_succ, ← ih hclosed]
      rfl
    · cases hrest

/-- Without its last braces a text is incomplete, and they are what closes it. -/
theorem truncated_braces {trailing : Bool} {pieces : List Piece} {t : Tree} {n : Nat} (hn : 0 < n)
    (h : parse trailing (pieces ++ List.replicate n (.punct .closeDict)) = some t) :
    parse trailing pieces = none ∧
      pieces.foldlM closePiece [] = some (List.replicate n .closeDict) := by
  obtain ⟨s, hs, ht⟩ := Option.bind_eq_some_iff.mp h
  rw [List.foldlM_append] at hs
  obtain ⟨u, hu, hrest⟩ := Option.bind_eq_some_iff.mp hs
  have hend : s.1 = [] := by
    unfold parsed at ht
    split at ht
    · rfl
    · cases ht
  constructor
  · rw [parse, hu, Option.bind_some]
    cases hparsed : parsed u with
    | none => rfl
    | some t' =>
      unfold parsed at hparsed
      split at hparsed
      · obtain ⟨m, rfl⟩ := Nat.exists_eq_succ_of_ne_zero (Nat.ne_of_gt hn)
        cases hrest
      · cases hparsed
  · have hopen := run_closes hu
    have hclosed := run_closes hrest
    rw [hend] at hclosed
    rw [← closed_by_braces hclosed]
    exact hopen

end CheshireCat.Base
