import CheshireCat.Base.Closing
import CheshireCat.Base.JsonText

namespace CheshireCat.Base

/-! ### Values that may have no JSON -/

/-- A key of a dictionary. A number or a constant becomes its text in JSON, other keys have none. -/
inductive PyKey where
  | str (s : String)
  | scalar (text : String)
  | other (repr : String)
deriving DecidableEq

/-- What may be in a dictionary. `other` is an object that JSON does not have. -/
inductive PyValue where
  | null
  | bool (b : Bool)
  | number (n : Number)
  | str (s : String)
  | list (items : List PyValue)
  | tuple (items : List PyValue)
  | dict (entries : List (PyKey × PyValue))
  | other

def PyKey.text? : PyKey → Option String
  | .str s => some s
  | .scalar text => some text
  | .other _ => none

mutual

def Json.toPy : Json → PyValue
  | .null => .null
  | .bool b => .bool b
  | .number n => .number n
  | .str s => .str s
  | .arr items => .list (Json.itemsToPy items)
  | .obj fields => .dict (Json.fieldsToPy fields)

def Json.itemsToPy : List Json → List PyValue
  | [] => []
  | v :: vs => v.toPy :: Json.itemsToPy vs

def Json.fieldsToPy : List (String × Json) → List (PyKey × PyValue)
  | [] => []
  | (k, v) :: fields => (.str k, v.toPy) :: Json.fieldsToPy fields

end

mutual

/-- The JSON value of a value, if JSON has it. -/
def PyValue.json? : PyValue → Option Json
  | .null => some .null
  | .bool b => some (.bool b)
  | .number n => some (.number n)
  | .str s => some (.str s)
  | .list items => (PyValue.itemsJson? items).map .arr
  | .tuple items => (PyValue.itemsJson? items).map .arr
  | .dict entries => (PyValue.entriesJson? entries).map .obj
  | .other => none

def PyValue.itemsJson? : List PyValue → Option (List Json)
  | [] => some []
  | v :: vs => (PyValue.json? v).bind (fun j => (PyValue.itemsJson? vs).map (fun js => j :: js))

def PyValue.entriesJson? : List (PyKey × PyValue) → Option (List (String × Json))
  | [] => some []
  | (key, v) :: entries =>
    key.text?.bind (fun k => (PyValue.json? v).bind (fun j =>
      (PyValue.entriesJson? entries).map (fun fields => (k, j) :: fields)))

end

/-! ### Writing -/

/-- The pieces that are written, and whether the writer gets to the end. -/
abbrev Written := List Piece × Bool

def Written.after (before : List Piece) (w : Written) : Written := (before ++ w.1, w.2)

def Written.andThen (w rest : Written) : Written := if w.2 then (w.1 ++ rest.1, rest.2) else w

def newline (level : Nat) : List Piece := .blank '\n' :: List.replicate (4 * level) (.blank ' ')

def separator (level : Nat) (first : Bool) : List Piece :=
  if first then [] else .punct .comma :: newline level

/-- A list or a dictionary, whose contents stand on lines of their own. -/
def bracketed (a b : Punct) (level : Nat) (empty : Bool) (contents : Written) : Written :=
  if empty then ([.punct a, .punct b], true)
  else (contents.after (.punct a :: newline (level + 1))).andThen (newline level ++ [.punct b], true)

variable (numbers : NumberTexts)

mutual

/-- What `json.dump` with an indent of four writes of a value, as far as it gets. -/
def PyValue.write : Nat → PyValue → Written
  | _, .null => ([.word nullWord], true)
  | _, .bool true => ([.word trueWord], true)
  | _, .bool false => ([.word falseWord], true)
  | _, .number n => ([.word (numbers.write n)], true)
  | _, .str s => ([quote s], true)
  | level, .list items => bracketed .openList .closeList level items.isEmpty
    (PyValue.writeItems (level + 1) true items)
  | level, .tuple items => bracketed .openList .closeList level items.isEmpty
    (PyValue.writeItems (level + 1) true items)
  | level, .dict entries => bracketed .openDict .closeDict level entries.isEmpty
    (PyValue.writeEntries (level + 1) true entries)
  | _, .other => ([], false)

def PyValue.writeItems : Nat → Bool → List PyValue → Written
  | _, _, [] => ([], true)
  | level, first, v :: vs =>
    ((PyValue.write level v).after (separator level first)).andThen (PyValue.writeItems level false vs)

def PyValue.writeEntries : Nat → Bool → List (PyKey × PyValue) → Written
  | _, _, [] => ([], true)
  | level, first, (key, v) :: entries =>
    match key.text? with
    | none => ([], false)
    | some text =>
      ((PyValue.write level v).after (separator level first ++ [quote text, .punct .colon, .blank ' '])).andThen
        (PyValue.writeEntries level false entries)

end

variable {numbers}

/-! ### The layout -/

/-- Pieces that may stand behind a word. -/
def Follows (pieces : List Piece) : Prop := Layout pieces ∧ ∀ p ∈ pieces.head?, p.isWord = false

theorem follows_cons {p : Piece} {pieces : List Piece} (hvalid : p.Valid) (hword : p.isWord = false)
    (h : Layout pieces) : Follows (p :: pieces) := by
  refine ⟨layout_cons_iff.mpr ⟨hvalid, h, ?_⟩, ?_⟩
  · intro h
    rw [hword] at h
    cases h
  · rintro q hq
    cases hq
    exact hword

theorem follows_newline (level : Nat) {pieces : List Piece} (h : Layout pieces) :
    Follows (newline level ++ pieces) := by
  apply follows_cons (p := .blank '\n') rfl rfl
  induction 4 * level with
  | zero => exact h
  | succ n ih => exact (follows_cons (p := .blank ' ') rfl rfl ih).1

variable (numbers)

theorem follows_word {w : List Char} (h : IsConstant numbers w) {rest : List Piece} (hrest : Follows rest) :
    Layout (.word w :: rest) := by
  have hpiece : PieceOf numbers [] (.word w) := .word h
  exact layout_cons_iff.mpr ⟨hpiece.valid, hrest.1, fun _ => hrest.2⟩

theorem quote_valid (s : String) : (quote s).Valid := ⟨rfl, encode_closed _⟩

theorem bracketed_layout (a b : Punct) (level : Nat) (empty : Bool) {contents : Written}
    (h : ∀ rest, Follows rest → Layout (contents.1 ++ rest)) {rest : List Piece} (hrest : Follows rest) :
    Layout ((bracketed a b level empty contents).1 ++ rest) := by
  have hclose : Follows (.punct b :: rest) := follows_cons trivial rfl hrest.1
  unfold bracketed Written.after Written.andThen
  split
  · exact (follows_cons (p := .punct a) trivial rfl hclose.1).1
  · dsimp only
    split
    · rw [List.append_assoc, List.append_assoc, List.cons_append, List.append_assoc]
      exact (follows_cons (p := .punct a) trivial rfl
        (follows_newline (level + 1) (h _ (follows_newline level hclose.1))).1).1
    · rw [List.append_assoc, List.cons_append]
      exact (follows_cons (p := .punct a) trivial rfl (follows_newline (level + 1) (h _ hrest)).1).1

mutual

theorem write_layout : ∀ (v : PyValue) (level : Nat) (rest : List Piece), Follows rest →
    Layout ((v.write numbers level).1 ++ rest)
  | .null, _, _, h => follows_word numbers (Or.inl rfl) h
  | .bool true, _, _, h => follows_word numbers (Or.inr (Or.inl rfl)) h
  | .bool false, _, _, h => follows_word numbers (Or.inr (Or.inr (Or.inl rfl))) h
  | .number n, _, _, h => follows_word numbers (Or.inr (Or.inr (Or.inr ⟨n, rfl⟩))) h
  | .str s, _, _, h => (follows_cons (quote_valid s) rfl h.1).1
  | .list items, level, _, h => bracketed_layout _ _ level items.isEmpty
    (fun rest hrest => (items_layout items (level + 1) true rest hrest).1) h
  | .tuple items, level, _, h => bracketed_layout _ _ level items.isEmpty
    (fun rest hrest => (items_layout items (level + 1) true rest hrest).1) h
  | .dict entries, level, _, h => bracketed_layout _ _ level entries.isEmpty
    (fun rest hrest => (entries_layout entries (level + 1) true rest hrest).1) h
  | .other, _, _, h => h.1

theorem items_layout : ∀ (items : List PyValue) (level : Nat) (first : Bool) (rest : List Piece), Follows rest →
    Layout ((PyValue.writeItems numbers level first items).1 ++ rest) ∧
    (first = false → Follows ((PyValue.writeItems numbers level first items).1 ++ rest))
  | [], _, _, _, h => ⟨h.1, fun _ => h⟩
  | v :: vs, level, first, rest, h => by
    have hvalue (rest' : List Piece) (hrest' : Follows rest') :
        Layout (separator level first ++ ((v.write numbers level).1 ++ rest')) ∧
        (first = false → Follows (separator level first ++ ((v.write numbers level).1 ++ rest'))) := by
      have hlayout := write_layout v level rest' hrest'
      cases first with
      | true => exact ⟨hlayout, fun hf => by cases hf⟩
      | false =>
        have hfollows := follows_cons (p := .punct .comma) trivial rfl (follows_newline level hlayout).1
        exact ⟨hfollows.1, fun _ => hfollows⟩
    rw [PyValue.writeItems, Written.after, Written.andThen]
    dsimp only
    split
    · rw [List.append_assoc, List.append_assoc]
      exact hvalue _ ((items_layout vs level false rest h).2 rfl)
    · rw [List.append_assoc]
      exact hvalue rest h

theorem entries_layout : ∀ (entries : List (PyKey × PyValue)) (level : Nat) (first : Bool) (rest : List Piece),
    Follows rest → Layout ((PyValue.writeEntries numbers level first entries).1 ++ rest) ∧
    (first = false → Follows ((PyValue.writeEntries numbers level first entries).1 ++ rest))
  | [], _, _, _, h => ⟨h.1, fun _ => h⟩
  | (key, v) :: entries, level, first, rest, h => by
    rw [PyValue.writeEntries]
    cases key.text? with
    | none => exact ⟨h.1, fun _ => h⟩
    | some text =>
      have hvalue (rest' : List Piece) (hrest' : Follows rest') :
          Layout (separator level first ++ ([quote text, .punct .colon, .blank ' '] ++
            ((v.write numbers level).1 ++ rest'))) ∧
          (first = false → Follows (separator level first ++ ([quote text, .punct .colon, .blank ' '] ++
            ((v.write numbers level).1 ++ rest')))) := by
        have hlayout := follows_cons (quote_valid text) rfl (follows_cons (p := .punct .colon) trivial rfl
          (follows_cons (p := .blank ' ') rfl rfl (write_layout v level rest' hrest')).1).1
        cases first with
        | true => exact ⟨hlayout.1, fun hf => by cases hf⟩
        | false =>
          have hfollows := follows_cons (p := .punct .comma) trivial rfl (follows_newline level hlayout.1).1
          exact ⟨hfollows.1, fun _ => hfollows⟩
      dsimp only [Written.after, Written.andThen]
      split
      · rw [List.append_assoc, List.append_assoc, List.append_assoc]
        exact hvalue _ ((entries_layout entries level false rest h).2 rfl)
      · rw [List.append_assoc, List.append_assoc]
        exact hvalue rest h

end

/-! ### Brackets -/

/-- What is written leaves the brackets open that it did not get to close. -/
structure Leaves (w : Written) (marks : List Punct) : Prop where
  fold : ∀ stack, w.1.foldlM closePiece stack = some (marks ++ stack)
  complete : w.2 = true → marks = []

theorem blanks_close (n : Nat) (stack : List Punct) :
    (List.replicate n (Piece.blank ' ')).foldlM closePiece stack = some stack := by
  induction n with
  | zero => rfl
  | succ n ih => exact ih

theorem newline_close (level : Nat) (stack : List Punct) :
    (newline level).foldlM closePiece stack = some stack := blanks_close (4 * level) stack

theorem separator_close (level : Nat) (first : Bool) (stack : List Punct) :
    (separator level first).foldlM closePiece stack = some stack := by
  unfold separator
  split
  · rfl
  · exact newline_close level stack

theorem Leaves.after {before : List Piece} (hbefore : ∀ stack, before.foldlM closePiece stack = some stack)
    {w : Written} {marks : List Punct} (h : Leaves w marks) : Leaves (w.after before) marks where
  fold stack := by
    rw [Written.after, List.foldlM_append, hbefore]
    exact h.fold stack
  complete := h.complete

theorem Leaves.andThen {w rest : Written} {marks marks' : List Punct} (h : Leaves w marks)
    (hrest : Leaves rest marks') : ∃ marks, Leaves (w.andThen rest) marks := by
  unfold Written.andThen
  split
  · rename_i hcomplete
    refine ⟨marks', ?_, hrest.complete⟩
    intro stack
    rw [List.foldlM_append, h.fold, h.complete hcomplete]
    exact hrest.fold stack
  · exact ⟨marks, h⟩

/-- A bracket that is not closed stays open. -/
theorem bracketed_leaves {a b : Punct} (hopen : ∀ stack, closePunct stack a = some (b :: stack))
    (hclose : ∀ stack, closePunct (b :: stack) b = some stack) (level : Nat) (empty : Bool) {contents : Written}
    {marks : List Punct} (h : Leaves contents marks) :
    ∃ marks, Leaves (bracketed a b level empty contents) marks ∧
      ((bracketed a b level empty contents).2 = false → marks ≠ []) := by
  unfold bracketed Written.after Written.andThen
  split
  · refine ⟨[], ⟨?_, fun _ => rfl⟩, fun hf => by cases hf⟩
    intro stack
    rw [List.foldlM_cons]
    change (closePunct stack a).bind _ = _
    rw [hopen]
    change (closePunct (b :: stack) b).bind _ = _
    rw [hclose]
    rfl
  · dsimp only
    have hstart (stack : List Punct) : (Piece.punct a :: newline (level + 1) ++ contents.1).foldlM closePiece stack =
        some (marks ++ b :: stack) := by
      rw [List.cons_append, List.foldlM_cons]
      change (closePunct stack a).bind _ = _
      rw [hopen, Option.bind_some, List.foldlM_append, newline_close]
      exact h.fold (b :: stack)
    split
    · rename_i hcomplete
      refine ⟨[], ⟨?_, fun _ => rfl⟩, fun hf => by cases hf⟩
      intro stack
      rw [List.foldlM_append, hstart, h.complete hcomplete]
      change (newline level ++ [Piece.punct b]).foldlM closePiece (b :: stack) = _
      rw [List.foldlM_append, newline_close]
      change (closePunct (b :: stack) b).bind _ = _
      rw [hclose]
      rfl
    · rename_i hincomplete
      refine ⟨marks ++ [b], ⟨?_, fun hf => absurd hf hincomplete⟩, ?_⟩
      · intro stack
        rw [List.append_assoc]
        exact hstart stack
      · intro _ hnil
        exact List.cons_ne_nil b [] (List.append_eq_nil_iff.mp hnil).2

theorem list_leaves (level : Nat) (empty : Bool) {contents : Written} {marks : List Punct}
    (h : Leaves contents marks) : ∃ marks, Leaves (bracketed .openList .closeList level empty contents) marks ∧
      ((bracketed .openList .closeList level empty contents).2 = false → marks ≠ []) :=
  bracketed_leaves (fun _ => rfl) (fun _ => rfl) level empty h

theorem dict_leaves (level : Nat) (empty : Bool) {contents : Written} {marks : List Punct}
    (h : Leaves contents marks) : ∃ marks, Leaves (bracketed .openDict .closeDict level empty contents) marks ∧
      ((bracketed .openDict .closeDict level empty contents).2 = false → marks ≠ []) :=
  bracketed_leaves (fun _ => rfl) (fun _ => rfl) level empty h

theorem leaf_leaves {p : Piece} (h : ∀ a, p ≠ .punct a) : Leaves ([p], true) [] where
  fold stack := by
    cases p with
    | punct a => exact absurd rfl (h a)
    | _ => rfl
  complete _ := rfl

theorem nothing_leaves (complete : Bool) : Leaves ([], complete) [] := ⟨fun _ => rfl, fun _ => rfl⟩

mutual

theorem write_leaves : ∀ (v : PyValue) (level : Nat), ∃ marks, Leaves (v.write numbers level) marks
  | .null, _ | .bool true, _ | .bool false, _ | .number _, _ | .str _, _ =>
    ⟨[], leaf_leaves (fun _ h => by cases h)⟩
  | .list items, level | .tuple items, level =>
    have ⟨_, hitems⟩ := items_leave items (level + 1) true
    have ⟨marks, h, _⟩ := list_leaves level items.isEmpty hitems
    ⟨marks, h⟩
  | .dict entries, level =>
    have ⟨_, hentries⟩ := entries_leave entries (level + 1) true
    have ⟨marks, h, _⟩ := dict_leaves level entries.isEmpty hentries
    ⟨marks, h⟩
  | .other, _ => ⟨[], nothing_leaves false⟩

theorem items_leave : ∀ (items : List PyValue) (level : Nat) (first : Bool),
    ∃ marks, Leaves (PyValue.writeItems numbers level first items) marks
  | [], _, _ => ⟨[], nothing_leaves true⟩
  | v :: vs, level, first =>
    have ⟨_, hvalue⟩ := write_leaves v level
    have ⟨_, hrest⟩ := items_leave vs level false
    (hvalue.after (separator_close level first)).andThen hrest

theorem entries_leave : ∀ (entries : List (PyKey × PyValue)) (level : Nat) (first : Bool),
    ∃ marks, Leaves (PyValue.writeEntries numbers level first entries) marks
  | [], _, _ => ⟨[], nothing_leaves true⟩
  | (key, v) :: entries, level, first => by
    rw [PyValue.writeEntries]
    cases key.text? with
    | none => exact ⟨[], nothing_leaves false⟩
    | some text =>
      obtain ⟨_, hvalue⟩ := write_leaves v level
      obtain ⟨_, hrest⟩ := entries_leave entries level false
      refine (hvalue.after ?_).andThen hrest
      intro stack
      rw [List.foldlM_append, separator_close]
      rfl

end

variable {numbers}

/-- A dictionary that is not written to its end cannot be read. -/
theorem unfinished_unreadable {entries : List (PyKey × PyValue)} {level : Nat}
    (h : ((PyValue.dict entries).write numbers level).2 = false) :
    numbers.loads (textOf ((PyValue.dict entries).write numbers level).1) = none := by
  obtain ⟨_, hentries⟩ := entries_leave numbers entries (level + 1) true
  obtain ⟨marks, hleaves, hopen⟩ := dict_leaves level entries.isEmpty hentries
  have hlayout := write_layout numbers (.dict entries) level [] ⟨layout_nil, fun _ hp => by cases hp⟩
  rw [List.append_nil] at hlayout
  rw [NumberTexts.loads, lex_text hlayout, Option.bind_some]
  have hfold := hleaves.fold []
  rw [List.append_nil] at hfold
  cases hparse : parse false ((PyValue.dict entries).write numbers level).1 with
  | none => rfl
  | some t =>
    obtain ⟨s, hs, ht⟩ := Option.bind_eq_some_iff.mp hparse
    have hclosed := run_closes hs
    have hend : s.1 = [] := by
      unfold parsed at ht
      split at ht
      · rfl
      · cases ht
    rw [hend] at hclosed
    exact absurd (Option.some.inj (hfold.symm.trans hclosed)) (hopen h)

/-! ### Values of JSON -/

/-- The writer gets to the end, and writes the pieces with blanks between them. -/
structure Writes (w : Written) (pieces : List Piece) : Prop where
  complete : w.2 = true
  pieces : w.1.filter (fun p => !p.isBlank) = pieces

theorem Writes.after {w : Written} {before pieces pieces' : List Piece} (h : Writes w pieces)
    (hbefore : before.filter (fun p => !p.isBlank) = pieces') : Writes (w.after before) (pieces' ++ pieces) where
  complete := h.complete
  pieces := by rw [Written.after, List.filter_append, hbefore, h.pieces]

theorem Writes.andThen {w rest : Written} {pieces pieces' : List Piece} (h : Writes w pieces)
    (hrest : Writes rest pieces') : Writes (w.andThen rest) (pieces ++ pieces') := by
  rw [Written.andThen, if_pos h.complete]
  exact ⟨hrest.complete, by rw [List.filter_append, h.pieces, hrest.pieces]⟩

theorem newline_blank (level : Nat) : (newline level).filter (fun p => !p.isBlank) = [] := by
  apply List.filter_eq_nil_iff.mpr
  intro p hp
  rcases List.mem_cons.mp hp with rfl | hp
  · exact Bool.false_ne_true
  · rw [List.eq_of_mem_replicate hp]
    exact Bool.false_ne_true

theorem separator_pieces (level : Nat) (first : Bool) :
    (separator level first).filter (fun p => !p.isBlank) = if first then [] else [.punct .comma] := by
  unfold separator
  split
  · rfl
  · exact congrArg _ (newline_blank level)

theorem bracketed_writes (a b : Punct) (level : Nat) {empty : Bool} {contents : Written} {pieces : List Piece}
    (h : Writes contents pieces) (hempty : empty = true → pieces = []) :
    Writes (bracketed a b level empty contents) (.punct a :: (pieces ++ [.punct b])) := by
  unfold bracketed
  split
  · rename_i he
    rw [hempty he]
    exact ⟨rfl, rfl⟩
  · have hstart : (Piece.punct a :: newline (level + 1)).filter (fun p => !p.isBlank) = [.punct a] :=
      congrArg _ (newline_blank (level + 1))
    have hend : Writes (newline level ++ [Piece.punct b], true) [.punct b] :=
      ⟨rfl, by rw [List.filter_append, newline_blank]; rfl⟩
    exact (h.after hstart).andThen hend

theorem item_pieces_cons (t : Tree) (ts : List Tree) :
    itemPieces (t :: ts) = t.pieces ++ if ts.isEmpty then [] else .punct .comma :: itemPieces ts := by
  cases ts with
  | nil => exact (List.append_nil _).symm
  | cons t' ts => rfl

theorem entry_pieces_cons (key : Piece) (t : Tree) (es : List (Piece × Tree)) :
    entryPieces ((key, t) :: es) =
      key :: .punct .colon :: (t.pieces ++ if es.isEmpty then [] else .punct .comma :: entryPieces es) := by
  cases es with
  | nil =>
    change _ = key :: .punct .colon :: (t.pieces ++ [])
    rw [List.append_nil]
    rfl
  | cons e es => rfl

variable (numbers)

mutual

theorem write_json : ∀ (v : Json) (level : Nat), Writes (v.toPy.write numbers level) (numbers.tree v).pieces
  | .null, _ | .bool true, _ | .bool false, _ | .number _, _ | .str _, _ => ⟨rfl, rfl⟩
  | .arr items, level => by
    have hitems := items_json items (level + 1) true
    cases items with
    | nil => exact bracketed_writes .openList .closeList level hitems (fun _ => rfl)
    | cons v vs => exact bracketed_writes .openList .closeList level hitems (fun h => by cases h)
  | .obj fields, level => by
    have hfields := fields_json fields (level + 1) true
    cases fields with
    | nil => exact bracketed_writes .openDict .closeDict level hfields (fun _ => rfl)
    | cons p fields => exact bracketed_writes .openDict .closeDict level hfields (fun h => by cases h)

theorem items_json : ∀ (items : List Json) (level : Nat) (first : Bool),
    Writes (PyValue.writeItems numbers level first (Json.itemsToPy items))
      (if items.isEmpty then [] else (if first then [] else [.punct .comma]) ++ itemPieces (numbers.itemTrees items))
  | [], _, _ => ⟨rfl, rfl⟩
  | v :: vs, level, first => by
    have hall := ((write_json v level).after (separator_pieces level first)).andThen (items_json vs level false)
    have hempty : (numbers.itemTrees vs).isEmpty = vs.isEmpty := by cases vs <;> rfl
    rw [NumberTexts.itemTrees, item_pieces_cons, hempty, ← List.append_assoc]
    exact hall

theorem fields_json : ∀ (fields : List (String × Json)) (level : Nat) (first : Bool),
    Writes (PyValue.writeEntries numbers level first (Json.fieldsToPy fields))
      (if fields.isEmpty then []
        else (if first then [] else [.punct .comma]) ++ entryPieces (numbers.fieldTrees fields))
  | [], _, _ => ⟨rfl, rfl⟩
  | (k, v) :: fields, level, first => by
    have hbefore : (separator level first ++ [quote k, .punct .colon, .blank ' ']).filter (fun p => !p.isBlank) =
        (if first then [] else [.punct .comma]) ++ [quote k, .punct .colon] := by
      rw [List.filter_append, separator_pieces]
      rfl
    have hall := ((write_json v level).after hbefore).andThen (fields_json fields level false)
    have hempty : (numbers.fieldTrees fields).isEmpty = fields.isEmpty := by cases fields <;> rfl
    rw [NumberTexts.fieldTrees, entry_pieces_cons, hempty]
    rw [List.append_assoc, List.append_assoc] at hall
    exact hall

end

variable {numbers}

/-- A value of JSON is read as it was written. -/
theorem loads_write {v : Json} (h : v.distinct = true) (level : Nat) :
    (v.toPy.write numbers level).2 = true ∧ numbers.loads (textOf (v.toPy.write numbers level).1) = some v := by
  obtain ⟨hcomplete, hpieces⟩ := write_json numbers v level
  refine ⟨hcomplete, ?_⟩
  have hlayout := write_layout numbers v.toPy level [] ⟨layout_nil, fun _ hp => by cases hp⟩
  rw [List.append_nil] at hlayout
  rw [NumberTexts.loads, lex_text hlayout, Option.bind_some, ← parse_without_blanks, hpieces,
    parse_tree false (tree_leaves numbers v)]
  exact value_tree v h

/-! ### Objects -/

theorem Json.distinct_fields_iff (fields : Json.Fields) :
    Json.distinctFields fields = true ↔ ∀ p ∈ fields, p.2.distinct = true := by
  induction fields with
  | nil => exact iff_of_true rfl (fun _ h => absurd h List.not_mem_nil)
  | cons p fields ih => rw [Json.distinctFields, Bool.and_eq_true, ih, List.forall_mem_cons]

theorem Json.distinct_object_iff (fields : Json.Fields) :
    (Json.obj fields).distinct = true ↔ (fields.map Prod.fst).Nodup ∧ ∀ p ∈ fields, p.2.distinct = true := by
  rw [Json.distinct, Bool.and_eq_true, decide_eq_true_eq, Json.distinct_fields_iff]

theorem Json.set_field_distinct {d : Json.Fields} {k : String} {v : Json} (hd : (Json.obj d).distinct = true)
    (hv : v.distinct = true) : (Json.obj (Json.setField d k v)).distinct = true := by
  rw [Json.distinct_object_iff] at hd ⊢
  constructor
  · exact (Dict.set ⟨d, hd.1⟩ k v).distinct
  · rintro ⟨k', v'⟩ hp
    rcases (Json.mem_setField d k k' v v').mp hp with ⟨_, rfl⟩ | ⟨_, hold⟩
    · exact hv
    · exact hd.2 _ hold

theorem Json.set_fields_distinct {d e : Json.Fields} (hd : (Json.obj d).distinct = true)
    (he : ∀ p ∈ e, p.2.distinct = true) : (Json.obj (Json.setFields d e)).distinct = true := by
  induction e generalizing d with
  | nil => exact hd
  | cons p e ih =>
    rw [List.forall_mem_cons] at he
    exact ih (Json.set_field_distinct hd he.1) he.2

mutual

/-- What is read has distinct keys in each object. -/
theorem value_distinct : ∀ (t : Tree) (v : Json), numbers.value? t = some v → v.distinct = true
  | .leaf p, v, h => by
    cases p with
    | word w =>
      rw [NumberTexts.value?, NumberTexts.readWord] at h
      split at h
      · cases h
        rfl
      · split at h
        · cases h
          rfl
        · split at h
          · cases h
            rfl
          · obtain ⟨n, _, rfl⟩ := Option.map_eq_some_iff.mp h
            rfl
    | quoted quote body =>
      change (readText (.quoted quote body)).map Json.str = some v at h
      obtain ⟨s, _, rfl⟩ := Option.map_eq_some_iff.mp h
      rfl
    | blank c => cases h
    | punct a => cases h
  | .list items, v, h => by
    obtain ⟨vs, hvs, rfl⟩ := Option.map_eq_some_iff.mp h
    exact values_distinct items vs hvs
  | .dict entries, v, h => by
    obtain ⟨fields, hfields, rfl⟩ := Option.map_eq_some_iff.mp h
    exact Json.set_fields_distinct rfl (fields_distinct entries fields hfields)

theorem values_distinct : ∀ (ts : List Tree) (vs : List Json), numbers.values? ts = some vs →
    Json.distinctItems vs = true
  | [], vs, h => by
    cases h
    rfl
  | t :: ts, vs, h => by
    obtain ⟨v, hv, hrest⟩ := Option.bind_eq_some_iff.mp h
    obtain ⟨vs', hvs', rfl⟩ := Option.map_eq_some_iff.mp hrest
    rw [Json.distinctItems, value_distinct t v hv, values_distinct ts vs' hvs']
    rfl

theorem fields_distinct : ∀ (es : List (Piece × Tree)) (fields : Json.Fields), numbers.fields? es = some fields →
    ∀ p ∈ fields, p.2.distinct = true
  | [], fields, h => by
    cases h
    exact fun _ hp => absurd hp List.not_mem_nil
  | (key, t) :: es, fields, h => by
    obtain ⟨k, _, hrest⟩ := Option.bind_eq_some_iff.mp h
    obtain ⟨v, hv, hrest⟩ := Option.bind_eq_some_iff.mp hrest
    obtain ⟨fields', hfields', rfl⟩ := Option.map_eq_some_iff.mp hrest
    exact List.forall_mem_cons.mpr ⟨value_distinct t v hv, fields_distinct es fields' hfields'⟩

end

theorem loads_distinct {text : List Char} {v : Json} (h : numbers.loads text = some v) : v.distinct = true := by
  obtain ⟨t, _, hv⟩ := Option.bind_eq_some_iff.mp h
  exact value_distinct t v hv

def fieldToPy (p : String × Json) : PyKey × PyValue := (.str p.1, p.2.toPy)

theorem Json.fields_to_py (fields : Json.Fields) : Json.fieldsToPy fields = fields.map fieldToPy := by
  induction fields with
  | nil => rfl
  | cons p fields ih => exact congrArg _ ih

/-- Entries that JSON has are those of an object. -/
theorem entries_of_json {entries : List (PyKey × PyValue)} (hkeys : (entries.map Prod.fst).Nodup)
    (h : ∀ e ∈ entries, ∃ p : String × Json, e = fieldToPy p ∧ p.2.distinct = true) :
    ∃ fields, entries = Json.fieldsToPy fields ∧ (Json.obj fields).distinct = true := by
  have hfields : ∃ fields : Json.Fields, entries = fields.map fieldToPy ∧ ∀ p ∈ fields, p.2.distinct = true := by
    clear hkeys
    induction entries with
    | nil => exact ⟨[], rfl, fun _ hp => absurd hp List.not_mem_nil⟩
    | cons e entries ih =>
      rw [List.forall_mem_cons] at h
      obtain ⟨p, rfl, hp⟩ := h.1
      obtain ⟨fields, rfl, hfields⟩ := ih h.2
      exact ⟨p :: fields, rfl, List.forall_mem_cons.mpr ⟨hp, hfields⟩⟩
  obtain ⟨fields, rfl, hfields⟩ := hfields
  refine ⟨fields, (Json.fields_to_py fields).symm, (Json.distinct_object_iff fields).mpr ⟨?_, hfields⟩⟩
  rw [List.map_map] at hkeys
  apply List.Nodup.of_map PyKey.str
  rw [List.map_map]
  exact hkeys

end CheshireCat.Base
