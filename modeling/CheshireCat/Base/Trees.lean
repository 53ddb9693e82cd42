import CheshireCat.Base.Literals

namespace CheshireCat.Base

/-- A literal: a word or a string, a list or a dictionary. -/
inductive Tree where
  | leaf (p : Piece)
  | list (items : List Tree)
  | dict (entries : List (Piece × Tree))

/-- A list or a dictionary that is being read, its last entry first. -/
inductive Frame where
  | items (done : List Tree)
  | entries (done : List (Piece × Tree))
  | entry (done : List (Piece × Tree)) (key : Piece)

/-- What is read next: a value or the end, a value, or what follows on a value. -/
inductive Mode where
  | start
  | value
  | done (t : Tree)

abbrev ParseState := List Frame × Mode

def readValue (frames : List Frame) : Piece → Option ParseState
  | .punct .openList => some (.items [] :: frames, .start)
  | .punct .openDict => some (.entries [] :: frames, .start)
  | .word w => some (frames, .done (.leaf (.word w)))
  | .quoted quote body => some (frames, .done (.leaf (.quoted quote body)))
  | _ => none

/-- The first value of a list or the first key of a dictionary, or its end. -/
def readStart (frames : List Frame) (p : Piece) : Option ParseState :=
  match frames with
  | .items done :: below =>
    if p = .punct .closeList then some (below, .done (.list done.reverse)) else readValue frames p
  | .entries done :: below =>
    if p = .punct .closeDict then some (below, .done (.dict done.reverse)) else readValue frames p
  | _ => readValue frames p

/-- What follows on a value. `trailing` is whether a comma may stand before the end. -/
def readNext (trailing : Bool) (frames : List Frame) (t : Tree) (p : Piece) : Option ParseState :=
  let next := if trailing then .start else .value
  match frames with
  | [] => none
  | .items done :: frames =>
    if p = .punct .comma then some (.items (t :: done) :: frames, next)
    else if p = .punct .closeList then some (frames, .done (.list (t :: done).reverse))
    else none
  | .entries done :: frames =>
    match t with
    | .leaf key => if p = .punct .colon then some (.entry done key :: frames, .value) else none
    | _ => none
  | .entry done key :: frames =>
    if p = .punct .comma then some (.entries ((key, t) :: done) :: frames, next)
    else if p = .punct .closeDict then some (frames, .done (.dict ((key, t) :: done).reverse))
    else none

def parseStep (trailing : Bool) (s : ParseState) (p : Piece) : Option ParseState :=
  match p with
  | .blank _ => some s
  | p =>
    match s.2 with
    | .start => readStart s.1 p
    | .value => readValue s.1 p
    | .done t => readNext trailing s.1 t p

def parsed : ParseState → Option Tree
  | ([], .done t) => some t
  | _ => none

def parse (trailing : Bool) (pieces : List Piece) : Option Tree :=
  (pieces.foldlM (parseStep trailing) ([], .start)).bind parsed

/-! ### The leaves -/

mutual

/-- Whether all words and strings, keys too, are of a kind. -/
def Tree.all (kind : Piece → Bool) : Tree → Bool
  | .leaf p => kind p
  | .list items => allItems kind items
  | .dict entries => allEntries kind entries

def allItems (kind : Piece → Bool) : List Tree → Bool
  | [] => true
  | t :: ts => t.all kind && allItems kind ts

def allEntries (kind : Piece → Bool) : List (Piece × Tree) → Bool
  | [] => true
  | (key, t) :: entries => kind key && t.all kind && allEntries kind entries

end

theorem all_items (kind : Piece → Bool) (items : List Tree) :
    allItems kind items = true ↔ ∀ t ∈ items, t.all kind = true := by
  induction items with
  | nil => exact iff_of_true rfl nofun
  | cons t ts ih => rw [allItems, Bool.and_eq_true, ih, List.forall_mem_cons]

theorem all_entries (kind : Piece → Bool) (entries : List (Piece × Tree)) :
    allEntries kind entries = true ↔ ∀ e ∈ entries, kind e.1 = true ∧ e.2.all kind = true := by
  induction entries with
  | nil => exact iff_of_true rfl nofun
  | cons e entries ih =>
    rw [allEntries, Bool.and_eq_true, Bool.and_eq_true, ih, List.forall_mem_cons]

/-! ### Changing the leaves -/

mutual

def Tree.map (f : List Char → List Char) : Tree → Tree
  | .leaf p => .leaf (p.map f)
  | .list items => .list (mapItems f items)
  | .dict entries => .dict (mapEntries f entries)

def mapItems (f : List Char → List Char) : List Tree → List Tree
  | [] => []
  | t :: ts => t.map f :: mapItems f ts

def mapEntries (f : List Char → List Char) : List (Piece × Tree) → List (Piece × Tree)
  | [] => []
  | (key, t) :: entries => (key.map f, t.map f) :: mapEntries f entries

end

theorem map_items (f : List Char → List Char) (items : List Tree) :
    mapItems f items = items.map (Tree.map f) := by
  induction items with
  | nil => rfl
  | cons t ts ih => rw [mapItems, ih, List.map_cons]

theorem map_entries (f : List Char → List Char) (entries : List (Piece × Tree)) :
    mapEntries f entries = entries.map (fun e => (e.1.map f, e.2.map f)) := by
  induction entries with
  | nil => rfl
  | cons e entries ih => rw [mapEntries, ih, List.map_cons]

def Frame.map (f : List Char → List Char) : Frame → Frame
  | .items done => .items (mapItems f done)
  | .entries done => .entries (mapEntries f done)
  | .entry done key => .entry (mapEntries f done) (key.map f)

def Mode.map (f : List Char → List Char) : Mode → Mode
  | .start => .start
  | .value => .value
  | .done t => .done (t.map f)

def mapState (f : List Char → List Char) (s : ParseState) : ParseState :=
  (s.1.map (Frame.map f), s.2.map f)

theorem read_value_map (f : List Char → List Char) (frames : List Frame) (p : Piece) :
    readValue (frames.map (Frame.map f)) (p.map f) = (readValue frames p).map (mapState f) := by
  cases p with
  | blank c => rfl
  | punct p => cases p <;> rfl
  | word w => rfl
  | quoted quote body => rfl

theorem map_list_reverse (f : List Char → List Char) (done : List Tree) :
    (Tree.list done.reverse).map f = .list (mapItems f done).reverse := by
  rw [Tree.map, map_items, map_items, List.map_reverse]

theorem map_dict_reverse (f : List Char → List Char) (done : List (Piece × Tree)) :
    (Tree.dict done.reverse).map f = .dict (mapEntries f done).reverse := by
  rw [Tree.map, map_entries, map_entries, List.map_reverse]

theorem punct_map_iff (f : List Char → List Char) (p : Piece) (q : Punct) :
    p.map f = .punct q ↔ p = .punct q := by
  cases p <;> simp [Piece.map]

theorem read_start_map (f : List Char → List Char) (frames : List Frame) (p : Piece) :
    readStart (frames.map (Frame.map f)) (p.map f) = (readStart frames p).map (mapState f) := by
  have hvalue := read_value_map f frames p
  rcases frames with _ | ⟨done | done | ⟨done, key⟩, frames⟩
  · exact hvalue
  · simp only [List.map_cons, Frame.map, readStart, punct_map_iff]
    split
    · rw [Option.map_some, mapState, Mode.map, map_list_reverse]
    · exact hvalue
  · simp only [List.map_cons, Frame.map, readStart, punct_map_iff]
    split
    · rw [Option.map_some, mapState, Mode.map, map_dict_reverse]
    · exact hvalue
  · exact hvalue

theorem read_next_map (trailing : Bool) (f : List Char → List Char) (frames : List Frame) (t : Tree)
    (p : Piece) : readNext trailing (frames.map (Frame.map f)) (t.map f) (p.map f) =
      (readNext trailing frames t p).map (mapState f) := by
  rcases frames with _ | ⟨done | done | ⟨done, key⟩, frames⟩
  · rfl
  · simp only [List.map_cons, Frame.map, readNext, punct_map_iff]
    split
    · cases trailing <;> rfl
    · split
      · rw [Option.map_some, mapState, Mode.map, map_list_reverse]
        rfl
      · rfl
  · simp only [List.map_cons, Frame.map, readNext, punct_map_iff]
    cases t with
    | leaf key =>
      simp only [Tree.map]
      split <;> rfl
    | list items => rfl
    | dict entries => rfl
  · simp only [List.map_cons, Frame.map, readNext, punct_map_iff]
    split
    · cases trailing <;> rfl
    · split
      · rw [Option.map_some, mapState, Mode.map, map_dict_reverse]
        rfl
      · rfl

/-- A step does not depend on the texts of the leaves. -/
theorem parse_step_map (trailing : Bool) (f : List Char → List Char) (s : ParseState) (p : Piece) :
    parseStep trailing (mapState f s) (p.map f) = (parseStep trailing s p).map (mapState f) := by
  obtain ⟨frames, mode⟩ := s
  have hstep (p : Piece) (hp : ∀ c, p ≠ .blank c) :
      parseStep trailing (mapState f (frames, mode)) (p.map f) =
        (parseStep trailing (frames, mode) p).map (mapState f) := by
    have heq (s : ParseState) (p : Piece) (hp : ∀ c, p ≠ .blank c) : parseStep trailing s p =
        match s.2 with
        | .start => readStart s.1 p
        | .value => readValue s.1 p
        | .done t => readNext trailing s.1 t p := by
      cases p with
      | blank c => exact absurd rfl (hp c)
      | punct p => rfl
      | word w => rfl
      | quoted quote body => rfl
    have hp' : ∀ c, p.map f ≠ .blank c := by
      intro c
      cases p with
      | blank d => exact absurd rfl (hp d)
      | punct p => exact nofun
      | word w => exact nofun
      | quoted quote body => exact nofun
    rw [heq _ _ hp, heq _ _ hp']
    cases mode with
    | start => exact read_start_map f frames p
    | value => exact read_value_map f frames p
    | done t => exact read_next_map trailing f frames t p
  cases p with
  | blank c => rfl
  | punct p => exact hstep _ nofun
  | word w => exact hstep _ nofun
  | quoted quote body => exact hstep _ nofun

theorem parse_map (trailing : Bool) (f : List Char → List Char) (pieces : List Piece) :
    parse trailing (pieces.map (Piece.map f)) = (parse trailing pieces).map (Tree.map f) := by
  have hrun (s : ParseState) : (pieces.map (Piece.map f)).foldlM (parseStep trailing) (mapState f s) =
      (pieces.foldlM (parseStep trailing) s).map (mapState f) := by
    induction pieces generalizing s with
    | nil => rfl
    | cons p pieces ih =>
      rw [List.map_cons, List.foldlM_cons, List.foldlM_cons, parse_step_map]
      cases parseStep trailing s p with
      | none => rfl
      | some t => exact ih t
  have hparsed (s : ParseState) : parsed (mapState f s) = (parsed s).map (Tree.map f) := by
    obtain ⟨frames, mode⟩ := s
    cases frames <;> cases mode <;> rfl
  have hstart := hrun ([], .start)
  unfold parse
  rw [show (([], Mode.start) : ParseState) = mapState f ([], .start) from rfl, hstart]
  change _ = Option.map (Tree.map f) ((pieces.foldlM (parseStep trailing) ([], Mode.start)).bind parsed)
  cases pieces.foldlM (parseStep trailing) ([], Mode.start) with
  | none => rfl
  | some s => exact hparsed s

/-! ### The pieces of a tree -/

def Piece.isLeaf : Piece → Bool
  | .word _ => true
  | .quoted _ _ => true
  | _ => false

mutual

def Tree.pieces : Tree → List Piece
  | .leaf p => [p]
  | .list items => .punct .openList :: (itemPieces items ++ [.punct .closeList])
  | .dict entries => .punct .openDict :: (entryPieces entries ++ [.punct .closeDict])

def itemPieces : List Tree → List Piece
  | [] => []
  | [t] => t.pieces
  | t :: ts => t.pieces ++ .punct .comma :: itemPieces ts

def entryPieces : List (Piece × Tree) → List Piece
  | [] => []
  | [(key, t)] => key :: .punct .colon :: t.pieces
  | (key, t) :: entries => key :: .punct .colon :: (t.pieces ++ .punct .comma :: entryPieces entries)

end

/-- The pieces of the items or entries that are followed by a comma. -/
def Frame.pieces : Frame → List Piece
  | .items done => .punct .openList :: done.reverse.flatMap (fun t => t.pieces ++ [.punct .comma])
  | .entries done => .punct .openDict ::
    done.reverse.flatMap (fun e => e.1 :: .punct .colon :: (e.2.pieces ++ [.punct .comma]))
  | .entry done key => .punct .openDict ::
    (done.reverse.flatMap (fun e => e.1 :: .punct .colon :: (e.2.pieces ++ [.punct .comma])) ++
      [key, .punct .colon])

/-- What has been read of a text. -/
def statePieces (s : ParseState) : List Piece :=
  s.1.reverse.flatMap Frame.pieces ++ (match s.2 with
    | .done t => t.pieces
    | _ => [])

theorem item_pieces_snoc (ts : List Tree) (t : Tree) :
    itemPieces (ts ++ [t]) = ts.flatMap (fun t => t.pieces ++ [.punct .comma]) ++ t.pieces := by
  induction ts with
  | nil => rfl
  | cons t' ts ih =>
    rw [List.cons_append, List.flatMap_cons, List.append_assoc, ← ih]
    cases ts <;> simp [itemPieces]

theorem entry_pieces_snoc (entries : List (Piece × Tree)) (key : Piece) (t : Tree) :
    entryPieces (entries ++ [(key, t)]) =
      entries.flatMap (fun e => e.1 :: .punct .colon :: (e.2.pieces ++ [.punct .comma])) ++
        key :: .punct .colon :: t.pieces := by
  induction entries with
  | nil => rfl
  | cons e entries ih =>
    rw [List.cons_append, List.flatMap_cons, List.append_assoc, ← ih]
    cases entries <;> simp [entryPieces]

/-- Nothing is read of a list or a dictionary that is only just open. -/
def Opened (s : ParseState) : Prop :=
  s.2 = .start → ∀ frame ∈ s.1.head?, frame = .items [] ∨ frame = .entries []

theorem read_value_pieces {frames : List Frame} {p : Piece} {s : ParseState}
    (h : readValue frames p = some s) :
    statePieces s = frames.reverse.flatMap Frame.pieces ++ [p] ∧ Opened s := by
  unfold readValue at h
  split at h
  · cases h
    refine ⟨?_, fun _ frame hframe => Or.inl (Option.some.inj hframe).symm⟩
    simp [statePieces, Frame.pieces]
  · cases h
    refine ⟨?_, fun _ frame hframe => Or.inr (Option.some.inj hframe).symm⟩
    simp [statePieces, Frame.pieces]
  · cases h
    exact ⟨rfl, nofun⟩
  · cases h
    exact ⟨rfl, nofun⟩
  · cases h

theorem read_start_pieces {frames : List Frame} {p : Piece} {s : ParseState}
    (hopen : Opened (frames, .start)) (h : readStart frames p = some s) :
    statePieces s = frames.reverse.flatMap Frame.pieces ++ [p] ∧ Opened s := by
  unfold readStart at h
  split at h
  · rename_i done below
    split at h
    · rename_i hp
      cases h
      have hnil : done = [] := by
        rcases hopen rfl _ rfl with hframe | hframe
        · exact Frame.items.inj hframe
        · cases hframe
      subst hnil hp
      refine ⟨?_, nofun⟩
      simp [statePieces, Frame.pieces, Tree.pieces, itemPieces]
    · exact read_value_pieces h
  · rename_i done below
    split at h
    · rename_i hp
      cases h
      have hnil : done = [] := by
        rcases hopen rfl _ rfl with hframe | hframe
        · cases hframe
        · exact Frame.entries.inj hframe
      subst hnil hp
      refine ⟨?_, nofun⟩
      simp [statePieces, Frame.pieces, Tree.pieces, entryPieces]
    · exact read_value_pieces h
  · exact read_value_pieces h

theorem read_next_pieces {frames : List Frame} {t : Tree} {p : Piece} {s : ParseState}
    (h : readNext false frames t p = some s) :
    statePieces s = frames.reverse.flatMap Frame.pieces ++ t.pieces ++ [p] ∧ Opened s := by
  unfold readNext at h
  dsimp only at h
  split at h
  · cases h
  · split at h
    · rename_i hp
      cases h
      subst hp
      refine ⟨?_, nofun⟩
      simp [statePieces, Frame.pieces]
    · split at h
      · rename_i hp
        cases h
        subst hp
        refine ⟨?_, nofun⟩
        simp [statePieces, Frame.pieces, Tree.pieces, item_pieces_snoc]
      · cases h
  · split at h
    · split at h
      · rename_i hp
        cases h
        subst hp
        refine ⟨?_, nofun⟩
        simp [statePieces, Frame.pieces, Tree.pieces]
      · cases h
    · cases h
  · split at h
    · rename_i hp
      cases h
      subst hp
      refine ⟨?_, nofun⟩
      simp [statePieces, Frame.pieces]
    · split at h
      · rename_i hp
        cases h
        subst hp
        refine ⟨?_, nofun⟩
        simp [statePieces, Frame.pieces, Tree.pieces, entry_pieces_snoc]
      · cases h

def Piece.isBlank : Piece → Bool
  | .blank _ => true
  | _ => false

theorem parse_step_pieces {s s' : ParseState} {p : Piece} (hopen : Opened s)
    (h : parseStep false s p = some s') :
    statePieces s' = statePieces s ++ [p].filter (fun p => !p.isBlank) ∧ Opened s' := by
  obtain ⟨frames, mode⟩ := s
  unfold parseStep at h
  split at h
  · cases h
    exact ⟨(List.append_nil _).symm, hopen⟩
  · rename_i hblank
    have hkept : [p].filter (fun p => !p.isBlank) = [p] := by
      cases p with
      | blank c => exact absurd rfl (hblank c)
      | punct p => rfl
      | word w => rfl
      | quoted quote body => rfl
    rw [hkept]
    cases mode with
    | start =>
      obtain ⟨hpieces, hopened⟩ := read_start_pieces hopen h
      exact ⟨by rw [hpieces, statePieces, List.append_nil], hopened⟩
    | value =>
      obtain ⟨hpieces, hopened⟩ := read_value_pieces h
      exact ⟨by rw [hpieces, statePieces, List.append_nil], hopened⟩
    | done t => exact read_next_pieces h

/-- Without trailing commas, a tree has the pieces that it is read from. -/
theorem parse_pieces {pieces : List Piece} {t : Tree} (h : parse false pieces = some t) :
    t.pieces = pieces.filter (fun p => !p.isBlank) := by
  have hrun (s s' : ParseState) (hopen : Opened s)
      (hfold : pieces.foldlM (parseStep false) s = some s') :
      statePieces s' = statePieces s ++ pieces.filter (fun p => !p.isBlank) := by
    clear h
    induction pieces generalizing s with
    | nil =>
      cases hfold
      exact (List.append_nil _).symm
    | cons p pieces ih =>
      rw [List.foldlM_cons] at hfold
      obtain ⟨u, hu, hrest⟩ := Option.bind_eq_some_iff.mp hfold
      obtain ⟨hpieces, hopened⟩ := parse_step_pieces hopen hu
      rw [ih u hopened hrest, hpieces, List.append_assoc, ← List.filter_append]
      rfl
  obtain ⟨s, hs, ht⟩ := Option.bind_eq_some_iff.mp h
  have hpieces := hrun ([], .start) s (fun _ frame hframe => by cases hframe) hs
  unfold parsed at ht
  split at ht
  · cases ht
    exact hpieces
  · cases ht

theorem read_leaf (frames : List Frame) {p : Piece} (h : p.isLeaf = true) :
    readValue frames p = some (frames, .done (.leaf p)) ∧ ∀ q, p ≠ .punct q := by
  cases p with
  | blank c => cases h
  | punct p => cases h
  | word w => exact ⟨rfl, nofun⟩
  | quoted quote body => exact ⟨rfl, nofun⟩

/-- A value may be read next. -/
def Mode.AtValue (mode : Mode) : Prop := mode = .start ∨ mode = .value

theorem after_comma (trailing : Bool) : (if trailing then Mode.start else Mode.value).AtValue := by
  cases trailing
  · exact Or.inr rfl
  · exact Or.inl rfl

/-- Where a value may be read, it is. -/
theorem step_value {frames : List Frame} {p : Piece} {mode : Mode} (hmode : mode.AtValue)
    (hblank : p.isBlank = false) (hlist : p ≠ .punct .closeList) (hdict : p ≠ .punct .closeDict)
    (trailing : Bool) : parseStep trailing (frames, mode) p = readValue frames p := by
  have hstart : readStart frames p = readValue frames p := by
    unfold readStart
    split
    · exact if_neg hlist
    · exact if_neg hdict
    · rfl
  cases p with
  | blank c => cases hblank
  | punct p => rcases hmode with rfl | rfl; exacts [hstart, rfl]
  | word w => rcases hmode with rfl | rfl; exacts [hstart, rfl]
  | quoted quote body => rcases hmode with rfl | rfl; exacts [hstart, rfl]

theorem step_leaf {frames : List Frame} {p : Piece} {mode : Mode} (hmode : mode.AtValue)
    (h : p.isLeaf = true) (trailing : Bool) :
    parseStep trailing (frames, mode) p = some (frames, .done (.leaf p)) := by
  obtain ⟨hread, hpunct⟩ := read_leaf frames h
  have hblank : p.isBlank = false := by
    cases p with
    | blank c => cases h
    | punct p => rfl
    | word w => rfl
    | quoted quote body => rfl
  rw [step_value hmode hblank (hpunct _) (hpunct _), hread]

mutual

/-- The pieces of a tree are read as the tree. -/
theorem run_tree (trailing : Bool) : (t : Tree) → t.all Piece.isLeaf = true → ∀ frames (mode : Mode),
    mode.AtValue → t.pieces.foldlM (parseStep trailing) (frames, mode) = some (frames, .done t)
  | .leaf p, h, frames, mode, hmode => by
    rw [Tree.pieces, List.foldlM_cons, step_leaf hmode h]
    rfl
  | .list items, h, frames, mode, hmode => by
    have hopen : parseStep trailing (frames, mode) (.punct .openList) =
        some (.items [] :: frames, .start) :=
      step_value hmode rfl (by decide) (by decide) trailing
    rw [Tree.pieces, List.foldlM_cons, hopen]
    cases items with
    | nil => rfl
    | cons t ts => exact run_items trailing (t :: ts) h (List.cons_ne_nil t ts) frames [] .start (Or.inl rfl)
  | .dict entries, h, frames, mode, hmode => by
    have hopen : parseStep trailing (frames, mode) (.punct .openDict) =
        some (.entries [] :: frames, .start) :=
      step_value hmode rfl (by decide) (by decide) trailing
    rw [Tree.pieces, List.foldlM_cons, hopen]
    cases entries with
    | nil => rfl
    | cons e es =>
      exact run_entries trailing (e :: es) h (List.cons_ne_nil e es) frames [] .start (Or.inl rfl)

theorem run_items (trailing : Bool) : (ts : List Tree) → allItems Piece.isLeaf ts = true → ts ≠ [] →
    ∀ frames done (mode : Mode), mode.AtValue →
      (itemPieces ts ++ [Piece.punct .closeList]).foldlM (parseStep trailing) (.items done :: frames, mode) =
        some (frames, .done (.list (done.reverse ++ ts)))
  | [], _, hne, _, _, _, _ => absurd rfl hne
  | [t], h, _, frames, done, mode, hmode => by
    rw [allItems, Bool.and_eq_true] at h
    rw [itemPieces, List.foldlM_append, run_tree trailing t h.1 _ _ hmode, ← List.reverse_cons]
    rfl
  | t :: t' :: ts, h, _, frames, done, mode, hmode => by
    rw [allItems, Bool.and_eq_true] at h
    have hrest := run_items trailing (t' :: ts) h.2 (List.cons_ne_nil t' ts) frames (t :: done) _
      (after_comma trailing)
    rw [List.reverse_cons, List.append_assoc] at hrest
    rw [itemPieces, List.append_assoc, List.foldlM_append, run_tree trailing t h.1 _ _ hmode]
    · exact hrest
    · exact nofun

theorem run_entries (trailing : Bool) : (es : List (Piece × Tree)) → allEntries Piece.isLeaf es = true →
    es ≠ [] → ∀ frames done (mode : Mode), mode.AtValue →
      (entryPieces es ++ [Piece.punct .closeDict]).foldlM (parseStep trailing)
        (.entries done :: frames, mode) = some (frames, .done (.dict (done.reverse ++ es)))
  | [], _, hne, _, _, _, _ => absurd rfl hne
  | [(key, t)], h, _, frames, done, mode, hmode => by
    rw [allEntries, Bool.and_eq_true, Bool.and_eq_true] at h
    have hvalue := run_tree trailing t h.1.2 (.entry done key :: frames) .value (Or.inr rfl)
    have hbody : (t.pieces ++ [Piece.punct .closeDict]).foldlM (parseStep trailing)
        (.entry done key :: frames, .value) = some (frames, .done (.dict (done.reverse ++ [(key, t)]))) := by
      rw [List.foldlM_append, hvalue, ← List.reverse_cons]
      rfl
    rw [entryPieces, List.cons_append, List.cons_append, List.foldlM_cons, step_leaf hmode h.1.1]
    exact hbody
  | (key, t) :: e :: es, h, _, frames, done, mode, hmode => by
    rw [allEntries, Bool.and_eq_true, Bool.and_eq_true] at h
    have hvalue := run_tree trailing t h.1.2 (.entry done key :: frames) .value (Or.inr rfl)
    have hrest := run_entries trailing (e :: es) h.2 (List.cons_ne_nil e es) frames ((key, t) :: done) _
      (after_comma trailing)
    rw [List.reverse_cons, List.append_assoc] at hrest
    have hbody : (t.pieces ++ Piece.punct .comma :: entryPieces (e :: es) ++ [Piece.punct .closeDict]).foldlM
        (parseStep trailing) (.entry done key :: frames, .value) =
          some (frames, .done (.dict (done.reverse ++ (key, t) :: e :: es))) := by
      rw [List.append_assoc, List.foldlM_append, hvalue]
      exact hrest
    rw [entryPieces, List.cons_append, List.cons_append, List.foldlM_cons, step_leaf hmode h.1.1]
    · exact hbody
    · exact nofun

end

theorem parse_tree (trailing : Bool) {t : Tree} (h : t.all Piece.isLeaf = true) :
    parse trailing t.pieces = some t := by
  rw [parse, run_tree trailing t h [] .start (Or.inl rfl)]
  rfl

/-- Blanks do not matter to a machine that skips them. -/
theorem run_without_blanks {σ : Type} {step : σ → Piece → Option σ}
    (hblank : ∀ s c, step s (.blank c) = some s) (pieces : List Piece) (s : σ) :
    (pieces.filter (fun p => !p.isBlank)).foldlM step s = pieces.foldlM step s := by
  induction pieces generalizing s with
  | nil => rfl
  | cons p pieces ih =>
    cases hp : p.isBlank with
    | true =>
      cases p with
      | blank c =>
        rw [List.foldlM_cons, hblank]
        exact ih s
      | punct a => cases hp
      | word w => cases hp
      | quoted quote body => cases hp
    | false =>
      rw [List.filter_cons_of_pos (by rw [hp]; rfl), List.foldlM_cons, List.foldlM_cons]
      exact congrArg _ (funext ih)

theorem parse_without_blanks (trailing : Bool) (pieces : List Piece) :
    parse trailing (pieces.filter (fun p => !p.isBlank)) = parse trailing pieces := by
  rw [parse, run_without_blanks (fun _ _ => rfl), parse]

/-! ### The pieces of items and entries -/

theorem mem_item_pieces {p : Piece} {t : Tree} {ts : List Tree} (h : p ∈ itemPieces (t :: ts)) :
    p = .punct .comma ∨ p ∈ t.pieces ∨ p ∈ itemPieces ts := by
  cases ts with
  | nil => exact Or.inr (Or.inl h)
  | cons t' ts =>
    rcases List.mem_append.mp h with h | h
    · exact Or.inr (Or.inl h)
    · rcases List.mem_cons.mp h with rfl | h
      · exact Or.inl rfl
      · exact Or.inr (Or.inr h)

theorem item_pieces_subset (t : Tree) (ts : List Tree) :
    t.pieces ⊆ itemPieces (t :: ts) ∧ itemPieces ts ⊆ itemPieces (t :: ts) := by
  cases ts with
  | nil => exact ⟨List.Subset.refl _, List.nil_subset _⟩
  | cons t' ts =>
    exact ⟨List.subset_append_left _ _, fun p hp => List.mem_append_right _ (List.mem_cons_of_mem _ hp)⟩

theorem mem_entry_pieces {p key : Piece} {t : Tree} {es : List (Piece × Tree)}
    (h : p ∈ entryPieces ((key, t) :: es)) :
    p = .punct .comma ∨ p = .punct .colon ∨ p = key ∨ p ∈ t.pieces ∨ p ∈ entryPieces es := by
  cases es with
  | nil =>
    simp only [entryPieces, List.mem_cons] at h
    rcases h with rfl | rfl | h <;> simp [*]
  | cons e es =>
    simp only [entryPieces, List.mem_cons, List.mem_append] at h
    rcases h with rfl | rfl | h | rfl | h <;> simp [*]

theorem entry_pieces_subset (key : Piece) (t : Tree) (es : List (Piece × Tree)) :
    key ∈ entryPieces ((key, t) :: es) ∧ t.pieces ⊆ entryPieces ((key, t) :: es) ∧
      entryPieces es ⊆ entryPieces ((key, t) :: es) := by
  cases es with
  | nil =>
    exact ⟨List.mem_cons_self, fun p hp => List.mem_cons_of_mem _ (List.mem_cons_of_mem _ hp),
      List.nil_subset _⟩
  | cons e es =>
    refine ⟨List.mem_cons_self, ?_, ?_⟩
    · intro p hp
      exact List.mem_cons_of_mem _ (List.mem_cons_of_mem _ (List.mem_append_left _ hp))
    · intro p hp
      exact List.mem_cons_of_mem _ (List.mem_cons_of_mem _
        (List.mem_append_right _ (List.mem_cons_of_mem _ hp)))

def Piece.isQuoted : Piece → Bool
  | .quoted _ _ => true
  | _ => false

theorem count_item_pieces (t : Tree) (ts : List Tree) :
    (itemPieces (t :: ts)).countP Piece.isQuoted =
      t.pieces.countP Piece.isQuoted + (itemPieces ts).countP Piece.isQuoted := by
  cases ts with
  | nil => rfl
  | cons t' ts =>
    have hcomma : (Piece.punct .comma :: itemPieces (t' :: ts)).countP Piece.isQuoted =
        (itemPieces (t' :: ts)).countP Piece.isQuoted :=
      List.countP_cons_of_neg Bool.false_ne_true
    rw [itemPieces, List.countP_append, hcomma]
    exact nofun

theorem count_entry_pieces (key : Piece) (t : Tree) (es : List (Piece × Tree)) :
    (entryPieces ((key, t) :: es)).countP Piece.isQuoted = [key].countP Piece.isQuoted +
      (t.pieces.countP Piece.isQuoted + (entryPieces es).countP Piece.isQuoted) := by
  have hpunct (a : Punct) (rest : List Piece) :
      (Piece.punct a :: rest).countP Piece.isQuoted = rest.countP Piece.isQuoted :=
    List.countP_cons_of_neg Bool.false_ne_true
  have hkey (rest : List Piece) : ([key] ++ rest).countP Piece.isQuoted =
      [key].countP Piece.isQuoted + rest.countP Piece.isQuoted :=
    List.countP_append
  cases es with
  | nil =>
    change ([key] ++ .punct .colon :: t.pieces).countP Piece.isQuoted = _
    rw [hkey, hpunct]
    rfl
  | cons e es =>
    change ([key] ++ .punct .colon :: (t.pieces ++ .punct .comma :: entryPieces (e :: es))).countP
      Piece.isQuoted = _
    rw [hkey, hpunct, List.countP_append, hpunct]

/-! ### Pieces next to each other -/

/-- One of two pieces is a bracket, a comma or a colon, and they are not two opening braces. -/
def Beside (p q : Piece) : Prop :=
  ((∃ a, p = .punct a) ∨ ∃ b, q = .punct b) ∧ ¬ (p = .punct .openDict ∧ q = .punct .openDict)

theorem beside_punct (p : Piece) {b : Punct} (h : b ≠ .openDict) : Beside p (.punct b) :=
  ⟨Or.inr ⟨b, rfl⟩, fun hopen => h (Piece.punct.inj hopen.2)⟩

theorem punct_beside {a : Punct} (h : a ≠ .openDict) (q : Piece) : Beside (.punct a) q :=
  ⟨Or.inl ⟨a, rfl⟩, fun hopen => h (Piece.punct.inj hopen.1)⟩

/-- A bracket, a comma or a colon between two texts. -/
theorem chain_between {before after : List Piece} {a : Punct} (h : a ≠ .openDict)
    (hbefore : before.IsChain Beside) (hafter : after.IsChain Beside) :
    (before ++ .punct a :: after).IsChain Beside := by
  apply hbefore.append (hafter.cons (fun q _ => punct_beside h q))
  intro p _ q hq
  cases hq
  exact beside_punct p h

mutual

theorem tree_chain : (t : Tree) → t.all Piece.isLeaf = true → t.pieces.IsChain Beside
  | .leaf p, _ => List.isChain_singleton p
  | .list items, h => by
    have hitems := chain_between (a := .closeList) (by decide) (items_chain items h) List.isChain_nil
    exact hitems.cons (fun q _ => punct_beside (by decide) q)
  | .dict entries, h => by
    have hentries := chain_between (a := .closeDict) (by decide) (entries_chain entries h) List.isChain_nil
    refine hentries.cons ?_
    intro q hq
    refine ⟨Or.inl ⟨_, rfl⟩, ?_⟩
    rintro ⟨_, rfl⟩
    match entries, h, hq with
    | [(key, t)], h, hq =>
      cases Option.some.inj hq
      cases h
    | (key, t) :: e :: es, h, hq =>
      cases Option.some.inj hq
      cases h

theorem items_chain : (ts : List Tree) → allItems Piece.isLeaf ts = true → (itemPieces ts).IsChain Beside
  | [], _ => List.isChain_nil
  | [t], h => by
    rw [allItems, Bool.and_eq_true] at h
    exact tree_chain t h.1
  | t :: t' :: ts, h => by
    rw [allItems, Bool.and_eq_true] at h
    exact chain_between (by decide) (tree_chain t h.1) (items_chain (t' :: ts) h.2)

theorem entries_chain : (es : List (Piece × Tree)) → allEntries Piece.isLeaf es = true →
    (entryPieces es).IsChain Beside
  | [], _ => List.isChain_nil
  | [(key, t)], h => by
    rw [allEntries, Bool.and_eq_true, Bool.and_eq_true] at h
    exact chain_between (by decide) (List.isChain_singleton key) (tree_chain t h.1.2)
  | (key, t) :: e :: es, h => by
    rw [allEntries, Bool.and_eq_true, Bool.and_eq_true] at h
    have hrest := chain_between (a := .comma) (by decide) (tree_chain t h.1.2) (entries_chain (e :: es) h.2)
    exact chain_between (by decide) (List.isChain_singleton key) hrest

end

end CheshireCat.Base
