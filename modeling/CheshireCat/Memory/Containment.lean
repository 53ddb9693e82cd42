import CheshireCat.Memory.FilterPaths

namespace CheshireCat.Memory
open Base Json

/-! ### Containment -/

mutual

/-- A scalar is the value or an element of it, every element of a list is matched, and an object
is contained in the value or in an element of it. -/
def matchedBy : Json → Json → Bool
  | .obj fields, found =>
    fieldsIn fields found ||
      match found with
      | .arr items => items.any (fieldsIn fields)
      | _ => false
  | .arr items, found => allMatchedBy items found
  | value, found => matchesValue value found

def allMatchedBy : List Json → Json → Bool
  | [], _ => true
  | value :: rest, found => matchedBy value found && allMatchedBy rest found

/-- The fields are all there, with values that are matched. -/
def fieldsIn : List (String × Json) → Json → Bool
  | [], .obj _ => true
  | (k, value) :: rest, .obj fields =>
    (match field? fields k with
    | some found => matchedBy value found
    | none => false) && fieldsIn rest (.obj fields)
  | _, _ => false

end

/-- The metadata contain those that are asked for. -/
def contains (m metadata : Fields) : Bool := fieldsIn m (.obj metadata)

/-- A filter is made of valid conditions, and the point meets them all. -/
def FilterMatches (m : Fields) (pageContent : String) (metadata : Fields) : Prop :=
  ∃ filter, qdrantFilterFromDict m = some filter ∧ filter.all FieldCondition.valid = true ∧
    matchesFilter (some filter) (pointPayload pageContent metadata) = true

/-- The filter matches the points that contain the metadata, and what is deleted by it has every
key of theirs. -/
structure MeansContainment (m : Fields) : Prop where
  filter : ∀ pageContent metadata, FilterMatches m pageContent metadata ↔ contains m metadata = true
  deletes : ∀ (ι V : Type) [DecidableEq ι] (points points' : Dict ι (Point V)),
    deletePointsByMetadataFilter points m = .ok points' →
      ∀ id point, points.get? id = some point → points'.get? id ≠ some point →
        ∀ k ∈ m.map Prod.fst, k ∈ point.metadata.map Prod.fst

/-! ### Leaves -/

mutual

/-- The values that a value asks for, the lists taken apart. -/
def leaves : Json → List Json
  | .arr items => itemLeaves items
  | value => [value]

def itemLeaves : List Json → List Json
  | [] => []
  | value :: rest => leaves value ++ itemLeaves rest

end

/-- `MatchValue` takes it. -/
def takesValue : Json → Bool
  | .bool _ | .number (.int _) | .str _ => true
  | _ => false

def isScalar : Json → Bool
  | .obj _ | .arr _ => false
  | _ => true

/-- Every field has the key, and asks for the scalar only. -/
def OnlyField (key : String) (s : Json) (fields : List (String × Json)) : Prop :=
  ∀ p ∈ fields, p.1 = key ∧ ∀ l ∈ leaves p.2, l = s

/-- The value asks for a scalar at least; and what it asks for are scalars and objects of a single
scalar under a single key, which one of the objects names. -/
structure ExactValue (value : Json) : Prop where
  scalar : ∃ s ∈ leaves value, takesValue s = true
  leaf : ∀ l ∈ leaves value, takesValue l = true ∨
    ∃ fields key s, l = .obj fields ∧ PlainKey key ∧ takesValue s = true ∧ OnlyField key s fields ∧
      ∃ fields', .obj fields' ∈ leaves value ∧ OnlyField key s fields' ∧
        ∃ p ∈ fields', leaves p.2 ≠ []

/-- Every key is the name of a field, and every value is exact. -/
def ExactFilter (m : Fields) : Prop := ∀ p ∈ m, PlainKey p.1 ∧ ExactValue p.2

mutual

theorem leaf_not_list : ∀ value : Json, ∀ l ∈ leaves value, ∀ items, l ≠ .arr items
  | .arr items, l, hl => leaf_not_items items l hl
  | .null, l, hl | .bool _, l, hl | .number _, l, hl | .str _, l, hl | .obj _, l, hl => by
    rw [List.mem_singleton.mp hl]
    intro items h
    cases h

theorem leaf_not_items : ∀ items : List Json, ∀ l ∈ itemLeaves items, ∀ items', l ≠ .arr items'
  | [], _, hl => by cases hl
  | value :: rest, l, hl => by
    rcases List.mem_append.mp hl with hl | hl
    · exact leaf_not_list value l hl
    · exact leaf_not_items rest l hl

end

theorem leaf_cases {value l : Json} (h : l ∈ leaves value) :
    isScalar l = true ∨ ∃ fields, l = .obj fields := by
  cases l with
  | arr items => exact absurd rfl (leaf_not_list value _ h items)
  | obj fields => exact Or.inr ⟨fields, rfl⟩
  | _ => exact Or.inl rfl

theorem matched_scalar {s : Json} (h : isScalar s = true) (found : Json) :
    matchedBy s found = matchesValue s found := by
  cases s with
  | arr items => cases h
  | obj fields => cases h
  | _ => rfl

mutual

/-- A value is matched where its leaves are. -/
theorem matched_leaves : ∀ value found : Json,
    matchedBy value found = (leaves value).all (fun l => matchedBy l found)
  | .arr items, found => items_matched items found
  | .null, _ | .bool _, _ | .number _, _ | .str _, _ | .obj _, _ => by
    rw [leaves, List.all_cons, List.all_nil, Bool.and_true]
    all_goals nofun

theorem items_matched : ∀ (items : List Json) (found : Json),
    allMatchedBy items found = (itemLeaves items).all (fun l => matchedBy l found)
  | [], _ => rfl
  | value :: rest, found => by
    rw [allMatchedBy, itemLeaves, List.all_append, matched_leaves value found, items_matched rest found]

end

/-- The conditions of a leaf that stands in a list. -/
def leafPaths : Json → List PathCondition
  | .obj fields => (fieldPaths fields).map (PathCondition.under [.each])
  | value => [([], value)]

mutual

theorem item_paths_leaves : ∀ items : List Json, itemPaths items = (itemLeaves items).flatMap leafPaths
  | item :: rest => by
    rw [itemLeaves, List.flatMap_append, ← item_paths_leaves rest]
    cases item with
    | obj fields =>
      change _ = (leafPaths (.obj fields) ++ []) ++ _
      rw [List.append_nil]
      rfl
    | arr items =>
      change pathsOf (.arr items) ++ itemPaths rest = (itemLeaves items).flatMap leafPaths ++ itemPaths rest
      rw [← item_paths_leaves items]
      rfl
    | _ => rfl
  | [] => rfl

end

/-! ### Where conditions hold -/

theorem holds_scalar (s found : Json) : PathCondition.holdsAt ([], s) found = matchesValue s found := by
  rw [PathCondition.holdsAt, resolve, List.any_cons, List.any_nil, Bool.or_false]

theorem holds_each (c : PathCondition) (items : List Json) :
    (c.under [.each]).holdsAt (.arr items) = items.any c.holdsAt := by
  rw [PathCondition.holdsAt, PathCondition.under, List.singleton_append, resolve, List.any_flatMap]
  rfl

theorem holds_field (name : String) (c : PathCondition) (fields : List (String × Json)) :
    (c.under [.field name]).holdsAt (.obj fields) =
      match field? fields name with
      | some found => c.holdsAt found
      | none => false := by
  rw [PathCondition.holdsAt, PathCondition.under, List.singleton_append, resolve]
  cases field? fields name <;> rfl

theorem fields_in_iff (m fields : List (String × Json)) :
    fieldsIn m (.obj fields) = true ↔
      ∀ p ∈ m, ∃ found, field? fields p.1 = some found ∧ matchedBy p.2 found = true := by
  induction m with
  | nil => exact iff_of_true rfl (fun p hp => absurd hp List.not_mem_nil)
  | cons p rest ih =>
    obtain ⟨k, value⟩ := p
    rw [fieldsIn, Bool.and_eq_true, ih, List.forall_mem_cons]
    apply and_congr_left'
    cases hfound : field? fields k with
    | none =>
      apply iff_of_false Bool.false_ne_true
      rintro ⟨found, h, _⟩
      cases h
    | some found =>
      constructor
      · intro h
        exact ⟨found, rfl, h⟩
      · rintro ⟨found', h, hmatched⟩
        cases h
        exact hmatched

theorem fields_in_object {m : List (String × Json)} {found : Json} (h : fieldsIn m found = true) :
    ∃ fields, found = .obj fields := by
  cases found with
  | obj fields => exact ⟨fields, rfl⟩
  | _ => cases m <;> cases h

theorem matched_object (fields : List (String × Json)) (found : Json) :
    matchedBy (.obj fields) found = true ↔
      fieldsIn fields found = true ∨ ∃ items, found = .arr items ∧ ∃ item ∈ items, fieldsIn fields item = true := by
  cases found with
  | arr items =>
    change (fieldsIn fields (.arr items) || items.any (fieldsIn fields)) = true ↔ _
    rw [Bool.or_eq_true, List.any_eq_true]
    apply or_congr_right
    constructor
    · intro h
      exact ⟨items, rfl, h⟩
    · rintro ⟨_, heq, h⟩
      cases heq
      exact h
  | _ =>
    change (fieldsIn fields _ || false) = true ↔ _
    rw [Bool.or_false]
    apply (or_iff_left _).symm
    rintro ⟨_, heq, _⟩
    cases heq

theorem matches_value_iff (s found : Json) :
    matchesValue s found = true ↔ found = s ∨ ∃ items, found = .arr items ∧ s ∈ items := by
  cases found with
  | arr items =>
    change (decide (.arr items = s) || decide (s ∈ items)) = true ↔ _
    rw [Bool.or_eq_true, decide_eq_true_eq, decide_eq_true_eq]
    apply or_congr_right
    constructor
    · intro h
      exact ⟨items, rfl, h⟩
    · rintro ⟨_, heq, h⟩
      cases heq
      exact h
  | _ =>
    change (decide (_ = s) || false) = true ↔ _
    rw [Bool.or_false, decide_eq_true_eq]
    apply (or_iff_left _).symm
    rintro ⟨_, heq, _⟩
    cases heq

/-! ### Exact values -/

/-- The conditions of a value say what it means: they can be built, and they hold where the value
is matched. -/
structure Compiles (value : Json) : Prop where
  conditions : pathsOf value ≠ []
  valid : ∀ c ∈ pathsOf value, takesValue c.2 = true
  meets : ∀ found, (∀ c ∈ pathsOf value, c.holdsAt found = true) ↔ matchedBy value found = true

theorem takes_scalar {s : Json} (h : takesValue s = true) : isScalar s = true := by
  cases s with
  | arr items => cases h
  | obj fields => cases h
  | _ => rfl

theorem paths_leaves {value : Json} (h : ∀ fields, value ≠ .obj fields) :
    pathsOf value = (leaves value).flatMap leafPaths := by
  cases value with
  | arr items => exact item_paths_leaves items
  | obj fields => exact absurd rfl (h fields)
  | _ => rfl

theorem leaf_paths_scalar {s : Json} (h : isScalar s = true) : leafPaths s = [([], s)] := by
  cases s with
  | arr items => cases h
  | obj fields => cases h
  | _ => rfl

theorem mem_field_paths {fields : List (String × Json)} {c : PathCondition} :
    c ∈ fieldPaths fields ↔ ∃ p ∈ fields, ∃ c' ∈ pathsOf p.2, c = c'.under (pathSteps p.1) := by
  induction fields with
  | nil => exact iff_of_false List.not_mem_nil (fun ⟨p, hp, _⟩ => List.not_mem_nil hp)
  | cons p rest ih =>
    obtain ⟨k, value⟩ := p
    rw [fieldPaths, List.mem_append, List.mem_map, ih, List.exists_mem_cons_iff]
    apply or_congr_left
    constructor
    · rintro ⟨c', hc', rfl⟩
      exact ⟨c', hc', rfl⟩
    · rintro ⟨c', hc', rfl⟩
      exact ⟨c', hc', rfl⟩

theorem matched_all {value found : Json} :
    matchedBy value found = true ↔ ∀ l ∈ leaves value, matchedBy l found = true := by
  rw [matched_leaves, List.all_eq_true]

theorem paths_of_only {value s : Json} (hs : isScalar s = true) (h : ∀ l ∈ leaves value, l = s) :
    pathsOf value = (leaves value).map (fun _ => ([], s)) := by
  have hno : ∀ fields, value ≠ .obj fields := by
    rintro fields rfl
    rw [← h _ (List.mem_singleton_self _)] at hs
    cases hs
  rw [paths_leaves hno, List.map_eq_flatMap]
  apply List.flatMap_congr
  intro l hl
  rw [h l hl]
  exact leaf_paths_scalar hs

theorem OnlyField.path {key : String} {s : Json} {fields : List (String × Json)}
    (h : OnlyField key s fields) (hkey : PlainKey key) (hs : isScalar s = true) (c : PathCondition) :
    c ∈ fieldPaths fields ↔ c = ([.field key], s) ∧ ∃ p ∈ fields, leaves p.2 ≠ [] := by
  rw [mem_field_paths]
  constructor
  · rintro ⟨p, hp, c', hc', rfl⟩
    obtain ⟨hname, hleaves⟩ := h p hp
    rw [paths_of_only hs hleaves] at hc'
    obtain ⟨l, hl, rfl⟩ := List.mem_map.mp hc'
    rw [hname, hkey.steps]
    exact ⟨rfl, p, hp, List.ne_nil_of_mem hl⟩
  · rintro ⟨rfl, p, hp, hne⟩
    obtain ⟨hname, hleaves⟩ := h p hp
    obtain ⟨l, hl⟩ := List.exists_mem_of_ne_nil _ hne
    refine ⟨p, hp, ([], s), ?_, ?_⟩
    · rw [paths_of_only hs hleaves]
      exact List.mem_map.mpr ⟨l, hl, rfl⟩
    · rw [hname, hkey.steps]
      rfl

/-- An object with the scalar under the key has what such an object asks for. -/
theorem OnlyField.holds {key : String} {s : Json} {fields : List (String × Json)}
    (h : OnlyField key s fields) (hs : isScalar s = true) {item : Json}
    (hitem : PathCondition.holdsAt ([.field key], s) item = true) : fieldsIn fields item = true := by
  cases item with
  | obj found =>
    have hholds := holds_field key ([], s) found
    change PathCondition.holdsAt ([.field key], s) (.obj found) = _ at hholds
    rw [hitem] at hholds
    rw [fields_in_iff]
    intro p hp
    obtain ⟨hname, hleaves⟩ := h p hp
    rw [hname]
    cases hvalue : field? found key with
    | none =>
      rw [hvalue] at hholds
      cases hholds
    | some value =>
      rw [hvalue] at hholds
      refine ⟨value, rfl, matched_all.mpr ?_⟩
      intro l hl
      rw [hleaves l hl, matched_scalar hs, ← holds_scalar]
      exact hholds.symm
  | _ => cases hitem

theorem exact_compiles {value : Json} (h : ExactValue value) : Compiles value := by
  obtain ⟨⟨scalar, hscalar, htakes⟩, hleaf⟩ := h
  have hno : ∀ fields, value ≠ .obj fields := by
    rintro fields rfl
    rw [List.mem_singleton.mp hscalar] at htakes
    cases htakes
  have hpaths := paths_leaves hno
  have hmem (c : PathCondition) : c ∈ pathsOf value ↔ ∃ l ∈ leaves value, c ∈ leafPaths l := by
    rw [hpaths, List.mem_flatMap]
  have hfirst : ([], scalar) ∈ pathsOf value := by
    rw [hmem]
    refine ⟨scalar, hscalar, ?_⟩
    rw [leaf_paths_scalar (takes_scalar htakes)]
    exact List.mem_singleton_self _
  refine ⟨List.ne_nil_of_mem hfirst, ?_, ?_⟩
  · intro c hc
    obtain ⟨l, hl, hc⟩ := (hmem c).mp hc
    rcases hleaf l hl with htake | ⟨fields, key, s, rfl, hkey, hs, honly, _⟩
    · rw [leaf_paths_scalar (takes_scalar htake), List.mem_singleton] at hc
      rw [hc]
      exact htake
    · obtain ⟨c', hc', rfl⟩ := List.mem_map.mp hc
      obtain ⟨rfl, _⟩ := (honly.path hkey (takes_scalar hs) c').mp hc'
      exact hs
  · intro found
    rw [matched_all]
    constructor
    · intro hall l hl
      rcases hleaf l hl with htake | ⟨fields, key, s, rfl, hkey, hs, honly, fields', hl', honly', hentry⟩
      · have hholds := hall ([], l) ((hmem _).mpr ⟨l, hl, by
          rw [leaf_paths_scalar (takes_scalar htake)]
          exact List.mem_singleton_self _⟩)
        rw [matched_scalar (takes_scalar htake), ← holds_scalar]
        exact hholds
      · have hpath := (honly'.path hkey (takes_scalar hs) _).mpr ⟨rfl, hentry⟩
        have hholds := hall _ ((hmem _).mpr ⟨_, hl', List.mem_map_of_mem hpath⟩)
        cases found with
        | arr items =>
          rw [holds_each, List.any_eq_true] at hholds
          obtain ⟨item, hitem, hholds⟩ := hholds
          exact (matched_object _ _).mpr (Or.inr ⟨items, rfl, item, hitem,
            honly.holds (takes_scalar hs) hholds⟩)
        | _ => cases hholds
    · intro hall c hc
      obtain ⟨l, hl, hc⟩ := (hmem c).mp hc
      have hmatched := hall l hl
      rcases hleaf l hl with htake | ⟨fields, key, s, rfl, hkey, hs, honly, _⟩
      · rw [leaf_paths_scalar (takes_scalar htake), List.mem_singleton] at hc
        rw [hc, holds_scalar, ← matched_scalar (takes_scalar htake)]
        exact hmatched
      · obtain ⟨c', hc', rfl⟩ := List.mem_map.mp hc
        obtain ⟨rfl, p, hp, hne⟩ := (honly.path hkey (takes_scalar hs) c').mp hc'
        have hfound := hall scalar hscalar
        rw [matched_scalar (takes_scalar htakes), matches_value_iff] at hfound
        rcases (matched_object _ _).mp hmatched with hin | ⟨items, rfl, item, hitem, hin⟩
        · obtain ⟨own, rfl⟩ := fields_in_object hin
          rcases hfound with hsame | ⟨_, heq, _⟩
          · rw [← hsame] at htakes
            cases htakes
          · cases heq
        · rw [holds_each, List.any_eq_true]
          refine ⟨item, hitem, ?_⟩
          obtain ⟨own, rfl⟩ := fields_in_object hin
          obtain ⟨value', hvalue, hmatched'⟩ := (fields_in_iff _ _).mp hin p hp
          obtain ⟨hname, hleaves⟩ := honly p hp
          obtain ⟨l, hl⟩ := List.exists_mem_of_ne_nil _ hne
          have hs' := matched_all.mp hmatched' l hl
          rw [hleaves l hl, matched_scalar (takes_scalar hs), ← holds_scalar] at hs'
          rw [hname] at hvalue
          have hholds := holds_field key ([], s) own
          rw [hvalue] at hholds
          exact hholds.trans hs'

/-! ### Metadata that contain whatever is asked for -/

/-- It holds for all names and scalars that include some, from some depth on. -/
def Large (P : List String → List Json → Nat → Prop) : Prop :=
  ∃ names scalars depth, (∀ s ∈ scalars, isScalar s = true) ∧
    ∀ names' scalars' depth', names ⊆ names' → scalars ⊆ scalars' → depth ≤ depth' →
      P names' scalars' depth'

theorem Large.and {P Q : List String → List Json → Nat → Prop} (hP : Large P) (hQ : Large Q) :
    Large (fun names scalars depth => P names scalars depth ∧ Q names scalars depth) := by
  obtain ⟨names, scalars, depth, hscalars, hP⟩ := hP
  obtain ⟨names', scalars', depth', hscalars', hQ⟩ := hQ
  refine ⟨names ++ names', scalars ++ scalars', max depth depth', ?_, ?_⟩
  · intro s hs
    exact (List.mem_append.mp hs).elim (hscalars s) (hscalars' s)
  · intro names'' scalars'' depth'' hn hs hd
    exact ⟨hP _ _ _ (List.append_subset.mp hn).1 (List.append_subset.mp hs).1 (Nat.le_trans (Nat.le_max_left _ _) hd),
      hQ _ _ _ (List.append_subset.mp hn).2 (List.append_subset.mp hs).2 (Nat.le_trans (Nat.le_max_right _ _) hd)⟩

theorem Large.mono {P Q : List String → List Json → Nat → Prop} (hP : Large P)
    (h : ∀ names scalars depth, P names scalars depth → Q names scalars depth) : Large Q := by
  obtain ⟨names, scalars, depth, hscalars, hP⟩ := hP
  exact ⟨names, scalars, depth, hscalars, fun _ _ _ hn hs hd => h _ _ _ (hP _ _ _ hn hs hd)⟩

theorem Large.always {P : List String → List Json → Nat → Prop}
    (h : ∀ names scalars depth, P names scalars depth) : Large P :=
  ⟨[], [], 0, fun _ hs => absurd hs List.not_mem_nil, fun names scalars depth _ _ _ => h names scalars depth⟩

theorem Large.all {α : Type} {P : α → List String → List Json → Nat → Prop} {l : List α}
    (h : ∀ x ∈ l, Large (P x)) : Large (fun names scalars depth => ∀ x ∈ l, P x names scalars depth) := by
  induction l with
  | nil => exact .always (fun _ _ _ x hx => absurd hx List.not_mem_nil)
  | cons x l ih =>
    have hboth := (h x List.mem_cons_self).and (ih (fun y hy => h y (List.mem_cons_of_mem x hy)))
    exact hboth.mono (fun _ _ _ hx => List.forall_mem_cons.mpr hx)

def rich (names : List String) (scalars : List Json) : Nat → Json
  | 0 => .arr scalars
  | depth + 1 => .arr (scalars ++ [.obj (names.map (fun k => (k, rich names scalars depth)))])

def richFields (names : List String) (scalars : List Json) (depth : Nat) : List (String × Json) :=
  names.map (fun k => (k, rich names scalars depth))

theorem rich_list (names : List String) (scalars : List Json) (depth : Nat) :
    ∃ items, rich names scalars depth = .arr items := by
  cases depth <;> exact ⟨_, rfl⟩

theorem field_of_map {names : List String} {k : String} (h : k ∈ names) (value : Json) :
    field? (names.map (fun k => (k, value))) k = some value := by
  induction names with
  | nil => cases h
  | cons name names ih =>
    rw [List.map_cons, field?, List.find?_cons]
    by_cases hk : name = k
    · rw [hk, beq_self_eq_true]
      rfl
    · rw [beq_false_of_ne hk]
      exact ih ((List.mem_cons.mp h).resolve_left (fun heq => hk heq.symm))

/-- A leaf that is a scalar is there, and one that is an object is contained. -/
def LeafIn (names : List String) (scalars : List Json) (depth : Nat) (l : Json) : Prop :=
  (isScalar l = true → l ∈ scalars) ∧
    ∀ fields, l = .obj fields → fieldsIn fields (.obj (richFields names scalars depth)) = true

theorem leaves_matched {names : List String} {scalars : List Json} {depth : Nat} {value : Json}
    (h : ∀ l ∈ leaves value, LeafIn names scalars depth l) :
    matchedBy value (rich names scalars (depth + 1)) = true := by
  rw [matched_all]
  intro l hl
  rcases leaf_cases hl with hs | ⟨fields, rfl⟩
  · rw [matched_scalar hs, matches_value_iff]
    exact Or.inr ⟨_, rfl, List.mem_append_left _ ((h l hl).1 hs)⟩
  · rw [matched_object]
    exact Or.inr ⟨_, rfl, _, List.mem_append_right _ (List.mem_singleton_self _), (h _ hl).2 _ rfl⟩

theorem Large.matched {value : Json}
    (h : Large (fun names scalars depth => ∀ l ∈ leaves value, LeafIn names scalars depth l)) :
    Large (fun names scalars depth => matchedBy value (rich names scalars depth) = true) := by
  obtain ⟨names, scalars, depth, hscalars, h⟩ := h
  refine ⟨names, scalars, depth + 1, hscalars, ?_⟩
  intro names' scalars' depth' hn hs hd
  cases depth' with
  | zero => cases hd
  | succ depth' => exact leaves_matched (h _ _ _ hn hs (Nat.le_of_succ_le_succ hd))

theorem large_scalar {s : Json} (hs : isScalar s = true) :
    Large (fun names scalars depth => ∀ l ∈ [s], LeafIn names scalars depth l) := by
  refine ⟨[], [s], 0, fun l hl => by rw [List.mem_singleton.mp hl]; exact hs, ?_⟩
  intro names scalars depth _ hscalars _ l hl
  rw [List.mem_singleton.mp hl]
  refine ⟨fun _ => hscalars (List.mem_singleton_self s), ?_⟩
  rintro fields rfl
  cases hs

mutual

/-- Names, scalars and a depth suffice for every value. -/
theorem large_value : ∀ value : Json,
    Large (fun names scalars depth => ∀ l ∈ leaves value, LeafIn names scalars depth l)
  | .obj fields => by
    apply (large_fields fields).mono
    intro names scalars depth h l hl
    rw [List.mem_singleton.mp hl]
    constructor
    · intro hs
      cases hs
    · rintro _ heq
      cases heq
      exact h
  | .arr items => large_items items
  | .null => large_scalar rfl
  | .bool b => large_scalar rfl
  | .number n => large_scalar rfl
  | .str s => large_scalar rfl

theorem large_items : ∀ items : List Json,
    Large (fun names scalars depth => ∀ l ∈ itemLeaves items, LeafIn names scalars depth l)
  | [] => .always (fun _ _ _ l hl => absurd hl List.not_mem_nil)
  | value :: rest => by
    apply ((large_value value).and (large_items rest)).mono
    rintro names scalars depth ⟨hvalue, hrest⟩ l hl
    exact (List.mem_append.mp hl).elim (hvalue l) (hrest l)

theorem large_fields : ∀ fields : List (String × Json),
    Large (fun names scalars depth => fieldsIn fields (.obj (richFields names scalars depth)) = true)
  | [] => .always (fun _ _ _ => rfl)
  | (k, value) :: rest => by
    have hkey : Large (fun names _ _ => k ∈ names) :=
      ⟨[k], [], 0, fun _ hs => absurd hs List.not_mem_nil, fun _ _ _ hn _ _ => hn List.mem_cons_self⟩
    apply ((hkey.and (large_value value).matched).and (large_fields rest)).mono
    rintro names scalars depth ⟨⟨hk, hvalue⟩, hrest⟩
    rw [fields_in_iff] at hrest ⊢
    intro p hp
    rcases List.mem_cons.mp hp with rfl | hp
    · exact ⟨_, field_of_map hk _, hvalue⟩
    · exact hrest p hp

end

/-! ### Values that compile are exact -/

theorem fields_in_iff_list (m : List (String × Json)) (items : List Json) :
    fieldsIn m (.arr items) = false := by
  cases m <;> rfl

theorem scalar_holds {s : Json} (hs : isScalar s = true) (step : PathStep) (rest : List PathStep)
    (value : Json) : PathCondition.holdsAt (step :: rest, value) s = false := by
  cases s with
  | arr items => cases hs
  | obj fields => cases hs
  | _ => cases step <;> rfl

/-- The first step from an object goes into a field. -/
theorem field_path_cons {fields : List (String × Json)} {c : PathCondition} (h : c ∈ fieldPaths fields) :
    ∃ name rest, c.1 = .field name :: rest ∧ PlainKey name := by
  obtain ⟨p, _, c', _, rfl⟩ := mem_field_paths.mp h
  obtain ⟨name, rest, hsteps⟩ := path_steps_cons p.1
  refine ⟨name, rest ++ c'.1, ?_, path_steps_names (by rw [hsteps]; exact List.mem_cons_self)⟩
  rw [PathCondition.under, hsteps]
  rfl

section Exact

variable {value : Json} (h : Compiles value)
include h

/-- Not only objects are asked for: they could be the value itself, or an element of it. -/
theorem Compiles.scalar : ∃ s ∈ leaves value, isScalar s = true := by
  by_contra hno
  have hobjects : ∀ l ∈ leaves value, ∃ fields, l = .obj fields := by
    intro l hl
    exact (leaf_cases hl).resolve_left (fun hs => hno ⟨l, hl, hs⟩)
  obtain ⟨names, scalars, depth, _, hlarge⟩ := large_value value
  have hleaves := hlarge names scalars depth (List.Subset.refl _) (List.Subset.refl _) (Nat.le_refl _)
  obtain ⟨c, hc⟩ := List.exists_mem_of_ne_nil _ h.conditions
  cases value with
  | obj fields =>
    have hin := (hleaves _ (List.mem_singleton_self _)).2 fields rfl
    have hmatched : matchedBy (.obj fields) (.arr [.obj (richFields names scalars depth)]) = true :=
      (matched_object _ _).mpr (Or.inr ⟨_, rfl, _, List.mem_singleton_self _, hin⟩)
    have hholds := (h.meets _).mpr hmatched c hc
    obtain ⟨name, rest, hpath, _⟩ := field_path_cons hc
    rw [PathCondition.holdsAt, hpath] at hholds
    cases hholds
  | arr items =>
    have hmatched : matchedBy (.arr items) (.obj (richFields names scalars depth)) = true := by
      rw [matched_all]
      intro l hl
      obtain ⟨fields, rfl⟩ := hobjects l hl
      exact (matched_object _ _).mpr (Or.inl ((hleaves _ hl).2 fields rfl))
    have hholds := (h.meets _).mpr hmatched c hc
    rw [paths_leaves (fun _ heq => by cases heq)] at hc
    obtain ⟨l, hl, hc⟩ := List.mem_flatMap.mp hc
    obtain ⟨fields, rfl⟩ := hobjects l hl
    obtain ⟨c', _, rfl⟩ := List.mem_map.mp hc
    cases hholds
  | null | bool b | number n | str s =>
    obtain ⟨fields, heq⟩ := hobjects _ (List.mem_singleton_self _)
    cases heq

theorem Compiles.paths : pathsOf value = (leaves value).flatMap leafPaths := by
  obtain ⟨s, hs, hscalar⟩ := h.scalar
  apply paths_leaves
  rintro fields rfl
  rw [List.mem_singleton.mp hs] at hscalar
  cases hscalar

theorem Compiles.takes {s : Json} (hs : s ∈ leaves value) (hscalar : isScalar s = true) :
    takesValue s = true := by
  apply h.valid ([], s)
  rw [h.paths, List.mem_flatMap]
  refine ⟨s, hs, ?_⟩
  rw [leaf_paths_scalar hscalar]
  exact List.mem_singleton_self _

end Exact

/-- The conditions inside of the objects that are asked for. -/
def objectPaths (value : Json) : List PathCondition :=
  (leaves value).flatMap (fun
    | .obj fields => fieldPaths fields
    | _ => [])

theorem mem_object_paths {value : Json} {c : PathCondition} :
    c ∈ objectPaths value ↔ ∃ fields, .obj fields ∈ leaves value ∧ c ∈ fieldPaths fields := by
  rw [objectPaths, List.mem_flatMap]
  constructor
  · rintro ⟨l, hl, hc⟩
    cases l with
    | obj fields => exact ⟨fields, hl, hc⟩
    | _ => cases hc
  · rintro ⟨fields, hl, hc⟩
    exact ⟨_, hl, hc⟩

def single : List PathStep → Json → Json
  | [], s => s
  | .field name :: rest, s => .obj [(name, single rest s)]
  | .each :: rest, s => .arr [single rest s]

theorem single_holds (path : List PathStep) (s : Json) : PathCondition.holdsAt (path, s) (single path s) = true := by
  have hresolve : resolve path (single path s) = [s] := by
    induction path with
    | nil => rfl
    | cons step rest ih =>
      cases step with
      | field name =>
        have hfield : field? [(name, single rest s)] name = some (single rest s) := by
          rw [field?, List.find?_cons, beq_self_eq_true]
          rfl
        rw [single, resolve, hfield]
        exact ih
      | each =>
        rw [single, resolve, List.flatMap_singleton]
        exact ih
  rw [PathCondition.holdsAt, hresolve, List.any_cons, List.any_nil, Bool.or_false, matches_value_iff]
  exact Or.inl rfl

theorem holds_one {name name' : String} {found : Json} {rest : List PathStep} {s : Json}
    (h : PathCondition.holdsAt (.field name :: rest, s) (.obj [(name', found)]) = true) :
    PathCondition.holdsAt (rest, s) found = true := by
  have hfield := holds_field name (rest, s) [(name', found)]
  change PathCondition.holdsAt (.field name :: rest, s) _ = _ at hfield
  rw [h, field?, List.find?_cons] at hfield
  cases hname : name' == name with
  | true =>
    rw [hname] at hfield
    exact hfield.symm
  | false =>
    rw [hname] at hfield
    cases hfield

theorem each_path {value : Json} {rest : List PathStep} {s : Json}
    (h : (.each :: rest, s) ∈ pathsOf value) : ∃ name rest', rest = .field name :: rest' := by
  cases value with
  | obj fields =>
    obtain ⟨name, rest', heq, _⟩ := field_path_cons h
    cases heq
  | arr items =>
    rw [paths_leaves (fun _ heq => by cases heq)] at h
    obtain ⟨l, hl, h⟩ := List.mem_flatMap.mp h
    rcases leaf_cases hl with hs | ⟨fields, rfl⟩
    · rw [leaf_paths_scalar hs] at h
      cases List.mem_singleton.mp h
    · obtain ⟨c, hc, heq⟩ := List.mem_map.mp h
      obtain ⟨name, rest', hpath, _⟩ := field_path_cons hc
      obtain ⟨hsteps, _⟩ := Prod.mk.inj heq
      rw [List.singleton_append] at hsteps
      exact ⟨name, rest', (List.cons.inj hsteps).2 ▸ hpath⟩
  | null | bool b | number n | str t => cases List.mem_singleton.mp h

section Exact

variable {value : Json} (h : Compiles value)
include h

theorem Compiles.object_path {c : PathCondition} (hc : c ∈ objectPaths value) :
    c.under [.each] ∈ pathsOf value := by
  obtain ⟨fields, hl, hc⟩ := mem_object_paths.mp hc
  rw [h.paths, List.mem_flatMap]
  exact ⟨_, hl, List.mem_map_of_mem hc⟩

theorem Compiles.object_scalar {c : PathCondition} (hc : c ∈ objectPaths value) : isScalar c.2 = true :=
  takes_scalar (h.valid (c.under [.each]) (h.object_path hc))

/-- The value is matched by a list of its scalars and of what its objects are found in. -/
theorem Compiles.list_meets {items : List Json} (hscalars : ∀ s ∈ leaves value, isScalar s = true → s ∈ items)
    (hobjects : ∀ c ∈ objectPaths value, ∃ item ∈ items, c.holdsAt item = true) :
    matchedBy value (.arr items) = true := by
  rw [← h.meets]
  intro c hc
  rw [h.paths, List.mem_flatMap] at hc
  obtain ⟨l, hl, hc⟩ := hc
  rcases leaf_cases hl with hs | ⟨fields, rfl⟩
  · rw [leaf_paths_scalar hs, List.mem_singleton] at hc
    rw [hc, holds_scalar, matches_value_iff]
    exact Or.inr ⟨items, rfl, hscalars l hl hs⟩
  · obtain ⟨c', hc', rfl⟩ := List.mem_map.mp hc
    rw [holds_each, List.any_eq_true]
    exact hobjects c' (mem_object_paths.mpr ⟨fields, hl, hc'⟩)

/-- Every object is found where a single condition holds. -/
theorem Compiles.object_single {fields : List (String × Json)} (hl : .obj fields ∈ leaves value) :
    ∃ name rest s, (.field name :: rest, s) ∈ objectPaths value ∧
      ∀ p ∈ fields, p.1 = name ∧ matchedBy p.2 (single rest s) = true := by
  have hmatched : matchedBy value (.arr ((leaves value).filter isScalar ++
      (objectPaths value).map (fun c => single c.1 c.2))) = true := by
    apply h.list_meets
    · intro s hs hscalar
      exact List.mem_append_left _ (List.mem_filter.mpr ⟨hs, hscalar⟩)
    · intro c hc
      exact ⟨_, List.mem_append_right _ (List.mem_map_of_mem hc), single_holds c.1 c.2⟩
  rcases (matched_object _ _).mp (matched_all.mp hmatched _ hl) with hin | ⟨_, heq, item, hitem, hin⟩
  · rw [fields_in_iff_list] at hin
    cases hin
  · cases heq
    obtain ⟨own, rfl⟩ := fields_in_object hin
    rcases List.mem_append.mp hitem with hitem | hitem
    · have hscalar := (List.mem_filter.mp hitem).2
      cases hscalar
    · obtain ⟨⟨path, s⟩, hc, heq⟩ := List.mem_map.mp hitem
      obtain ⟨own', _, hpath⟩ := mem_object_paths.mp hc
      obtain ⟨name, rest, rfl, _⟩ := field_path_cons hpath
      refine ⟨name, rest, s, hc, ?_⟩
      intro p hp
      obtain ⟨found, hfound, hmatched⟩ := (fields_in_iff _ _).mp hin p hp
      rw [single] at heq
      cases heq
      rw [field?, List.find?_cons] at hfound
      by_cases hname : name = p.1
      · rw [hname, beq_self_eq_true] at hfound
        cases hfound
        exact ⟨hname.symm, hmatched⟩
      · rw [beq_false_of_ne hname] at hfound
        cases hfound

/-- The conditions of an object come from its fields, whose keys are names. -/
theorem Compiles.object_field {name : String} {rest : List PathStep} {s : Json}
    (hc : (.field name :: rest, s) ∈ objectPaths value) :
    PlainKey name ∧ ∃ fields p, .obj fields ∈ leaves value ∧ p ∈ fields ∧ p.1 = name ∧
      (rest, s) ∈ pathsOf p.2 := by
  obtain ⟨fields, hl, hpath⟩ := mem_object_paths.mp hc
  obtain ⟨p, hp, c', hc', heq⟩ := mem_field_paths.mp hpath
  obtain ⟨name', rest', s', hc'', hall⟩ := h.object_single hl
  obtain ⟨own, _, hpath'⟩ := mem_object_paths.mp hc''
  obtain ⟨name'', _, hcons, hplain⟩ := field_path_cons hpath'
  have hname'' : name' = name'' := PathStep.field.inj (List.cons.inj hcons).1
  rw [← hname''] at hplain
  have hname := (hall p hp).1
  rw [hname, PathCondition.under, hplain.steps] at heq
  obtain ⟨hsteps, rfl⟩ := Prod.mk.inj heq
  obtain ⟨hfield, rfl⟩ := List.cons.inj hsteps
  obtain rfl := PathStep.field.inj hfield
  exact ⟨hplain, fields, p, hl, hp, hname, hc'⟩

/-- A list can stand for an object, so no condition goes from a field into a field. -/
theorem Compiles.no_field {name name' : String} {rest : List PathStep} {s : Json} :
    (.field name :: .field name' :: rest, s) ∉ objectPaths value := by
  intro hc
  obtain ⟨names, scalars, depth, hscalars, hlarge⟩ := (large_value value).matched
  have hmatched := hlarge names scalars (depth + 1) (List.Subset.refl _) (List.Subset.refl _) (Nat.le_succ _)
  have hholds := (h.meets _).mpr hmatched _ (h.object_path hc)
  rw [rich, holds_each, List.any_eq_true] at hholds
  obtain ⟨item, hitem, hholds⟩ := hholds
  rcases List.mem_append.mp hitem with hitem | hitem
  · rw [scalar_holds (hscalars item hitem)] at hholds
    cases hholds
  · obtain rfl := List.mem_singleton.mp hitem
    have hfield := holds_field name (.field name' :: rest, s) (richFields names scalars depth)
    change PathCondition.holdsAt (.field name :: .field name' :: rest, s) _ = _ at hfield
    rw [richFields, hholds] at hfield
    cases hfound : field? (names.map (fun k => (k, rich names scalars depth))) name with
    | none =>
      rw [hfound] at hfield
      cases hfield
    | some found =>
      rw [hfound] at hfield
      have hrich : found = rich names scalars depth := by
        obtain ⟨p, hp, hfound⟩ := Option.map_eq_some_iff.mp hfound
        obtain ⟨k, _, rfl⟩ := List.mem_map.mp (List.mem_of_find?_eq_some hp)
        exact hfound.symm
      obtain ⟨items, hitems⟩ := rich_list names scalars depth
      rw [hrich, hitems] at hfield
      cases hfield

/-- An object can stand for a list, so no condition goes from a field into a list. -/
theorem Compiles.no_each {name : String} {rest : List PathStep} {s : Json} :
    (.field name :: .each :: rest, s) ∉ objectPaths value := by
  intro hc
  have hnested : ∀ value' : Json, Large (fun names scalars depth =>
      ∀ l ∈ leaves value', ∀ fields, l = .obj fields →
        fieldsIn fields (.obj (richFields names scalars depth)) = true) :=
    fun value' => (large_value value').mono (fun _ _ _ hall l hl => (hall l hl).2)
  have hlarge : Large (fun names scalars depth => ∀ l ∈ leaves value, ∀ p ∈ fieldsOf (some l),
      ∀ l' ∈ leaves p.2, ∀ fields, l' = .obj fields →
        fieldsIn fields (.obj (richFields names scalars depth)) = true) :=
    .all (fun l _ => .all (fun p _ => hnested p.2))
  obtain ⟨names, scalars, depth, _, hlarge⟩ := hlarge
  have hin := hlarge names scalars depth (List.Subset.refl _) (List.Subset.refl _) (Nat.le_refl _)
  generalize hobj : Json.obj (richFields names scalars depth) = obj at hin
  -- The field of an object is the scalar, or an object where lists of objects are asked for.
  let item (c : PathCondition) : Json :=
    match c.1 with
    | [] => .null
    | .each :: _ => .null
    | [.field name] => .obj [(name, c.2)]
    | .field name :: _ :: _ => .obj [(name, obj)]
  have hmatched : matchedBy value (.arr ((leaves value).filter isScalar ++
      (objectPaths value).map item)) = true := by
    rw [matched_all]
    intro l hl
    rcases leaf_cases hl with hs | ⟨fields, rfl⟩
    · rw [matched_scalar hs, matches_value_iff]
      exact Or.inr ⟨_, rfl, List.mem_append_left _ (List.mem_filter.mpr ⟨hl, hs⟩)⟩
    · obtain ⟨name', rest', s', hc', hall⟩ := h.object_single hl
      have hsingle (found : Json) (hfound : ∀ p ∈ fields, matchedBy p.2 found = true) :
          fieldsIn fields (.obj [(name', found)]) = true := by
        rw [fields_in_iff]
        intro p hp
        refine ⟨found, ?_, hfound p hp⟩
        rw [(hall p hp).1, field?, List.find?_cons, beq_self_eq_true]
        rfl
      refine (matched_object _ _).mpr (Or.inr ⟨_, rfl, item (.field name' :: rest', s'),
        List.mem_append_right _ (List.mem_map_of_mem hc'), ?_⟩)
      cases rest' with
      | nil => exact hsingle s' (fun p hp => (hall p hp).2)
      | cons step rest' =>
        cases step with
        | field name'' => exact absurd hc' h.no_field
        | each =>
          apply hsingle obj
          intro p hp
          rw [matched_all]
          intro l' hl'
          have hone := matched_all.mp (hall p hp).2 l' hl'
          rw [single] at hone
          rcases leaf_cases hl' with hs | ⟨fields', rfl⟩
          · obtain ⟨_, _, p', _, _, _, hpath⟩ := h.object_field hc'
            obtain ⟨name'', rest'', rfl⟩ := each_path hpath
            rw [matched_scalar hs, matches_value_iff] at hone
            rcases hone with rfl | ⟨_, heq, hmem⟩
            · cases hs
            · cases heq
              obtain rfl := List.mem_singleton.mp hmem
              cases hs
          · rw [matched_object, ← hobj]
            exact Or.inl (hin _ hl p hp _ hl' fields' rfl)
  have hholds := (h.meets _).mpr hmatched _ (h.object_path hc)
  rw [holds_each, List.any_eq_true] at hholds
  obtain ⟨found, hfound, hholds⟩ := hholds
  rcases List.mem_append.mp hfound with hfound | hfound
  · rw [scalar_holds (List.mem_filter.mp hfound).2] at hholds
    cases hholds
  · obtain ⟨⟨path, s'⟩, hc', rfl⟩ := List.mem_map.mp hfound
    obtain ⟨own, _, hpath⟩ := mem_object_paths.mp hc'
    obtain ⟨name', rest', rfl, _⟩ := field_path_cons hpath
    cases rest' with
    | nil =>
      have hscalar := holds_one hholds
      rw [scalar_holds (h.object_scalar hc')] at hscalar
      cases hscalar
    | cons step rest' =>
      have hinside := holds_one hholds
      rw [← hobj] at hinside
      cases hinside

/-- A value that compiles is exact. -/
theorem Compiles.exact : ExactValue value := by
  have honly {fields : List (String × Json)} (hl : .obj fields ∈ leaves value) :
      ∃ key s, ([.field key], s) ∈ objectPaths value ∧ OnlyField key s fields := by
    obtain ⟨name, rest, s, hc, hall⟩ := h.object_single hl
    cases rest with
    | cons step rest =>
      cases step with
      | field name' => exact absurd hc h.no_field
      | each => exact absurd hc h.no_each
    | nil =>
      refine ⟨name, s, hc, ?_⟩
      intro p hp
      refine ⟨(hall p hp).1, ?_⟩
      intro l hl
      have hmatched := matched_all.mp (hall p hp).2 l hl
      have hs : isScalar s = true := h.object_scalar hc
      rcases leaf_cases hl with hscalar | ⟨fields', rfl⟩
      · rw [matched_scalar hscalar, matches_value_iff] at hmatched
        rcases hmatched with heq | ⟨items, heq, _⟩
        · exact heq.symm
        · change s = _ at heq
          rw [heq] at hs
          cases hs
      · rcases (matched_object _ _).mp hmatched with hin | ⟨items, heq, _⟩
        · obtain ⟨own, heq⟩ := fields_in_object hin
          change s = _ at heq
          rw [heq] at hs
          cases hs
        · change s = _ at heq
          rw [heq] at hs
          cases hs
  obtain ⟨scalar, hscalar, hs⟩ := h.scalar
  refine ⟨⟨scalar, hscalar, h.takes hscalar hs⟩, ?_⟩
  intro l hl
  rcases leaf_cases hl with hls | ⟨fields, rfl⟩
  · exact Or.inl (h.takes hl hls)
  · obtain ⟨key, s, hc, hfields⟩ := honly hl
    obtain ⟨hplain, fields', p, hl', hp, hname, hpath⟩ := h.object_field hc
    have htakes : takesValue s = true := h.valid _ (h.object_path hc)
    obtain ⟨key', s', hc', hfields'⟩ := honly hl'
    have hkey : key' = key := by rw [← (hfields' p hp).1, hname]
    subst hkey
    -- The scalar of the condition is that of the object it comes from.
    rw [paths_of_only (h.object_scalar hc') (hfields' p hp).2] at hpath
    obtain ⟨l', hl'', heq⟩ := List.mem_map.mp hpath
    obtain ⟨_, rfl⟩ := Prod.mk.inj heq
    exact Or.inr ⟨fields, key', _, rfl, hplain, htakes, hfields, fields', hl', hfields', p, hp,
      List.ne_nil_of_mem hl''⟩

end Exact

/-! ### Filters -/

theorem filter_matches_iff {m : Fields} (hne : m ≠ []) (pageContent : String) (metadata : Fields) :
    FilterMatches m pageContent metadata ↔ ∀ p ∈ m, ∀ c ∈ pathsOf p.2,
      takesValue c.2 = true ∧ (c.under (pathSteps p.1)).holdsAt (.obj metadata) = true := by
  have hfilter : qdrantFilterFromDict m = some (m.flatMap (fun p => buildCondition p.1 p.2)) := by
    cases m with
    | nil => exact absurd rfl hne
    | cons p rest => rfl
  have hcondition (p : String × Json) : (∀ c ∈ buildCondition p.1 p.2, c.valid = true ∧
      c.holds (pointPayload pageContent metadata) = true) ↔ ∀ c ∈ pathsOf p.2,
      takesValue c.2 = true ∧ (c.under (pathSteps p.1)).holdsAt (.obj metadata) = true := by
    have hpaths := build_condition_paths p.1 p.2
    have hforall (P : PathCondition → Prop) : (∀ c ∈ buildCondition p.1 p.2, P c.path) ↔
        ∀ c ∈ pathsOf p.2, P (c.under (.field "metadata" :: pathSteps p.1)) := by
      rw [← List.forall_mem_map, hpaths, List.forall_mem_map]
    exact hforall (fun c => takesValue c.2 = true ∧ c.holdsAt (pointPayload pageContent metadata) = true)
  constructor
  · rintro ⟨filter, hsome, hvalid, hmatches⟩ p hp
    rw [hfilter] at hsome
    cases hsome
    rw [← hcondition]
    intro c hc
    have hmem : c ∈ m.flatMap (fun p => buildCondition p.1 p.2) := List.mem_flatMap.mpr ⟨p, hp, hc⟩
    exact ⟨List.all_eq_true.mp hvalid c hmem, List.all_eq_true.mp hmatches c hmem⟩
  · intro hall
    have hboth : ∀ c ∈ m.flatMap (fun p => buildCondition p.1 p.2), c.valid = true ∧
        c.holds (pointPayload pageContent metadata) = true := by
      intro c hc
      obtain ⟨p, hp, hc⟩ := List.mem_flatMap.mp hc
      exact (hcondition p).mpr (hall p hp) c hc
    exact ⟨_, hfilter, List.all_eq_true.mpr (fun c hc => (hboth c hc).1),
      List.all_eq_true.mpr (fun c hc => (hboth c hc).2)⟩

/-- A condition under a plain key looks at the value of the key. -/
theorem plain_holds {key : String} (hkey : PlainKey key) (c : PathCondition) (metadata : Fields) :
    (c.under (pathSteps key)).holdsAt (.obj metadata) = true ↔
      ∃ found, field? metadata key = some found ∧ c.holdsAt found = true := by
  rw [hkey.steps, holds_field]
  cases hfound : field? metadata key with
  | none =>
    apply iff_of_false Bool.false_ne_true
    rintro ⟨_, h, _⟩
    cases h
  | some found =>
    constructor
    · intro h
      exact ⟨found, rfl, h⟩
    · rintro ⟨_, h, hholds⟩
      cases h
      exact hholds

theorem field_mem {metadata : Fields} {key : String} {found : Json} (h : field? metadata key = some found) :
    key ∈ metadata.map Prod.fst :=
  List.mem_map_of_mem (mem_of_field? h)

/-- What is deleted is matched by the filter. -/
theorem deleted_matches {ι V : Type} [DecidableEq ι] {m : Fields} {points points' : Dict ι (Point V)}
    (h : deletePointsByMetadataFilter points m = .ok points') {id : ι} {point : Point V}
    (hget : points.get? id = some point) (hgone : points'.get? id ≠ some point) :
    FilterMatches m point.pageContent point.metadata := by
  unfold deletePointsByMetadataFilter at h
  split at h
  · cases h
  · rename_i filter hfilter
    split at h
    · rename_i hvalid
      cases h
      refine ⟨filter, hfilter, hvalid, ?_⟩
      by_contra hno
      apply hgone
      rw [Dict.get?_eq_some_iff] at hget ⊢
      exact List.mem_filter.mpr ⟨hget, decide_eq_true hno⟩
    · cases h

theorem exact_means {m : Fields} (hne : m ≠ []) (h : ExactFilter m) : MeansContainment m := by
  have hfilter (pageContent : String) (metadata : Fields) :
      FilterMatches m pageContent metadata ↔ contains m metadata = true := by
    rw [filter_matches_iff hne, contains, fields_in_iff]
    apply forall₂_congr
    intro p hp
    obtain ⟨hkey, hexact⟩ := h p hp
    have hcompiles := exact_compiles hexact
    constructor
    · intro hall
      obtain ⟨c, hc⟩ := List.exists_mem_of_ne_nil _ hcompiles.conditions
      obtain ⟨found, hfound, _⟩ := (plain_holds hkey c metadata).mp (hall c hc).2
      refine ⟨found, hfound, (hcompiles.meets found).mp ?_⟩
      intro c' hc'
      obtain ⟨found', hfound', hholds⟩ := (plain_holds hkey c' metadata).mp (hall c' hc').2
      rw [hfound] at hfound'
      cases hfound'
      exact hholds
    · rintro ⟨found, hfound, hmatched⟩ c hc
      exact ⟨hcompiles.valid c hc,
        (plain_holds hkey c metadata).mpr ⟨found, hfound, (hcompiles.meets found).mpr hmatched c hc⟩⟩
  refine ⟨hfilter, ?_⟩
  intro ι V _ points points' hdelete id point hget hgone k hk
  have hcontains := (hfilter _ _).mp (deleted_matches hdelete hget hgone)
  rw [contains, fields_in_iff] at hcontains
  obtain ⟨p, hp, rfl⟩ := List.mem_map.mp hk
  obtain ⟨found, hfound, _⟩ := hcontains p hp
  exact field_mem hfound

/-- A condition looks at a single key of the metadata, whose name is plain. -/
theorem looks_at_one (p : String × Json) (c : PathCondition) : ∃ name, PlainKey name ∧
    (PlainKey p.1 → name = p.1) ∧ ∀ metadata metadata' : Fields,
      field? metadata name = field? metadata' name →
        (c.under (pathSteps p.1)).holdsAt (.obj metadata) =
          (c.under (pathSteps p.1)).holdsAt (.obj metadata') := by
  obtain ⟨name, rest, hsteps⟩ := path_steps_cons p.1
  refine ⟨name, path_steps_names (by rw [hsteps]; exact List.mem_cons_self), ?_, ?_⟩
  · intro hplain
    rw [hplain.steps] at hsteps
    exact (PathStep.field.inj (List.cons.inj hsteps).1).symm
  · intro metadata metadata' hsame
    have hunder : c.under (pathSteps p.1) = (c.under rest).under [.field name] := by
      rw [hsteps, under_under]
      rfl
    rw [hunder, holds_field, holds_field, hsame]

theorem field_filter {metadata : Fields} {key name : String} (h : name ≠ key) :
    field? (metadata.filter (fun p => p.1 ≠ key)) name = field? metadata name := by
  rw [field?, field?, List.find?_filter]
  congr 2
  funext p
  by_cases hp : p.1 = name
  · simp [hp, h]
  · simp [hp]

theorem field_cons {metadata : Fields} {key : String} {found : Json} (name : String) :
    field? ((key, found) :: metadata) name = if name = key then some found else field? metadata name := by
  rw [field?, List.find?_cons]
  by_cases h : name = key
  · rw [if_pos h, h, beq_self_eq_true]
    rfl
  · rw [if_neg h, beq_false_of_ne (fun heq => h heq.symm)]
    rfl

/-- Where the filter means containment, every key is plain and every value compiles. -/
theorem means_exact {m : Fields} (hne : m ≠ []) (hnodup : (m.map Prod.fst).Nodup)
    (h : MeansContainment m) : ExactFilter m := by
  have hlarge : Large (fun names scalars depth => (∀ p ∈ m, p.1 ∈ names) ∧
      ∀ p ∈ m, matchedBy p.2 (rich names scalars depth) = true) := by
    refine Large.and ?_ (.all (fun p _ => (large_value p.2).matched))
    refine ⟨m.map Prod.fst, [], 0, fun _ hs => absurd hs List.not_mem_nil, ?_⟩
    intro names _ _ hn _ _ p hp
    exact hn (List.mem_map_of_mem hp)
  obtain ⟨names, scalars, depth, _, hlarge⟩ := hlarge
  obtain ⟨hnames, hmatched⟩ :=
    hlarge names scalars depth (List.Subset.refl _) (List.Subset.refl _) (Nat.le_refl _)
  have hfull : contains m (richFields names scalars depth) = true := by
    rw [contains, fields_in_iff]
    intro p hp
    exact ⟨_, field_of_map (hnames p hp) _, hmatched p hp⟩
  have hiff (metadata : Fields) := (filter_matches_iff hne "" metadata).symm.trans (h.filter "" metadata)
  have hconditions := (hiff _).mpr hfull
  -- Without the key, a filter that does not look at it would still match.
  have hlooks {p : String × Json} (hp : p ∈ m) (hno : ∀ q ∈ m, ∀ c ∈ pathsOf q.2, ∃ name, name ≠ p.1 ∧
      ∀ metadata metadata' : Fields, field? metadata name = field? metadata' name →
        (c.under (pathSteps q.1)).holdsAt (.obj metadata) =
          (c.under (pathSteps q.1)).holdsAt (.obj metadata')) : False := by
    have hcontains := (hiff ((richFields names scalars depth).filter (fun q => q.1 ≠ p.1))).mp (by
      intro q hq c hc
      obtain ⟨name, hother, hsame⟩ := hno q hq c hc
      rw [hsame _ _ (field_filter hother)]
      exact hconditions q hq c hc)
    rw [contains, fields_in_iff] at hcontains
    obtain ⟨found, hfound, _⟩ := hcontains p hp
    obtain ⟨q, hq, hname⟩ := List.mem_map.mp (field_mem hfound)
    exact of_decide_eq_true (List.mem_filter.mp hq).2 hname
  have hplain : ∀ p ∈ m, PlainKey p.1 := by
    intro p hp
    by_contra hno
    apply hlooks hp
    intro q _ c _
    obtain ⟨name, hname, _, hsame⟩ := looks_at_one q c
    exact ⟨name, fun heq => hno (heq ▸ hname), hsame⟩
  intro p hp
  refine ⟨hplain p hp, Compiles.exact ⟨?_, fun c hc => (hconditions p hp c hc).1, ?_⟩⟩
  · intro hnil
    apply hlooks hp
    intro q hq c hc
    obtain ⟨name, _, hown, hsame⟩ := looks_at_one q c
    refine ⟨name, ?_, hsame⟩
    rintro rfl
    have hkey := hown (hplain q hq)
    have hqp : q = p := List.inj_on_of_nodup_map hnodup hq hp hkey.symm
    rw [hqp, hnil] at hc
    cases hc
  · intro found
    have hother {q : String × Json} (hq : q ∈ m) (hqp : q ≠ p) :
        field? ((p.1, found) :: richFields names scalars depth) q.1 =
          field? (richFields names scalars depth) q.1 := by
      rw [field_cons, if_neg]
      exact fun hkey => hqp (List.inj_on_of_nodup_map hnodup hq hp hkey)
    have hpoint := hiff ((p.1, found) :: richFields names scalars depth)
    rw [contains, fields_in_iff] at hpoint
    constructor
    · intro hall
      obtain ⟨found', hfound', hin⟩ := hpoint.mp (by
        intro q hq c hc
        refine ⟨(hconditions q hq c hc).1, ?_⟩
        by_cases hqp : q = p
        · subst hqp
          rw [plain_holds (hplain q hq)]
          exact ⟨found, by rw [field_cons, if_pos rfl], hall c hc⟩
        · obtain ⟨name, _, hown, hsame⟩ := looks_at_one q c
          obtain rfl := hown (hplain q hq)
          rw [hsame _ _ (hother hq hqp)]
          exact (hconditions q hq c hc).2) p hp
      rw [field_cons, if_pos rfl] at hfound'
      cases hfound'
      exact hin
    · intro hin c hc
      obtain ⟨found', hfound', hholds⟩ := (plain_holds (hplain p hp) c _).mp (hpoint.mpr (by
        intro q hq
        by_cases hqp : q = p
        · subst hqp
          exact ⟨found, by rw [field_cons, if_pos rfl], hin⟩
        · refine ⟨_, ?_, hmatched q hq⟩
          rw [hother hq hqp]
          exact field_of_map (hnames q hq) _) p hp c hc).2
      rw [field_cons, if_pos rfl] at hfound'
      cases hfound'
      exact hholds

/-- A filter means containment exactly where its keys are plain and its values are exact. -/
theorem means_containment_iff (m : Dict String Json) (h : m.entries ≠ []) :
    MeansContainment m.entries ↔ ExactFilter m.entries :=
  ⟨means_exact h m.distinct, exact_means h⟩

def tagged : Dict String Json :=
  .ofList [("source", .str "alice"), ("tags", .arr [.str "news", .obj [("lang", .str "it")]])]

theorem tagged_means : MeansContainment tagged.entries := by
  apply (means_containment_iff tagged (by decide)).mpr
  intro p hp
  rcases List.mem_cons.mp hp with rfl | hp
  · refine ⟨by unfold PlainKey; decide, ⟨_, List.mem_singleton_self _, rfl⟩, ?_⟩
    intro l hl
    rw [List.mem_singleton.mp hl]
    exact Or.inl rfl
  · obtain rfl := List.mem_singleton.mp hp
    refine ⟨by unfold PlainKey; decide, ⟨.str "news", List.mem_cons_self, rfl⟩, ?_⟩
    intro l hl
    rcases List.mem_cons.mp hl with rfl | hl
    · exact Or.inl rfl
    · obtain rfl := List.mem_singleton.mp hl
      have honly : OnlyField "lang" (.str "it") [("lang", .str "it")] := by
        intro p hp
        rw [List.mem_singleton.mp hp]
        exact ⟨rfl, fun l hl => List.mem_singleton.mp hl⟩
      exact Or.inr ⟨_, "lang", .str "it", rfl, by unfold PlainKey; decide, rfl, honly, _,
        List.mem_cons_of_mem _ (List.mem_singleton_self _), honly, _, List.mem_singleton_self _,
        List.cons_ne_nil _ _⟩

/-- An empty dictionary deletes every point, and a key with a dot does not find its own. -/
theorem tags_delete_all :
    deletePointsByMetadataFilter (.ofList [("1", (⟨"hello", [], ()⟩ : Point Unit))]) [("tags", .obj [])] =
      .ok .empty ∧
    deletePointsByMetadataFilter (.ofList [("1", (⟨"hello", [("v1.0", .bool true)], ()⟩ : Point Unit))])
        [("v1.0", .bool true)] =
      .ok (.ofList [("1", ⟨"hello", [("v1.0", .bool true)], ()⟩)]) ∧
    ¬ ∀ m : Dict String Json, m.entries ≠ [] → MeansContainment m.entries := by
  refine ⟨by decide, by decide, ?_⟩
  intro h
  have hmeans := h (.ofList [("tags", .obj [])]) (by decide)
  have hkey := hmeans.deletes String Unit (.ofList [("1", ⟨"hello", [], ()⟩)]) .empty (by decide) "1"
    ⟨"hello", [], ()⟩ (by decide) (by decide) "tags" (by decide)
  cases hkey

end CheshireCat.Memory
