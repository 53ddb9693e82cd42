import CheshireCat.Base.Json

namespace CheshireCat.Memory
open Base Json

/-- `FieldCondition(key, match=MatchValue(value))`. -/
structure FieldCondition where
  key : String
  value : Json
deriving DecidableEq

mutual

/-- `_build_condition`. -/
def buildCondition (key : String) : Json → List FieldCondition
  | .obj fields => buildFields key fields
  | .arr items => buildItems key items
  | value => [⟨"metadata." ++ key, value⟩]

def buildFields (key : String) : List (String × Json) → List FieldCondition
  | [] => []
  | (k, value) :: rest => buildCondition (key ++ "." ++ k) value ++ buildFields key rest

/-- The elements of a list: an object is looked for among the elements of the point's
list, any other value under the key itself. -/
def buildItems (key : String) : List Json → List FieldCondition
  | [] => []
  | .obj fields :: rest => buildFields (key ++ "[]") fields ++ buildItems key rest
  | value :: rest => buildCondition key value ++ buildItems key rest

end

/-- `_qdrant_filter_from_dict`. An empty dictionary gives no filter. -/
def qdrantFilterFromDict (filter : Fields) : Option (List FieldCondition) :=
  match filter with
  | [] => none
  | _ => some (filter.flatMap (fun p => buildCondition p.1 p.2))

/-- A step of a Qdrant key: into a field, or into the elements of a list. -/
inductive PathStep where
  | field (name : String)
  | each
deriving DecidableEq

/-- The steps of one part of a key, read from its end. -/
def stepsFromEnd : List Char → List PathStep
  | ']' :: '[' :: rest => stepsFromEnd rest ++ [.each]
  | rest => [.field (String.ofList rest.reverse)]

/-- The steps of a key: the parts between the dots, each with a `[]` for every list
it enters. -/
def pathSteps (key : String) : List PathStep :=
  (key.toList.splitOn '.').flatMap (fun part => stepsFromEnd part.reverse)

/-- The values that a path leads to. -/
def resolve : List PathStep → Json → List Json
  | [], value => [value]
  | .field name :: rest, .obj fields =>
    match field? fields name with
    | some value => resolve rest value
    | none => []
  | .each :: rest, .arr items => items.flatMap (resolve rest)
  | _ :: _, _ => []

/-- A list matches where one of its elements does. -/
def matchesValue (value found : Json) : Bool :=
  found = value ||
    match found with
    | .arr items => value ∈ items
    | _ => false

def FieldCondition.holds (c : FieldCondition) (payload : Json) : Bool :=
  (resolve (pathSteps c.key) payload).any (matchesValue c.value)

/-- `must`: every condition holds. Without a filter every point matches. -/
def matchesFilter (filter : Option (List FieldCondition)) (payload : Json) : Bool :=
  match filter with
  | none => true
  | some must => must.all (fun c => c.holds payload)

/-- The payload of a stored point. -/
def pointPayload (pageContent : String) (metadata : Fields) : Json :=
  .obj [("page_content", .str pageContent), ("metadata", .obj metadata)]

theorem path_steps_metadata (key : String) :
    pathSteps ("metadata." ++ key) = .field "metadata" :: pathSteps key := by
  have hsplit : ("metadata." ++ key).toList.splitOn '.' =
      "metadata".toList :: key.toList.splitOn '.' := by
    have hdot : '.' ∉ "metadata".toList := by decide
    rw [String.toList_append]
    exact List.splitOn_append_cons_self_of_not_mem hdot key.toList
  rw [pathSteps, hsplit, List.flatMap_cons]
  rfl

/-- A condition on `metadata.key` looks the key up in the metadata. -/
theorem holds_metadata (key : String) (value : Json) (pageContent : String) (metadata : Fields) :
    FieldCondition.holds ⟨"metadata." ++ key, value⟩ (pointPayload pageContent metadata) =
      (resolve (pathSteps key) (.obj metadata)).any (matchesValue value) := by
  rw [FieldCondition.holds, path_steps_metadata]
  rfl

/-- A filter from values that are neither objects nor lists has one condition an entry. -/
theorem matches_flat {filter : Fields} {payload : Json} (hne : filter ≠ [])
    (hflat : ∀ p ∈ filter, buildCondition p.1 p.2 = [⟨"metadata." ++ p.1, p.2⟩]) :
    matchesFilter (qdrantFilterFromDict filter) payload = true ↔
      ∀ p ∈ filter, FieldCondition.holds ⟨"metadata." ++ p.1, p.2⟩ payload = true := by
  have hfilter : qdrantFilterFromDict filter =
      some (filter.flatMap (fun p => buildCondition p.1 p.2)) := by
    cases filter with
    | nil => exact absurd rfl hne
    | cons p ps => rfl
  rw [hfilter]
  simp only [matchesFilter, List.all_eq_true, List.mem_flatMap]
  constructor
  · intro h p hp
    exact h _ ⟨p, hp, by rw [hflat p hp]; exact List.mem_singleton_self _⟩
  · intro h c hc
    obtain ⟨p, hp, hc⟩ := hc
    rw [hflat p hp, List.mem_singleton] at hc
    subst hc
    exact h p hp

/-- A path that goes on from a value without fields and elements leads nowhere. -/
theorem resolve_scalar (steps : List PathStep) {value : Json} (hobj : ∀ fields, value ≠ .obj fields)
    (harr : ∀ items, value ≠ .arr items) :
    resolve steps value = if steps = [] then [value] else [] := by
  cases steps with
  | nil => rfl
  | cons step steps =>
    cases value with
    | obj fields => exact absurd rfl (hobj fields)
    | arr items => exact absurd rfl (harr items)
    | _ => cases step <;> rfl

theorem steps_from_end_cons (part : List Char) :
    ∃ name rest, stepsFromEnd part = .field name :: rest := by
  fun_induction stepsFromEnd part with
  | case1 rest ih =>
    obtain ⟨name, steps, h⟩ := ih
    exact ⟨name, steps ++ [.each], by rw [h]; rfl⟩
  | case2 rest _ => exact ⟨_, [], rfl⟩

theorem steps_from_end_single {part : List Char} {name : String}
    (h : stepsFromEnd part = [.field name]) : String.ofList part.reverse = name := by
  fun_cases stepsFromEnd part with
  | case1 rest =>
    obtain ⟨first, steps, hrest⟩ := steps_from_end_cons rest
    rw [stepsFromEnd, hrest] at h
    simp at h
  | case2 rest hlast =>
    rw [stepsFromEnd.eq_2 _ hlast] at h
    exact PathStep.field.inj (List.cons.inj h).1

/-- The first step of a key goes into a field. -/
theorem path_steps_cons (key : String) : ∃ name rest, pathSteps key = .field name :: rest := by
  obtain ⟨part, parts, hparts⟩ := List.exists_cons_of_ne_nil (List.splitOn_ne_nil '.' key.toList)
  obtain ⟨name, rest, h⟩ := steps_from_end_cons part.reverse
  refine ⟨name, rest ++ parts.flatMap (fun part => stepsFromEnd part.reverse), ?_⟩
  rw [pathSteps, hparts, List.flatMap_cons, h]
  rfl

/-- Every part of a key gives a step of its own. -/
theorem path_steps_one_part {key : String} {step : PathStep} (h : pathSteps key = [step]) :
    key.toList.splitOn '.' = [key.toList] := by
  have hjoin : ['.'].intercalate (key.toList.splitOn '.') = key.toList :=
    List.intercalate_splitOn '.'
  obtain ⟨part, parts, hparts⟩ := List.exists_cons_of_ne_nil (List.splitOn_ne_nil '.' key.toList)
  have hnil : parts = [] := by
    cases parts with
    | nil => rfl
    | cons other parts =>
      obtain ⟨first, rest, hfirst⟩ := steps_from_end_cons part.reverse
      obtain ⟨second, rest', hsecond⟩ := steps_from_end_cons other.reverse
      rw [pathSteps, hparts, List.flatMap_cons] at h
      simp [hfirst, hsecond] at h
  subst hnil
  have hpart : part = key.toList := by simpa [hparts] using hjoin
  rw [hparts, hpart]

/-- A key of a single step is the name of a field. -/
theorem path_steps_single {key name : String} (h : pathSteps key = [.field name]) : key = name := by
  rw [pathSteps, path_steps_one_part h, List.flatMap_singleton] at h
  rw [← steps_from_end_single h, List.reverse_reverse, String.ofList_toList]

/-- A key is one field where it has no dot and does not end in the brackets of a list. -/
theorem path_steps_plain (key : String) :
    pathSteps key = [.field key] ↔ '.' ∉ key.toList ∧ ¬ ['[', ']'] <:+ key.toList := by
  constructor
  · intro h
    have hpart := path_steps_one_part h
    refine ⟨?_, ?_⟩
    · intro hdot
      obtain ⟨before, after, hkey, hbefore⟩ := List.eq_append_cons_of_mem hdot
      rw [hkey, List.splitOn_append_cons_self_of_not_mem hbefore] at hpart
      exact List.splitOn_ne_nil '.' after (List.cons.inj hpart).2
    · intro hlist
      obtain ⟨name, hkey⟩ := hlist
      rw [pathSteps, hpart, List.flatMap_singleton, ← hkey, List.reverse_append] at h
      obtain ⟨first, steps, hname⟩ := steps_from_end_cons name.reverse
      change stepsFromEnd name.reverse ++ [.each] = [.field key] at h
      simp [hname] at h
  · intro h
    obtain ⟨hdot, hlist⟩ := h
    rw [pathSteps, List.splitOn_eq_singleton hdot, List.flatMap_singleton, stepsFromEnd.eq_2,
      List.reverse_reverse, String.ofList_toList]
    intro rest hrest
    exact hlist ⟨rest.reverse, by rw [← List.reverse_reverse key.toList, hrest]; simp⟩

end CheshireCat.Memory
