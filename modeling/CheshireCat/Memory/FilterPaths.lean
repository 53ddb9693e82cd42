import CheshireCat.Memory.Points

namespace CheshireCat.Memory
open Base Json

/-- A condition as Qdrant reads it: where it looks, and for what. -/
abbrev PathCondition := List PathStep × Json

def PathCondition.holdsAt (c : PathCondition) (y : Json) : Bool :=
  (resolve c.1 y).any (matchesValue c.2)

def PathCondition.under (steps : List PathStep) (c : PathCondition) : PathCondition :=
  (steps ++ c.1, c.2)

mutual

/-- The conditions that a value compiles to, from its own place on. -/
def pathsOf : Json → List PathCondition
  | .obj fields => fieldPaths fields
  | .arr items => itemPaths items
  | value => [([], value)]

def fieldPaths : List (String × Json) → List PathCondition
  | [] => []
  | (k, value) :: rest => (pathsOf value).map (PathCondition.under (pathSteps k)) ++ fieldPaths rest

def itemPaths : List Json → List PathCondition
  | [] => []
  | .obj fields :: rest => (fieldPaths fields).map (PathCondition.under [.each]) ++ itemPaths rest
  | value :: rest => pathsOf value ++ itemPaths rest

end

/-! ### Keys -/

theorem path_steps_dot (key k : String) : pathSteps (key ++ "." ++ k) = pathSteps key ++ pathSteps k := by
  have hsplit : (key ++ "." ++ k).toList.splitOn '.' =
      key.toList.splitOn '.' ++ k.toList.splitOn '.' := by
    rw [String.toList_append, String.toList_append, List.append_assoc]
    exact List.splitOn_append_cons_self key.toList k.toList
  rw [pathSteps, hsplit, List.flatMap_append]
  rfl

/-- Only the last part of a key changes where something without a dot is appended. -/
theorem split_append {b : List Char} (hb : '.' ∉ b) (a : List Char) :
    ∃ init last, a.splitOn '.' = init ++ [last] ∧ (a ++ b).splitOn '.' = init ++ [last ++ b] := by
  induction a with
  | nil => exact ⟨[], [], rfl, List.splitOn_eq_singleton hb⟩
  | cons c a ih =>
    obtain ⟨init, last, ha, hab⟩ := ih
    rw [List.cons_append, List.splitOn_cons_eq_if_modifyHead, List.splitOn_cons_eq_if_modifyHead, ha, hab]
    split
    · exact ⟨[] :: init, last, rfl, rfl⟩
    · cases init with
      | nil => exact ⟨[], c :: last, rfl, rfl⟩
      | cons first init => exact ⟨(c :: first) :: init, last, rfl, rfl⟩

theorem path_steps_each (key : String) : pathSteps (key ++ "[]") = pathSteps key ++ [.each] := by
  obtain ⟨init, last, ha, hab⟩ := split_append (b := ['[', ']']) (by decide) key.toList
  have hsteps : stepsFromEnd (last ++ ['[', ']']).reverse = stepsFromEnd last.reverse ++ [.each] := by
    rw [List.reverse_append]
    rfl
  unfold pathSteps
  rw [String.toList_append]
  change ((key.toList ++ ['[', ']']).splitOn '.').flatMap _ = _
  rw [hab, ha, List.flatMap_append, List.flatMap_append, List.flatMap_singleton, List.flatMap_singleton,
    hsteps, List.append_assoc]

/-- A key that Qdrant takes as the name of a field. -/
def PlainKey (key : String) : Prop := '.' ∉ key.toList ∧ ¬ ['[', ']'] <:+ key.toList

theorem PlainKey.steps {key : String} (h : PlainKey key) : pathSteps key = [.field key] :=
  (path_steps_plain key).mpr h

theorem steps_from_end_names {part : List Char} (hdot : '.' ∉ part) {name : String}
    (h : .field name ∈ stepsFromEnd part) : PlainKey name := by
  fun_induction stepsFromEnd part with
  | case1 rest ih =>
    rcases List.mem_append.mp h with h | h
    · exact ih (fun hd => hdot (by simp [hd])) h
    · cases List.mem_singleton.mp h
  | case2 rest hlast =>
    cases List.mem_singleton.mp h
    constructor
    · simpa using hdot
    · rintro ⟨init, hinit⟩
      rw [String.toList_ofList] at hinit
      apply hlast init.reverse
      rw [← List.reverse_reverse rest, ← hinit, List.reverse_append]
      rfl

theorem split_parts {part : List Char} (text : List Char) (h : part ∈ text.splitOn '.') : '.' ∉ part := by
  induction text generalizing part with
  | nil =>
    rw [List.mem_singleton.mp h]
    exact List.not_mem_nil
  | cons c text ih =>
    rw [List.splitOn_cons_eq_if_modifyHead] at h
    split at h
    · rcases List.mem_cons.mp h with rfl | h
      · exact List.not_mem_nil
      · exact ih h
    · rename_i hc
      obtain ⟨first, rest, hsplit⟩ := List.exists_cons_of_ne_nil (List.splitOn_ne_nil '.' text)
      rw [hsplit, List.modifyHead_cons] at h
      rcases List.mem_cons.mp h with rfl | h
      · intro hdot
        rcases List.mem_cons.mp hdot with hdot | hdot
        · exact hc (by rw [hdot]; exact beq_self_eq_true c)
        · exact ih (by rw [hsplit]; exact List.mem_cons_self) hdot
      · exact ih (by rw [hsplit]; exact List.mem_cons_of_mem first h)

/-- The fields that a path goes through are plain. -/
theorem path_steps_names {key name : String} (h : .field name ∈ pathSteps key) : PlainKey name := by
  obtain ⟨part, hpart, hname⟩ := List.mem_flatMap.mp h
  apply steps_from_end_names _ hname
  rw [List.mem_reverse]
  exact split_parts key.toList hpart

/-! ### The conditions of a filter -/

def FieldCondition.path (c : FieldCondition) : PathCondition := (pathSteps c.key, c.value)

theorem under_under (steps steps' : List PathStep) (c : PathCondition) :
    (c.under steps').under steps = c.under (steps ++ steps') := by
  rw [PathCondition.under, PathCondition.under, PathCondition.under, List.append_assoc]

mutual

/-- A value compiles to its conditions, all of them under the key. -/
theorem build_condition_paths (key : String) : ∀ value : Json,
    (buildCondition key value).map FieldCondition.path =
      (pathsOf value).map (PathCondition.under (.field "metadata" :: pathSteps key))
  | .obj fields => build_fields_paths key fields
  | .arr items => build_items_paths key items
  | .null | .bool _ | .number _ | .str _ => by
    change [(pathSteps ("metadata." ++ key), _)] = [((.field "metadata" :: pathSteps key) ++ [], _)]
    rw [path_steps_metadata, List.append_nil]

theorem build_fields_paths (key : String) : ∀ fields : List (String × Json),
    (buildFields key fields).map FieldCondition.path =
      (fieldPaths fields).map (PathCondition.under (.field "metadata" :: pathSteps key))
  | [] => rfl
  | (k, value) :: rest => by
    rw [buildFields, fieldPaths, List.map_append, List.map_append, build_condition_paths (key ++ "." ++ k) value,
      build_fields_paths key rest, path_steps_dot, List.map_map]
    congr 2
    funext c
    exact (under_under (.field "metadata" :: pathSteps key) _ c).symm

theorem build_items_paths (key : String) : ∀ items : List Json,
    (buildItems key items).map FieldCondition.path =
      (itemPaths items).map (PathCondition.under (.field "metadata" :: pathSteps key))
  | [] => rfl
  | .obj fields :: rest => by
    rw [buildItems, itemPaths, List.map_append, List.map_append, build_fields_paths (key ++ "[]") fields,
      build_items_paths key rest, path_steps_each, List.map_map]
    congr 2
    funext c
    exact (under_under (.field "metadata" :: pathSteps key) _ c).symm
  | .arr items :: rest => by
    rw [buildItems, itemPaths, List.map_append, List.map_append, build_condition_paths key (.arr items),
      build_items_paths key rest]
    all_goals simp
  | .null :: rest | .bool _ :: rest | .number _ :: rest | .str _ :: rest => by
    rw [buildItems, itemPaths, List.map_append, List.map_append, build_condition_paths key _,
      build_items_paths key rest]
    all_goals simp

end

end CheshireCat.Memory
