import CheshireCat.Base.Dict

namespace CheshireCat.Base

inductive Number where
  | int (n : Int)
  | float (q : Rat)
deriving DecidableEq

/-- The values that `json.load` returns. The keys of an object are distinct. -/
inductive Json where
  | null
  | bool (b : Bool)
  | number (n : Number)
  | str (s : String)
  | arr (items : List Json)
  | obj (fields : List (String × Json))

namespace Json

mutual

def decEq : (a b : Json) → Decidable (a = b)
  | .null, .null => isTrue rfl
  | .bool a, .bool b => decidable_of_iff (a = b) (by simp)
  | .number a, .number b => decidable_of_iff (a = b) (by simp)
  | .str a, .str b => decidable_of_iff (a = b) (by simp)
  | .arr a, .arr b =>
    match decEqItems a b with
    | isTrue h => isTrue (congrArg arr h)
    | isFalse h => isFalse (fun e => h (Json.arr.inj e))
  | .obj a, .obj b =>
    match decEqFields a b with
    | isTrue h => isTrue (congrArg obj h)
    | isFalse h => isFalse (fun e => h (Json.obj.inj e))
  | .null, .bool _ => isFalse nofun
  | .null, .number _ => isFalse nofun
  | .null, .str _ => isFalse nofun
  | .null, .arr _ => isFalse nofun
  | .null, .obj _ => isFalse nofun
  | .bool _, .null => isFalse nofun
  | .bool _, .number _ => isFalse nofun
  | .bool _, .str _ => isFalse nofun
  | .bool _, .arr _ => isFalse nofun
  | .bool _, .obj _ => isFalse nofun
  | .number _, .null => isFalse nofun
  | .number _, .bool _ => isFalse nofun
  | .number _, .str _ => isFalse nofun
  | .number _, .arr _ => isFalse nofun
  | .number _, .obj _ => isFalse nofun
  | .str _, .null => isFalse nofun
  | .str _, .bool _ => isFalse nofun
  | .str _, .number _ => isFalse nofun
  | .str _, .arr _ => isFalse nofun
  | .str _, .obj _ => isFalse nofun
  | .arr _, .null => isFalse nofun
  | .arr _, .bool _ => isFalse nofun
  | .arr _, .number _ => isFalse nofun
  | .arr _, .str _ => isFalse nofun
  | .arr _, .obj _ => isFalse nofun
  | .obj _, .null => isFalse nofun
  | .obj _, .bool _ => isFalse nofun
  | .obj _, .number _ => isFalse nofun
  | .obj _, .str _ => isFalse nofun
  | .obj _, .arr _ => isFalse nofun

def decEqItems : (a b : List Json) → Decidable (a = b)
  | [], [] => isTrue rfl
  | [], _ :: _ => isFalse nofun
  | _ :: _, [] => isFalse nofun
  | x :: xs, y :: ys =>
    match decEq x y, decEqItems xs ys with
    | isTrue h, isTrue hs => isTrue (by rw [h, hs])
    | isFalse h, _ => isFalse (fun e => h (List.cons.inj e).1)
    | _, isFalse hs => isFalse (fun e => hs (List.cons.inj e).2)

def decEqFields : (a b : List (String × Json)) → Decidable (a = b)
  | [], [] => isTrue rfl
  | [], _ :: _ => isFalse nofun
  | _ :: _, [] => isFalse nofun
  | (k, x) :: xs, (l, y) :: ys =>
    match decEq x y, decEqFields xs ys with
    | isTrue h, isTrue hs =>
      if hk : k = l then isTrue (by rw [h, hs, hk])
      else isFalse (fun e => hk (Prod.mk.inj (List.cons.inj e).1).1)
    | isFalse h, _ => isFalse (fun e => h (Prod.mk.inj (List.cons.inj e).1).2)
    | _, isFalse hs => isFalse (fun e => hs (List.cons.inj e).2)

end

instance : DecidableEq Json := decEq

/-- `bool(value)`. -/
def truthy : Json → Bool
  | .null => false
  | .bool b => b
  | .number (.int n) => n ≠ 0
  | .number (.float q) => q ≠ 0
  | .str s => s ≠ ""
  | .arr items => items ≠ []
  | .obj fields => fields ≠ []

/-- An object as a dictionary of its own, read and assigned by key. -/
abbrev Fields := List (String × Json)

def field? (d : Fields) (k : String) : Option Json :=
  (d.find? (fun p => p.1 == k)).map Prod.snd

def setField (d : Fields) (k : String) (v : Json) : Fields := Dict.assign k v d

/-- `d.update(e)`: the fields of `e` are assigned one after the other. -/
def setFields (d e : Fields) : Fields := e.foldl (fun acc p => setField acc p.1 p.2) d

/-- The fields of a value, none where it is no object. -/
def fieldsOf : Option Json → Fields
  | some (.obj fields) => fields
  | _ => []

theorem field?_setField (d : Fields) (k k' : String) (v : Json) :
    field? (setField d k v) k' = if k' = k then some v else field? d k' :=
  Dict.lookup_assign k v d k'

theorem mem_setField (d : Fields) (k k' : String) (v v' : Json) :
    (k', v') ∈ setField d k v ↔ (k' = k ∧ v' = v) ∨ (k' ≠ k ∧ (k', v') ∈ d) :=
  Dict.mem_assign k v d k' v'

theorem field?_of_mem {d : Fields} (h : (d.map Prod.fst).Nodup) {p : String × Json} (hp : p ∈ d) :
    field? d p.1 = some p.2 :=
  (Dict.get?_eq_some_iff ⟨d, h⟩ p.1 p.2).mpr hp

theorem mem_of_field? {d : Fields} {k : String} {v : Json} (h : field? d k = some v) : (k, v) ∈ d := by
  obtain ⟨p, hp, rfl⟩ := Option.map_eq_some_iff.mp h
  have hkey : p.1 = k := by simpa using List.find?_some hp
  exact hkey ▸ List.mem_of_find?_eq_some hp

theorem setField_nodup {d : Fields} (h : (d.map Prod.fst).Nodup) (k : String) (v : Json) :
    ((setField d k v).map Prod.fst).Nodup :=
  (Dict.set ⟨d, h⟩ k v).distinct

theorem setField_self_iff (d : Fields) (k : String) (v : Json) :
    setField d k v = d ↔ k ∈ d.map Prod.fst ∧ ∀ w, (k, w) ∈ d → w = v := by
  constructor
  · intro h
    have hmem (w : Json) : (k, w) ∈ d ↔ w = v := by
      rw [← h, mem_setField]
      simp
    exact ⟨List.mem_map.mpr ⟨(k, v), (hmem v).mpr rfl, rfl⟩, fun w hw => (hmem w).mp hw⟩
  · intro h
    rw [setField, Dict.assign, if_pos h.1]
    conv_rhs => rw [← List.map_id d]
    refine List.map_congr_left (fun p hp => ?_)
    by_cases hk : p.1 = k
    · subst hk
      simp [← h.2 p.2 hp]
    · simp [hk]

/-- Fields that all have one value: a key that is not among them keeps its own. -/
theorem field?_setFields_const {e : Fields} {v : Json} (he : ∀ p ∈ e, p.2 = v) (d : Fields)
    (k : String) : field? (setFields d e) k = if (k, v) ∈ e then some v else field? d k := by
  unfold setFields
  induction e generalizing d with
  | nil => simp
  | cons p ps ih =>
    have hp : p.2 = v := he p List.mem_cons_self
    rw [List.foldl_cons, ih (fun q hq => he q (List.mem_cons_of_mem p hq)), field?_setField]
    by_cases hk : k = p.1
    · subst hk
      simp [← hp]
    · have hne : (k, v) ≠ p := fun h => hk (congrArg Prod.fst h)
      simp [hk, hne]

/-- Fields that all have one value take the place of those of their keys. -/
theorem mem_setFields_const {e : Fields} {v : Json} (he : ∀ p ∈ e, p.2 = v) (d : Fields) (k : String)
    (w : Json) : (k, w) ∈ setFields d e ↔
      (k ∈ e.map Prod.fst ∧ w = v) ∨ (k ∉ e.map Prod.fst ∧ (k, w) ∈ d) := by
  induction e generalizing d with
  | nil => simp [setFields]
  | cons p e ih =>
    have hp : p.2 = v := he p List.mem_cons_self
    have hrest := ih (fun q hq => he q (List.mem_cons_of_mem p hq)) (setField d p.1 p.2)
    rw [setFields, List.foldl_cons, ← setFields, hrest, mem_setField]
    by_cases hk : k = p.1 <;> by_cases hin : k ∈ e.map Prod.fst <;> simp_all

theorem setFields_self {e d : Fields} (h : ∀ p ∈ e, setField d p.1 p.2 = d) : setFields d e = d := by
  induction e with
  | nil => simp [setFields]
  | cons p e ih =>
    rw [setFields, List.foldl_cons, h p List.mem_cons_self, ← setFields]
    exact ih (fun q hq => h q (List.mem_cons_of_mem p hq))

end Json

end CheshireCat.Base
