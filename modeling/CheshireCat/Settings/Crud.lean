import CheshireCat.Base.Json
import Mathlib.Data.List.Nodup

namespace CheshireCat.Settings
open Base

/-- A record of the settings table. -/
structure Setting where
  settingId : String
  name : String
  value : Json
  category : Option String
  updatedAt : Int
deriving DecidableEq

/-- What a client or a component sends. The identifier and the time are filled in. -/
structure SettingBody where
  name : String
  value : Json
  category : Option String := none
deriving DecidableEq

/-- The records in the order of their insertion. -/
abbrev Db := List Setting

/-- The generated fields: `uuid4()` and the time, at each draw. -/
structure Env where
  uuid4 : Nat → String
  now : Nat → Int

def SettingBody.complete (env : Env) (drawn : Nat) (body : SettingBody) : Setting :=
  ⟨env.uuid4 drawn, body.name, body.value, body.category, env.now drawn⟩

/-- Identifiers of growing length. -/
def countingEnv : Env where
  uuid4 n := String.ofList (List.replicate n 'u')
  now n := n

def getSettingByName (db : Db) (name : String) : Option Setting :=
  db.find? (fun s => s.name = name)

def getSettingById (db : Db) (settingId : String) : Option Setting :=
  db.find? (fun s => s.settingId = settingId)

def createSetting (db : Db) (payload : Setting) : Db := db ++ [payload]

def deleteSettingById (db : Db) (settingId : String) : Db :=
  db.filter (fun s => s.settingId ≠ settingId)

def deleteSettingsByCategory (db : Db) (category : String) : Db :=
  db.filter (fun s => s.category ≠ some category)

/-- All fields of a record that is found are overwritten, its identifier too. -/
def updateSettingById (db : Db) (payload : Setting) : Db :=
  db.map (fun s => if s.settingId = payload.settingId then payload else s)

/-- Every record of that name is overwritten, where there is one. -/
def upsertSettingByName (db : Db) (payload : Setting) : Db :=
  match getSettingByName db payload.name with
  | none => createSetting db payload
  | some _ => db.map (fun s => if s.name = payload.name then payload else s)

theorem name_of_get {db : Db} {name : String} {s : Setting}
    (h : getSettingByName db name = some s) : s.name = name := by
  simpa using List.find?_some h

theorem mem_of_get {db : Db} {name : String} {s : Setting}
    (h : getSettingByName db name = some s) : s ∈ db :=
  List.mem_of_find?_eq_some h

theorem get_none_iff (db : Db) (name : String) :
    getSettingByName db name = none ↔ ∀ s ∈ db, s.name ≠ name := by
  simp [getSettingByName]

theorem get_by_id_isSome_iff (db : Db) (settingId : String) :
    (getSettingById db settingId).isSome ↔ ∃ s ∈ db, s.settingId = settingId := by
  simp [getSettingById]

/-- A name that is there leads to its record, where no name is there twice. -/
theorem get_eq_some_iff {db : Db} (h : (db.map Setting.name).Nodup) (name : String) (s : Setting) :
    getSettingByName db name = some s ↔ s ∈ db ∧ s.name = name := by
  constructor
  · intro hget
    exact ⟨mem_of_get hget, name_of_get hget⟩
  · intro hs
    cases hget : getSettingByName db name with
    | none => exact absurd hs.2 ((get_none_iff db name).mp hget s hs.1)
    | some t =>
      have hname : t.name = s.name := (name_of_get hget).trans hs.2.symm
      rw [List.inj_on_of_nodup_map h (mem_of_get hget) hs.1 hname]

/-- Which records there are after an upsert. -/
theorem mem_upsert_iff (db : Db) (payload s : Setting) :
    s ∈ upsertSettingByName db payload ↔ s = payload ∨ (s ∈ db ∧ s.name ≠ payload.name) := by
  unfold upsertSettingByName
  cases hget : getSettingByName db payload.name with
  | none =>
    have hnone := (get_none_iff db payload.name).mp hget
    rw [createSetting, List.mem_append, List.mem_singleton, or_comm]
    exact or_congr_right ⟨fun hs => ⟨hs, hnone s hs⟩, And.left⟩
  | some old =>
    simp only [List.mem_map]
    constructor
    · intro hx
      obtain ⟨r, hr, rfl⟩ := hx
      by_cases hname : r.name = payload.name
      · exact Or.inl (if_pos hname)
      · rw [if_neg hname]
        exact Or.inr ⟨hr, hname⟩
    · intro hx
      rcases hx with rfl | ⟨hs, hname⟩
      · exact ⟨old, mem_of_get hget, if_pos (name_of_get hget)⟩
      · exact ⟨s, hs, if_neg hname⟩

theorem upsert_new {db : Db} {payload : Setting} (h : ∀ s ∈ db, s.name ≠ payload.name) :
    upsertSettingByName db payload = db ++ [payload] := by
  have hnone := (get_none_iff db payload.name).mpr h
  simp only [upsertSettingByName, hnone, createSetting]

/-- The second record of a new name takes the place of the first. -/
theorem upsert_twice {db : Db} {first payload : Setting} (h : ∀ s ∈ db, s.name ≠ payload.name)
    (hname : first.name = payload.name) :
    upsertSettingByName (upsertSettingByName db first) payload = db ++ [payload] := by
  have hsame : db.map (fun s => if s.name = payload.name then payload else s) = db :=
    (List.map_congr_left (fun s hs => if_neg (h s hs))).trans (List.map_id' db)
  have hfirst : first ∈ db ++ [first] := List.mem_append_right db (List.mem_singleton_self first)
  have hnew : upsertSettingByName db first = db ++ [first] := upsert_new (by rwa [hname])
  rw [hnew]
  cases hget : getSettingByName (db ++ [first]) payload.name with
  | none => exact absurd hname ((get_none_iff _ _).mp hget first hfirst)
  | some old =>
    simp only [upsertSettingByName, hget, List.map_append, hsame, List.map_singleton, if_pos hname]

/-- Which records there are after an update of one that is there. -/
theorem mem_update_iff {db : Db} {payload : Setting}
    (h : ∃ s ∈ db, s.settingId = payload.settingId) (s : Setting) :
    s ∈ updateSettingById db payload ↔
      s = payload ∨ (s ∈ db ∧ s.settingId ≠ payload.settingId) := by
  unfold updateSettingById
  rw [List.mem_map]
  constructor
  · intro hx
    obtain ⟨r, hr, rfl⟩ := hx
    by_cases hid : r.settingId = payload.settingId
    · exact Or.inl (if_pos hid)
    · rw [if_neg hid]
      exact Or.inr ⟨hr, hid⟩
  · intro hx
    rcases hx with rfl | ⟨hs, hid⟩
    · obtain ⟨r, hr, hid⟩ := h
      exact ⟨r, hr, if_pos hid⟩
    · exact ⟨s, hs, if_neg hid⟩

end CheshireCat.Settings
