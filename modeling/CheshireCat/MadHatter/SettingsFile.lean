import CheshireCat.Base.JsonDump
import CheshireCat.Base.Runs
import CheshireCat.Utils.ParseJson

namespace CheshireCat.MadHatter
open Base

/-- A dictionary of settings, with any keys and values. -/
abbrev Settings := Dict PyKey PyValue

/-- What the settings model of a plugin gives: the text of its defaults where each field has one. -/
inductive ModelDefaults where
  | json (text : List Char)
  | validationError
  | raises (error : String)

/-- How `save_settings` ends. -/
inductive SaveEnd where
  | saved (updated : Settings)
  | failed
  | raised (error : String)

variable (numbers : NumberTexts) (model : ModelDefaults)

/-- `json.load` of the file. -/
def readSettings (text : List Char) : Except String Json :=
  match numbers.loads text with
  | some settings => .ok settings
  | none => .error "JSONDecodeError"

/-- `load_settings`, and the file after it. A file that is missing is created from the model. -/
def loadSettings (file : Option (List Char)) : Except String Json × Option (List Char) :=
  match file with
  | some text => (readSettings numbers text, some text)
  | none =>
    match model with
    | .json text => (readSettings numbers text, some text)
    | .validationError => (.ok (.obj []), none)
    | .raises error => (.error error, none)

def settingsOf (fields : Json.Fields) : Settings := .ofList (Json.fieldsToPy fields)

/-- `save_settings`, and the file after it. The file is emptied before the first piece is written. -/
def saveSettings (file : Option (List Char)) (settings : Settings) : SaveEnd × Option (List Char) :=
  match loadSettings numbers model file with
  | (.error error, file) => (.raised error, file)
  | (.ok (.obj oldSettings), _) =>
    let updatedSettings := (settingsOf oldSettings).update settings
    let written := (PyValue.dict updatedSettings.entries).write numbers 0
    (if written.2 then .saved updatedSettings else .failed, some (textOf written.1))
  | (.ok _, file) => (.raised "TypeError", file)

/-- The file, and the settings as the calls that succeeded updated them. -/
abbrev Stored := Option (List Char) × Settings

def saveCall (s : Stored) (settings : Settings) : Option Stored :=
  match saveSettings numbers model s.1 settings with
  | (.saved _, file) => some (file, s.2.update settings)
  | (_, file) => some (file, s.2)

/-- The settings are loaded, and are those of the calls that succeeded. -/
def LoadsStored (s : Stored) : Prop :=
  ∃ v, (loadSettings numbers model s.1).1 = .ok v ∧ v.toPy = .dict s.2.entries

/-- JSON has the dictionary as it is. -/
def IsJson (settings : Settings) : Prop :=
  ∃ fields, settings.entries = Json.fieldsToPy fields ∧ (Json.obj fields).distinct = true

variable {numbers model}

theorem field_to_py_keys (fields : Json.Fields) :
    (fields.map fieldToPy).map Prod.fst = (fields.map Prod.fst).map PyKey.str := by
  rw [List.map_map, List.map_map]
  rfl

/-- An assignment of a value of JSON. -/
theorem assign_field (k : String) (v : Json) (fields : Json.Fields) :
    Dict.assign (.str k) v.toPy (fields.map fieldToPy) = (Json.setField fields k v).map fieldToPy := by
  have hmem : PyKey.str k ∈ (fields.map fieldToPy).map Prod.fst ↔ k ∈ fields.map Prod.fst := by
    rw [field_to_py_keys, List.mem_map]
    exact ⟨fun ⟨_, hk, heq⟩ => PyKey.str.inj heq ▸ hk, fun hk => ⟨k, hk, rfl⟩⟩
  unfold Json.setField Dict.assign
  by_cases hk : k ∈ fields.map Prod.fst
  · rw [if_pos hk, if_pos (hmem.mpr hk), List.map_map, List.map_map]
    apply List.map_congr_left
    intro p _
    change (if PyKey.str p.1 = .str k then _ else _) = fieldToPy (if p.1 = k then (k, v) else p)
    by_cases hp : p.1 = k
    · rw [if_pos hp, if_pos (congrArg _ hp)]
      rfl
    · rw [if_neg hp, if_neg (fun h => hp (PyKey.str.inj h))]
  · rw [if_neg hk, if_neg (fun h => hk (hmem.mp h)), List.map_append]
    rfl

theorem assign_fields {s : Settings} {fields : Json.Fields} (hs : s.entries = fields.map fieldToPy)
    (fields' : Json.Fields) : ((fields'.map fieldToPy).foldl (fun acc p => acc.set p.1 p.2) s).entries =
      (Json.setFields fields fields').map fieldToPy := by
  induction fields' generalizing s fields with
  | nil => exact hs
  | cons p fields' ih =>
    rw [List.map_cons, List.foldl_cons]
    apply ih
    change Dict.assign _ _ s.entries = _
    rw [hs]
    exact assign_field p.1 p.2 fields

theorem update_fields {s t : Settings} {fields fields' : Json.Fields} (hs : s.entries = fields.map fieldToPy)
    (ht : t.entries = fields'.map fieldToPy) :
    (s.update t).entries = (Json.setFields fields fields').map fieldToPy := by
  rw [Dict.update, ht]
  exact assign_fields hs fields'

theorem settings_of_entries {fields : Json.Fields} (h : (Json.obj fields).distinct = true) :
    (settingsOf fields).entries = fields.map fieldToPy := by
  have hnew : Json.setFields [] fields = fields :=
    Json.set_fields_new ((Json.distinct_object_iff fields).mp h).1
  have hempty : (Dict.empty : Settings).entries = ([] : Json.Fields).map fieldToPy := rfl
  rw [settingsOf, Dict.ofList, Json.fields_to_py, assign_fields hempty, hnew]

/-- What a dictionary is updated with is in it. -/
theorem mem_update {s t : Settings} {e : PyKey × PyValue} (h : e ∈ t.entries) : e ∈ (s.update t).entries := by
  rw [Dict.update]
  have hkeys := t.distinct
  generalize t.entries = entries at h hkeys
  induction entries generalizing s with
  | nil => cases h
  | cons p entries ih =>
    rw [List.map_cons, List.nodup_cons] at hkeys
    rw [List.foldl_cons]
    rcases List.mem_cons.mp h with rfl | h
    · rw [← Dict.get?_eq_some_iff]
      refine (Dict.get?_foldl_set_other Prod.fst Prod.snd ?_).trans (Dict.get?_set_self _ _ _)
      intro p hp heq
      exact hkeys.1 (heq ▸ List.mem_map_of_mem hp)
    · exact ih h hkeys.2

/-! ### One call -/

theorem read_distinct {text : List Char} {v : Json} (h : readSettings numbers text = .ok v) : v.distinct = true := by
  unfold readSettings at h
  cases hloads : numbers.loads text with
  | none =>
    rw [hloads] at h
    cases h
  | some v' =>
    rw [hloads] at h
    exact Except.ok.inj h ▸ loads_distinct hloads

theorem load_distinct {file : Option (List Char)} {v : Json} (h : (loadSettings numbers model file).1 = .ok v) :
    v.distinct = true := by
  unfold loadSettings at h
  cases file with
  | some text => exact read_distinct h
  | none =>
    cases model with
    | json text => exact read_distinct h
    | validationError =>
      cases h
      rfl
    | raises error => cases h

/-- What is loaded is an object, and its fields are the settings. -/
theorem loads_stored_iff (s : Stored) : LoadsStored numbers model s ↔ ∃ fields,
    (loadSettings numbers model s.1).1 = .ok (.obj fields) ∧ (Json.obj fields).distinct = true ∧
      s.2.entries = fields.map fieldToPy := by
  constructor
  · rintro ⟨v, hload, hv⟩
    cases v with
    | obj fields =>
      refine ⟨fields, hload, load_distinct hload, ?_⟩
      rw [← Json.fields_to_py]
      exact (PyValue.dict.inj hv).symm
    | _ => cases hv
  · rintro ⟨fields, hload, _, hentries⟩
    refine ⟨.obj fields, hload, ?_⟩
    rw [hentries, ← Json.fields_to_py]
    rfl

/-- Where the settings are loaded, a call writes them with what it updates them with. -/
theorem save_call_written {s : Stored} (h : LoadsStored numbers model s) (settings : Settings) :
    let written := (PyValue.dict (s.2.update settings).entries).write numbers 0
    saveCall numbers model s settings =
      some (some (textOf written.1), if written.2 then s.2.update settings else s.2) := by
  intro written
  obtain ⟨file, stored⟩ := s
  obtain ⟨fields, hload, hdistinct, hentries⟩ := (loads_stored_iff _).mp h
  have hstored : settingsOf fields = stored := Dict.ext ((settings_of_entries hdistinct).trans hentries.symm)
  have hsave : saveSettings numbers model file settings =
      (if written.2 then .saved (stored.update settings) else .failed, some (textOf written.1)) := by
    unfold saveSettings
    generalize loadSettings numbers model file = loaded at hload
    obtain ⟨result, file'⟩ := loaded
    dsimp only at hload
    rw [hload, ← hstored]
    subst hstored
    rfl
  rw [saveCall, hsave]
  cases written.2 <;> rfl

theorem save_json {s : Stored} (h : LoadsStored numbers model s) {settings : Settings} (hjson : IsJson settings) :
    ∃ t, saveCall numbers model s settings = some t ∧ LoadsStored numbers model t := by
  obtain ⟨fields, _, hdistinct, hentries⟩ := (loads_stored_iff _).mp h
  obtain ⟨fields', hsettings, hdistinct'⟩ := hjson
  rw [Json.fields_to_py] at hsettings
  have hmerged : (Json.obj (Json.setFields fields fields')).distinct = true :=
    Json.set_fields_distinct hdistinct ((Json.distinct_object_iff fields').mp hdistinct').2
  have hdict : PyValue.dict (s.2.update settings).entries = (Json.obj (Json.setFields fields fields')).toPy := by
    rw [update_fields hentries hsettings, ← Json.fields_to_py]
    rfl
  have hwritten : ((Json.obj (Json.setFields fields fields')).toPy.write numbers 0).2 = true ∧
      numbers.loads (textOf ((Json.obj (Json.setFields fields fields')).toPy.write numbers 0).1) =
        some (.obj (Json.setFields fields fields')) := loads_write hmerged 0
  have hcall := save_call_written h settings
  dsimp only at hcall
  rw [hdict, hwritten.1, if_pos rfl] at hcall
  refine ⟨_, hcall, .obj (Json.setFields fields fields'), ?_, hdict.symm⟩
  rw [loadSettings, readSettings, hwritten.2]

theorem json_of_loaded {s t : Stored} (h : LoadsStored numbers model s) {settings : Settings}
    (hcall : saveCall numbers model s settings = some t) (ht : LoadsStored numbers model t) : IsJson settings := by
  rw [save_call_written h settings] at hcall
  cases hcomplete : ((PyValue.dict (s.2.update settings).entries).write numbers 0).2 with
  | false =>
    rw [hcomplete] at hcall
    cases hcall
    obtain ⟨v, hload, _⟩ := ht
    rw [loadSettings, readSettings, unfinished_unreadable hcomplete] at hload
    cases hload
  | true =>
    rw [hcomplete, if_pos rfl] at hcall
    cases hcall
    obtain ⟨fields, _, hdistinct, hentries⟩ := (loads_stored_iff _).mp ht
    apply entries_of_json settings.distinct
    intro e he
    have hmem : e ∈ (s.2.update settings).entries := mem_update he
    rw [hentries] at hmem
    obtain ⟨p, hp, rfl⟩ := List.mem_map.mp hmem
    exact ⟨p, rfl, ((Json.distinct_object_iff fields).mp hdistinct).2 p hp⟩

/-! ### Sequences of calls -/

theorem meets_json (s : Stored) (calls : List Settings) :
    Meets (saveCall numbers model) (fun _ settings => IsJson settings) s calls ↔ ∀ settings ∈ calls, IsJson settings := by
  induction calls generalizing s with
  | nil => exact iff_of_true trivial (fun _ h => absurd h List.not_mem_nil)
  | cons settings calls ih =>
    rw [List.forall_mem_cons]
    apply and_congr_right'
    have htotal : ∃ t, saveCall numbers model s settings = some t := by
      unfold saveCall
      split <;> exact ⟨_, rfl⟩
    obtain ⟨t, ht⟩ := htotal
    constructor
    · intro h
      exact (ih t).mp (h t ht)
    · intro h u _
      exact (ih u).mpr h

/-- From settings that are loaded, every call of a sequence leaves the settings loaded, updated by the
calls that succeeded, exactly where JSON has all the dictionaries as they are. -/
theorem settings_survive_iff (file : Option (List Char)) (fields : Json.Fields) (calls : List Settings)
    (h : (loadSettings numbers model file).1 = .ok (.obj fields)) :
    (∀ done, done <+: calls → ∀ t, run (saveCall numbers model) (file, settingsOf fields) done = some t →
      LoadsStored numbers model t) ↔ ∀ settings ∈ calls, IsJson settings := by
  have hdistinct := load_distinct h
  have hstart : LoadsStored numbers model (file, settingsOf fields) :=
    (loads_stored_iff _).mpr ⟨fields, h, hdistinct, settings_of_entries hdistinct⟩
  refine (keeps_iff_meets ?_ hstart).trans (meets_json _ calls)
  intro s settings hs
  constructor
  · intro hjson t ht
    obtain ⟨t', ht', hloads⟩ := save_json hs hjson
    rw [ht] at ht'
    exact Option.some.inj ht' ▸ hloads
  · intro hall
    have hcall := save_call_written hs settings
    exact json_of_loaded hs hcall (hall _ hcall)

def oneSetting (value : PyValue) : Settings := ⟨[(.str "a", value)], List.nodup_singleton _⟩

theorem one_setting_survives :
    (loadSettings Utils.plainNumbers .validationError none).1 = .ok (.obj []) ∧
    ∀ done, done <+: [oneSetting (.number (.int 42))] → ∀ t,
      run (saveCall Utils.plainNumbers .validationError) (none, settingsOf []) done = some t →
      LoadsStored Utils.plainNumbers .validationError t :=
  ⟨rfl, (settings_survive_iff none [] [oneSetting (.number (.int 42))] rfl).mpr (fun _ hsettings =>
    List.mem_singleton.mp hsettings ▸ ⟨[("a", .number (.int 42))], rfl, by decide⟩)⟩

/-- A value that JSON does not have leaves the start of a text, and no settings are loaded from it. -/
theorem object_breaks_file :
    run (saveCall Utils.plainNumbers .validationError) (none, settingsOf []) [oneSetting .other] =
      some (some "\x7b\n    \"a\": ".toList, settingsOf []) ∧
    (loadSettings Utils.plainNumbers .validationError (some "\x7b\n    \"a\": ".toList)).1.toOption = none ∧
    ¬ ∀ done, done <+: [oneSetting .other] → ∀ t,
      run (saveCall Utils.plainNumbers .validationError) (none, settingsOf []) done = some t →
      LoadsStored Utils.plainNumbers .validationError t := by
  have hrun : run (saveCall Utils.plainNumbers .validationError) (none, settingsOf []) [oneSetting .other] =
      some (some "\x7b\n    \"a\": ".toList, settingsOf []) := by rfl
  have hload : (loadSettings Utils.plainNumbers .validationError
      (some "\x7b\n    \"a\": ".toList)).1.toOption = none := by decide +kernel
  refine ⟨hrun, hload, ?_⟩
  intro h
  obtain ⟨v, hv, _⟩ := h _ (List.prefix_refl _) _ hrun
  rw [hv] at hload
  cases hload

end CheshireCat.MadHatter
