import CheshireCat.Settings.Crud

namespace CheshireCat.Settings
open Base Json

def embedderSelectedCategory : String := "embedder"
def embedderCategory : String := "embedder_factory"
def embedderSelectedName : String := "embedder_selected"

def llmSelectedCategory : String := "llm"
def llmCategory : String := "llm_factory"
def llmSelectedName : String := "llm_selected"

/-- The configurations that are supported, and how loading ends with the settings of a
database: the error, where it raises. -/
structure Cat where
  embedders : List String
  llms : List String
  loadNaturalLanguage : Db → Option String
  loadMemory : Db → Option String

inductive ModelError where
  | notSupported (name : String) (allowed : List String)
  | raised (error : String)
  | changing (error : String)

/-- The name and the value of the configuration, or the error, and the database. -/
abbrev Answer := Except ModelError (String × Json) × Db

/-- The two upserts that save and select a configuration. -/
def selectConfiguration (env : Env) (db : Db) (category selectedCategory selectedName name : String)
    (payload : Json) : Db :=
  let db := upsertSettingByName db (SettingBody.complete env 0 ⟨name, payload, some category⟩)
  upsertSettingByName db
    (SettingBody.complete env 1 ⟨selectedName, .obj [("name", .str name)], some selectedCategory⟩)

def selectEmbedder (env : Env) (db : Db) (name : String) (payload : Json) : Db :=
  selectConfiguration env db embedderCategory embedderSelectedCategory embedderSelectedName name payload

def selectLlm (env : Env) (db : Db) (name : String) (payload : Json) : Db :=
  selectConfiguration env db llmCategory llmSelectedCategory llmSelectedName name payload

/-- `setting["value"]["name"]`. -/
def Setting.valueName (s : Setting) : Option Json := field? (fieldsOf (some s.value)) "name"

/-- What the embedder route remembers before it writes. A name that is no string finds no
setting, and a value without a name raises. -/
inductive Selection where
  | unselected
  | unreadable
  | selected (name : Json) (current : Option Setting)

def selection (db : Db) : Selection :=
  match getSettingByName db embedderSelectedName with
  | none => .unselected
  | some s =>
    match s.valueName with
    | none => .unreadable
    | some (.str name) => .selected (.str name) (getSettingByName db name)
    | some name => .selected name none

/-- The selected configuration is saved and selected again. It raises where there is none. -/
def restoreSelected (env : Env) (db : Db) : Selection → Option Db
  | .selected (.str name) (some current) =>
    let db := upsertSettingByName db
      (SettingBody.complete env 2 ⟨name, current.value, some embedderCategory⟩)
    some (upsertSettingByName db (SettingBody.complete env 3
      ⟨embedderSelectedName, .obj [("name", .str name)], some embedderSelectedCategory⟩))
  | .selected _ _ => none
  | _ => some db

def upsertEmbedderSetting (cat : Cat) (env : Env) (db : Db) (name : String) (payload : Json) :
    Answer :=
  if name ∉ cat.embedders then (.error (.notSupported name cat.embedders), db)
  else match selection db with
    | .unreadable => (.error (.raised "KeyError"), db)
    | before =>
      let changed := selectEmbedder env db name payload
      match cat.loadNaturalLanguage changed with
      | some error => (.error (.raised error), changed)
      | none =>
        match cat.loadMemory changed with
        | none => (.ok (name, payload), changed)
        | some error =>
          let cleared := deleteSettingsByCategory
            (deleteSettingsByCategory changed embedderSelectedCategory) embedderCategory
          match restoreSelected env cleared before with
          | none => (.error (.raised "TypeError"), cleared)
          | some restored =>
            match before, cat.loadNaturalLanguage restored with
            | .selected _ _, some error => (.error (.raised error), restored)
            | _, _ => (.error (.changing error), restored)

/-- Nothing is restored here. -/
def upsertLlmSetting (cat : Cat) (env : Env) (db : Db) (name : String) (payload : Json) : Answer :=
  if name ∉ cat.llms then (.error (.notSupported name cat.llms), db)
  else
    let changed := selectLlm env db name payload
    match cat.loadNaturalLanguage changed with
    | some error => (.error (.raised error), changed)
    | none =>
      match cat.loadMemory changed with
      | none => (.ok (name, payload), changed)
      | some error =>
        (.error (.changing error), deleteSettingsByCategory
          (deleteSettingsByCategory changed llmSelectedCategory) llmCategory)

inductive ModelRequest where
  | embedder (name : String) (payload : Json)
  | llm (name : String) (payload : Json)

def ModelRequest.serve (cat : Cat) (env : Env) (db : Db) : ModelRequest → Answer
  | .embedder name payload => upsertEmbedderSetting cat env db name payload
  | .llm name payload => upsertLlmSetting cat env db name payload

/-- The request gets as far as `load_memory`, which raises. -/
def ModelRequest.MemoryRaises (cat : Cat) (env : Env) (db : Db) : ModelRequest → Prop
  | .embedder name payload =>
    name ∈ cat.embedders ∧ selection db ≠ .unreadable ∧
      cat.loadNaturalLanguage (selectEmbedder env db name payload) = none ∧
      (cat.loadMemory (selectEmbedder env db name payload)).isSome
  | .llm name payload =>
    name ∈ cat.llms ∧ cat.loadNaturalLanguage (selectLlm env db name payload) = none ∧
      (cat.loadMemory (selectLlm env db name payload)).isSome

/-! ### The saved configuration -/

def embedderCategories : List String := [embedderSelectedCategory, embedderCategory]
def llmCategories : List String := [llmSelectedCategory, llmCategory]

/-- Category, name and value. -/
abbrev Entry := String × String × Json

def Setting.isIn (s : Setting) (categories : List String) : Bool :=
  s.category.any (fun c => c ∈ categories)

def Setting.entry? (s : Setting) : Option Entry :=
  s.category.bind (fun c =>
    if c ∈ embedderCategories ++ llmCategories then some (c, s.name, s.value) else none)

/-- The settings of the models, as they matter. -/
def configuration (db : Db) : List Entry := db.filterMap Setting.entry?

def selectedModel (db : Db) (selectedName : String) : Option Json :=
  (getSettingByName db selectedName).bind Setting.valueName

def ModelRequest.selectedName : ModelRequest → String
  | .embedder _ _ => embedderSelectedName
  | .llm _ _ => llmSelectedName

/-- The settings of all models are the ones before the request, and so is the selected one. -/
def LeavesConfiguration (r : ModelRequest) (db t : Db) : Prop :=
  (configuration t).Perm (configuration db) ∧
    selectedModel t r.selectedName = selectedModel db r.selectedName

theorem entry_some_of {s : Setting} {c : String} (h : s.category = some c)
    (hc : c ∈ embedderCategories ++ llmCategories) : s.entry? = some (c, s.name, s.value) := by
  rw [Setting.entry?, h, Option.bind_some, if_pos hc]

theorem entry_category {s : Setting} {e : Entry} (h : s.entry? = some e) (cs : List String) :
    s.isIn cs = decide (e.1 ∈ cs) := by
  cases hc : s.category with
  | none => simp [Setting.entry?, hc] at h
  | some c =>
    rw [Setting.entry?, hc, Option.bind_some] at h
    split at h
    · cases h
      simp [Setting.isIn, hc]
    · cases h

theorem configuration_filter_congr {db : Db} {p q : Setting → Bool}
    (h : ∀ s ∈ db, s.entry?.isSome → p s = q s) :
    configuration (db.filter p) = configuration (db.filter q) := by
  unfold configuration
  rw [List.filterMap_filter, List.filterMap_filter]
  apply List.filterMap_congr
  intro s hs
  cases he : s.entry? with
  | none => simp
  | some e =>
    have hpq := h s hs (by rw [he]; rfl)
    rw [hpq]

/-- The entries of some of the categories. -/
theorem configuration_filter (db : Db) (cs : List String) :
    (configuration db).filter (fun e => e.1 ∈ cs) = configuration (db.filter (fun s => s.isIn cs)) := by
  unfold configuration
  rw [List.filter_filterMap, List.filterMap_filter]
  apply List.filterMap_congr
  intro s _
  cases he : s.entry? with
  | none => simp
  | some e =>
    rw [entry_category he cs]
    by_cases hc : e.1 ∈ cs <;> simp [hc]

theorem configuration_overwrite (db : Db) {payload : Setting} {e : Entry}
    (he : payload.entry? = some e) :
    (configuration (db.map (fun s => if s.name = payload.name then payload else s))).Perm
      (configuration (db.filter (fun s => s.name ≠ payload.name)) ++
        List.replicate (db.countP (fun s => s.name = payload.name)) e) := by
  induction db with
  | nil => exact List.Perm.refl _
  | cons s db ih =>
    by_cases hs : s.name = payload.name
    · simp only [List.map_cons, hs, if_true, configuration, List.filterMap_cons, he,
        List.countP_cons, decide_true, List.filter_cons, ne_eq, not_true_eq_false, decide_false,
        List.replicate_succ]
      exact (ih.cons e).trans List.perm_middle.symm
    · simp only [List.map_cons, hs, if_false, configuration, List.filterMap_cons,
        List.countP_cons, List.filter_cons, ne_eq, not_false_eq_true, decide_true, decide_false,
        if_true]
      cases s.entry? with
      | none => exact ih
      | some f => exact ih.cons f

/-- An upsert leaves one entry for every record of its name, and one where there was none. -/
theorem configuration_upsert (db : Db) {payload : Setting} {e : Entry}
    (he : payload.entry? = some e) :
    (configuration (upsertSettingByName db payload)).Perm
      (configuration (db.filter (fun s => s.name ≠ payload.name)) ++
        List.replicate (max 1 (db.countP (fun s => s.name = payload.name))) e) := by
  unfold upsertSettingByName
  cases hget : getSettingByName db payload.name with
  | none =>
    have hnone := (get_none_iff db payload.name).mp hget
    have hcount : db.countP (fun s => s.name = payload.name) = 0 := by
      simpa [List.countP_eq_zero] using hnone
    have hfilter : db.filter (fun s => s.name ≠ payload.name) = db := by
      simpa [List.filter_eq_self] using hnone
    rw [hcount, hfilter]
    simp [createSetting, configuration, he]
  | some old =>
    have hpos : 0 < db.countP (fun s => s.name = payload.name) := by
      rw [List.countP_pos_iff]
      exact ⟨old, mem_of_get hget, decide_eq_true (name_of_get hget)⟩
    rw [Nat.max_eq_right hpos]
    exact configuration_overwrite db he

theorem delete_overwrite (db : Db) {payload : Setting} {c : String} (h : payload.category = some c) :
    deleteSettingsByCategory (db.map (fun s => if s.name = payload.name then payload else s)) c =
      deleteSettingsByCategory (db.filter (fun s => s.name ≠ payload.name)) c := by
  unfold deleteSettingsByCategory
  induction db with
  | nil => rfl
  | cons s db ih =>
    by_cases hs : s.name = payload.name
    · simpa [hs, h] using ih
    · by_cases hc : s.category = some c <;> simpa [hs, hc] using ih

/-- Once its category is deleted, an upsert has only removed the records of its name. -/
theorem delete_upsert (db : Db) {payload : Setting} {c : String} (h : payload.category = some c) :
    deleteSettingsByCategory (upsertSettingByName db payload) c =
      deleteSettingsByCategory (db.filter (fun s => s.name ≠ payload.name)) c := by
  unfold upsertSettingByName
  cases hget : getSettingByName db payload.name with
  | none =>
    have hnone := (get_none_iff db payload.name).mp hget
    have hfilter : db.filter (fun s => s.name ≠ payload.name) = db := by
      simpa [List.filter_eq_self] using hnone
    rw [hfilter]
    simp [createSetting, deleteSettingsByCategory, h]
  | some old => exact delete_overwrite db h

/-- The records that the two upserts and the two deletions leave. -/
def untouched (db : Db) (categories : List String) (names : List String) : Db :=
  db.filter (fun s => !s.isIn categories && s.name ∉ names)

theorem cleared_eq (env : Env) (db : Db) (category selectedCategory selectedName name : String)
    (payload : Json) :
    deleteSettingsByCategory (deleteSettingsByCategory
        (selectConfiguration env db category selectedCategory selectedName name payload)
        selectedCategory) category =
      untouched db [selectedCategory, category] [name, selectedName] := by
  have hcomm (l : Db) (c : String) (p : Setting → Bool) :
      deleteSettingsByCategory (l.filter p) c = (deleteSettingsByCategory l c).filter p := by
    simp [deleteSettingsByCategory, List.filter_filter, Bool.and_comm]
  have hswap (l : Db) (c c' : String) : deleteSettingsByCategory (deleteSettingsByCategory l c) c' =
      deleteSettingsByCategory (deleteSettingsByCategory l c') c := by
    simp [deleteSettingsByCategory, List.filter_filter, Bool.and_comm]
  unfold selectConfiguration
  simp only []
  rw [delete_upsert _ rfl, hcomm, hcomm, hswap, delete_upsert _ rfl, hcomm, hcomm]
  simp only [deleteSettingsByCategory, untouched, List.filter_filter]
  apply List.filter_congr
  intro s _
  cases hc : s.category with
  | none => grind [Setting.isIn, SettingBody.complete]
  | some c => grind [Setting.isIn, SettingBody.complete]

/-- The categories of one model, and those of the other. -/
structure Split (own others : List String) : Prop where
  cover : ∀ c, c ∈ embedderCategories ++ llmCategories ↔ c ∈ own ∨ c ∈ others
  disjoint : ∀ c ∈ own, c ∉ others

theorem split_embedder : Split embedderCategories llmCategories :=
  ⟨fun _ => List.mem_append, by decide⟩

theorem split_llm : Split llmCategories embedderCategories :=
  ⟨fun _ => List.mem_append.trans or_comm, by decide⟩

/-- No setting of the other model has one of the names, and the settings of the own model are
the ones that are restored. -/
structure OnlySaved (db : Db) (own others names : List String) (restored : List Entry) : Prop where
  others : ∀ s ∈ db, s.isIn others = true → s.name ∉ names
  own : (configuration (db.filter (fun s => s.isIn own))).Perm restored

section Perm

variable {db : Db} {own others names : List String} {restored t : List Entry}

theorem entry_mem_categories {e : Entry} (h : e ∈ configuration db) :
    e.1 ∈ embedderCategories ++ llmCategories := by
  obtain ⟨s, _, hs⟩ := List.mem_filterMap.mp h
  cases hc : s.category with
  | none => simp [Setting.entry?, hc] at hs
  | some c =>
    rw [Setting.entry?, hc, Option.bind_some] at hs
    split at hs
    · rename_i hmem
      cases hs
      exact hmem
    · cases hs

theorem configuration_parts (hsplit : Split own others) (db : Db) :
    (configuration (db.filter (fun s => s.isIn others)) ++
      configuration (db.filter (fun s => s.isIn own))).Perm (configuration db) := by
  rw [← configuration_filter, ← configuration_filter]
  refine List.Perm.trans ?_ (List.filter_append_perm (fun e => decide (e.1 ∈ others)) (configuration db))
  refine List.Perm.append_left _ (List.Perm.of_eq (List.filter_congr ?_))
  intro e he
  have hcover := (hsplit.cover e.1).mp (entry_mem_categories he)
  by_cases hown : e.1 ∈ own
  · simp [hown, hsplit.disjoint e.1 hown]
  · simp [hown, hcover.resolve_left hown]

theorem isIn_entry (hsplit : Split own others) {s : Setting} (h : s.isIn others = true) :
    s.entry?.isSome := by
  cases hc : s.category with
  | none => simp [Setting.isIn, hc] at h
  | some c =>
    have hmem : c ∈ others := by simpa [Setting.isIn, hc] using h
    rw [entry_some_of hc ((hsplit.cover c).mpr (Or.inr hmem))]
    rfl

theorem not_isIn_both (hsplit : Split own others) {s : Setting} (hown : s.isIn own = true) :
    ¬ s.isIn others = true := by
  cases hc : s.category with
  | none => simp [Setting.isIn, hc] at hown
  | some c =>
    have hmem : c ∈ own := by simpa [Setting.isIn, hc] using hown
    simpa [Setting.isIn, hc] using hsplit.disjoint c hmem

/-- Every setting of these categories has its entry. -/
theorem configuration_length (hsplit : Split own others) {l : Db}
    (h : ∀ s ∈ l, s.isIn others = true) : (configuration l).length = l.length := by
  induction l with
  | nil => rfl
  | cons s l ih =>
    obtain ⟨e, he⟩ := Option.isSome_iff_exists.mp (isIn_entry hsplit (h s List.mem_cons_self))
    rw [configuration, List.filterMap_cons_some he, List.length_cons, List.length_cons]
    exact congrArg Nat.succ (ih (fun q hq => h q (List.mem_cons_of_mem s hq)))

/-- Where the settings that are left are those of the other model without some names, and the
restored ones, they are the former settings exactly when only these were saved. -/
theorem configuration_kept_iff (hsplit : Split own others)
    (ht : t.Perm (configuration (db.filter (fun s => s.isIn others && s.name ∉ names)) ++ restored))
    (hrestored : ∀ e ∈ restored, e.1 ∈ own) :
    t.Perm (configuration db) ↔ OnlySaved db own others names restored := by
  constructor
  · intro hp
    let kept := (db.filter (fun s => s.isIn others)).filter (fun s => s.name ∉ names)
    have hkept : db.filter (fun s => s.isIn others && s.name ∉ names) = kept :=
      (List.filter_congr (fun s _ => Bool.and_comm _ _)).trans List.filter_filter.symm
    have hin : ∀ s ∈ kept, s.isIn others = true :=
      fun s hs => (List.mem_filter.mp (List.mem_of_mem_filter hs)).2
    rw [hkept] at ht
    have hall := ht.symm.trans hp
    constructor
    · have hfilter := hall.filter (fun e => e.1 ∈ others)
      have hnone : restored.filter (fun e => e.1 ∈ others) = [] := by
        rw [List.filter_eq_nil_iff]
        intro e he
        simpa using hsplit.disjoint e.1 (hrestored e he)
      rw [List.filter_append, hnone, List.append_nil, configuration_filter, configuration_filter,
        List.filter_eq_self.mpr hin] at hfilter
      have hlength := hfilter.length_eq
      rw [configuration_length hsplit hin,
        configuration_length hsplit (fun s hs => (List.mem_filter.mp hs).2)] at hlength
      intro s hs hother
      have hname := List.length_filter_eq_length_iff.mp hlength s (List.mem_filter.mpr ⟨hs, hother⟩)
      exact of_decide_eq_true hname
    · have hfilter := hall.filter (fun e => e.1 ∈ own)
      have hself : restored.filter (fun e => e.1 ∈ own) = restored := by
        rw [List.filter_eq_self]
        exact fun e he => decide_eq_true (hrestored e he)
      have hnone : kept.filter (fun s => s.isIn own) = [] := by
        rw [List.filter_eq_nil_iff]
        intro s hs hown
        exact not_isIn_both hsplit hown (hin s hs)
      rw [List.filter_append, hself, configuration_filter, configuration_filter, hnone] at hfilter
      exact hfilter.symm
  · intro h
    have hnames : db.filter (fun s => s.isIn others && s.name ∉ names) =
        db.filter (fun s => s.isIn others) := by
      apply List.filter_congr
      intro s hs
      cases hin : s.isIn others with
      | false => rfl
      | true => simpa using h.others s hs hin
    rw [hnames] at ht
    exact ht.trans ((h.own.symm.append_left _).trans (configuration_parts hsplit db))

theorem configuration_untouched (hsplit : Split own others) (db : Db) (names : List String) :
    configuration (untouched db own names) =
      configuration (db.filter (fun s => s.isIn others && s.name ∉ names)) := by
  apply configuration_filter_congr
  intro s _ hs
  have hin : s.isIn own = true ∨ s.isIn others = true := by
    obtain ⟨e, he⟩ := Option.isSome_iff_exists.mp hs
    rw [entry_category he, entry_category he, decide_eq_true_eq, decide_eq_true_eq]
    apply (hsplit.cover e.1).mp
    have hmem : e ∈ configuration [s] := List.mem_filterMap.mpr ⟨s, List.mem_singleton_self s, he⟩
    exact entry_mem_categories hmem
  rcases hin with hown | hother
  · simp [hown, not_isIn_both hsplit hown]
  · have hown : s.isIn own = false := by
      cases hown : s.isIn own with
      | false => rfl
      | true => exact absurd hother (not_isIn_both hsplit hown)
    simp [hown, hother]

/-- Where nothing is restored. -/
theorem cleared_kept_iff (hsplit : Split own others) (db : Db) (names : List String) :
    (configuration (untouched db own names)).Perm (configuration db) ↔
      OnlySaved db own others names [] := by
  have hparts := (configuration_untouched hsplit db names).trans (List.append_nil _).symm
  exact configuration_kept_iff hsplit (List.Perm.of_eq hparts) (fun e he => absurd he List.not_mem_nil)

end Perm

/-! ### Requests that fail -/

theorem get_upsert (db : Db) (payload : Setting) :
    getSettingByName (upsertSettingByName db payload) payload.name = some payload := by
  cases hget : getSettingByName (upsertSettingByName db payload) payload.name with
  | none =>
    have hnone := (get_none_iff _ _).mp hget payload ((mem_upsert_iff db payload payload).mpr (Or.inl rfl))
    exact absurd rfl hnone
  | some s =>
    rcases (mem_upsert_iff db payload s).mp (mem_of_get hget) with rfl | hs
    · rfl
    · exact absurd (name_of_get hget) hs.2

theorem untouched_get {db : Db} {categories names : List String} {name : String} (h : name ∈ names) :
    getSettingByName (untouched db categories names) name = none := by
  rw [get_none_iff]
  intro s hs hname
  have hfree := (List.mem_filter.mp hs).2
  simp [hname, h] at hfree

theorem untouched_unselected {db : Db} {categories names : List String} {name : String}
    (h : name ∈ names) : selectedModel (untouched db categories names) name = none := by
  rw [selectedModel, untouched_get h, Option.bind_none]

def selectedEntry (name : String) : Entry :=
  (embedderSelectedCategory, embedderSelectedName, .obj [("name", .str name)])

/-- The selected configuration, once for every record of its name outside the categories of
the embedders and at least once, and the selection. -/
def savedAgain (db : Db) (name current : String) (value : Json) : List Entry :=
  if current = embedderSelectedName then [selectedEntry current]
  else
    let left := untouched db embedderCategories [name, embedderSelectedName]
    List.replicate (max 1 (left.countP (fun s => s.name = current))) (embedderCategory, current, value) ++
      [selectedEntry current]

/-- No configuration of the kind is saved, but the selected embedder. -/
def ModelRequest.OnlySelectedSaved (db : Db) : ModelRequest → Prop
  | .llm name _ =>
    OnlySaved db llmCategories embedderCategories [name, llmSelectedName] [] ∧
      selectedModel db llmSelectedName = none
  | .embedder name _ =>
    match selection db with
    | .unselected => OnlySaved db embedderCategories llmCategories [name, embedderSelectedName] []
    | .selected (.str current) (some s) =>
      OnlySaved db embedderCategories llmCategories [name, embedderSelectedName, current]
        (savedAgain db name current s.value)
    | _ => False

theorem saved_again_own {db : Db} {name current : String} {value : Json} {e : Entry}
    (h : e ∈ savedAgain db name current value) : e.1 ∈ embedderCategories := by
  unfold savedAgain at h
  split at h
  · rw [List.mem_singleton.mp h]
    exact List.mem_cons_self
  · rcases List.mem_append.mp h with h | h
    · rw [(List.mem_replicate.mp h).2]
      exact List.mem_cons_of_mem _ List.mem_cons_self
    · rw [List.mem_singleton.mp h]
      exact List.mem_cons_self

/-- What is restored beside the settings of the other model. -/
theorem configuration_restored (env : Env) (db : Db) (name current : String) (value : Json) :
    (configuration (upsertSettingByName
      (upsertSettingByName (untouched db embedderCategories [name, embedderSelectedName])
        (SettingBody.complete env 2 ⟨current, value, some embedderCategory⟩))
      (SettingBody.complete env 3
        ⟨embedderSelectedName, .obj [("name", .str current)], some embedderSelectedCategory⟩))).Perm
      (configuration (untouched db embedderCategories [name, embedderSelectedName, current]) ++
        savedAgain db name current value) := by
  let left := untouched db embedderCategories [name, embedderSelectedName]
  let saved := SettingBody.complete env 2 ⟨current, value, some embedderCategory⟩
  let chosen := SettingBody.complete env 3
    ⟨embedderSelectedName, .obj [("name", .str current)], some embedderSelectedCategory⟩
  have hsaved : saved.entry? = some (embedderCategory, current, value) := rfl
  have hchosen : chosen.entry? = some (selectedEntry current) := rfl
  have hleft : left.filter (fun s => s.name ≠ current) =
      untouched db embedderCategories [name, embedderSelectedName, current] := by
    simp only [left, untouched, List.filter_filter]
    apply List.filter_congr
    intro s _
    grind
  have hfree : ∀ s ∈ left, s.name ≠ embedderSelectedName :=
    (get_none_iff _ _).mp (untouched_get (by simp))
  have hadded (l : Db) : configuration (l ++ [chosen]) = configuration l ++ [selectedEntry current] := by
    rw [configuration, List.filterMap_append, List.filterMap_cons_some hchosen, List.filterMap_nil]
    rfl
  unfold savedAgain
  by_cases hcurrent : current = embedderSelectedName
  · -- the record of the configuration is the one that the selection overwrites
    have hsame : left.filter (fun s => s.name ≠ current) = left := by
      rw [List.filter_eq_self]
      exact fun s hs => decide_eq_true (hcurrent ▸ hfree s hs)
    have htwice : upsertSettingByName (upsertSettingByName left saved) chosen = left ++ [chosen] :=
      upsert_twice hfree hcurrent
    rw [if_pos hcurrent, ← hleft, hsame]
    exact List.Perm.of_eq ((congrArg configuration htwice).trans (hadded left))
  · have hall : ∀ s ∈ upsertSettingByName left saved, s.name ≠ chosen.name := by
      intro s hs
      rcases (mem_upsert_iff left saved s).mp hs with rfl | hs
      · exact hcurrent
      · exact hfree s hs.1
    have hnew : upsertSettingByName (upsertSettingByName left saved) chosen =
        upsertSettingByName left saved ++ [chosen] := upsert_new hall
    rw [if_neg hcurrent, ← hleft, ← List.append_assoc]
    exact (List.Perm.of_eq ((congrArg configuration hnew).trans (hadded _))).trans
      ((configuration_upsert left hsaved).append_right _)

theorem selected_model_eq (db : Db) : selectedModel db embedderSelectedName =
    match selection db with
    | .selected name _ => some name
    | _ => none := by
  unfold selectedModel selection
  cases getSettingByName db embedderSelectedName with
  | none => rfl
  | some s =>
    simp only [Option.bind_some]
    cases s.valueName with
    | none => rfl
    | some key => cases key <;> rfl

/-- The database after an embedder request that fails in `load_memory`. -/
theorem embedder_state (cat : Cat) (env : Env) (db : Db) {name : String} {payload : Json}
    {error : String} (hname : name ∈ cat.embedders) (hreadable : selection db ≠ .unreadable)
    (hload : cat.loadNaturalLanguage (selectEmbedder env db name payload) = none)
    (hmemory : cat.loadMemory (selectEmbedder env db name payload) = some error) :
    (upsertEmbedderSetting cat env db name payload).2 =
      (restoreSelected env (untouched db embedderCategories [name, embedderSelectedName])
        (selection db)).getD (untouched db embedderCategories [name, embedderSelectedName]) := by
  have hnot : ¬ name ∉ cat.embedders := fun hn => hn hname
  have hcleared : deleteSettingsByCategory (deleteSettingsByCategory
      (selectEmbedder env db name payload) embedderSelectedCategory) embedderCategory =
      untouched db embedderCategories [name, embedderSelectedName] :=
    cleared_eq env db embedderCategory embedderSelectedCategory embedderSelectedName name payload
  unfold upsertEmbedderSetting
  rw [if_neg hnot]
  cases hselection : selection db with
  | unreadable => exact absurd hselection hreadable
  | unselected =>
    simp only [hload, hmemory, hcleared]
    rfl
  | selected key current =>
    simp only [hload, hmemory, hcleared]
    cases hrestore : restoreSelected env (untouched db embedderCategories [name, embedderSelectedName])
        (.selected key current) with
    | none => rfl
    | some restored =>
      simp only []
      cases cat.loadNaturalLanguage restored <;> rfl

/-- The database after an LLM request that fails in `load_memory`. -/
theorem llm_state (cat : Cat) (env : Env) (db : Db) {name : String} {payload : Json} {error : String}
    (hname : name ∈ cat.llms) (hload : cat.loadNaturalLanguage (selectLlm env db name payload) = none)
    (hmemory : cat.loadMemory (selectLlm env db name payload) = some error) :
    (upsertLlmSetting cat env db name payload).2 =
      untouched db llmCategories [name, llmSelectedName] := by
  have hnot : ¬ name ∉ cat.llms := fun hn => hn hname
  simp only [upsertLlmSetting, if_neg hnot, hload, hmemory]
  exact cleared_eq env db llmCategory llmSelectedCategory llmSelectedName name payload

/-- The selected configuration that is saved again is the selected one again. -/
theorem restored_selected (env : Env) {left t : Db} {key : Json} {current : Option Setting}
    (h : restoreSelected env left (.selected key current) = some t) :
    selectedModel t embedderSelectedName = some key := by
  unfold restoreSelected at h
  split at h
  · rename_i hbefore
    cases hbefore
    cases h
    exact congrArg (Option.bind · Setting.valueName) (get_upsert _ _)
  · cases h
  · rename_i hother
    exact absurd rfl (hother key current)

/-- What the embedder route restores is what was saved exactly where only that was saved. -/
theorem restored_kept_iff (env : Env) (db : Db) (name current : String) (s : Setting) {t : Db}
    (h : restoreSelected env (untouched db embedderCategories [name, embedderSelectedName])
      (.selected (.str current) (some s)) = some t) :
    (configuration t).Perm (configuration db) ↔
      OnlySaved db embedderCategories llmCategories [name, embedderSelectedName, current]
        (savedAgain db name current s.value) := by
  cases h
  have hparts := configuration_untouched split_embedder db [name, embedderSelectedName, current]
  have hrestored := configuration_restored env db name current s.value
  rw [hparts] at hrestored
  exact configuration_kept_iff split_embedder hrestored (fun e he => saved_again_own he)

/-- Where the selected configuration cannot be saved again, nothing is selected any more. -/
theorem not_restored {db left : Db} {key : Json} {current : Option Setting} {r : ModelRequest}
    (hname : r.selectedName = embedderSelectedName)
    (hselection : selection db = .selected key current)
    (hleft : selectedModel left embedderSelectedName = none) : ¬ LeavesConfiguration r db left := by
  intro h
  have hsame := h.2
  rw [hname, hleft, selected_model_eq, hselection] at hsame
  exact absurd hsame.symm (Option.some_ne_none key)

/-- Where `load_memory` raises, the settings of all models are left as they were exactly where
nothing but the selected embedder is saved. -/
theorem failed_change_iff (cat : Cat) (env : Env) (db : Db) (r : ModelRequest)
    (h : r.MemoryRaises cat env db) :
    LeavesConfiguration r db (r.serve cat env db).2 ↔ r.OnlySelectedSaved db := by
  cases r with
  | llm name payload =>
    obtain ⟨hname, hload, hmemory⟩ := h
    obtain ⟨error, herror⟩ := Option.isSome_iff_exists.mp hmemory
    have hnone : selectedModel (untouched db llmCategories [name, llmSelectedName])
        llmSelectedName = none := untouched_unselected (by simp)
    rw [ModelRequest.serve, llm_state cat env db hname hload herror]
    apply and_congr (cleared_kept_iff split_llm db _)
    rw [ModelRequest.selectedName, hnone]
    exact eq_comm
  | embedder name payload =>
    obtain ⟨hname, hreadable, hload, hmemory⟩ := h
    obtain ⟨error, herror⟩ := Option.isSome_iff_exists.mp hmemory
    let cleared := untouched db embedderCategories [name, embedderSelectedName]
    have hnone : selectedModel cleared embedderSelectedName = none := untouched_unselected (by simp)
    have hbefore := selected_model_eq db
    rw [ModelRequest.serve, embedder_state cat env db hname hreadable hload herror,
      ModelRequest.OnlySelectedSaved]
    cases hselection : selection db with
    | unreadable => exact absurd hselection hreadable
    | unselected =>
      rw [hselection] at hbefore
      exact (and_iff_left (hnone.trans hbefore.symm)).trans (cleared_kept_iff split_embedder db _)
    | selected key current =>
      rw [hselection] at hbefore
      cases hrestore : restoreSelected env cleared (.selected key current) with
      | none =>
        apply iff_of_false (not_restored rfl hselection hnone)
        -- only a configuration that was found is saved again
        cases key with
        | str current' =>
          cases current with
          | none => exact id
          | some s => cases hrestore
        | _ => exact id
      | some t =>
        have hselected := (restored_selected env hrestore).trans hbefore.symm
        cases key with
        | str current' =>
          cases current with
          | none => cases hrestore
          | some s => exact (and_iff_left hselected).trans (restored_kept_iff env db name current' s hrestore)
        | _ => cases hrestore

/-- Loading the memories fails with every change. -/
def failingCat : Cat where
  embedders := ["EmbedderDumbConfig", "EmbedderOpenAIConfig", "EmbedderCohereConfig"]
  llms := ["LLMDefaultConfig", "LLMOpenAIConfig"]
  loadNaturalLanguage _ := none
  loadMemory _ := some "Incorrect API key provided"

/-- A database with one embedder, the selected one. -/
def dumbSelected : Db :=
  [⟨"a", "EmbedderDumbConfig", .obj [], some embedderCategory, 0⟩,
    ⟨"b", embedderSelectedName, .obj [("name", .str "EmbedderDumbConfig")],
      some embedderSelectedCategory, 0⟩]

theorem failed_change_dumb :
    LeavesConfiguration (.embedder "EmbedderOpenAIConfig" (.obj [])) dumbSelected
      (ModelRequest.serve failingCat countingEnv dumbSelected
        (.embedder "EmbedderOpenAIConfig" (.obj []))).2 := by
  refine (failed_change_iff failingCat countingEnv dumbSelected _ ?_).mpr ?_
  · exact ⟨by decide, nofun, rfl, rfl⟩
  · exact ⟨by decide, List.Perm.refl _⟩

def cohereSaved : Setting :=
  ⟨"c", "EmbedderCohereConfig", .obj [("cohere_api_key", .str "key")], some embedderCategory, 0⟩

def defaultLlmSelected : Db :=
  [⟨"d", "LLMDefaultConfig", .obj [], some llmCategory, 0⟩,
    ⟨"e", llmSelectedName, .obj [("name", .str "LLMDefaultConfig")], some llmSelectedCategory, 0⟩]

/-- A second embedder that was configured is lost with the failed change, and so is every
configuration of an LLM. -/
theorem failed_change_loses :
    (ModelRequest.MemoryRaises failingCat countingEnv (cohereSaved :: dumbSelected)
        (.embedder "EmbedderOpenAIConfig" (.obj [])) ∧
      ¬ LeavesConfiguration (.embedder "EmbedderOpenAIConfig" (.obj [])) (cohereSaved :: dumbSelected)
        (ModelRequest.serve failingCat countingEnv (cohereSaved :: dumbSelected)
          (.embedder "EmbedderOpenAIConfig" (.obj []))).2) ∧
    ModelRequest.MemoryRaises failingCat countingEnv defaultLlmSelected (.llm "LLMOpenAIConfig" (.obj [])) ∧
      configuration (ModelRequest.serve failingCat countingEnv defaultLlmSelected
        (.llm "LLMOpenAIConfig" (.obj []))).2 = [] := by
  refine ⟨⟨⟨by decide, nofun, rfl, rfl⟩, ?_⟩, ⟨by decide, rfl, rfl⟩, rfl⟩
  intro h
  exact absurd h.1.length_eq (by decide)

end CheshireCat.Settings
