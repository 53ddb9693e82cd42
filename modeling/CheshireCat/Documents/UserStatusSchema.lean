import CheshireCat.Documents.UserStatus

namespace CheshireCat.Documents
open Base Json

/-! ### One tag object -/

def completed (t : Fields) : Fields := defaultTagObj.foldl completeField t

theorem field?_completeField (t : Fields) (field : String × Json) (name : String) :
    field? (completeField t field) name =
      (field? t name).or (if name = field.1 then some field.2 else none) := by
  unfold completeField
  split
  · rename_i hsome
    by_cases hname : name = field.1
    · subst hname
      simp [Option.or_of_isSome hsome]
    · simp [hname]
  · rename_i hnone
    rw [field?_setField]
    by_cases hname : name = field.1
    · subst hname
      simp [Option.not_isSome_iff_eq_none.mp hnone]
    · simp [hname]

theorem field?_completeFields (fields t : Fields) (name : String) :
    field? (fields.foldl completeField t) name = (field? t name).or (field? fields name) := by
  induction fields generalizing t with
  | nil => simp [field?]
  | cons field fields ih =>
    rw [List.foldl_cons, ih, field?_completeField, Option.or_assoc]
    by_cases hname : name = field.1
    · simp [field?, hname]
    · simp [field?, hname, Ne.symm hname]

/-- A completed object has its own fields and, of the five, the default of each it has not. -/
theorem field?_completed (t : Fields) (name : String) :
    field? (completed t) name = (field? t name).or (field? defaultTagObj name) :=
  field?_completeFields defaultTagObj t name

theorem completed_has (t : Fields) {field : String × Json} (h : field ∈ defaultTagObj) :
    (field? (completed t) field.1).isSome = true := by
  have hdefault : (field? defaultTagObj field.1).isSome = true := by
    revert field
    decide
  rw [field?_completed, Option.isSome_or, hdefault, Bool.or_true]

theorem completed_of_complete {t : Fields} (h : ∀ field ∈ defaultTagObj, (field? t field.1).isSome = true) :
    completed t = t := by
  have hnothing : ∀ fields : Fields, (∀ field ∈ fields, (field? t field.1).isSome = true) →
      fields.foldl completeField t = t := by
    intro fields hfields
    induction fields with
    | nil => rfl
    | cons field fields ih =>
      have hfirst : completeField t field = t := if_pos (hfields field List.mem_cons_self)
      rw [List.foldl_cons, hfirst]
      exact ih (fun f hf => hfields f (List.mem_cons_of_mem field hf))
  exact hnothing defaultTagObj h

@[simp] theorem completed_completed (t : Fields) : completed (completed t) = completed t :=
  completed_of_complete (fun _ hfield => completed_has t hfield)

theorem completed_nil : completed [] = defaultTagObj := by
  decide

/-! ### The tags of one user -/

def ensureTags (tags : List String) (tagmap : Fields) : Fields := tags.foldl ensureTag tagmap

theorem ensureTag_eq (tagmap : Fields) (tag : String) :
    ensureTag tagmap tag = setField tagmap tag (.obj (completed (fieldsOf (field? tagmap tag)))) := by
  unfold ensureTag
  split
  · rename_i t ht
    simp [ht, fieldsOf, completed]
  · rename_i hno
    have hfields : fieldsOf (field? tagmap tag) = [] := by
      cases hv : field? tagmap tag with
      | none => rfl
      | some v =>
        cases v with
        | obj t => exact absurd hv (hno t)
        | _ => rfl
    rw [hfields, completed_nil]

theorem field?_ensureTag (tagmap : Fields) (tag name : String) :
    field? (ensureTag tagmap tag) name =
      if name = tag then some (.obj (completed (fieldsOf (field? tagmap tag)))) else field? tagmap name := by
  rw [ensureTag_eq, field?_setField]

theorem field?_ensureTags (tags : List String) (tagmap : Fields) (name : String) :
    field? (ensureTags tags tagmap) name =
      if name ∈ tags then some (.obj (completed (fieldsOf (field? tagmap name)))) else field? tagmap name := by
  unfold ensureTags
  induction tags generalizing tagmap with
  | nil => simp
  | cons tag tags ih =>
    rw [List.foldl_cons, ih, field?_ensureTag]
    by_cases hname : name = tag
    · subst hname
      simp [fieldsOf]
    · simp [hname]

/-- A tag that a second visit leaves as it is. -/
def Ensured (tagmap : Fields) (tag : String) : Prop := ensureTag tagmap tag = tagmap

theorem ensured_iff (tagmap : Fields) (tag : String) :
    Ensured tagmap tag ↔ tag ∈ tagmap.map Prod.fst ∧
      ∀ w, (tag, w) ∈ tagmap → w = .obj (completed (fieldsOf (field? tagmap tag))) := by
  rw [Ensured, ensureTag_eq, setField_self_iff]

theorem mem_ensureTag (tagmap : Fields) (tag name : String) (w : Json) :
    (name, w) ∈ ensureTag tagmap tag ↔
      (name = tag ∧ w = .obj (completed (fieldsOf (field? tagmap tag)))) ∨
        (name ≠ tag ∧ (name, w) ∈ tagmap) := by
  rw [ensureTag_eq, mem_setField]

theorem ensured_ensureTag (tagmap : Fields) (tag : String) : Ensured (ensureTag tagmap tag) tag := by
  refine (ensured_iff _ tag).mpr ⟨?_, ?_⟩
  · exact List.mem_map.mpr ⟨(tag, _), (mem_ensureTag tagmap tag tag _).mpr (Or.inl ⟨rfl, rfl⟩), rfl⟩
  · intro w hw
    have hvalue := (mem_ensureTag tagmap tag tag w).mp hw
    simp only [true_and, ne_eq, not_true_eq_false, false_and, or_false] at hvalue
    simp [hvalue, field?_ensureTag, fieldsOf]

theorem Ensured.ensureTag {tagmap : Fields} {tag : String} (h : Ensured tagmap tag) (other : String) :
    Ensured (Documents.ensureTag tagmap other) tag := by
  by_cases hother : tag = other
  · subst hother
    exact ensured_ensureTag tagmap tag
  · obtain ⟨hmem, hvalues⟩ := (ensured_iff tagmap tag).mp h
    obtain ⟨p, hp, hkey⟩ := List.mem_map.mp hmem
    refine (ensured_iff _ tag).mpr ⟨?_, ?_⟩
    · refine List.mem_map.mpr ⟨(tag, p.2), (mem_ensureTag tagmap other tag p.2).mpr (Or.inr ⟨hother, ?_⟩), rfl⟩
      exact hkey ▸ hp
    · intro w hw
      rw [field?_ensureTag, if_neg hother]
      rcases (mem_ensureTag tagmap other tag w).mp hw with ⟨heq, _⟩ | ⟨_, hold⟩
      · exact absurd heq hother
      · exact hvalues w hold

theorem Ensured.ensureTags {tagmap : Fields} {tag : String} (h : Ensured tagmap tag) (tags : List String) :
    Ensured (Documents.ensureTags tags tagmap) tag := by
  unfold Documents.ensureTags
  induction tags generalizing tagmap with
  | nil => exact h
  | cons other tags ih => exact ih (h.ensureTag other)

theorem ensured_ensureTags {tags : List String} {tag : String} (h : tag ∈ tags) (tagmap : Fields) :
    Ensured (ensureTags tags tagmap) tag := by
  induction tags generalizing tagmap with
  | nil => simp at h
  | cons first tags ih =>
    rcases List.mem_cons.mp h with rfl | htail
    · exact (ensured_ensureTag tagmap tag).ensureTags tags
    · exact ih htail (ensureTag tagmap first)

@[simp] theorem ensureTags_ensureTags (tags : List String) (tagmap : Fields) :
    ensureTags tags (ensureTags tags tagmap) = ensureTags tags tagmap := by
  have hnothing : ∀ visited : List String, (∀ tag ∈ visited, Ensured (ensureTags tags tagmap) tag) →
      ensureTags visited (ensureTags tags tagmap) = ensureTags tags tagmap := by
    intro visited hvisited
    induction visited with
    | nil => rfl
    | cons tag visited ih =>
      have hfirst : ensureTag (ensureTags tags tagmap) tag = ensureTags tags tagmap :=
        hvisited tag List.mem_cons_self
      rw [ensureTags, List.foldl_cons, hfirst]
      exact ih (fun t ht => hvisited t (List.mem_cons_of_mem tag ht))
  exact hnothing tags (fun tag htag => ensured_ensureTags htag tagmap)

/-! ### All users -/

theorem ensureUserStatusSchema_eq (userStatus : Fields) (tags : List String) :
    ensureUserStatusSchema userStatus tags =
      userStatus.map (fun p => (p.1, .obj (ensureTags tags (fieldsOf (some p.2))))) := rfl

theorem field?_ensureUserStatusSchema (userStatus : Fields) (tags : List String) (user : String) :
    field? (ensureUserStatusSchema userStatus tags) user =
      (field? userStatus user).map (fun v => .obj (ensureTags tags (fieldsOf (some v)))) := by
  simp [ensureUserStatusSchema_eq, field?, List.find?_map, Function.comp_def]

theorem ensureUserStatusSchema_twice (userStatus : Fields) (tags : List String) :
    ensureUserStatusSchema (ensureUserStatusSchema userStatus tags) tags =
      ensureUserStatusSchema userStatus tags := by
  simp [ensureUserStatusSchema_eq, fieldsOf, Function.comp_def]

/-- What normalising makes of the tags of a user. -/
structure TagsCompleted (tags : List String) (before after : Fields) : Prop where
  listed : ∀ tag ∈ tags, ∃ t, field? after tag = some (.obj t) ∧
    ∀ field ∈ defaultTagObj, (field? t field.1).isSome = true
  kept : ∀ tag t, field? before tag = some (.obj t) → ∃ t', field? after tag = some (.obj t') ∧
    ∀ name v, field? t name = some v → field? t' name = some v
  unlisted : ∀ tag, tag ∉ tags → field? after tag = field? before tag

structure Normalized (tags : List String) (before after : Fields) : Prop where
  users : after.map Prod.fst = before.map Prod.fst
  tags : ∀ user v, field? before user = some v → ∃ tagmap, field? after user = some (.obj tagmap) ∧
    TagsCompleted tags (fieldsOf (some v)) tagmap

theorem tags_completed (tags : List String) (tagmap : Fields) :
    TagsCompleted tags tagmap (ensureTags tags tagmap) := by
  constructor
  · intro tag htag
    refine ⟨completed (fieldsOf (field? tagmap tag)), ?_, fun _ hfield => completed_has _ hfield⟩
    rw [field?_ensureTags, if_pos htag]
  · intro tag t ht
    by_cases htag : tag ∈ tags
    · refine ⟨completed t, by simp [field?_ensureTags, htag, ht, fieldsOf], ?_⟩
      intro name v hv
      simp [field?_completed, hv]
    · exact ⟨t, by simp [field?_ensureTags, htag, ht], fun _ _ hv => hv⟩
  · intro tag htag
    rw [field?_ensureTags, if_neg htag]

theorem normalized (userStatus : Fields) (tags : List String) :
    Normalized tags userStatus (ensureUserStatusSchema userStatus tags) := by
  refine ⟨by simp [ensureUserStatusSchema_eq, Function.comp_def], ?_⟩
  intro user v hv
  exact ⟨_, by simp [field?_ensureUserStatusSchema, hv], tags_completed tags _⟩

/-! ### The users of the store -/

/-- `get_users`: the user names under the ids; an entry may be without one. -/
abbrev UsersDb := Dict String (Option String)

/-- `aggiorna_users_tags`, with no other writer. -/
def Static.aggiornaUsersTags (static : Static) (usersDb : UsersDb) : Option Static :=
  (Documents.aggiornaUsersTags (usersDb.values.filterMap id) static.tags
    (loadJsonSafe static.userStatus (.obj []))).map
      (fun newData => { static with userStatus := some newData })

def syncUser (tags : List String) (userStatus : Fields) (username : String) : Fields :=
  setField userStatus username (.obj (ensureTags tags (fieldsOf (field? userStatus username))))

theorem field?_syncUsers (tags users : List String) (userStatus : Fields) (user : String) :
    field? (users.foldl (syncUser tags) userStatus) user =
      if user ∈ users then some (.obj (ensureTags tags (fieldsOf (field? userStatus user))))
      else field? userStatus user := by
  induction users generalizing userStatus with
  | nil => simp
  | cons username users ih =>
    rw [List.foldl_cons, ih, syncUser, field?_setField]
    by_cases huser : user = username
    · subst huser
      simp [fieldsOf]
    · simp [huser]

theorem aggiorna_eq {static : Static} {userStatus : Fields} {tags : List String}
    (hstatus : loadJsonSafe static.userStatus (.obj []) = .obj userStatus)
    (htags : loadTagsList static.tags = some tags) (usersDb : UsersDb) :
    static.aggiornaUsersTags usersDb = some { static with
      userStatus := some (.obj ((usersDb.values.filterMap id).foldl (syncUser tags) userStatus)) } := by
  simp only [Static.aggiornaUsersTags, hstatus, Documents.aggiornaUsersTags, htags, Option.map_some]
  rfl

theorem load_eq {static : Static} {userStatus : Fields} {tags : List String}
    (hstatus : loadJsonSafe static.userStatus (.obj []) = .obj userStatus)
    (htags : loadTagsList static.tags = some tags) :
    loadUserStatusWithSchema static = some (ensureUserStatusSchema userStatus tags) := by
  simp [loadUserStatusWithSchema, hstatus, htags]

/-- Synchronising the users of the store shows in no reading, but for the users it has added. -/
def Synchronised (static : Static) (usersDb : UsersDb) (userStatus : Fields) (tags : List String) :
    Prop :=
  ∃ synced before after, static.aggiornaUsersTags usersDb = some synced ∧
    loadUserStatusWithSchema static = some before ∧ loadUserStatusWithSchema synced = some after ∧
    (∀ user v, field? userStatus user = some v → field? after user = field? before user) ∧
    ∀ user, some user ∈ usersDb.values → field? userStatus user = none →
      ∃ tagmap, field? after user = some (.obj tagmap) ∧
        (∀ tag ∈ tags, field? tagmap tag = some (.obj defaultTagObj)) ∧
        ∀ tag, tag ∉ tags → field? tagmap tag = none

theorem synchronised {static : Static} {userStatus : Fields} {tags : List String}
    (hstatus : loadJsonSafe static.userStatus (.obj []) = .obj userStatus)
    (htags : loadTagsList static.tags = some tags) (usersDb : UsersDb) :
    Synchronised static usersDb userStatus tags := by
  let synced := (usersDb.values.filterMap id).foldl (syncUser tags) userStatus
  refine ⟨_, ensureUserStatusSchema userStatus tags, ensureUserStatusSchema synced tags,
    aggiorna_eq hstatus htags usersDb, load_eq hstatus htags, load_eq rfl htags, ?_, ?_⟩
  · intro user v hv
    simp only [field?_ensureUserStatusSchema, synced, field?_syncUsers, hv]
    split <;> simp [fieldsOf]
  · intro user hstored hnew
    refine ⟨ensureTags tags [], ?_, ?_, ?_⟩
    · simp [field?_ensureUserStatusSchema, synced, field?_syncUsers, hstored, hnew, fieldsOf]
    · intro tag htag
      have hnone : fieldsOf (field? [] tag) = [] := rfl
      rw [field?_ensureTags, if_pos htag, hnone, completed_nil]
    · intro tag htag
      exact (field?_ensureTags tags [] tag).trans (if_neg htag)

end CheshireCat.Documents
