import CheshireCat.Documents.Upload
import CheshireCat.Documents.UserStatusSchema

namespace CheshireCat.Documents
open Base Json

/-! ### What is to be recorded -/

/-- The documents of a tag object, none where they are no list. -/
def docsOf (t : Fields) : List Json :=
  match (field? t "documents").getD (.arr []) with
  | .arr docs => docs
  | _ => []

/-- The names that are not among the documents yet, by first occurrence. -/
def newNames (names : List String) (docs : List Json) : List String :=
  (names.filter (fun name => .str name ∉ docs)).eraseDups

def recordTag (names : List String) (t : Fields) : Fields :=
  setField t "documents" (.arr (docsOf t ++ (newNames names (docsOf t)).map .str))

def recordTags (names : List String) (tagmap : Fields) : Fields :=
  tagmap.map (fun p => if isActive p.2 then (p.1, .obj (recordTag names (fieldsOf (some p.2)))) else p)

/-- With something to record, a user without an entry gets one. -/
def recorded (user : String) (names : List String) (userStatus : Fields) : Fields :=
  if names = [] then userStatus
  else setField userStatus user (.obj (recordTags names (fieldsOf (field? userStatus user))))

/-- The base name of a source that is a string and not blank. -/
def sourceName (metadata : Fields) : Option String :=
  match field? metadata "source" with
  | some (.str source) =>
    if strip source.toList = [] then none else some (String.ofList (pathName (strip source.toList)))
  | _ => none

def sourceNames (docs : List Document) : List String := docs.filterMap (fun doc => sourceName doc.metadata)

/-- The users have objects of tags, and the keys of these objects are distinct. -/
structure WellFormed (userStatus : Fields) : Prop where
  users : (userStatus.map Prod.fst).Nodup
  objects : ∀ p ∈ userStatus, p.2 = .obj (fieldsOf (some p.2))
  tags : ∀ p ∈ userStatus, ((fieldsOf (some p.2)).map Prod.fst).Nodup

/-! ### New names -/

theorem newNames_append (names : List String) (name : String) (docs : List Json) :
    newNames (names ++ [name]) docs =
      newNames names docs ++ newNames [name] (docs ++ (newNames names docs).map .str) := by
  unfold newNames
  by_cases hdocs : .str name ∈ docs
  · simp [hdocs]
  · by_cases hname : name ∈ names
    · simp [List.eraseDups_append, hdocs, hname, List.removeAll]
    · simp [List.eraseDups_append, hdocs, hname, List.removeAll]

@[simp] theorem newNames_recorded (names : List String) (docs : List Json) :
    newNames names (docs ++ (newNames names docs).map .str) = [] := by
  have hnone : names.filter (fun name => .str name ∉ docs ++ (newNames names docs).map .str) = [] := by
    refine List.filter_eq_nil_iff.mpr (fun name hname => ?_)
    by_cases hdocs : Json.str name ∈ docs <;> simp [newNames, hdocs, hname]
  unfold newNames at hnone ⊢
  rw [hnone, List.eraseDups_nil]

theorem nodup_eraseDups (names : List String) : names.eraseDups.Nodup := by
  induction h : names.length using Nat.strongRecOn generalizing names with
  | _ n ih =>
    cases names with
    | nil => simp
    | cons name names =>
      have hshort : (names.filter (fun b => !b == name)).length < n := by
        have := List.length_filter_le (fun b => !b == name) names
        simp at h
        omega
      rw [List.eraseDups_cons, List.nodup_cons]
      exact ⟨by simp, ih _ hshort _ rfl⟩

theorem documents_nodup {docs : List Json} (h : docs.Nodup) (names : List String) :
    (docs ++ (newNames names docs).map Json.str).Nodup := by
  refine List.nodup_append.mpr ⟨h, ?_, ?_⟩
  · exact List.Nodup.map (fun a b hab => Json.str.inj hab) (nodup_eraseDups _)
  · intro a ha b hb hab
    obtain ⟨name, hname, rfl⟩ := List.mem_map.mp hb
    simp only [newNames, List.mem_eraseDups, List.mem_filter, decide_eq_true_eq] at hname
    exact hname.2 (hab ▸ ha)

/-! ### One tag object -/

@[simp] theorem docsOf_recordTag (names : List String) (t : Fields) :
    docsOf (recordTag names t) = docsOf t ++ (newNames names (docsOf t)).map .str := by
  simp [docsOf, recordTag, field?_setField]

theorem recordTag_append (names : List String) (name : String) (t : Fields) :
    recordTag (names ++ [name]) t = recordTag [name] (recordTag names t) := by
  conv_rhs => rw [recordTag, docsOf_recordTag]
  rw [recordTag, recordTag, setField, setField, setField, Dict.assign_assign, newNames_append]
  simp

@[simp] theorem recordTag_recordTag (names : List String) (t : Fields) :
    recordTag names (recordTag names t) = recordTag names t := by
  conv_lhs => rw [recordTag, docsOf_recordTag, newNames_recorded]
  rw [recordTag, setField, setField, Dict.assign_assign]
  simp

theorem isActive_recordTag (names : List String) (t : Fields) :
    isActive (.obj (recordTag names t)) = isActive (.obj t) := by
  simp [isActive, recordTag, field?_setField]

/-! ### The tags of the user -/

theorem recordTags_eq (names : List String) (p : String × Json) :
    isActive (if isActive p.2 then (p.1, Json.obj (recordTag names (fieldsOf (some p.2)))) else p).2 =
      isActive p.2 := by
  obtain ⟨tag, v⟩ := p
  cases hactive : isActive v with
  | false => simp [hactive]
  | true =>
    cases v with
    | obj t => simpa [fieldsOf, isActive_recordTag] using hactive
    | _ => simp [isActive] at hactive

/-- What the records do to one tag object, they do to the tags of the user. -/
theorem recordTags_comp {names more all : List String}
    (h : ∀ t, recordTag more (recordTag names t) = recordTag all t) (tagmap : Fields) :
    recordTags more (recordTags names tagmap) = recordTags all tagmap := by
  unfold recordTags
  rw [List.map_map]
  refine List.map_congr_left (fun p _ => ?_)
  have hsame := recordTags_eq names p
  by_cases hactive : isActive p.2 = true
  · simp_all [fieldsOf]
  · simp_all

theorem recordTags_append (names : List String) (name : String) (tagmap : Fields) :
    recordTags (names ++ [name]) tagmap = recordTags [name] (recordTags names tagmap) :=
  (recordTags_comp (fun t => (recordTag_append names name t).symm) tagmap).symm

@[simp] theorem recordTags_recordTags (names : List String) (tagmap : Fields) :
    recordTags names (recordTags names tagmap) = recordTags names tagmap :=
  recordTags_comp (recordTag_recordTag names) tagmap

theorem recordTags_keys (names : List String) (tagmap : Fields) :
    (recordTags names tagmap).map Prod.fst = tagmap.map Prod.fst := by
  unfold recordTags
  rw [List.map_map]
  refine List.map_congr_left (fun p _ => ?_)
  by_cases hactive : isActive p.2 = true <;> simp [hactive]

@[simp] theorem activeTags_recordTags (names : List String) (tagmap : Fields) :
    activeTags (recordTags names tagmap) = activeTags tagmap := by
  unfold activeTags recordTags
  induction tagmap with
  | nil => rfl
  | cons p tagmap ih =>
    have hsame := recordTags_eq names p
    by_cases hactive : isActive p.2 = true <;> simp_all

/-! ### The active tags -/

theorem isActive_completed (t : Fields) : isActive (.obj (completed t)) = isActive (.obj t) := by
  have hdefault : field? defaultTagObj "status" = some (.bool false) := rfl
  simp only [isActive, field?_completed, hdefault]
  cases field? t "status" with
  | none => simp
  | some v => simp

theorem isActive_default : isActive (.obj (completed [])) = false :=
  isActive_completed []

theorem isActive_ensured (v : Json) : isActive (.obj (completed (fieldsOf (some v)))) = isActive v := by
  cases v with
  | obj t => exact isActive_completed t
  | _ => exact isActive_default

theorem activeTags_ensureTag {tagmap : Fields} (h : (tagmap.map Prod.fst).Nodup) (tag : String) :
    activeTags (ensureTag tagmap tag) = activeTags tagmap := by
  rw [ensureTag_eq, setField, Dict.assign]
  split
  · have hsame : ∀ p ∈ tagmap, isActive (if p.1 = tag then
        (tag, Json.obj (completed (fieldsOf (field? tagmap tag)))) else p).2 = isActive p.2 := by
      intro p hp
      by_cases hkey : p.1 = tag
      · subst hkey
        simp [field?_of_mem h hp, isActive_ensured]
      · simp [hkey]
    unfold activeTags
    rw [List.filter_map, List.map_map]
    have hfilter : tagmap.filter ((fun p => isActive p.2) ∘ fun p => if p.1 = tag then
        (tag, Json.obj (completed (fieldsOf (field? tagmap tag)))) else p) =
          tagmap.filter (fun p => isActive p.2) := List.filter_congr hsame
    rw [hfilter]
    refine List.map_congr_left (fun p _ => ?_)
    by_cases hkey : p.1 = tag <;> simp [hkey]
  · rename_i habsent
    have hnone : field? tagmap tag = none := by
      cases hv : field? tagmap tag with
      | none => rfl
      | some v => exact absurd (List.mem_map_of_mem (mem_of_field? hv)) habsent
    have hinactive : isActive (.obj (completed (fieldsOf (field? tagmap tag)))) = false := by
      rw [hnone]
      exact isActive_default
    simp [activeTags, hinactive]

theorem activeTags_ensureTags {tagmap : Fields} (h : (tagmap.map Prod.fst).Nodup) (tags : List String) :
    activeTags (ensureTags tags tagmap) = activeTags tagmap := by
  unfold ensureTags
  induction tags generalizing tagmap with
  | nil => rfl
  | cons tag tags ih =>
    have hnodup : ((ensureTag tagmap tag).map Prod.fst).Nodup := by
      rw [ensureTag_eq]
      exact setField_nodup h tag _
    rw [List.foldl_cons, ih hnodup, activeTags_ensureTag h]

theorem mem_activeTags {tagmap : Fields} (h : (tagmap.map Prod.fst).Nodup) {p : String × Json}
    (hp : p ∈ tagmap) : p.1 ∈ activeTags tagmap ↔ isActive p.2 = true := by
  constructor
  · intro hmem
    obtain ⟨q, hq, hkey⟩ := List.mem_map.mp hmem
    obtain ⟨hq, hactive⟩ := List.mem_filter.mp hq
    have hvalue : some q.2 = some p.2 := by
      rw [← field?_of_mem h hq, hkey, field?_of_mem h hp]
    exact Option.some.inj hvalue ▸ hactive
  · intro hactive
    exact List.mem_map_of_mem (List.mem_filter.mpr ⟨hp, hactive⟩)

theorem WellFormed.user {userStatus : Fields} (h : WellFormed userStatus) {user : String} {v : Json}
    (huser : field? userStatus user = some v) :
    ∃ tagmap, v = .obj tagmap ∧ (tagmap.map Prod.fst).Nodup :=
  ⟨fieldsOf (some v), h.objects _ (mem_of_field? huser), h.tags _ (mem_of_field? huser)⟩

/-- The tags of a user that are active are those that the file has as active. -/
theorem static_activeTags {static : Static} {userStatus : Fields} {tags : List String} (user : String)
    (hstatus : loadJsonSafe static.userStatus (.obj []) = .obj userStatus)
    (htags : loadTagsList static.tags = some tags) (h : WellFormed userStatus) :
    static.activeTags user = some (activeTags (fieldsOf (field? userStatus user))) := by
  simp only [Static.activeTags, load_eq hstatus htags, Option.map_some, field?_ensureUserStatusSchema]
  cases huser : field? userStatus user with
  | none => rfl
  | some v =>
    obtain ⟨tagmap, rfl, hnodup⟩ := h.user huser
    simp [fieldsOf, activeTags_ensureTags hnodup]

/-! ### One chunk -/

theorem addToTag_eq {tagmap t : Fields} {tag : String} (h : field? tagmap tag = some (.obj t))
    (name : String) :
    addToTag name (.obj tagmap) tag = some (.obj (setField tagmap tag (.obj (recordTag [name] t)))) := by
  have hdocs : (if .str name ∈ docsOf t then docsOf t else docsOf t ++ [.str name]) =
      docsOf t ++ (newNames [name] (docsOf t)).map .str := by
    by_cases hmem : .str name ∈ docsOf t <;> simp [newNames, hmem, List.eraseDups_cons]
  simp only [addToTag, h, Option.getD_some, recordTag, ← hdocs]
  rfl

/-- The tags that are visited have objects. -/
def Objects (tagmap : Fields) (tags : List String) : Prop :=
  ∀ tag ∈ tags, ∃ t, field? tagmap tag = some (.obj t)

def recordIn (name : String) (tags : List String) (tagmap : Fields) : Fields :=
  tagmap.map (fun p => if p.1 ∈ tags then (p.1, .obj (recordTag [name] (fieldsOf (some p.2)))) else p)

theorem recordIn_one {tagmap t : Fields} (h : (tagmap.map Prod.fst).Nodup) {tag : String}
    (ht : field? tagmap tag = some (.obj t)) (name : String) :
    setField tagmap tag (.obj (recordTag [name] t)) = recordIn name [tag] tagmap := by
  have hmem : tag ∈ tagmap.map Prod.fst := List.mem_map_of_mem (mem_of_field? ht)
  rw [setField, Dict.assign, if_pos hmem]
  refine List.map_congr_left (fun p hp => ?_)
  by_cases hkey : p.1 = tag
  · subst hkey
    have hvalue : p.2 = .obj t := Option.some.inj ((field?_of_mem h hp).symm.trans ht)
    simp [hvalue, fieldsOf]
  · simp [hkey]

theorem recordIn_cons {tag : String} {tags : List String} (h : tag ∉ tags) (name : String)
    (tagmap : Fields) :
    recordIn name tags (recordIn name [tag] tagmap) = recordIn name (tag :: tags) tagmap := by
  unfold recordIn
  rw [List.map_map]
  refine List.map_congr_left (fun p _ => ?_)
  by_cases hkey : p.1 = tag
  · simp [hkey, h]
  · simp [hkey]

theorem addToTags {tagmap : Fields} (h : (tagmap.map Prod.fst).Nodup) {tags : List String}
    (htags : tags.Nodup) (hobjects : Objects tagmap tags) (name : String) :
    tags.foldlM (addToTag name) (.obj tagmap) = some (.obj (recordIn name tags tagmap)) := by
  induction tags generalizing tagmap with
  | nil => simp [recordIn]
  | cons tag tags ih =>
    obtain ⟨hnew, htags⟩ := List.nodup_cons.mp htags
    obtain ⟨t, ht⟩ := hobjects tag List.mem_cons_self
    have hrest : Objects (setField tagmap tag (.obj (recordTag [name] t))) tags := by
      intro other hother
      have hne : other ≠ tag := fun heq => hnew (heq ▸ hother)
      rw [field?_setField, if_neg hne]
      exact hobjects other (List.mem_cons_of_mem tag hother)
    rw [List.foldlM_cons, addToTag_eq ht, Option.bind_eq_bind, Option.bind_some,
      ih (setField_nodup h tag _) htags hrest, recordIn_one h ht, recordIn_cons hnew]

theorem recordIn_active {tagmap : Fields} (h : (tagmap.map Prod.fst).Nodup) (name : String) :
    recordIn name (activeTags tagmap) tagmap = recordTags [name] tagmap := by
  refine List.map_congr_left (fun p hp => ?_)
  simp only [mem_activeTags h hp]

theorem active_objects {tagmap : Fields} (h : (tagmap.map Prod.fst).Nodup) :
    Objects tagmap (activeTags tagmap) := by
  intro tag htag
  obtain ⟨p, hp, rfl⟩ := List.mem_map.mp htag
  obtain ⟨hp, hactive⟩ := List.mem_filter.mp hp
  obtain ⟨tag, v⟩ := p
  cases v with
  | obj t => exact ⟨t, field?_of_mem h hp⟩
  | _ => simp [isActive] at hactive

theorem active_nodup {tagmap : Fields} (h : (tagmap.map Prod.fst).Nodup) : (activeTags tagmap).Nodup :=
  h.sublist (List.filter_sublist.map Prod.fst)

theorem addSource_eq {userStatus tagmap : Fields} {user : String}
    (h : (field? userStatus user).getD (.obj []) = .obj tagmap) (hnodup : (tagmap.map Prod.fst).Nodup)
    (name : String) :
    addSource user (activeTags tagmap) name (.obj userStatus) =
      some (.obj (setField userStatus user (.obj (recordTags [name] tagmap)))) := by
  simp only [addSource, h, addToTags hnodup (active_nodup hnodup) (active_objects hnodup),
    recordIn_active hnodup, Option.map_some]

/-! ### All chunks -/

def flagged (user : String) (active : List String) (doc : Document) : Document :=
  { doc with metadata := setFields doc.metadata (userFlags active user) }

/-- The source is read from the metadata that have the flags already. -/
theorem uploadDocument_eq (user : String) (active : List String) (static : Static) (doc : Document) :
    uploadDocument user active static doc =
      match sourceName (flagged user active doc).metadata with
      | none => some (static, flagged user active doc)
      | some name => (static.updateUserStatus (addSource user active name)).map
          (fun static => (static, flagged user active doc)) := by
  simp only [uploadDocument, sourceName, flagged]
  cases field? (setFields doc.metadata (userFlags active user)) "source" with
  | none => rfl
  | some v =>
    cases v with
    | str source => by_cases hblank : strip source.toList = [] <;> simp [hblank]
    | _ => rfl

theorem recordTags_nodup {tagmap : Fields} (h : (tagmap.map Prod.fst).Nodup) (names : List String) :
    ((recordTags names tagmap).map Prod.fst).Nodup := by
  rw [recordTags_keys]
  exact h

section Chunks
variable {static : Static} {userStatus : Fields} {user : String}

/-- The folder after the given names have been recorded. -/
def Static.after (static : Static) (user : String) (userStatus : Fields) (names : List String) : Static :=
  if names = [] then static
  else { static with userStatus := some (.obj (recorded user names userStatus)) }

theorem after_status (hstatus : loadJsonSafe static.userStatus (.obj []) = .obj userStatus)
    (names : List String) :
    loadJsonSafe (static.after user userStatus names).userStatus (.obj []) =
      .obj (recorded user names userStatus) := by
  by_cases hnames : names = []
  · simp [Static.after, recorded, hnames, hstatus]
  · simp [Static.after, hnames, loadJsonSafe]

theorem after_tags (names : List String) : (static.after user userStatus names).tags = static.tags := by
  unfold Static.after
  split <;> rfl

theorem WellFormed.user_tags (h : WellFormed userStatus) (user : String) :
    (field? userStatus user).getD (.obj []) = .obj (fieldsOf (field? userStatus user)) ∧
      ((fieldsOf (field? userStatus user)).map Prod.fst).Nodup := by
  cases huser : field? userStatus user with
  | none => simp [fieldsOf]
  | some v =>
    obtain ⟨tagmap, rfl, hnodup⟩ := h.user huser
    exact ⟨rfl, hnodup⟩

/-- One more name is recorded behind those before. -/
theorem addSource_recorded (h : WellFormed userStatus) (names : List String) (name : String) :
    addSource user (activeTags (fieldsOf (field? userStatus user))) name
        (.obj (recorded user names userStatus)) =
      some (.obj (recorded user (names ++ [name]) userStatus)) := by
  obtain ⟨huser, hnodup⟩ := h.user_tags user
  have hone : recorded user (names ++ [name]) userStatus =
      setField userStatus user
        (.obj (recordTags (names ++ [name]) (fieldsOf (field? userStatus user)))) := by
    simp [recorded]
  by_cases hnames : names = []
  · subst hnames
    rw [hone]
    exact addSource_eq huser hnodup name
  · have hfield : (field? (recorded user names userStatus) user).getD (.obj []) =
        .obj (recordTags names (fieldsOf (field? userStatus user))) := by
      simp [recorded, hnames, field?_setField]
    have hstep := addSource_eq hfield (recordTags_nodup hnodup names) name
    rw [activeTags_recordTags, ← recordTags_append] at hstep
    rw [hstep, hone, recorded, if_neg hnames, setField, setField, setField, Dict.assign_assign]

theorem updateUserStatus_after (hstatus : loadJsonSafe static.userStatus (.obj []) = .obj userStatus)
    (h : WellFormed userStatus) (names : List String) (name : String) :
    (static.after user userStatus names).updateUserStatus
        (addSource user (activeTags (fieldsOf (field? userStatus user))) name) =
      some (static.after user userStatus (names ++ [name])) := by
  simp only [Static.updateUserStatus, after_status hstatus, addSource_recorded h, Option.map_some]
  simp only [Static.after, List.append_eq_nil_iff, List.cons_ne_self, and_false, if_false]
  split <;> rfl

variable {active : List String} (huser : user ≠ "source") (hactive : "source" ∉ active)
include huser hactive

theorem sourceName_flagged (doc : Document) :
    sourceName (flagged user active doc).metadata = sourceName doc.metadata := by
  have hfield : field? (flagged user active doc).metadata "source" = field? doc.metadata "source" := by
    rw [flagged, field?_upload, if_neg]
    simp [huser.symm, hactive]
  rw [sourceName, hfield, sourceName]

theorem sourceNames_flagged (docs : List Document) :
    sourceNames (docs.map (flagged user active)) = sourceNames docs := by
  unfold sourceNames
  rw [List.filterMap_map]
  exact List.filterMap_congr (fun doc _ => sourceName_flagged huser hactive doc)

end Chunks

section Run
variable {static : Static} {userStatus : Fields} {user : String}
  (hstatus : loadJsonSafe static.userStatus (.obj []) = .obj userStatus) (h : WellFormed userStatus)
  (huser : user ≠ "source")
  (hactive : "source" ∉ activeTags (fieldsOf (field? userStatus user)))
include hstatus h huser hactive

theorem uploadDocument_after (names : List String) (doc : Document) :
    uploadDocument user (activeTags (fieldsOf (field? userStatus user)))
        (static.after user userStatus names) doc =
      some (static.after user userStatus (names ++ (sourceName doc.metadata).toList),
        flagged user (activeTags (fieldsOf (field? userStatus user))) doc) := by
  rw [uploadDocument_eq, sourceName_flagged huser hactive]
  cases sourceName doc.metadata with
  | none => simp
  | some name => simp [updateUserStatus_after hstatus h]

theorem uploadDocuments_after (names : List String) (docs : List Document) :
    uploadDocuments user (activeTags (fieldsOf (field? userStatus user)))
        (static.after user userStatus names) docs =
      some (static.after user userStatus (names ++ sourceNames docs),
        docs.map (flagged user (activeTags (fieldsOf (field? userStatus user))))) := by
  induction docs generalizing names with
  | nil => simp [uploadDocuments, sourceNames]
  | cons doc docs ih =>
    have hnames : sourceNames (doc :: docs) = (sourceName doc.metadata).toList ++ sourceNames docs := by
      cases hname : sourceName doc.metadata <;> simp [sourceNames, hname]
    simp only [uploadDocuments, uploadDocument_after hstatus h huser hactive, Option.bind_some, ih,
      Option.map_some, hnames, List.append_assoc, List.map_cons]

end Run

/-! ### The hook run again -/

theorem recorded_wellFormed {userStatus : Fields} (h : WellFormed userStatus) (user : String)
    (names : List String) : WellFormed (recorded user names userStatus) := by
  by_cases hnames : names = []
  · simpa [recorded, hnames] using h
  · rw [recorded, if_neg hnames]
    obtain ⟨_, hnodup⟩ := h.user_tags user
    refine ⟨setField_nodup h.users user _, ?_, ?_⟩
    · intro p hp
      rcases (mem_setField _ _ _ _ _).mp hp with ⟨_, hvalue⟩ | ⟨_, hold⟩
      · rw [hvalue]
        rfl
      · exact h.objects _ hold
    · intro p hp
      rcases (mem_setField _ _ _ _ _).mp hp with ⟨_, hvalue⟩ | ⟨_, hold⟩
      · rw [hvalue]
        exact recordTags_nodup hnodup names
      · exact h.tags _ hold

theorem recorded_active (user : String) (names : List String) (userStatus : Fields) :
    activeTags (fieldsOf (field? (recorded user names userStatus) user)) =
      activeTags (fieldsOf (field? userStatus user)) := by
  by_cases hnames : names = []
  · simp [recorded, hnames]
  · simp [recorded, hnames, field?_setField, fieldsOf]

theorem recorded_recorded (user : String) (names : List String) (userStatus : Fields) :
    recorded user names (recorded user names userStatus) = recorded user names userStatus := by
  by_cases hnames : names = []
  · simp [recorded, hnames]
  · simp only [recorded, hnames, if_false, field?_setField, if_true, fieldsOf, recordTags_recordTags]
    exact Dict.assign_assign _ _ _ _

theorem after_after (static : Static) (user : String) (names : List String) (userStatus : Fields) :
    (static.after user userStatus names).after user (recorded user names userStatus) names =
      static.after user userStatus names := by
  by_cases hnames : names = [] <;> simp [Static.after, hnames, recorded_recorded]

/-- Flags that are set are not set again. -/
theorem flagged_flagged (user : String) (active : List String) (doc : Document) :
    flagged user active (flagged user active doc) = flagged user active doc := by
  have hflags : ∀ p ∈ userFlags active user, p.2 = .bool true := fun p hp => userFlags_true hp
  have hsame : setFields (setFields doc.metadata (userFlags active user)) (userFlags active user) =
      setFields doc.metadata (userFlags active user) := by
    refine setFields_self (fun p hp => (setField_self_iff _ _ _).mpr ⟨?_, ?_⟩)
    · exact List.mem_map.mpr ⟨(p.1, .bool true), (mem_setFields_const hflags _ _ _).mpr
        (Or.inl ⟨List.mem_map_of_mem hp, rfl⟩), rfl⟩
    · intro w hw
      rcases (mem_setFields_const hflags _ _ _).mp hw with ⟨_, hw⟩ | ⟨hnot, _⟩
      · exact hw.trans (hflags p hp).symm
      · exact absurd (List.mem_map_of_mem hp) hnot
  simp [flagged, hsame]

/-- A flag called `source` hides the sources: nothing is recorded. -/
theorem source_flag_hides {user : String} {active : List String} (h : user = "source" ∨ "source" ∈ active)
    (static : Static) (docs : List Document) :
    uploadDocuments user active static docs = some (static, docs.map (flagged user active)) := by
  induction docs with
  | nil => rfl
  | cons doc docs ih =>
    have hkey : "source" = user ∨ "source" ∈ active := h.imp_left Eq.symm
    have hname : sourceName (flagged user active doc).metadata = none := by
      simp [sourceName, flagged, field?_upload, hkey]
    simp [uploadDocuments, uploadDocument_eq, hname, ih]

/-- A folder in which the garden is active for a user, with one document. -/
def gardenStatus : Fields :=
  [("alice", .obj [("garden", .obj [("status", .bool true), ("documents", .arr [.str "roses.pdf"])]),
    ("kitchen", .obj [("status", .bool false), ("documents", .arr [])])]), ("queen", .obj [])]

def cards : List Document :=
  [⟨"red", [("source", .str "/tmp/tea.pdf ")]⟩, ⟨"white", [("source", .str "roses.pdf")]⟩]

end CheshireCat.Documents
