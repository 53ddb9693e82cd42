import CheshireCat.Documents.Upload

namespace CheshireCat.Documents
open Base Json Memory

/-- The upload assigns the name in the metadata of every chunk. -/
def Assigned (user : String) (active : List String) (name : String) : Prop :=
  name = "source" ∨ name = "when" ∨ name = user ∨ name ∈ active

/-- The key is one of the flags of the upload, or leads to a `true` in the metadata
that the document came with. -/
def Flagged (user : String) (active : List String) (metadata : Fields) (key : String) : Prop :=
  (pathSteps key = [.field key] ∧ (key = user ∨ key ∈ active) ∧ key ≠ "source" ∧ key ≠ "when") ∨
    ∃ name rest, pathSteps key = .field name :: rest ∧ ¬ Assigned user active name ∧
      (resolve (.field name :: rest) (.obj metadata)).any (matchesValue (.bool true)) = true

theorem flagged_own {user : String} {active : List String} {metadata : Fields} {key name : String}
    {rest : List PathStep} (hsteps : pathSteps key = .field name :: rest)
    (h : ¬ Assigned user active name) : Flagged user active metadata key ↔
      (resolve (.field name :: rest) (.obj metadata)).any (matchesValue (.bool true)) = true := by
  constructor
  · intro hf
    rcases hf with ⟨hplain, hflag, -, -⟩ | ⟨n, r, hn, -, hown⟩
    · rw [hsteps, List.cons.injEq, PathStep.field.injEq] at hplain
      exact absurd (hplain.1 ▸ Or.inr (Or.inr hflag)) h
    · rw [← hsteps, hn]
      exact hown
  · intro hown
    exact Or.inr ⟨name, rest, hsteps, h, hown⟩

theorem flagged_assigned {user : String} {active : List String} {metadata : Fields}
    {key name : String} {rest : List PathStep} (hsteps : pathSteps key = .field name :: rest)
    (h : Assigned user active name) : Flagged user active metadata key ↔
      rest = [] ∧ (name = user ∨ name ∈ active) ∧ name ≠ "source" ∧ name ≠ "when" := by
  constructor
  · intro hf
    rcases hf with ⟨hplain, hflag⟩ | ⟨n, r, hn, hnot, -⟩
    · rw [hsteps, List.cons.injEq, PathStep.field.injEq] at hplain
      obtain ⟨rfl, rfl⟩ := hplain
      exact ⟨rfl, hflag⟩
    · rw [hsteps, List.cons.injEq, PathStep.field.injEq] at hn
      exact absurd h (hn.1 ▸ hnot)
  · intro hflag
    obtain ⟨rfl, hflag⟩ := hflag
    have hkey : key = name := path_steps_single hsteps
    subst hkey
    exact Or.inl ⟨hsteps, hflag⟩

/-- The metadata of a chunk as `store_documents` stores it. -/
def storedMetadata (user : String) (active : List String) (source : String) (time : Rat)
    (metadata : Fields) : Fields :=
  setField (setField (setFields metadata (userFlags active user)) "source" (.str source)) "when"
    (.number (.float time))

variable (user : String) (active : List String) (source : String) (time : Rat) (metadata : Fields)

theorem stored_source :
    field? (storedMetadata user active source time metadata) "source" = some (.str source) := by
  simp [storedMetadata, field?_setField]

theorem stored_when :
    field? (storedMetadata user active source time metadata) "when" =
      some (.number (.float time)) := by
  simp [storedMetadata, field?_setField]

theorem stored_other {name : String} (hs : name ≠ "source") (hw : name ≠ "when") :
    field? (storedMetadata user active source time metadata) name =
      if name = user ∨ name ∈ active then some (.bool true) else field? metadata name := by
  rw [storedMetadata, field?_setField, if_neg hw, field?_setField, if_neg hs, field?_upload]

/-- What a key finds in a stored chunk. -/
theorem stored_flagged (key : String) :
    (resolve (pathSteps key) (.obj (storedMetadata user active source time metadata))).any
        (matchesValue (.bool true)) = true ↔ Flagged user active metadata key := by
  obtain ⟨name, rest, hsteps⟩ := path_steps_cons key
  rw [hsteps]
  by_cases hw : name = "when"
  · subst hw
    rw [flagged_assigned hsteps (Or.inr (Or.inl rfl)), resolve, stored_when]
    cases rest <;> simp [resolve_scalar, matchesValue]
  by_cases hs : name = "source"
  · subst hs
    rw [flagged_assigned hsteps (Or.inl rfl), resolve, stored_source]
    cases rest <;> simp [resolve_scalar, matchesValue]
  have hother := stored_other user active source time metadata hs hw
  by_cases hflag : name = user ∨ name ∈ active
  · rw [if_pos hflag] at hother
    rw [flagged_assigned hsteps (Or.inr (Or.inr hflag)), resolve, hother]
    cases rest <;> simp [resolve_scalar, matchesValue, hflag, hs, hw]
  · rw [if_neg hflag] at hother
    have hnot : ¬ Assigned user active name := by
      intro h
      rcases h with h | h | h
      · exact hs h
      · exact hw h
      · exact hflag h
    rw [flagged_own hsteps hnot, resolve, hother, resolve]

/-- The chunk of a document, when the hook has returned. -/
theorem stored_chunk {static : Static} {user : String} {active : List String}
    {docs : List Document} {d : Nat} {doc : Document} {source : String} {clock : Nat → Rat}
    {chunk : Json} (hactive : static.activeTags user = some active)
    (hhook : (beforeRabbitholeStoresDocuments static user docs).isSome) (hdoc : docs[d]? = some doc)
    (hchunk : (storeDocuments static user docs source clock [])[d]? = some (some chunk)) :
    chunk = pointPayload doc.pageContent
      (storedMetadata user active source (clock d) doc.metadata) := by
  obtain ⟨⟨after, flagged⟩, hret⟩ := Option.isSome_iff_exists.mp hhook
  have hup : uploadDocuments user active static docs = some (after, flagged) := by
    rw [beforeRabbitholeStoresDocuments, hactive] at hret
    exact hret
  rw [storeDocuments, hret, uploadDocuments_flags hup] at hchunk
  simp only [List.getElem?_mapIdx, List.getElem?_map, hdoc, Option.map_some,
    Option.some.injEq, storeDocument] at hchunk
  split at hchunk
  · cases hchunk
  · exact (Option.some.inj hchunk).symm

/-- The recall filter of a user asks for the flags that his name and his active tags
give. -/
theorem recall_filter_matches {static : Static} {user : String} {recalled : List String}
    {config config' : Fields} (hactive : static.activeTags user = some recalled)
    (hhook : beforeCatRecallsDeclarativeMemories static user config = some config')
    (pageContent : String) (metadata : Fields) :
    matchesFilter (recallFilter config') (pointPayload pageContent metadata) = true ↔
      ∀ key, key = user ∨ key ∈ recalled →
        (resolve (pathSteps key) (.obj metadata)).any (matchesValue (.bool true)) = true := by
  rw [beforeCatRecallsDeclarativeMemories, hactive] at hhook
  cases hhook
  have hmetadata : fieldsOf (field? (setField config "metadata" (.obj (userFlags recalled user)))
      "metadata") = userFlags recalled user := by
    rw [field?_setField, if_pos rfl]
    rfl
  have hne : userFlags recalled user ≠ [] :=
    List.ne_nil_of_mem ((mem_userFlags recalled user user _).mpr ⟨Or.inl rfl, rfl⟩)
  rw [recallFilter, hmetadata, matches_flat hne]
  · constructor
    · intro h key hkey
      have hp := h (key, .bool true) ((mem_userFlags recalled user key _).mpr ⟨hkey, rfl⟩)
      rwa [holds_metadata] at hp
    · intro h p hp
      obtain ⟨key, value⟩ := p
      obtain ⟨hkey, rfl⟩ := (mem_userFlags recalled user key value).mp hp
      rw [holds_metadata]
      exact h key hkey
  · intro p hp
    obtain ⟨key, value⟩ := p
    obtain ⟨-, rfl⟩ := (mem_userFlags recalled user key value).mp hp
    rfl

/-- A chunk of one user stays out of the recall of another exactly when the name or an
active tag of the other is no flag of the chunk. -/
theorem chunk_isolated_iff (atUpload atRecall : Static) (u v : String)
    (active recalled : List String) (docs : List Document) (d : Nat) (doc : Document)
    (source : String) (clock : Nat → Rat) (chunk : Json) (config config' : Fields)
    (hactive : atUpload.activeTags u = some active)
    (hrecalled : atRecall.activeTags v = some recalled)
    (hupload : (beforeRabbitholeStoresDocuments atUpload u docs).isSome)
    (hdoc : docs[d]? = some doc)
    (hchunk : (storeDocuments atUpload u docs source clock [])[d]? = some (some chunk))
    (hconfig : beforeCatRecallsDeclarativeMemories atRecall v config = some config') :
    ¬ matchesFilter (recallFilter config') chunk = true ↔
      ∃ key, (key = v ∨ key ∈ recalled) ∧ ¬ Flagged u active doc.metadata key := by
  rw [stored_chunk hactive hupload hdoc hchunk, recall_filter_matches hrecalled hconfig]
  simp only [stored_flagged]
  constructor
  · intro h
    by_contra hall
    exact h (fun key hkey => by_contra (fun hn => hall ⟨key, hkey, hn⟩))
  · intro hx h
    obtain ⟨key, hkey, hn⟩ := hx
    exact hn (h key hkey)

/-- Two users, alice and sales, and the tag sales, which is active for alice. -/
def salesTag : Static where
  userStatus := some (.obj [("alice", .obj [("sales", .obj [("status", .bool true)])]),
    ("sales", .obj [])])
  tags := some (.obj [("tags", .arr [.str "sales"])])

def report : Document := ⟨"Budget 2024", [("source", .str "report.pdf")]⟩

def recallConfig : Fields := [("k", .number (.int 3)), ("metadata", .obj [])]

/-- bob has no flag on alice's chunk. -/
theorem chunk_isolated_bob :
    ∃ chunk config',
      (storeDocuments salesTag "alice" [report] "report.pdf" (fun _ => 0) [])[0]? =
        some (some chunk) ∧
      beforeCatRecallsDeclarativeMemories salesTag "bob" recallConfig = some config' ∧
      ¬ matchesFilter (recallFilter config') chunk = true := by
  have hiff := chunk_isolated_iff salesTag salesTag "alice" "bob" ["sales"] [] [report] 0 report
    "report.pdf" (fun _ => 0) _ recallConfig _ (by decide) (by decide) (by decide) rfl rfl rfl
  refine ⟨_, _, rfl, rfl, hiff.mpr ⟨"bob", Or.inl rfl, ?_⟩⟩
  have hsteps : pathSteps "bob" = [.field "bob"] := by decide
  intro hx
  rcases hx with ⟨-, hflag, -, -⟩ | ⟨name, rest, hpath, -, hown⟩
  · revert hflag
    decide
  · rw [hsteps] at hpath
    cases hpath
    revert hown
    decide

/-- The user whose name is a tag recalls what alice uploads under that tag. -/
theorem tag_named_user_recalls :
    "alice" ≠ "sales" ∧ ∃ chunk config',
      (beforeRabbitholeStoresDocuments salesTag "alice" [report]).isSome ∧
      (storeDocuments salesTag "alice" [report] "report.pdf" (fun _ => 0) [])[0]? =
        some (some chunk) ∧
      beforeCatRecallsDeclarativeMemories salesTag "sales" recallConfig = some config' ∧
      matchesFilter (recallFilter config') chunk = true := by
  refine ⟨by decide, _, _, by decide, rfl, rfl, by decide⟩

end CheshireCat.Documents
