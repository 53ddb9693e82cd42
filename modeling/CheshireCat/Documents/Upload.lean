import CheshireCat.Documents.UserStatus
import CheshireCat.Memory.Filter

namespace CheshireCat.Documents
open Base Json Memory

structure Document where
  pageContent : String
  metadata : Fields

/-- `str.isspace`. -/
def isSpace (c : Char) : Bool :=
  let n := c.toNat
  (9 ≤ n ∧ n ≤ 13) || (28 ≤ n ∧ n ≤ 32) || n = 133 || n = 160 || n = 5760 ||
    (8192 ≤ n ∧ n ≤ 8202) || n = 8232 || n = 8233 || n = 8239 || n = 8287 || n = 12288

/-- `s.strip()`. -/
def strip (s : List Char) : List Char :=
  ((s.dropWhile isSpace).reverse.dropWhile isSpace).reverse

/-- `Path(s).name`: the last part of the path that is not `.`. -/
def pathName (s : List Char) : List Char :=
  ((s.splitOn '/').filter (fun part => part ≠ [] ∧ part ≠ ['.'])).getLast?.getD []

/-- The metadata that both hooks build: a flag for every active tag, and for the user. -/
def userFlags (active : List String) (user : String) : Fields :=
  setField (active.foldl (fun metadata tag => setField metadata tag (.bool true)) []) user
    (.bool true)

/-- One iteration over the documents: the flags, and the source among the documents of
the active tags. -/
def uploadDocument (user : String) (active : List String) (static : Static) (doc : Document) :
    Option (Static × Document) :=
  let current := setFields doc.metadata (userFlags active user)
  let doc := { doc with metadata := current }
  match field? current "source" with
  | some (.str source) =>
    let source := strip source.toList
    if source = [] then some (static, doc)
    else
      (static.updateUserStatus (addSource user active (String.ofList (pathName source)))).map
        (fun static => (static, doc))
  | _ => some (static, doc)

def uploadDocuments (user : String) (active : List String) :
    Static → List Document → Option (Static × List Document)
  | static, [] => some (static, [])
  | static, doc :: docs =>
    (uploadDocument user active static doc).bind (fun (static, doc) =>
      (uploadDocuments user active static docs).map (fun (static, docs) => (static, doc :: docs)))

def beforeRabbitholeStoresDocuments (static : Static) (user : String) (docs : List Document) :
    Option (Static × List Document) :=
  (static.activeTags user).bind (fun active => uploadDocuments user active static docs)

/-- One iteration of `store_documents`: what is stored of the chunk, nothing where it is
empty. -/
def storeDocument (source : String) (time : Rat) (metadata : Fields) (doc : Document) :
    Option Json :=
  let stamped := setField (setField doc.metadata "source" (.str source)) "when"
    (.number (.float time))
  if doc.pageContent = "" then none
  else some (pointPayload doc.pageContent (setFields stamped metadata))

/-- `RabbitHole.store_documents`. A hook that raises is skipped. -/
def storeDocuments (static : Static) (user : String) (docs : List Document) (source : String)
    (clock : Nat → Rat) (metadata : Fields) : List (Option Json) :=
  let docs :=
    match beforeRabbitholeStoresDocuments static user docs with
    | some (_, docs) => docs
    | none => docs
  docs.mapIdx (fun d doc => storeDocument source (clock d) metadata doc)

def beforeCatRecallsDeclarativeMemories (static : Static) (user : String)
    (declarativeRecallConfig : Fields) : Option Fields :=
  (static.activeTags user).map (fun active =>
    setField declarativeRecallConfig "metadata" (.obj (userFlags active user)))

/-- `recall_memories_from_embedding` compiles the `metadata` of the recall config. -/
def recallFilter (config : Fields) : Option (List FieldCondition) :=
  qdrantFilterFromDict (fieldsOf (field? config "metadata"))

theorem userFlags_eq (active : List String) (user : String) :
    userFlags active user = setFields [] ((active ++ [user]).map (fun key => (key, .bool true))) := by
  simp [userFlags, setFields, List.foldl_map]

theorem mem_userFlags (active : List String) (user key : String) (value : Json) :
    (key, value) ∈ userFlags active user ↔ (key = user ∨ key ∈ active) ∧ value = .bool true := by
  have hflags : ∀ p ∈ (active ++ [user]).map (fun key => (key, Json.bool true)), p.2 = .bool true := by
    intro p hp
    obtain ⟨_, _, rfl⟩ := List.mem_map.mp hp
    rfl
  rw [userFlags_eq, mem_setFields_const hflags]
  simp [or_comm]

theorem userFlags_true {active : List String} {user : String} {p : String × Json}
    (h : p ∈ userFlags active user) : p.2 = .bool true :=
  ((mem_userFlags active user p.1 p.2).mp h).2

theorem field?_upload (metadata : Fields) (active : List String) (user key : String) :
    field? (setFields metadata (userFlags active user)) key =
      if key = user ∨ key ∈ active then some (.bool true) else field? metadata key := by
  rw [field?_setFields_const (fun p => userFlags_true) metadata key]
  simp [mem_userFlags]

/-- The document gets its flags, whatever happens to the file. -/
theorem uploadDocument_flags {user : String} {active : List String} {static after : Static}
    {doc flagged : Document}
    (h : uploadDocument user active static doc = some (after, flagged)) :
    flagged = { doc with metadata := setFields doc.metadata (userFlags active user) } := by
  simp only [uploadDocument] at h
  split at h
  · split at h
    · cases h
      rfl
    · obtain ⟨_, _, he⟩ := Option.map_eq_some_iff.mp h
      cases he
      rfl
  · cases h
    rfl

theorem uploadDocuments_flags {user : String} {active : List String} {static after : Static}
    {docs flagged : List Document}
    (h : uploadDocuments user active static docs = some (after, flagged)) :
    flagged = docs.map (fun doc =>
      { doc with metadata := setFields doc.metadata (userFlags active user) }) := by
  induction docs generalizing static flagged with
  | nil =>
    cases h
    rfl
  | cons doc docs ih =>
    obtain ⟨⟨static', doc'⟩, hdoc, hrest⟩ := Option.bind_eq_some_iff.mp h
    obtain ⟨⟨after', docs'⟩, hdocs, he⟩ := Option.map_eq_some_iff.mp hrest
    cases he
    rw [uploadDocument_flags hdoc, ih hdocs, List.map_cons]

end CheshireCat.Documents
