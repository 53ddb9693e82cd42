import CheshireCat.Base.Dict
import CheshireCat.Base.Outcome

namespace CheshireCat.Memory
open Base

structure StoredCollection (P : Type) where
  size : Nat
  points : List P
deriving DecidableEq

/-- The vector database: the collections, and the collection that each alias names. -/
structure VectorDb (P : Type) where
  collections : Dict String (StoredCollection P) := .empty
  aliases : Dict String String := .empty
deriving DecidableEq

/-- The setting `CCAT_SAVE_MEMORY_SNAPSHOTS`, whether Qdrant is remote, and what saving a
snapshot raises. -/
structure DumpEnv where
  saveMemorySnapshots : Bool := false
  dbIsRemote : Bool := false
  snapshotError : Option String := none

/-- The arguments of `VectorMemoryCollection`. -/
structure CollectionArgs where
  collectionName : String
  embedderName : String
  embedderSize : Nat

section Client

variable {P : Type}

def VectorDb.getCollectionAliases (db : VectorDb P) (name : String) : List String :=
  (db.aliases.entries.filter (fun p => p.2 = name)).map Prod.fst

def VectorDb.deleteCollection (db : VectorDb P) (name : String) : VectorDb P where
  collections := db.collections.erase name
  aliases := db.aliases.removeWhere (fun c => c = name)

/-- The collection that was there is dropped, with its points and its aliases. -/
def VectorDb.recreateCollection (db : VectorDb P) (name : String) (size : Nat) : VectorDb P :=
  let db := db.deleteCollection name
  { db with collections := db.collections.set name ⟨size, []⟩ }

def VectorDb.createAlias (db : VectorDb P) (name : String) (aliasName : String) : VectorDb P :=
  { db with aliases := db.aliases.set aliasName name }

def CollectionArgs.aliasName (args : CollectionArgs) : String :=
  args.embedderName ++ "_" ++ args.collectionName

/-- `create_collection`. A process that stops after the first call leaves no alias. -/
def createCollection (args : CollectionArgs) (db : VectorDb P) : VectorDb P :=
  (db.recreateCollection args.collectionName args.embedderSize).createAlias
    args.collectionName args.aliasName

def createDbCollectionIfNotExists (args : CollectionArgs) (db : VectorDb P) : VectorDb P :=
  if args.collectionName ∈ db.collections.keys then db else createCollection args db

/-- What `save_dump` raises where the dump is made. -/
def DumpEnv.dumpError (env : DumpEnv) : Option String :=
  if env.saveMemorySnapshots && env.dbIsRemote then env.snapshotError else none

def checkEmbeddingSize (env : DumpEnv) (args : CollectionArgs) (db : VectorDb P) :
    Outcome (VectorDb P) :=
  match db.collections.get? args.collectionName with
  | none => .raised "Not found: Collection" db
  | some c =>
    let sameSize := c.size = args.embedderSize
    match db.getCollectionAliases args.collectionName with
    | [] => .raised "IndexError" db
    | first :: _ =>
      if args.aliasName = first ∧ sameSize then .returned db
      else match env.dumpError with
        | some error => .raised error db
        | none => .returned (createCollection args (db.deleteCollection args.collectionName))

/-- `VectorMemoryCollection.__init__`. -/
def openCollection (env : DumpEnv) (args : CollectionArgs) (db : VectorDb P) :
    Outcome (VectorDb P) :=
  checkEmbeddingSize env args (createDbCollectionIfNotExists args db)

/-! ### Opening -/

/-- The points that the embedder may go on with. -/
def CollectionArgs.compatible (args : CollectionArgs) (db : VectorDb P) : List P :=
  match db.collections.get? args.collectionName with
  | some c =>
    if c.size = args.embedderSize ∧ args.aliasName ∈ db.getCollectionAliases args.collectionName then
      c.points
    else []
  | none => []

/-- The constructor returns with a collection of the embedder that has the compatible points. -/
def Opens (args : CollectionArgs) (db : VectorDb P) (o : Outcome (VectorDb P)) : Prop :=
  ∃ t c, o = .returned t ∧ t.collections.get? args.collectionName = some c ∧
    c.size = args.embedderSize ∧ args.aliasName ∈ t.getCollectionAliases args.collectionName ∧
    c.points = args.compatible db

/-- A collection that is there has an alias, the wanted one is not behind another one of a
collection with points of the size, and where it has to be dropped its dump does not fail. -/
def FirstAliasDecides (env : DumpEnv) (args : CollectionArgs) (db : VectorDb P) : Prop :=
  ∀ c, db.collections.get? args.collectionName = some c →
    ∃ first rest, db.getCollectionAliases args.collectionName = first :: rest ∧
      (c.size = args.embedderSize → args.aliasName ∈ rest → c.points = []) ∧
      (¬ (args.aliasName = first ∧ c.size = args.embedderSize) → env.dumpError = none)

variable {env : DumpEnv} {args : CollectionArgs} {db : VectorDb P}

theorem mem_aliases_iff (db : VectorDb P) (name a : String) :
    a ∈ db.getCollectionAliases name ↔ db.aliases.get? a = some name := by
  unfold VectorDb.getCollectionAliases
  rw [Dict.get?_eq_some_iff]
  simp

theorem created (args : CollectionArgs) (db : VectorDb P) :
    (createCollection args db).collections.get? args.collectionName = some ⟨args.embedderSize, []⟩ :=
  Dict.get?_set_self _ _ _

theorem aliases_nodup (db : VectorDb P) (name : String) : (db.getCollectionAliases name).Nodup :=
  db.aliases.distinct.sublist (List.filter_sublist.map Prod.fst)

/-- A new collection has the one alias. -/
theorem created_aliases (args : CollectionArgs) (db : VectorDb P) :
    (createCollection args db).getCollectionAliases args.collectionName = [args.aliasName] := by
  apply List.perm_singleton.mp
  rw [List.perm_ext_iff_of_nodup (aliases_nodup _ _) (List.nodup_singleton _)]
  intro a
  rw [mem_aliases_iff, List.mem_singleton, createCollection, VectorDb.createAlias, Dict.get?_set]
  split
  · rename_i ha
    exact iff_of_true rfl ha
  · rename_i ha
    apply iff_of_false _ ha
    -- the aliases that are left name other collections
    intro hold
    have hmem := (Dict.get?_eq_some_iff _ _ _).mp hold
    simp [VectorDb.recreateCollection, VectorDb.deleteCollection, Dict.removeWhere] at hmem

theorem created_opens (args : CollectionArgs) (db t : VectorDb P) (h : args.compatible db = []) :
    Opens args db (.returned (createCollection args t)) := by
  refine ⟨_, _, rfl, created args t, rfl, ?_, h.symm⟩
  rw [created_aliases]
  exact List.mem_singleton_self _

/-- A collection that was created passes the check. -/
theorem created_checked (env : DumpEnv) (args : CollectionArgs) (db : VectorDb P) :
    checkEmbeddingSize env args (createCollection args db) = .returned (createCollection args db) := by
  unfold checkEmbeddingSize
  rw [created, created_aliases]
  exact if_pos ⟨rfl, rfl⟩

theorem opens_absent (h : db.collections.get? args.collectionName = none) :
    Opens args db (openCollection env args db) := by
  have hkeys : args.collectionName ∉ db.collections.keys := by
    rw [Dict.mem_keys_iff, h]
    exact fun hx => Option.some_ne_none _ hx.choose_spec.symm
  have hnone : args.compatible db = [] := by
    rw [CollectionArgs.compatible, h]
  rw [openCollection, createDbCollectionIfNotExists, if_neg hkeys, created_checked]
  exact created_opens args db db hnone

/-- How a collection that is there is opened. -/
theorem open_present {c : StoredCollection P} {first : String} {rest : List String}
    (h : db.collections.get? args.collectionName = some c)
    (haliases : db.getCollectionAliases args.collectionName = first :: rest) :
    openCollection env args db =
      if args.aliasName = first ∧ c.size = args.embedderSize then .returned db
      else match env.dumpError with
        | some error => .raised error db
        | none => .returned (createCollection args (db.deleteCollection args.collectionName)) := by
  have hkeys : args.collectionName ∈ db.collections.keys := (Dict.mem_keys_iff _ _).mpr ⟨c, h⟩
  rw [openCollection, createDbCollectionIfNotExists, if_pos hkeys, checkEmbeddingSize, h, haliases]

theorem opens_present_iff {c : StoredCollection P} {first : String} {rest : List String}
    (h : db.collections.get? args.collectionName = some c)
    (haliases : db.getCollectionAliases args.collectionName = first :: rest) :
    Opens args db (openCollection env args db) ↔
      (c.size = args.embedderSize → args.aliasName ∈ rest → c.points = []) ∧
      (¬ (args.aliasName = first ∧ c.size = args.embedderSize) → env.dumpError = none) := by
  have hfirst : first ∉ rest := by
    have hnodup := aliases_nodup db args.collectionName
    rw [haliases] at hnodup
    exact (List.nodup_cons.mp hnodup).1
  have hcompatible : args.compatible db =
      if c.size = args.embedderSize ∧ args.aliasName ∈ first :: rest then c.points else [] := by
    rw [CollectionArgs.compatible, h, haliases]
  rw [open_present h haliases]
  by_cases hkept : args.aliasName = first ∧ c.size = args.embedderSize
  · obtain ⟨ha, hsize⟩ := hkept
    have hmem : args.aliasName ∈ first :: rest := ha ▸ List.mem_cons_self
    rw [if_pos ⟨ha, hsize⟩]
    apply iff_of_true
    · refine ⟨db, c, rfl, h, hsize, haliases ▸ hmem, ?_⟩
      rw [hcompatible, if_pos ⟨hsize, hmem⟩]
    · exact ⟨fun _ hrest => absurd (ha ▸ hrest) hfirst, fun hno => absurd ⟨ha, hsize⟩ hno⟩
  · rw [if_neg hkept]
    have hdropped : args.compatible db = [] ↔
        (c.size = args.embedderSize → args.aliasName ∈ rest → c.points = []) := by
      rw [hcompatible]
      split
      · rename_i hold
        obtain ⟨hsize, hmem⟩ := hold
        have hrest : args.aliasName ∈ rest :=
          (List.mem_cons.mp hmem).resolve_left (fun ha => hkept ⟨ha, hsize⟩)
        exact ⟨fun hnil _ _ => hnil, fun hnil => hnil hsize hrest⟩
      · rename_i hold
        exact iff_of_true rfl (fun hsize hrest => absurd ⟨hsize, List.mem_cons_of_mem _ hrest⟩ hold)
    cases hdump : env.dumpError with
    | some error =>
      apply iff_of_false
      · rintro ⟨t, c', hreturned, _⟩
        cases hreturned
      · rintro ⟨_, hnone⟩
        cases hnone hkept
    | none =>
      rw [← hdropped]
      constructor
      · rintro ⟨t, c', hreturned, hget, _, _, hpoints⟩
        cases hreturned
        rw [created] at hget
        cases hget
        exact ⟨hpoints.symm, fun _ => rfl⟩
      · rintro ⟨hnil, _⟩
        exact created_opens args db _ hnil

/-- Opening a collection succeeds and keeps what is compatible exactly where its first alias
tells whether it is. -/
theorem opens_iff (env : DumpEnv) (args : CollectionArgs) (db : VectorDb P) :
    Opens args db (openCollection env args db) ↔ FirstAliasDecides env args db := by
  cases hget : db.collections.get? args.collectionName with
  | none =>
    apply iff_of_true (opens_absent hget)
    intro c hc
    rw [hget] at hc
    cases hc
  | some c =>
    cases haliases : db.getCollectionAliases args.collectionName with
    | nil =>
      have hkeys : args.collectionName ∈ db.collections.keys := (Dict.mem_keys_iff _ _).mpr ⟨c, hget⟩
      apply iff_of_false
      · rintro ⟨t, c', hreturned, _⟩
        rw [openCollection, createDbCollectionIfNotExists, if_pos hkeys, checkEmbeddingSize, hget,
          haliases] at hreturned
        cases hreturned
      · intro hdecides
        obtain ⟨first, rest, hsome, _⟩ := hdecides c hget
        rw [haliases] at hsome
        cases hsome
    | cons first rest =>
      rw [opens_present_iff hget haliases]
      constructor
      · intro hconds c' hc'
        rw [hget] at hc'
        cases hc'
        exact ⟨first, rest, haliases, hconds⟩
      · intro hdecides
        obtain ⟨first', rest', hsame, hconds⟩ := hdecides c hget
        rw [haliases] at hsame
        cases hsame
        exact hconds

end Client

def declarativeArgs : CollectionArgs := ⟨"declarative", "dumb", 3⟩

/-- What a process leaves that stops between the two calls of `create_collection`. -/
def interruptedDb : VectorDb String := VectorDb.recreateCollection {} "declarative" 3

/-- A collection of the embedder that has got another alias before. -/
def renamedDb : VectorDb String where
  collections := Dict.ofList [("declarative", ⟨3, ["the cat says miao"]⟩)]
  aliases := Dict.ofList [("backup", "declarative"), ("dumb_declarative", "declarative")]

/-- The interrupted creation cannot be opened any more, and the points of the embedder are
dropped where its alias is the second one. -/
theorem interrupted_not_opened :
    openCollection {} declarativeArgs interruptedDb = .raised "IndexError" interruptedDb ∧
    declarativeArgs.compatible renamedDb = ["the cat says miao"] ∧
    ((openCollection {} declarativeArgs renamedDb).state.collections.get? "declarative").map
      StoredCollection.points = some [] ∧
    ¬ Opens declarativeArgs interruptedDb (openCollection {} declarativeArgs interruptedDb) := by
  refine ⟨rfl, by decide, by decide, ?_⟩
  rintro ⟨t, c, hreturned, _⟩
  cases hreturned

end CheshireCat.Memory
