import CheshireCat.Base.Json

namespace CheshireCat.Documents
open Base Json

inductive IngestError where
  | keyError (key : String)
  | typeError
  | embedderMismatch (uploadEmbedder : Json) (catEmbedder : String)
  | sizeMismatch (embedderSize : Nat)
deriving DecidableEq

/-- The message of the two errors that the code raises itself, for an embedder with a name. -/
def IngestError.message? : IngestError → Option String
  | .embedderMismatch (.str uploadEmbedder) catEmbedder =>
    some ("Embedder mismatch: file embedder " ++ uploadEmbedder ++ " is different from " ++ catEmbedder)
  | .sizeMismatch embedderSize =>
    some ("Embedding size mismatch: vectors length should be " ++ toString embedderSize)
  | _ => none

/-- `value[key]` with a string. -/
def subscript (value : Json) (key : String) : Except IngestError Json :=
  match value with
  | .obj fields =>
    match field? fields key with
    | some v => .ok v
    | none => .error (.keyError key)
  | _ => .error .typeError

/-- What a `for` goes through: the elements, the keys or the characters. -/
def iterate : Json → Except IngestError (List Json)
  | .arr items => .ok items
  | .obj fields => .ok (fields.map (fun p => .str p.1))
  | .str s => .ok (s.toList.map (fun c => .str (String.singleton c)))
  | _ => .error .typeError

def len (value : Json) : Except IngestError Nat := (iterate value).map List.length

/-- The arguments of the upsert. -/
structure Batch where
  ids : List Json
  payloads : List (Json × Json)
  vectors : List Json
deriving DecidableEq

def payload (p : Json) : Except IngestError (Json × Json) := do
  let pageContent ← subscript p "page_content"
  let metadata ← subscript p "metadata"
  return (pageContent, metadata)

/-- `ingest_memory` from the loaded file on: the batch that it upserts, or the error. -/
def ingestMemory (catEmbedder : String) (embedderSize : Nat) (memories : Json) :
    Except IngestError Batch := do
  let uploadEmbedder ← subscript memories "embedder"
  if uploadEmbedder ≠ .str catEmbedder then
    throw (.embedderMismatch uploadEmbedder catEmbedder)
  let collections ← subscript memories "collections"
  let declarative ← subscript collections "declarative"
  let declarativeMemories ← iterate declarative
  let ids ← declarativeMemories.mapM (fun i => subscript i "id")
  let payloads ← declarativeMemories.mapM payload
  let vectors ← declarativeMemories.mapM (fun v => subscript v "vector")
  let lenMismatch ← vectors.mapM (fun v => (len v).map (fun n => decide (n = embedderSize)))
  if ¬ lenMismatch.any id then
    throw (.sizeMismatch embedderSize)
  return ⟨ids, payloads, vectors⟩

/-! ### Files with memories -/

/-- A memory as it is exported. -/
structure StoredMemory where
  id : Json
  pageContent : Json
  metadata : Json
  vector : List Json

/-- The item has the four fields of the memory. -/
structure StoredMemory.ReadFrom (item : Json) (m : StoredMemory) : Prop where
  id : subscript item "id" = .ok m.id
  pageContent : subscript item "page_content" = .ok m.pageContent
  metadata : subscript item "metadata" = .ok m.metadata
  vector : subscript item "vector" = .ok (.arr m.vector)

/-- A file of the embedder with these declarative memories. -/
structure MemoryFile (catEmbedder : String) (file : Json) (memories : List StoredMemory) : Prop where
  embedder : subscript file "embedder" = .ok (.str catEmbedder)
  declarative : ∃ collections items, subscript file "collections" = .ok collections ∧
    subscript collections "declarative" = .ok (.arr items) ∧
    List.Forall₂ StoredMemory.ReadFrom items memories

def batchOf (memories : List StoredMemory) : Batch where
  ids := memories.map StoredMemory.id
  payloads := memories.map (fun m => (m.pageContent, m.metadata))
  vectors := memories.map (fun m => .arr m.vector)

/-- The error is raised where some vector has another length, and otherwise everything is
upserted in order. -/
structure ChecksEveryVector (embedderSize : Nat) (memories : List StoredMemory)
    (result : Except IngestError Batch) : Prop where
  raises : result = .error (.sizeMismatch embedderSize) ↔
    ∃ m ∈ memories, m.vector.length ≠ embedderSize
  upserts : (∀ m ∈ memories, m.vector.length = embedderSize) → result = .ok (batchOf memories)

theorem map_except_of_forall₂ {α β ε γ : Type} {R : α → β → Prop} {f : α → Except ε γ} {g : β → γ}
    {l : List α} {l' : List β} (h : List.Forall₂ R l l') (hf : ∀ a b, R a b → f a = .ok (g b)) :
    l.mapM f = .ok (l'.map g) := by
  induction h with
  | nil => rfl
  | cons hab _ ih =>
    rw [List.mapM_cons, hf _ _ hab, ih]
    rfl

/-- What is left to decide for a file that is well formed. -/
theorem ingest_memory_eq {catEmbedder : String} {file : Json} {memories : List StoredMemory}
    (h : MemoryFile catEmbedder file memories) (embedderSize : Nat) :
    ingestMemory catEmbedder embedderSize file =
      if memories.any (fun m => m.vector.length = embedderSize) then .ok (batchOf memories)
      else .error (.sizeMismatch embedderSize) := by
  obtain ⟨collections, items, hcollections, hitems, hread⟩ := h.declarative
  have hids : items.mapM (fun i => subscript i "id") = .ok (memories.map StoredMemory.id) :=
    map_except_of_forall₂ hread (fun _ _ hm => hm.id)
  have hpayloads : items.mapM payload = .ok (memories.map (fun m => (m.pageContent, m.metadata))) := by
    apply map_except_of_forall₂ hread
    intro item m hm
    rw [payload, hm.pageContent, hm.metadata]
    rfl
  have hvectors : items.mapM (fun v => subscript v "vector") =
      .ok (memories.map (fun m => .arr m.vector)) :=
    map_except_of_forall₂ hread (fun _ _ hm => hm.vector)
  have hlengths : (memories.map (fun m => Json.arr m.vector)).mapM
      (fun v => (len v).map (fun n => decide (n = embedderSize))) =
      (.ok (memories.map (fun m => decide (m.vector.length = embedderSize))) :
        Except IngestError (List Bool)) := by
    rw [List.mapM_map]
    exact map_except_of_forall₂ (List.forall₂_same.mpr (fun m _ => rfl)) (fun a b hab => by cases hab; rfl)
  have hany : (memories.map (fun m => decide (m.vector.length = embedderSize))).any id =
      memories.any (fun m => m.vector.length = embedderSize) := by
    rw [List.any_map]
    rfl
  unfold ingestMemory
  simp only [bind, Except.bind, h.embedder, ne_eq, not_true_eq_false, if_false, hcollections, hitems,
    iterate, hids, hpayloads, hvectors, hlengths, hany]
  cases memories.any (fun m => m.vector.length = embedderSize) <;> rfl

/-- Every vector is checked exactly where there are vectors, and either all or none of them
have the size of the collection. -/
theorem ingest_memory_checks_iff {catEmbedder : String} {file : Json} {memories : List StoredMemory}
    (h : MemoryFile catEmbedder file memories) (embedderSize : Nat) :
    ChecksEveryVector embedderSize memories (ingestMemory catEmbedder embedderSize file) ↔
      memories ≠ [] ∧ ((∀ m ∈ memories, m.vector.length = embedderSize) ∨
        ∀ m ∈ memories, m.vector.length ≠ embedderSize) := by
  rw [ingest_memory_eq h]
  have hany : memories.any (fun m => m.vector.length = embedderSize) = true ↔
      ∃ m ∈ memories, m.vector.length = embedderSize := by
    simp
  constructor
  · intro hchecks
    split at hchecks
    · -- no error, so no vector is of another size
      rename_i hsome
      obtain ⟨m, hm, _⟩ := hany.mp hsome
      have hall : ∀ m ∈ memories, m.vector.length = embedderSize := by
        intro m hm
        by_contra hne
        cases hchecks.raises.mpr ⟨m, hm, hne⟩
      exact ⟨List.ne_nil_of_mem hm, Or.inl hall⟩
    · rename_i hnone
      obtain ⟨m, hm, _⟩ := hchecks.raises.mp rfl
      refine ⟨List.ne_nil_of_mem hm, Or.inr ?_⟩
      intro m hm heq
      exact hnone (hany.mpr ⟨m, hm, heq⟩)
  · rintro ⟨hne, hall | hno⟩
    · obtain ⟨m, hm⟩ := List.exists_mem_of_ne_nil memories hne
      rw [if_pos (hany.mpr ⟨m, hm, hall m hm⟩)]
      constructor
      · apply iff_of_false nofun
        rintro ⟨m, hm, hother⟩
        exact hother (hall m hm)
      · exact fun _ => rfl
    · obtain ⟨m, hm⟩ := List.exists_mem_of_ne_nil memories hne
      have hnone : ¬ memories.any (fun m => m.vector.length = embedderSize) = true := by
        rw [hany]
        rintro ⟨m, hm, heq⟩
        exact hno m hm heq
      rw [if_neg hnone]
      constructor
      · exact iff_of_true rfl ⟨m, hm, hno m hm⟩
      · exact fun hall => absurd (hall m hm) (hno m hm)

/-- A file of one collection, as it is exported. -/
def exportedFile (embedder : String) (memories : List StoredMemory) : Json :=
  .obj [("embedder", .str embedder), ("collections", .obj [("declarative",
    .arr (memories.map (fun m => .obj [("page_content", m.pageContent), ("metadata", m.metadata),
      ("id", m.id), ("vector", .arr m.vector)])))])]

def note (id : String) (size : Nat) : StoredMemory :=
  ⟨.str id, .str "test_memory", .obj [], List.replicate size (.number (.int 0))⟩

theorem exported_file (embedder : String) (memories : List StoredMemory) :
    MemoryFile embedder (exportedFile embedder memories) memories := by
  refine ⟨rfl, _, _, rfl, rfl, ?_⟩
  rw [List.forall₂_map_left_iff, List.forall₂_same]
  exact fun m _ => ⟨rfl, rfl, rfl, rfl⟩

theorem ingest_memory_checks_note :
    ChecksEveryVector 3 [note "1f" 3, note "2f" 3]
      (ingestMemory "DumbEmbedder" 3 (exportedFile "DumbEmbedder" [note "1f" 3, note "2f" 3])) :=
  (ingest_memory_checks_iff (exported_file _ _) 3).mpr ⟨by decide, Or.inl (by decide)⟩

/-- A file with one good vector is upserted as a whole, and one without memories is refused. -/
theorem mixed_vectors_upserted :
    ingestMemory "DumbEmbedder" 3 (exportedFile "DumbEmbedder" [note "1f" 3, note "2f" 9]) =
      .ok (batchOf [note "1f" 3, note "2f" 9]) ∧
    ingestMemory "DumbEmbedder" 3 (exportedFile "DumbEmbedder" []) = .error (.sizeMismatch 3) ∧
    ¬ ChecksEveryVector 3 [note "1f" 3, note "2f" 9]
      (ingestMemory "DumbEmbedder" 3 (exportedFile "DumbEmbedder" [note "1f" 3, note "2f" 9])) := by
  refine ⟨by decide, by decide, ?_⟩
  intro hchecks
  have hraised := hchecks.raises.mpr ⟨note "2f" 9, by simp, by decide⟩
  revert hraised
  decide

end CheshireCat.Documents
