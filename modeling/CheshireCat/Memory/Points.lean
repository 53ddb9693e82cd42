import CheshireCat.Base.Runs
import CheshireCat.Memory.Filter

namespace CheshireCat.Memory
open Base Json

/-- A point as Qdrant stores it, the payload in its two parts. -/
structure Point (V : Type) where
  pageContent : String
  metadata : Fields
  vector : V
deriving DecidableEq

/-- The points of each collection, under their ids. -/
abbrev Collections (ι V : Type) := Dict String (Dict ι (Point V))

inductive Failure where
  | http (statusCode : Nat) (error : String)
  | raised (error : String)
deriving DecidableEq

/-- What the embedder, the clock, `uuid4` and Qdrant answer during a request, and who sends it. -/
structure Context (V : Type) where
  userId : String
  embedQuery : String → Except String V
  time : Rat
  uuid4 : String
  completed : Bool

inductive Response (V : Type) where
  | point (id content : String) (metadata : Fields) (vector : V)
  | deleted (pointId : String)
  | deletedByMetadata

inductive PointRequest (V : Type) where
  | createMemoryPoint (ctx : Context V) (collectionId content : String) (metadata : Fields)
  | editMemoryPoint (ctx : Context V) (collectionId pointId content : String) (metadata : Fields)
  | deleteMemoryPoint (collectionId pointId : String)
  | deleteMemoryPointsByMetadata (collectionId : String) (metadata : Fields)

def procedural : String := "procedural"

def readOnly : Failure := .http 400 "Procedural memory is read-only."

def noCollection : Failure := .http 400 "Collection does not exist."

def noPoint : Failure := .http 400 "Point does not exist."

/-- `MatchValue` takes a bool, an int or a string. -/
def FieldCondition.valid (c : FieldCondition) : Bool :=
  match c.value with
  | .bool _ | .number (.int _) | .str _ => true
  | _ => false

def Point.matches {V : Type} (filter : List FieldCondition) (point : Point V) : Bool :=
  matchesFilter (some filter) (pointPayload point.pageContent point.metadata)

/-- The metadata with a source and a time. -/
def ensureMetadata {V : Type} (ctx : Context V) (metadata : Fields) : Fields :=
  let metadata := if ((field? metadata "source").getD .null).truthy then metadata
    else setField metadata "source" (.str ctx.userId)
  if ((field? metadata "when").getD .null).truthy then metadata
  else setField metadata "when" (.number (.float ctx.time))

section Endpoints

variable {ι V : Type} [DecidableEq ι]

/-- `add_point`, and the answer made from what it returns. The identifier that a string
stands for, or the error with which Qdrant refuses it, is given by `pointId`. -/
def addPoint (pointId : String → Except String ι) (ctx : Context V) (db : Collections ι V)
    (collectionId : String) (id : Option String) (point : Point V) :
    Except Failure (Response V) × Collections ι V :=
  let id := (id.filter (fun id => id ≠ "")).getD ctx.uuid4
  match pointId id, db.get? collectionId with
  | .error error, _ => (.error (.raised error), db)
  | .ok _, none => (.error (.raised "KeyError"), db)
  | .ok i, some points =>
    let db := db.set collectionId (points.set i point)
    if ctx.completed then (.ok (.point id point.pageContent point.metadata point.vector), db)
    else (.error (.raised "AttributeError"), db)

def createMemoryPoint (pointId : String → Except String ι) (ctx : Context V)
    (db : Collections ι V) (collectionId content : String) (metadata : Fields) :
    Except Failure (Response V) × Collections ι V :=
  if collectionId = procedural then (.error readOnly, db)
  else if collectionId ∉ db.keys then (.error noCollection, db)
  else match ctx.embedQuery content with
    | .error error => (.error (.raised error), db)
    | .ok vector =>
      addPoint pointId ctx db collectionId none ⟨content, ensureMetadata ctx metadata, vector⟩

def editMemoryPoint (pointId : String → Except String ι) (ctx : Context V)
    (db : Collections ι V) (collectionId id content : String) (metadata : Fields) :
    Except Failure (Response V) × Collections ι V :=
  if collectionId = procedural then (.error readOnly, db)
  else match db.get? collectionId, pointId id with
    | none, _ => (.error noCollection, db)
    | some _, .error error => (.error (.raised error), db)
    | some points, .ok i =>
      if i ∉ points.keys then (.error noPoint, db)
      else match ctx.embedQuery content with
        | .error error => (.error (.raised error), db)
        | .ok vector =>
          addPoint pointId ctx db collectionId (some id)
            ⟨content, ensureMetadata ctx metadata, vector⟩

/-- The procedural collection is not asked for here. -/
def deleteMemoryPoint (pointId : String → Except String ι) (db : Collections ι V)
    (collectionId id : String) : Except Failure (Response V) × Collections ι V :=
  match db.get? collectionId, pointId id with
  | none, _ => (.error noCollection, db)
  | some _, .error error => (.error (.raised error), db)
  | some points, .ok i =>
    if i ∉ points.keys then (.error noPoint, db)
    else (.ok (.deleted id), db.set collectionId (points.erase i))

/-- `delete_points_by_metadata_filter`. Without a filter the client raises. -/
def deletePointsByMetadataFilter (points : Dict ι (Point V)) (metadata : Fields) :
    Except String (Dict ι (Point V)) :=
  match qdrantFilterFromDict metadata with
  | none => .error "Unsupported points selector type"
  | some filter =>
    if filter.all FieldCondition.valid then .ok (points.removeWhere (Point.matches filter))
    else .error "ValidationError"

def deleteMemoryPointsByMetadata (db : Collections ι V) (collectionId : String)
    (metadata : Fields) : Except Failure (Response V) × Collections ι V :=
  match db.get? collectionId with
  | none => (.error (.raised "KeyError"), db)
  | some points =>
    match deletePointsByMetadataFilter points metadata with
    | .error error => (.error (.raised error), db)
    | .ok points => (.ok .deletedByMetadata, db.set collectionId points)

def serve (pointId : String → Except String ι) (db : Collections ι V) :
    PointRequest V → Except Failure (Response V) × Collections ι V
  | .createMemoryPoint ctx collectionId content metadata =>
    createMemoryPoint pointId ctx db collectionId content metadata
  | .editMemoryPoint ctx collectionId id content metadata =>
    editMemoryPoint pointId ctx db collectionId id content metadata
  | .deleteMemoryPoint collectionId id => deleteMemoryPoint pointId db collectionId id
  | .deleteMemoryPointsByMetadata collectionId metadata =>
    deleteMemoryPointsByMetadata db collectionId metadata

/-! ### The procedural collection -/

/-- The request deletes a procedural point: by its id, or by a filter that it matches. -/
def RemovesProcedural (pointId : String → Except String ι) (db : Collections ι V) :
    PointRequest V → Prop
  | .deleteMemoryPoint collectionId id => collectionId = procedural ∧
      ∃ points i, db.get? procedural = some points ∧ pointId id = .ok i ∧ i ∈ points.keys
  | .deleteMemoryPointsByMetadata collectionId metadata => collectionId = procedural ∧
      ∃ points filter, db.get? procedural = some points ∧
        qdrantFilterFromDict metadata = some filter ∧ filter.all FieldCondition.valid = true ∧
        ∃ point ∈ points.values, point.matches filter = true
  | _ => False

/-- A request always leaves the collections in some state, also where it fails. -/
def next (pointId : String → Except String ι) (db : Collections ι V) (r : PointRequest V) :
    Option (Collections ι V) :=
  some (serve pointId db r).2

variable {pointId : String → Except String ι} {db : Collections ι V}

theorem add_point_other (ctx : Context V) {collectionId : String} (id : Option String)
    (point : Point V) (h : collectionId ≠ procedural) :
    (addPoint pointId ctx db collectionId id point).2.get? procedural = db.get? procedural := by
  unfold addPoint
  dsimp only
  split
  · rfl
  · rfl
  · split <;> exact Dict.get?_set_other _ _ h.symm

theorem create_procedural (ctx : Context V) (collectionId content : String) (metadata : Fields) :
    (createMemoryPoint pointId ctx db collectionId content metadata).2.get? procedural =
      db.get? procedural := by
  unfold createMemoryPoint
  split
  · rfl
  · rename_i hother
    split
    · rfl
    · split
      · rfl
      · exact add_point_other ctx none _ hother

theorem edit_procedural (ctx : Context V) (collectionId id content : String) (metadata : Fields) :
    (editMemoryPoint pointId ctx db collectionId id content metadata).2.get? procedural =
      db.get? procedural := by
  unfold editMemoryPoint
  split
  · rfl
  · rename_i hother
    split
    · rfl
    · rfl
    · split
      · rfl
      · split
        · rfl
        · exact add_point_other ctx (some id) _ hother

omit [DecidableEq ι] in
/-- Points that are put back into a collection change the procedural ones where that is the
collection and they are other points. -/
theorem set_procedural_iff {collectionId : String} {points points' : Dict ι (Point V)}
    (hget : db.get? collectionId = some points) :
    (db.set collectionId points').get? procedural = db.get? procedural ↔
      (collectionId = procedural → points' = points) := by
  rw [Dict.get?_set]
  split
  · rename_i hc
    subst hc
    rw [hget]
    simp
  · rename_i hc
    exact iff_of_true rfl (fun he => absurd he.symm hc)

theorem delete_procedural_iff (collectionId id : String) :
    (deleteMemoryPoint pointId db collectionId id).2.get? procedural = db.get? procedural ↔
      ¬ RemovesProcedural pointId db (.deleteMemoryPoint collectionId id) := by
  unfold deleteMemoryPoint RemovesProcedural
  cases hget : db.get? collectionId with
  | none =>
    apply iff_of_true rfl
    rintro ⟨rfl, points, i, hpoints, _⟩
    rw [hget] at hpoints
    cases hpoints
  | some points =>
    cases hid : pointId id with
    | error error =>
      apply iff_of_true rfl
      rintro ⟨_, _, i, _, hi, _⟩
      rw [hid] at hi
      cases hi
    | ok i =>
      dsimp only
      split
      · rename_i habsent
        apply iff_of_true rfl
        rintro ⟨rfl, points', i', hpoints, hi, hstored⟩
        rw [hget] at hpoints
        rw [hid] at hi
        cases hpoints
        cases hi
        exact habsent hstored
      · rename_i hstored
        rw [set_procedural_iff hget, Dict.erase_eq_self_iff, not_not] at *
        constructor
        · rintro hkept ⟨hc, _⟩
          exact hkept hc hstored
        · intro hnone hc
          subst hc
          exact absurd ⟨rfl, points, i, hget, hid, hstored⟩ hnone

omit [DecidableEq ι] in
theorem delete_by_metadata_procedural_iff (collectionId : String) (metadata : Fields) :
    (deleteMemoryPointsByMetadata db collectionId metadata).2.get? procedural =
        db.get? procedural ↔
      ¬ RemovesProcedural pointId db (.deleteMemoryPointsByMetadata collectionId metadata) := by
  unfold deleteMemoryPointsByMetadata RemovesProcedural
  cases hget : db.get? collectionId with
  | none =>
    apply iff_of_true rfl
    rintro ⟨rfl, points, filter, hpoints, _⟩
    rw [hget] at hpoints
    cases hpoints
  | some points =>
    unfold deletePointsByMetadataFilter
    cases hfilter : qdrantFilterFromDict metadata with
    | none =>
      apply iff_of_true rfl
      rintro ⟨_, _, filter, _, hf, _⟩
      rw [hfilter] at hf
      cases hf
    | some filter =>
      dsimp only
      by_cases hvalid : filter.all FieldCondition.valid = true
      · rw [if_pos hvalid, set_procedural_iff hget, Dict.removeWhere_eq_self_iff]
        constructor
        · rintro hkept ⟨hc, points', filter', hpoints, hf, _, point, hpoint, hmatch⟩
          subst hc
          rw [hget] at hpoints
          rw [hfilter] at hf
          cases hpoints
          cases hf
          rw [hkept rfl point hpoint] at hmatch
          cases hmatch
        · intro hnone hc point hpoint
          subst hc
          rw [← Bool.not_eq_true]
          intro hmatch
          exact hnone ⟨rfl, points, filter, hget, hfilter, hvalid, point, hpoint, hmatch⟩
      · rw [if_neg hvalid]
        apply iff_of_true rfl
        rintro ⟨_, _, filter', _, hf, hv, _⟩
        rw [hfilter] at hf
        cases hf
        exact hvalid hv

theorem serve_procedural_iff (r : PointRequest V) :
    (serve pointId db r).2.get? procedural = db.get? procedural ↔
      ¬ RemovesProcedural pointId db r := by
  cases r with
  | createMemoryPoint ctx collectionId content metadata =>
    exact iff_of_true (create_procedural ctx collectionId content metadata) id
  | editMemoryPoint ctx collectionId pointId content metadata =>
    exact iff_of_true (edit_procedural ctx collectionId pointId content metadata) id
  | deleteMemoryPoint collectionId pointId => exact delete_procedural_iff collectionId pointId
  | deleteMemoryPointsByMetadata collectionId metadata =>
    exact delete_by_metadata_procedural_iff collectionId metadata

/-- Every state of a run has the procedural points of the start exactly when no request
deletes one. -/
theorem procedural_kept_iff (pointId : String → Except String ι) (db : Collections ι V)
    (requests : List (PointRequest V)) :
    (∀ p, p <+: requests → ∀ t : Collections ι V, run (next pointId) db p = some t →
      t.get? procedural = db.get? procedural) ↔
    Meets (next pointId) (fun s r => ¬ RemovesProcedural pointId s r) db requests := by
  refine keeps_iff_meets (I := fun t : Collections ι V => t.get? procedural = db.get? procedural) ?_ rfl
  intro s r hs
  rw [← serve_procedural_iff, ← hs]
  simp [next]

end Endpoints

/-- A tool as it is embedded, the only point of the procedural collection. -/
def toolPoints : Collections String Unit :=
  Dict.ofList [(procedural, Dict.ofList [("7f0c", ⟨"what time is it",
    [("source", .str "get_the_time"), ("type", .str "tool"),
      ("trigger_type", .str "description")], ()⟩)])]

/-- It is deleted by its id, and by a part of its metadata. -/
theorem tool_point_deleted :
    (run (next Except.ok) toolPoints [.deleteMemoryPoint procedural "7f0c"]).map
      (fun t => t.get? procedural) = some (some Dict.empty) ∧
    (run (next Except.ok) toolPoints
        [.deleteMemoryPointsByMetadata procedural [("type", .str "tool")]]).map
      (fun t => t.get? procedural) = some (some Dict.empty) ∧
    toolPoints.get? procedural ≠ some Dict.empty := by
  decide +kernel

end CheshireCat.Memory
