import CheshireCat.Base.Pages
import CheshireCat.Memory.Points

/-! The points of a collection, page by page. -/

namespace CheshireCat.Memory
open Base Json

variable {ι V : Type} [LinearOrder ι]

/-- What Qdrant goes through in the order of the ids, and the ids in requests and answers. -/
structure Scroller (ι V : Type) [LinearOrder ι] where
  scroll : Dict ι (Point V) → Int → Option ι → Except String (Page ι (Point V))
  pointId : String → Except String ι
  printId : ι → String
  isPage : ∀ (points : Dict ι (Point V)) (limit : Nat) (offset : Option ι), 0 < limit →
    ∃ page, scroll points limit offset = .ok page ∧ IsPage points.entries limit offset page

variable (scroller : Scroller ι V)

def getAllPoints (points : Dict ι (Point V)) (limit : Int) (offset : Option String) :
    Except String (Page ι (Point V)) :=
  match offset with
  | none => scroller.scroll points limit none
  | some offset => do scroller.scroll points limit (some (← scroller.pointId offset))

def notReadable : Failure := .http 400 "Procedural memory is not readable via API"

def getPointsInCollection (db : Collections ι V) (collectionId : String) (limit : Int)
    (offset : Option String) : Except Failure (List (ι × Point V) × Option String) :=
  if collectionId = procedural then .error notReadable
  else match db.get? collectionId with
    | none => .error noCollection
    | some points =>
      match getAllPoints scroller points limit (if offset = some "" then none else offset) with
      | .error error => .error (.raised error)
      | .ok page => .ok (page.items, page.next.map scroller.printId)

inductive Outcome where
  | waiting
  | finished
  | failed (failure : Failure)
deriving DecidableEq

/-- The client of the docstring. Each of its requests meets the collections as they are by then. -/
def readAll (collectionId : String) (limit : Int) :
    String → List (Collections ι V) → List (List (ι × Point V)) × Outcome
  | _, [] => ([], .waiting)
  | nextOffset, db :: dbs =>
    match getPointsInCollection scroller db collectionId limit (some nextOffset) with
    | .error failure => ([], .failed failure)
    | .ok (points, none) => ([points], .finished)
    | .ok (points, some nextOffset) =>
      let (pages, outcome) := readAll collectionId limit nextOffset dbs
      (points :: pages, outcome)

/-- An id that a client sends back is read as it was. -/
def Readable (id : ι) : Prop := scroller.pointId (scroller.printId id) = .ok id ∧ scroller.printId id ≠ ""

variable {scroller} {collectionId : String} {limit : Nat}

/-- A request for what follows the offset gets a page. -/
theorem get_points_page (hlimit : 0 < limit) (hreadable : collectionId ≠ procedural) {db : Collections ι V}
    {points : Dict ι (Point V)} (hpoints : db.get? collectionId = some points) {nextOffset : String}
    {offset : Option ι} (hoffset : nextOffset = "" ∧ offset = none ∨
      ∃ id, offset = some id ∧ nextOffset = scroller.printId id ∧ Readable scroller id) :
    ∃ page, IsPage points.entries limit offset page ∧
      getPointsInCollection scroller db collectionId limit (some nextOffset) =
        .ok (page.items, page.next.map scroller.printId) := by
  obtain ⟨page, hscroll, hpage⟩ := scroller.isPage points limit offset hlimit
  refine ⟨page, hpage, ?_⟩
  rw [getPointsInCollection, if_neg hreadable, hpoints]
  dsimp only
  obtain ⟨rfl, rfl⟩ | ⟨id, rfl, rfl, hid, hne⟩ := hoffset
  · rw [if_pos rfl, getAllPoints, hscroll]
  · rw [if_neg (fun h => hne (Option.some.inj h)), getAllPoints, hid]
    change (match scroller.scroll points limit (some id) with | .error error => _ | .ok page => _) = _
    rw [hscroll]

/-- The client reads as a reader of pages does. -/
theorem read_all_browses (hlimit : 0 < limit) (hreadable : collectionId ≠ procedural)
    {dbs : List (Collections ι V)} {found : List (Dict ι (Point V))}
    (hfound : List.Forall₂ (fun db points => db.get? collectionId = some points) dbs found)
    (hids : ∀ points ∈ found, ∀ id ∈ points.keys, Readable scroller id) {nextOffset : String}
    {offset : Option ι} (hoffset : nextOffset = "" ∧ offset = none ∨
      ∃ id, offset = some id ∧ nextOffset = scroller.printId id ∧ Readable scroller id) :
    ∃ pages finished, Browses limit offset (found.map Dict.entries) pages finished ∧
      readAll scroller collectionId limit nextOffset dbs =
        (pages.map Page.items, if finished then .finished else .waiting) := by
  induction hfound generalizing nextOffset offset with
  | nil => exact ⟨[], false, .waiting offset, rfl⟩
  | @cons db points dbs found hpoints hrest ih =>
    obtain ⟨page, hpage, hget⟩ := get_points_page hlimit hreadable hpoints hoffset
    rw [readAll, hget]
    cases hnext : page.next with
    | none => exact ⟨[page], true, .last _ hpage hnext, rfl⟩
    | some id =>
      obtain ⟨_, _, hthere, _⟩ := hpage.next id hnext
      have hid : Readable scroller id := hids points List.mem_cons_self id hthere
      obtain ⟨pages, finished, hbrowses, hread⟩ := ih
        (fun points hmem => hids points (List.mem_cons_of_mem _ hmem)) (Or.inr ⟨id, rfl, rfl, hid⟩)
      refine ⟨page :: pages, finished, .more hpage hnext hbrowses, ?_⟩
      simp only [Option.map_some, hread, List.map_cons]

/-- Whatever happens to the collection between his requests, the client gets no point twice and only
points that were there, and at the end he has got every one that was there all the time. He waits no longer
than there are other points to be read. Left alone, the collection is read in as few pages as can be. -/
theorem all_points_read (hlimit : 0 < limit) (hreadable : collectionId ≠ procedural)
    {dbs : List (Collections ι V)} {found : List (Dict ι (Point V))}
    (hfound : List.Forall₂ (fun db points => db.get? collectionId = some points) dbs found)
    (hids : ∀ points ∈ found, ∀ id ∈ points.keys, Readable scroller id) :
    let (pages, outcome) := readAll scroller collectionId limit "" dbs
    (pages.flatten.map Prod.fst).Pairwise (· < ·) ∧
    List.Forall₂ (fun page points => ∀ p ∈ page, p ∈ points.entries) pages (found.take pages.length) ∧
    (outcome = .finished ∧
        (∀ id, (∀ points ∈ found, id ∈ points.keys) → id ∈ pages.flatten.map Prod.fst) ∧
        (∀ points, (∀ other ∈ found, other = points) → pages.flatten.Perm points.entries ∧
          pages.length = max 1 ((points.entries.length + limit - 1) / limit)) ∨
      outcome = .waiting ∧ (dbs ≠ [] → ∀ ids : List ι, (∀ points ∈ found, points.keys ⊆ ids) →
        dbs.length * limit < ids.length)) := by
  obtain ⟨pages, finished, hbrowses, hread⟩ :=
    read_all_browses hlimit hreadable hfound hids (Or.inl ⟨rfl, rfl⟩)
  have hflat : (pages.map Page.items).flatten = pages.flatMap Page.items := rfl
  rw [hread]
  dsimp only
  rw [hflat, Browses.map_fst_items]
  refine ⟨hbrowses.sorted, ?_, ?_⟩
  · rw [List.length_map, List.forall₂_map_left_iff]
    have hthere := hbrowses.found
    rw [← List.map_take, List.forall₂_map_right_iff] at hthere
    exact hthere
  · cases finished with
    | true =>
      refine Or.inl ⟨rfl, fun id hid => ?_, fun points hquiet => ?_⟩
      · apply hbrowses.complete nofun
        intro entries hentries
        obtain ⟨points, hpoints, rfl⟩ := List.mem_map.mp hentries
        exact hid points hpoints
      · rw [List.length_map]
        apply hbrowses.quiet hlimit _ points.distinct
        intro entries hentries
        obtain ⟨other, hother, rfl⟩ := List.mem_map.mp hentries
        rw [hquiet other hother]
    | false =>
      refine Or.inr ⟨rfl, fun hne ids hsub => ?_⟩
      have hlength : (found.map Dict.entries).length = dbs.length := by
        rw [List.length_map, hfound.length_eq]
      rw [← hlength]
      refine hbrowses.waits (List.ne_nil_of_length_pos ?_) ?_
      · rw [hlength]
        exact List.length_pos_of_ne_nil hne
      · intro entries hentries p hp
        obtain ⟨points, hpoints, rfl⟩ := List.mem_map.mp hentries
        exact hsub points hpoints (List.mem_map_of_mem hp)

/-- Ids that are written as so many strokes. -/
def strokes : Scroller Nat Unit where
  scroll points limit offset := .ok (pageOf points.entries limit.toNat offset)
  pointId text := .ok (text.length - 1)
  printId id := String.ofList (List.replicate (id + 1) 'I')
  isPage points limit offset _ := ⟨_, rfl, page_of_is_page points.distinct limit offset⟩

theorem strokes_readable (id : Nat) : Readable strokes id := by
  have hne : String.ofList (List.replicate (id + 1) 'I') ≠ "" := by
    intro h
    have hlength := congrArg String.length h
    rw [String.length_ofList, List.length_replicate] at hlength
    cases hlength
  refine ⟨congrArg Except.ok ?_, hne⟩
  change (String.ofList (List.replicate (id + 1) 'I')).length - 1 = id
  rw [String.length_ofList, List.length_replicate]
  rfl

def notes (ids : List Nat) : Dict Nat (Point Unit) := .ofList (ids.map (fun id => (id, ⟨"", [], ()⟩)))

def changes : List (Dict Nat (Point Unit)) := [notes [3, 1, 2], notes [3, 0, 1]]

def asDeclarative (points : Dict Nat (Point Unit)) : Collections Nat Unit :=
  Dict.empty.set "declarative" points

/-- After the first page the next point is deleted and another one is put before it: the two that are there
all the time are read, and nothing else. -/
theorem changing_notes_read :
    let read := readAll strokes "declarative" 1 "" (changes.map asDeclarative)
    read.2 = .finished ∧ read.1.flatten.map Prod.fst = [1, 3] ∧
      List.Forall₂ (fun page points => ∀ p ∈ page, p ∈ points.entries) read.1 changes := by
  have hfound : List.Forall₂ (fun db points => db.get? "declarative" = some points)
      (changes.map asDeclarative) changes := by
    rw [List.forall₂_map_left_iff, List.forall₂_same]
    exact fun points _ => Dict.get?_set_self _ _ _
  have hreadable : ∀ points ∈ changes, ∀ id ∈ points.keys, Readable strokes id :=
    fun _ _ id _ => strokes_readable id
  have h := all_points_read Nat.one_pos (by decide) hfound hreadable
  exact ⟨by decide +kernel, by decide +kernel, h.2.1⟩

end CheshireCat.Memory
