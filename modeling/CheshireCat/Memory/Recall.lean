import CheshireCat.Memory.Points

namespace CheshireCat.Memory
open Base Json

/-- A point that a search finds. -/
structure Hit (ι V : Type) where
  id : ι
  point : Point V
  score : Rat
deriving DecidableEq

/-- How Qdrant searches: it returns points of the collection that match the filter, and the
order of the conditions does not matter. -/
structure Search (ι V : Type) where
  search : Dict ι (Point V) → Option (List FieldCondition) → V → Nat → List (Hit ι V)
  found : ∀ points filter v k, ∀ hit ∈ search points filter v k, (hit.id, hit.point) ∈ points.entries ∧
    matchesFilter filter (pointPayload hit.point.pageContent hit.point.metadata) = true
  conjunction : ∀ points must must' v k, must.Perm must' →
    search points (some must) v k = search points (some must') v k

/-- What a request finds in each collection. -/
abbrev Recalled (ι V : Type) := List (String × List (Hit ι V))

structure RecallRequest where
  userId : String
  text : String
  k : Nat
  metadata : Dict String Json

def episodic : String := "episodic"

/-- The dictionary is edited before each search, and the next search sees the edit. -/
def editMetadata (userId : String) (metadata : Dict String Json) (collectionId : String) :
    Dict String Json :=
  if collectionId = episodic then metadata.set "source" (.str userId) else metadata.erase "source"

section Recall

variable {ι V : Type}

/-- `recall_memories_from_embedding`. -/
def recallMemoriesFromEmbedding (client : Search ι V) (points : Dict ι (Point V))
    (metadata : Dict String Json) (embedding : V) (k : Nat) : Except String (List (Hit ι V)) :=
  let filter := qdrantFilterFromDict metadata.entries
  if (filter.getD []).all FieldCondition.valid then .ok (client.search points filter embedding k)
  else .error "ValidationError"

/-- The loop over the collections. -/
def recallCollections (client : Search ι V) (userId : String) (embedding : V) (k : Nat) :
    Dict String Json → List (String × Dict ι (Point V)) → Except String (Recalled ι V)
  | _, [] => .ok []
  | metadata, (collectionId, points) :: rest => do
    let metadata := editMetadata userId metadata collectionId
    let memories ← recallMemoriesFromEmbedding client points metadata embedding k
    let recalled ← recallCollections client userId embedding k metadata rest
    return ((collectionId, memories) :: recalled)

def recallMemoryPoints (client : Search ι V) (embedQuery : String → Except String V)
    (db : Collections ι V) (r : RecallRequest) : Except String (Recalled ι V) := do
  let queryEmbedding ← embedQuery r.text
  recallCollections client r.userId queryEmbedding r.k r.metadata db.entries

/-! ### The metadata of a request -/

/-- The point satisfies a pair of the metadata, as a filter: a key with a dot is a path in the payload. -/
def Point.hasPair (point : Point V) (key : String) (value : Json) : Bool :=
  FieldCondition.holds ⟨"metadata." ++ key, value⟩ (pointPayload point.pageContent point.metadata)

/-- A flat dictionary. -/
def Flat (metadata : Dict String Json) : Prop :=
  ∀ p ∈ metadata.entries, (∀ fields, p.2 ≠ .obj fields) ∧ ∀ items, p.2 ≠ .arr items

/-- What is found honours the pairs of the request, and each collection is searched as if it
were the only one. -/
structure Honours (client : Search ι V) (embedding : V) (db : Collections ι V) (r : RecallRequest)
    (recalled : Recalled ι V) : Prop where
  pairs : ∀ found ∈ recalled, found.1 ≠ episodic → ∀ hit ∈ found.2, ∀ p ∈ r.metadata.entries,
    hit.point.hasPair p.1 p.2 = true
  others : ∀ found ∈ recalled, found.1 = episodic → ∀ hit ∈ found.2, ∀ p ∈ r.metadata.entries,
    p.1 ≠ "source" → hit.point.hasPair p.1 p.2 = true
  source : ∀ found ∈ recalled, found.1 = episodic → ∀ hit ∈ found.2,
    hit.point.hasPair "source" (.str r.userId) = true
  alone : ∀ found ∈ recalled, ∃ points, db.get? found.1 = some points ∧
    recallCollections client r.userId embedding r.k r.metadata [(found.1, points)] = .ok [found]

/-- The metadata names no source, or the request fails, or the points outside of episodic that
match the other pairs have that source as well. -/
def NoSourceDropped (db : Collections ι V) (metadata : Dict String Json) : Prop :=
  let others := qdrantFilterFromDict (metadata.erase "source").entries
  (others.getD []).all FieldCondition.valid = true →
    ∀ source, metadata.get? "source" = some source → ∀ collectionId points,
      db.get? collectionId = some points → collectionId ≠ episodic → ∀ point ∈ points.values,
        matchesFilter others (pointPayload point.pageContent point.metadata) = true →
          point.hasPair "source" source = true

variable {client : Search ι V} {db : Collections ι V} {r : RecallRequest} {userId : String}
  {embedding : V} {k : Nat} {metadata edited : Dict String Json}

theorem build_flat {metadata : Dict String Json} (h : Flat metadata) {p : String × Json}
    (hp : p ∈ metadata.entries) : buildCondition p.1 p.2 = [⟨"metadata." ++ p.1, p.2⟩] := by
  obtain ⟨hobj, harr⟩ := h p hp
  unfold buildCondition
  split
  · rename_i fields hv
    exact absurd hv (hobj fields)
  · rename_i items hv
    exact absurd hv (harr items)
  · rfl

/-- The filter of a flat dictionary asks for its pairs. -/
theorem matches_pairs {metadata : Dict String Json} (h : Flat metadata) (point : Point V) :
    matchesFilter (qdrantFilterFromDict metadata.entries)
        (pointPayload point.pageContent point.metadata) = true ↔
      ∀ p ∈ metadata.entries, point.hasPair p.1 p.2 = true := by
  cases hentries : metadata.entries with
  | nil => exact iff_of_true rfl (fun p hp => absurd hp List.not_mem_nil)
  | cons p ps =>
    apply matches_flat (List.cons_ne_nil p ps)
    intro q hq
    exact build_flat h (hentries ▸ hq)

theorem filter_perm {m m' : Fields} (h : m.Perm m') :
    qdrantFilterFromDict m = none ∧ qdrantFilterFromDict m' = none ∨
      ∃ must must', qdrantFilterFromDict m = some must ∧ qdrantFilterFromDict m' = some must' ∧
        must.Perm must' := by
  cases m with
  | nil => exact Or.inl ⟨rfl, by rw [List.nil_perm.mp h]; rfl⟩
  | cons p ps =>
    cases m' with
    | nil => exact absurd h List.not_perm_cons_nil
    | cons q qs => exact Or.inr ⟨_, _, rfl, rfl, h.flatMap_right _⟩

/-! ### One search after the other -/

/-- An edit leaves the pairs other than the source. -/
theorem edit_erase (userId collectionId : String) (metadata : Dict String Json) :
    (editMetadata userId metadata collectionId).erase "source" = metadata.erase "source" := by
  unfold editMetadata
  split
  · exact Dict.erase_set _ _ _
  · exact Dict.erase_erase _ _

/-- What a collection is searched for depends on the other pairs only. -/
theorem edit_perm (h : edited.erase "source" = metadata.erase "source") (collectionId : String) :
    (editMetadata userId edited collectionId).entries.Perm
      (editMetadata userId metadata collectionId).entries := by
  unfold editMetadata
  split
  · apply (Dict.set_perm_erase _ _ _).trans
    rw [h]
    exact (Dict.set_perm_erase _ _ _).symm
  · rw [h]

theorem recall_memories_congr (client : Search ι V) (points : Dict ι (Point V)) (embedding : V)
    (k : Nat) {m m' : Dict String Json} (h : m.entries.Perm m'.entries) :
    recallMemoriesFromEmbedding client points m embedding k =
      recallMemoriesFromEmbedding client points m' embedding k := by
  unfold recallMemoriesFromEmbedding
  rcases filter_perm h with ⟨hm, hm'⟩ | ⟨must, must', hm, hm', hperm⟩
  · rw [hm, hm']
  · simp only [hm, hm', Option.getD_some, hperm.all_eq, client.conjunction points must must' embedding k hperm]

/-- A collection is searched as if it were the only one. -/
theorem recall_collections_congr (h : edited.erase "source" = metadata.erase "source")
    (collections : List (String × Dict ι (Point V))) :
    recallCollections client userId embedding k edited collections =
      recallCollections client userId embedding k metadata collections := by
  induction collections generalizing edited metadata with
  | nil => rfl
  | cons c rest ih =>
    obtain ⟨collectionId, points⟩ := c
    have hnext : (editMetadata userId edited collectionId).erase "source" =
        (editMetadata userId metadata collectionId).erase "source" := by
      rw [edit_erase, edit_erase, h]
    rw [recallCollections, recallCollections,
      recall_memories_congr client points embedding k (edit_perm h collectionId), ih hnext]

theorem recall_cons_ok {collectionId : String} {points : Dict ι (Point V)}
    {rest : List (String × Dict ι (Point V))} {recalled : Recalled ι V} :
    recallCollections client userId embedding k metadata ((collectionId, points) :: rest) =
        .ok recalled ↔
      ∃ memories found, recallMemoriesFromEmbedding client points
          (editMetadata userId metadata collectionId) embedding k = .ok memories ∧
        recallCollections client userId embedding k metadata rest = .ok found ∧
        recalled = (collectionId, memories) :: found := by
  have hrest : recallCollections client userId embedding k
      (editMetadata userId metadata collectionId) rest =
        recallCollections client userId embedding k metadata rest :=
    recall_collections_congr (edit_erase userId collectionId metadata) rest
  rw [recallCollections, hrest]
  cases recallMemoriesFromEmbedding client points (editMetadata userId metadata collectionId)
      embedding k with
  | error error =>
    apply iff_of_false nofun
    rintro ⟨memories, found, hmemories, _⟩
    cases hmemories
  | ok memories =>
    cases recallCollections client userId embedding k metadata rest with
    | error error =>
      apply iff_of_false nofun
      rintro ⟨memories, found, _, hfound, _⟩
      cases hfound
    | ok found =>
      constructor
      · intro h
        exact ⟨memories, found, rfl, rfl, (Except.ok.inj h).symm⟩
      · rintro ⟨memories', found', hmemories, hfound, rfl⟩
        cases hmemories
        cases hfound
        rfl

/-- Where the results of a request come from. -/
theorem mem_recalled {collections : List (String × Dict ι (Point V))} {recalled : Recalled ι V}
    (h : recallCollections client userId embedding k metadata collections = .ok recalled) :
    ∀ found ∈ recalled, ∃ points, (found.1, points) ∈ collections ∧
      recallMemoriesFromEmbedding client points (editMetadata userId metadata found.1) embedding k =
        .ok found.2 := by
  induction collections generalizing recalled with
  | nil =>
    cases h
    exact fun found hfound => absurd hfound List.not_mem_nil
  | cons c rest ih =>
    obtain ⟨memories, others, hmemories, hothers, rfl⟩ := recall_cons_ok.mp h
    intro found hfound
    rcases List.mem_cons.mp hfound with rfl | hfound
    · exact ⟨c.2, List.mem_cons_self, hmemories⟩
    · obtain ⟨points, hmem, hsearch⟩ := ih hothers found hfound
      exact ⟨points, List.mem_cons_of_mem _ hmem, hsearch⟩

/-- What is found alone is the result. -/
theorem recalled_alone {collectionId : String} {points : Dict ι (Point V)}
    {memories : List (Hit ι V)}
    (h : recallMemoriesFromEmbedding client points (editMetadata userId metadata collectionId)
      embedding k = .ok memories) :
    recallCollections client userId embedding k metadata [(collectionId, points)] =
      .ok [(collectionId, memories)] :=
  recall_cons_ok.mpr ⟨memories, [], h, rfl, rfl⟩

/-- Every collection is searched where none of the filters is refused. -/
theorem recalled_of_valid (collections : List (String × Dict ι (Point V)))
    (h : ∀ c ∈ collections, ∃ memories, recallMemoriesFromEmbedding client c.2
      (editMetadata userId metadata c.1) embedding k = .ok memories) :
    ∃ recalled, recallCollections client userId embedding k metadata collections = .ok recalled ∧
      ∀ c ∈ collections, ∃ memories, (c.1, memories) ∈ recalled ∧
        recallMemoriesFromEmbedding client c.2 (editMetadata userId metadata c.1) embedding k =
          .ok memories := by
  induction collections with
  | nil => exact ⟨[], rfl, fun c hc => absurd hc List.not_mem_nil⟩
  | cons c rest ih =>
    obtain ⟨recalled, hrecalled, hall⟩ := ih (fun d hd => h d (List.mem_cons_of_mem c hd))
    obtain ⟨memories, hmemories⟩ := h c List.mem_cons_self
    refine ⟨(c.1, memories) :: recalled, recall_cons_ok.mpr ⟨memories, recalled, hmemories, hrecalled, rfl⟩, ?_⟩
    intro d hd
    rcases List.mem_cons.mp hd with rfl | hd
    · exact ⟨memories, List.mem_cons_self, hmemories⟩
    · obtain ⟨found, hfound, hsearch⟩ := hall d hd
      exact ⟨found, List.mem_cons_of_mem _ hfound, hsearch⟩

theorem search_of_ok {points : Dict ι (Point V)} {memories : List (Hit ι V)}
    (h : recallMemoriesFromEmbedding client points metadata embedding k = .ok memories) :
    ((qdrantFilterFromDict metadata.entries).getD []).all FieldCondition.valid = true ∧
      memories = client.search points (qdrantFilterFromDict metadata.entries) embedding k := by
  unfold recallMemoriesFromEmbedding at h
  dsimp only at h
  split at h
  · rename_i hvalid
    exact ⟨hvalid, (Except.ok.inj h).symm⟩
  · cases h

/-! ### The source -/

theorem edited_flat (h : Flat metadata) (userId collectionId : String) :
    Flat (editMetadata userId metadata collectionId) := by
  intro p hp
  unfold editMetadata at hp
  split at hp
  · rcases (Dict.mem_entries_set _ _ _ _).mp hp with rfl | ⟨_, hp⟩
    · exact ⟨nofun, nofun⟩
    · exact h p hp
  · exact h p ((Dict.mem_entries_erase _ _ _).mp hp).2

/-- What a hit is known to have. -/
theorem hit_pairs (hflat : Flat metadata) {points : Dict ι (Point V)} {collectionId : String}
    {memories : List (Hit ι V)}
    (h : recallMemoriesFromEmbedding client points (editMetadata userId metadata collectionId)
      embedding k = .ok memories) {hit : Hit ι V} (hhit : hit ∈ memories) :
    (hit.id, hit.point) ∈ points.entries ∧
      ∀ p ∈ (editMetadata userId metadata collectionId).entries, hit.point.hasPair p.1 p.2 = true := by
  obtain ⟨_, rfl⟩ := search_of_ok h
  obtain ⟨hmem, hmatches⟩ := client.found _ _ _ _ hit hhit
  exact ⟨hmem, (matches_pairs (edited_flat hflat _ _) hit.point).mp hmatches⟩

/-- The pairs that a search asks for, beside those of the caller's source. -/
theorem other_pair {p : String × Json} (hp : p ∈ metadata.entries) (hsource : p.1 ≠ "source")
    (userId collectionId : String) : p ∈ (editMetadata userId metadata collectionId).entries := by
  unfold editMetadata
  split
  · exact (Dict.mem_entries_set _ _ _ _).mpr (Or.inr ⟨hsource, hp⟩)
  · exact (Dict.mem_entries_erase _ _ _).mpr ⟨hsource, hp⟩

theorem filter_valid_iff (hflat : Flat metadata) :
    ((qdrantFilterFromDict metadata.entries).getD []).all FieldCondition.valid = true ↔
      ∀ p ∈ metadata.entries, FieldCondition.valid ⟨"metadata." ++ p.1, p.2⟩ = true := by
  have hconditions : (qdrantFilterFromDict metadata.entries).getD [] =
      metadata.entries.map (fun p => ⟨"metadata." ++ p.1, p.2⟩) := by
    have hmap : metadata.entries.flatMap (fun p => buildCondition p.1 p.2) =
        metadata.entries.map (fun p => ⟨"metadata." ++ p.1, p.2⟩) := by
      rw [List.map_eq_flatMap]
      exact List.flatMap_congr (fun p hp => build_flat hflat hp)
    rw [← hmap]
    cases metadata.entries <;> rfl
  rw [hconditions, List.all_map, List.all_eq_true]
  rfl

/-- The caller's id is a value that a filter takes. -/
theorem edited_valid (hflat : Flat metadata)
    (h : ((qdrantFilterFromDict (metadata.erase "source").entries).getD []).all
      FieldCondition.valid = true) (userId collectionId : String) :
    ((qdrantFilterFromDict (editMetadata userId metadata collectionId).entries).getD []).all
      FieldCondition.valid = true := by
  have herased : Flat (metadata.erase "source") :=
    fun p hp => hflat p ((Dict.mem_entries_erase _ _ _).mp hp).2
  rw [filter_valid_iff herased] at h
  rw [filter_valid_iff (edited_flat hflat _ _)]
  intro p hp
  unfold editMetadata at hp
  split at hp
  · rcases (Dict.mem_entries_set _ _ _ _).mp hp with rfl | hp
    · rfl
    · exact h p ((Dict.mem_entries_erase _ _ _).mpr hp)
  · exact h p hp

/-- Everything that matches is found. -/
def Search.exhaustive (ι V : Type) : Search ι V where
  search points filter _ _ := (points.entries.filter (fun p =>
    matchesFilter filter (pointPayload p.2.pageContent p.2.metadata))).map (fun p => ⟨p.1, p.2, 0⟩)
  found points filter _ _ hit hhit := by
    obtain ⟨p, hp, rfl⟩ := List.mem_map.mp hhit
    exact List.mem_filter.mp hp
  conjunction points must must' _ _ h := by
    have hsame (p : ι × Point V) : matchesFilter (some must) (pointPayload p.2.pageContent p.2.metadata) =
        matchesFilter (some must') (pointPayload p.2.pageContent p.2.metadata) := h.all_eq
    simp only [hsame]

/-- A request finds only what its metadata asks for, whatever Qdrant finds, exactly where no
source of the request is dropped that would have mattered. -/
theorem metadata_honoured_iff {embedQuery : String → Except String V} (db : Collections ι V)
    (hflat : Flat r.metadata) (hembed : embedQuery r.text = .ok embedding) :
    (∀ (client : Search ι V) recalled, recallMemoryPoints client embedQuery db r = .ok recalled →
      Honours client embedding db r recalled) ↔ NoSourceDropped db r.metadata := by
  have hrecall (client : Search ι V) : recallMemoryPoints client embedQuery db r =
      recallCollections client r.userId embedding r.k r.metadata db.entries := by
    rw [recallMemoryPoints, hembed]
    rfl
  constructor
  · intro hhonours hvalid source hsource collectionId points hget hother point hpoint hmatches
    have hsearched (c : String × Dict ι (Point V)) (_ : c ∈ db.entries) :
        ∃ memories, recallMemoriesFromEmbedding (Search.exhaustive ι V) c.2
          (editMetadata r.userId r.metadata c.1) embedding r.k = .ok memories :=
      ⟨_, if_pos (edited_valid hflat hvalid r.userId c.1)⟩
    have hall := recalled_of_valid db.entries hsearched
    obtain ⟨recalled, hrecalled, hfound⟩ := hall
    obtain ⟨memories, hmem, hsearch⟩ :=
      hfound (collectionId, points) ((Dict.get?_eq_some_iff _ _ _).mp hget)
    obtain ⟨p, hp, rfl⟩ := List.mem_map.mp hpoint
    have hfilter : (editMetadata r.userId r.metadata collectionId) = r.metadata.erase "source" :=
      if_neg hother
    have hhit : (⟨p.1, p.2, 0⟩ : Hit ι V) ∈ memories := by
      obtain ⟨_, rfl⟩ := search_of_ok hsearch
      rw [hfilter]
      exact List.mem_map.mpr ⟨p, List.mem_filter.mpr ⟨hp, hmatches⟩, rfl⟩
    have hpairs := (hhonours (Search.exhaustive ι V) recalled ((hrecall _).trans hrecalled)).pairs
    exact hpairs _ hmem hother _ hhit ("source", source) ((Dict.get?_eq_some_iff _ _ _).mp hsource)
  · intro hnone client recalled hrecalled
    rw [hrecall] at hrecalled
    have hfrom := mem_recalled hrecalled
    constructor
    · intro found hfound hother hit hhit p hp
      obtain ⟨points, hpoints, hsearch⟩ := hfrom found hfound
      obtain ⟨hpoint, hpairs⟩ := hit_pairs hflat hsearch hhit
      by_cases hsource : p.1 = "source"
      · have hfilter : editMetadata r.userId r.metadata found.1 = r.metadata.erase "source" :=
          if_neg hother
        rw [hfilter] at hsearch
        obtain ⟨hvalid, hmemories⟩ := search_of_ok hsearch
        rw [hmemories] at hhit
        have hget : r.metadata.get? "source" = some p.2 := by
          rw [Dict.get?_eq_some_iff, ← hsource]
          exact hp
        have hvalue : hit.point ∈ points.values := List.mem_map.mpr ⟨_, hpoint, rfl⟩
        rw [hsource]
        exact hnone hvalid p.2 hget found.1 points ((Dict.get?_eq_some_iff _ _ _).mpr hpoints) hother
          hit.point hvalue (client.found _ _ _ _ hit hhit).2
      · exact hpairs p (other_pair hp hsource _ _)
    · intro found hfound _ hit hhit p hp hsource
      obtain ⟨points, _, hsearch⟩ := hfrom found hfound
      exact (hit_pairs hflat hsearch hhit).2 p (other_pair hp hsource _ _)
    · intro found hfound hepisodic hit hhit
      obtain ⟨points, _, hsearch⟩ := hfrom found hfound
      apply (hit_pairs hflat hsearch hhit).2 ("source", .str r.userId)
      rw [editMetadata, if_pos hepisodic]
      exact (Dict.mem_entries_set _ _ _ _).mpr (Or.inl rfl)
    · intro found hfound
      obtain ⟨points, hpoints, hsearch⟩ := hfrom found hfound
      exact ⟨points, (Dict.get?_eq_some_iff _ _ _).mpr hpoints, recalled_alone hsearch⟩

end Recall

/-- A chunk of a report, the only declarative point. -/
def reportPoint : Point Unit :=
  ⟨"the cat says miao", [("source", .str "report.pdf"), ("key_1", .str "v1")], ()⟩

def reportDb : Collections String Unit :=
  Dict.ofList [(episodic, .empty), ("declarative", Dict.ofList [("1f", reportPoint)])]

def recallWith (metadata : List (String × Json)) : RecallRequest :=
  ⟨"alice", "miao", 10, Dict.ofList metadata⟩

theorem metadata_honoured_key :
    Honours (Search.exhaustive String Unit) () reportDb (recallWith [("key_1", .str "v1")])
      [(episodic, []), ("declarative", [⟨"1f", reportPoint, 0⟩])] := by
  have hrecalled : recallMemoryPoints (Search.exhaustive String Unit) (fun _ => .ok ()) reportDb
      (recallWith [("key_1", .str "v1")]) =
      .ok [(episodic, []), ("declarative", [⟨"1f", reportPoint, 0⟩])] := by
    decide +kernel
  refine (metadata_honoured_iff reportDb ?_ rfl).mpr ?_ _ _ hrecalled
  · intro p hp
    rw [List.mem_singleton.mp hp]
    exact ⟨nofun, nofun⟩
  · intro _ source hsource
    cases hsource

/-- A chunk of another file is found, since the source that is asked for is dropped. -/
theorem source_dropped :
    recallMemoryPoints (Search.exhaustive String Unit) (fun _ => .ok ()) reportDb
        (recallWith [("source", .str "manual.pdf")]) =
      .ok [(episodic, []), ("declarative", [⟨"1f", reportPoint, 0⟩])] ∧
    ¬ Honours (Search.exhaustive String Unit) () reportDb
      (recallWith [("source", .str "manual.pdf")])
      [(episodic, []), ("declarative", [⟨"1f", reportPoint, 0⟩])] := by
  constructor
  · decide +kernel
  · intro hhonours
    have hpair := hhonours.pairs ("declarative", [⟨"1f", reportPoint, 0⟩]) (by simp) (by decide)
      ⟨"1f", reportPoint, 0⟩ (List.mem_singleton_self _) ("source", .str "manual.pdf")
      (List.mem_singleton_self _)
    revert hpair
    decide +kernel

end CheshireCat.Memory
