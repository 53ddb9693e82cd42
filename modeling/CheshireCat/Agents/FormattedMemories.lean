import CheshireCat.Agents.ContextBlocks
import CheshireCat.Session.LongTermMemory

/-! That what is remembered can be put into a prompt. -/

namespace CheshireCat.Agents
open Base Json Memory Documents Session Utils

variable {C ι V W U β φ : Type}

/-- The age of the timestamp can be told at any time. -/
def Ages (elapsed : Elapsed) (timestamp : Json) : Prop := ∀ i, ∃ delta, elapsed i timestamp = .ok delta

/-- A memory that either block can tell. -/
structure Formattable (elapsed : Elapsed) (metadata : Fields) : Prop where
  dated : ∃ timestamp, field? metadata "when" = some timestamp ∧ Ages elapsed timestamp
  sourced : ∃ source, field? metadata "source" = some source

/-! ### The blocks -/

theorem mapM_gives {α β : Type} (f : α → Except String β) (l : List α) :
    (∃ results, l.mapM f = .ok results) ↔ ∀ a ∈ l, ∃ b, f a = .ok b := by
  constructor
  · rintro ⟨results, h⟩ a ha
    have htells := mapM_tells h
    obtain ⟨i, hi, rfl⟩ := List.getElem_of_mem ha
    exact ⟨_, (List.forall₂_iff_get.mp htells).2 i hi (htells.length_eq ▸ hi)⟩
  · intro h
    induction l with
    | nil => exact ⟨[], rfl⟩
    | cons a l ih =>
      obtain ⟨b, hb⟩ := h a List.mem_cons_self
      obtain ⟨results, hresults⟩ := ih (fun a' ha' => h a' (List.mem_cons_of_mem _ ha'))
      refine ⟨b :: results, ?_⟩
      rw [List.mapM_cons, hb]
      change (do let rest ← l.mapM f; pure (b :: rest)) = _
      rw [hresults]
      rfl

/-- A block is given where all of its parts are. -/
theorem block_gives {α β γ : Type} (f : α → Except String β) (l : List α) (g : List β → γ) :
    (∃ block, (do let parts ← l.mapM f; pure (g parts) : Except String γ) = .ok block) ↔
      ∀ a ∈ l, ∃ b, f a = .ok b := by
  rw [← mapM_gives]
  cases l.mapM f with
  | error error => exact ⟨nofun, nofun⟩
  | ok parts => exact ⟨fun _ => ⟨parts, rfl⟩, fun _ => ⟨g parts, rfl⟩⟩

/-- The block of episodic memories is given exactly where the age of each can be told. -/
theorem episodic_block_iff (elapsed : Elapsed) (memoryDocs : List Document) :
    (∃ block, agentPromptEpisodicMemories elapsed memoryDocs = .ok block) ↔
      ∀ m ∈ memoryDocs.zipIdx, ∃ timestamp delta,
        field? m.1.metadata "when" = some timestamp ∧ elapsed m.2 timestamp = .ok delta := by
  have hpart (m : Document × Nat) : (∃ text, memoryTimestamp elapsed m.2 m.1 = .ok text) ↔
      ∃ timestamp delta, field? m.1.metadata "when" = some timestamp ∧ elapsed m.2 timestamp = .ok delta := by
    constructor
    · rintro ⟨text, h⟩
      obtain ⟨told, ⟨_, timestamp, delta, hwhen, hdelta, _⟩, _⟩ := timestamp_tells h
      exact ⟨timestamp, delta, hwhen, hdelta⟩
    · rintro ⟨timestamp, delta, hwhen, hdelta⟩
      exact ⟨openBracket ++ verbalTimedelta delta ++ [')'], by
        simp [memoryTimestamp, metadataField, hwhen, hdelta, bind, Except.bind, pure, Except.pure]⟩
  unfold agentPromptEpisodicMemories
  rw [block_gives]
  exact forall₂_congr (fun m _ => hpart m)

theorem declarative_block_iff (str : Json → List Char) (memoryDocs : List Document) :
    (∃ block, agentPromptDeclarativeMemories str memoryDocs = .ok block) ↔
      ∀ m ∈ memoryDocs, ∃ source, field? m.metadata "source" = some source := by
  have hpart (m : Document) : (∃ text, memorySource str m = .ok text) ↔
      ∃ source, field? m.metadata "source" = some source := by
    constructor
    · rintro ⟨text, h⟩
      obtain ⟨told, ⟨_, source, hsource, _⟩, _⟩ := source_tells h
      exact ⟨source, hsource⟩
    · rintro ⟨source, hsource⟩
      exact ⟨extractedFrom ++ str source ++ [')'], by
        simp [memorySource, metadataField, hsource, bind, Except.bind, pure, Except.pure]⟩
  unfold agentPromptDeclarativeMemories
  rw [block_gives]
  exact forall₂_congr (fun m _ => hpart m)

/-! ### What is stored -/

/-- The hooks leave the time and the source of what is stored, and the times of the clock have an age. -/
structure KeepDates (elapsed : Elapsed) (w : Writers C ι V W U β φ) : Prop where
  episodic : ∀ userId doc m, ∀ key ∈ ["when", "source"],
    field? (((w.minds userId).beforeCatStoresEpisodicMemory doc).run m).1.metadata key = field? doc.metadata key
  declarative : ∀ userId doc u, ∀ key ∈ ["when", "source"],
    field? (((w.rabbits userId).beforeRabbitholeInsertMemory doc).run u).1.metadata key =
      field? doc.metadata key
  clock : ∀ userId u, Ages elapsed (.number (.float ((w.rabbits userId).time.run u).1))

/-- A time that comes with a request has an age. One that counts for nothing is replaced. -/
def Dated (elapsed : Elapsed) (ctx : Context V) (metadata : Fields) : Prop :=
  Ages elapsed (.number (.float ctx.time)) ∧
    ∀ timestamp, field? metadata "when" = some timestamp → timestamp.truthy = true → Ages elapsed timestamp

/-- The event dates what it stores. -/
def Dates (elapsed : Elapsed) : MemoryEvent ι V β → Prop
  | .request (.message _ _ time _) => Ages elapsed (.number (.float time))
  | .request (.createMemoryPoint _ ctx _ _ metadata) => Dated elapsed ctx metadata
  | .points (.createMemoryPoint ctx _ _ metadata) => Dated elapsed ctx metadata
  | .points (.editMemoryPoint ctx _ _ _ metadata) => Dated elapsed ctx metadata
  | .ingest _ _ _ _ (.obj fields) => ∀ timestamp, ("when", timestamp) ∈ fields → Ages elapsed timestamp
  | _ => True

theorem ensured_formattable {elapsed : Elapsed} {ctx : Context V} {metadata : Fields}
    (h : Dated elapsed ctx metadata) : Formattable elapsed (ensureMetadata ctx metadata) := by
  obtain ⟨htime, hwhen⟩ := h
  have htrue {key : String} {d : Fields} (h : ((field? d key).getD .null).truthy = true) :
      ∃ v, field? d key = some v ∧ v.truthy = true := by
    cases hfield : field? d key with
    | none =>
      rw [hfield] at h
      cases h
    | some v =>
      rw [hfield] at h
      exact ⟨v, rfl, h⟩
  have hsourced : ∃ sourced : Fields, (∃ source, field? sourced "source" = some source) ∧
      field? sourced "when" = field? metadata "when" ∧ ensureMetadata ctx metadata =
        if ((field? sourced "when").getD .null).truthy then sourced
        else setField sourced "when" (.number (.float ctx.time)) := by
    by_cases hsource : ((field? metadata "source").getD .null).truthy = true
    · obtain ⟨source, hfound, _⟩ := htrue hsource
      exact ⟨metadata, ⟨source, hfound⟩, rfl, by rw [ensureMetadata, if_pos hsource]⟩
    · refine ⟨setField metadata "source" (.str ctx.userId), ⟨.str ctx.userId, ?_⟩, ?_, ?_⟩
      · rw [field?_setField, if_pos rfl]
      · rw [field?_setField, if_neg (by decide)]
      · rw [ensureMetadata, if_neg hsource]
  obtain ⟨sourced, ⟨source, hsource⟩, hsame, heq⟩ := hsourced
  rw [heq]
  split
  · rename_i hset
    obtain ⟨timestamp, hfound, htruthy⟩ := htrue hset
    exact ⟨⟨timestamp, hfound, hwhen timestamp (hsame ▸ hfound) htruthy⟩, source, hsource⟩
  · refine ⟨⟨_, ?_, htime⟩, source, ?_⟩
    · rw [field?_setField, if_pos rfl]
    · rw [field?_setField, if_neg (by decide)]
      exact hsource

/-- Assigning fields gives a key one of their values, or leaves it its own. -/
theorem field_set_fields {fields metadata : Fields} {key : String} {P : Json → Prop}
    (hfields : ∀ v, (key, v) ∈ fields → P v) (h : ∃ v, field? metadata key = some v ∧ P v) :
    ∃ v, field? (setFields metadata fields) key = some v ∧ P v := by
  induction fields generalizing metadata with
  | nil => exact h
  | cons p fields ih =>
    have hset : ∃ v, field? (setField metadata p.1 p.2) key = some v ∧ P v := by
      rw [field?_setField]
      split
      · rename_i hkey
        exact ⟨p.2, rfl, hfields p.2 (hkey ▸ List.mem_cons_self)⟩
      · exact h
    exact ih (fun v hv => hfields v (List.mem_cons_of_mem _ hv)) hset

theorem stamp_formattable {elapsed : Elapsed} {source : String} {fields : Fields} {doc : Document}
    {time : Rat}
    (htime : Ages elapsed (.number (.float time)))
    (hfields : ∀ timestamp, ("when", timestamp) ∈ fields → Ages elapsed timestamp) :
    Formattable elapsed (stamp source fields doc time).metadata := by
  have hsourced : ∃ v, field? (stamp source fields doc time).metadata "source" = some v ∧ True := by
    refine field_set_fields (fun _ _ => trivial) ⟨.str source, ?_, trivial⟩
    rw [field?_setField, if_neg (by decide), field?_setField, if_pos rfl]
  obtain ⟨v, hv, _⟩ := hsourced
  refine ⟨field_set_fields hfields ⟨_, ?_, htime⟩, v, hv⟩
  rw [field?_setField, if_pos rfl]

/-- What only the two fields matter for. -/
theorem Formattable.congr {elapsed : Elapsed} {metadata metadata' : Fields}
    (h : Formattable elapsed metadata)
    (hsame : ∀ key ∈ ["when", "source"], field? metadata' key = field? metadata key) :
    Formattable elapsed metadata' := by
  obtain ⟨hdated, hsourced⟩ := h
  rw [← hsame "when" (by simp)] at hdated
  rw [← hsame "source" (by simp)] at hsourced
  exact ⟨hdated, hsourced⟩

variable [DecidableEq ι] {elapsed : Elapsed} {w : Writers C ι V W U β φ} {collectionId : String}
  {point : Point V}

omit [DecidableEq ι] in
theorem puts_formattable (hkeep : KeepDates elapsed w) {s : LongTermMemory C ι V U}
    {e : MemoryEvent ι V β} (hdates : Dates elapsed e) (h : Puts w s collectionId point e) :
    Formattable elapsed point.metadata := by
  cases e with
  | request r =>
    cases r with
    | message userId messageDict time id =>
      obtain ⟨_, output, m, _, _, hmetadata, _⟩ := h
      rw [hmetadata]
      refine Formattable.congr ⟨⟨_, rfl, hdates⟩, _, rfl⟩ (hkeep.episodic userId _ m)
    | getConversationHistory userId => exact h.elim
    | wipeConversationHistory userId => exact h.elim
    | createMemoryPoint userId ctx target content metadata =>
      obtain ⟨_, _, hmetadata, _⟩ := h
      rw [hmetadata]
      have hdated : Dated elapsed { ctx with userId := userId } metadata := hdates
      exact ensured_formattable hdated
  | points r =>
    cases r with
    | createMemoryPoint ctx target content metadata =>
      obtain ⟨_, _, _, hmetadata, _⟩ := h
      rw [hmetadata]
      exact ensured_formattable hdates
    | editMemoryPoint ctx target id content metadata =>
      obtain ⟨_, _, _, hmetadata, _⟩ := h
      rw [hmetadata]
      exact ensured_formattable hdates
    | deleteMemoryPoint target id => exact h.elim
    | deleteMemoryPointsByMetadata target metadata => exact h.elim
  | ingest userId file chunkSize chunkOverlap metadata =>
    obtain ⟨_, cut, plugins, fields, _, _, _, _, doc, _, rfl, ⟨u₁, rfl⟩, ⟨u₂, rfl⟩, _, hmetadata, _⟩ := h
    rw [hmetadata]
    exact (stamp_formattable (hkeep.clock userId u₁) hdates).congr (hkeep.declarative userId _ u₂)

/-- Where every request dates what it stores, all that is ever recalled can be put into the prompt. -/
theorem memories_formattable (hkeep : KeepDates elapsed w) (hfresh : ∀ userId, (w.rabbits userId).Fresh)
    (str : Json → List Char) {s : LongTermMemory C ι V U}
    (hs : ∀ point, Stored s.server.db collectionId point → Formattable elapsed point.metadata)
    {events : List (MemoryEvent ι V β)} (hdates : ∀ e ∈ events, Dates elapsed e) {recalled : List (Point V)}
    (hrecalled : ∀ point ∈ recalled,
      Stored (events.foldl (LongTermMemory.step w) s).server.db collectionId point) :
    let memoryDocs := recalled.map (fun point => (⟨point.pageContent, point.metadata⟩ : Document))
    (∃ block, agentPromptEpisodicMemories elapsed memoryDocs = .ok block) ∧
      ∃ block, agentPromptDeclarativeMemories str memoryDocs = .ok block := by
  have hformattable : ∀ m ∈ recalled.map (fun point => (⟨point.pageContent, point.metadata⟩ : Document)),
      Formattable elapsed m.metadata := by
    intro m hm
    obtain ⟨point, hpoint, rfl⟩ := List.mem_map.mp hm
    have horigin := foldl_origin (P := fun s : LongTermMemory C ι V U => Stored s.server.db collectionId point)
      (fun s e => step_origin hfresh s e) (hrecalled point hpoint)
    rcases horigin with hold | ⟨before, e, rest, rfl, hputs⟩
    · exact hs point hold
    · exact puts_formattable hkeep (hdates e (by simp)) hputs
  constructor
  · rw [episodic_block_iff]
    intro m hm
    obtain ⟨timestamp, hwhen, hages⟩ := (hformattable m.1 (List.fst_mem_of_mem_zipIdx hm)).dated
    obtain ⟨delta, hdelta⟩ := hages m.2
    exact ⟨timestamp, delta, hwhen, hdelta⟩
  · rw [declarative_block_iff]
    exact fun m hm => (hformattable m hm).sourced

/-- Whatever is a number has an age. -/
def numbersAge : Elapsed := fun _ timestamp =>
  match timestamp with
  | .number _ => .ok ⟨120000000⟩
  | _ => .error "TypeError"

theorem numbers_age (n : Number) : Ages numbersAge (.number n) := fun _ => ⟨_, rfl⟩

theorem writers_keep : KeepDates numbersAge plainWriters :=
  ⟨fun _ _ _ _ _ => rfl, fun _ _ _ _ _ => rfl, fun _ _ => numbers_age _⟩

/-- What was read and what was sent, a letter that was dated by hand among it. -/
theorem shelf_formattable :
    ∃ points, shelved.server.db.get? "declarative" = some points ∧
      points.values.map Point.pageContent = ["a readable line", "a letter"] ∧
      ∃ block, agentPromptEpisodicMemories numbersAge
        (points.values.map (fun point => ⟨point.pageContent, point.metadata⟩)) = .ok block := by
  have hcontents : (shelved.server.db.get? "declarative").map
      (fun points => points.values.map Point.pageContent) = some ["a readable line", "a letter"] := by decide +kernel
  obtain ⟨points, hpoints, hlist⟩ := Option.map_eq_some_iff.mp hcontents
  have hstart : ∀ point, Stored memories "declarative" point →
      Formattable numbersAge point.metadata := by
    rintro point ⟨points, hempty, hpoint⟩
    cases hempty
    cases hpoint
  have hdates : ∀ e ∈ shelving, Dates numbersAge e := by
    intro e he
    simp only [shelving, List.mem_cons, List.not_mem_nil, or_false] at he
    rcases he with rfl | rfl | rfl
    · exact numbers_age _
    · intro timestamp htimestamp
      simp at htimestamp
    · refine ⟨numbers_age _, fun timestamp hfound _ => ?_⟩
      cases hfound
      exact numbers_age _
  exact ⟨points, hpoints, hlist, (memories_formattable writers_keep (fun _ => line_reader_fresh) (fun _ => [])
    (s := emptyShelf) hstart hdates (fun point hpoint => ⟨points, hpoints, hpoint⟩)).1⟩

end CheshireCat.Agents
