import CheshireCat.Base.Runs
import CheshireCat.Documents.RabbitHole
import CheshireCat.Session.Privacy

/-! Where the memories come from. -/

namespace CheshireCat.Session
open Base Memory Json Documents

variable {C ι V W U β φ : Type} [DecidableEq ι]

/-- The cat, with what the plugins keep while files are ingested. -/
structure LongTermMemory (C ι V U : Type) where
  server : CatServer C ι V
  plugins : U

/-- What writes into the collections. Each is executed alone. -/
inductive MemoryEvent (ι V β : Type) where
  | request (r : CatRequest ι V)
  | points (r : PointRequest V)
  | ingest (userId : String) (file : IngestedFile β) (chunkSize chunkOverlap : Option Int) (metadata : Json)

/-- The cache, and the plugins and the models as each part of the core sees them, for each user. -/
structure Writers (C ι V W U β φ : Type) where
  cache : MemoryCache C (RecallingMemory ι V W)
  minds : String → Mind ι V W
  client : Search ι V
  pointId : String → Except String ι
  rabbits : String → Rabbits ι V U β φ

section Model

variable (w : Writers C ι V W U β φ)

def LongTermMemory.step (s : LongTermMemory C ι V U) : MemoryEvent ι V β → LongTermMemory C ι V U
  | .request r => { s with server := (CatServer.serve w.cache w.minds w.client w.pointId s.server r).2 }
  | .points r => { s with server := { s.server with db := (Memory.serve w.pointId s.server.db r).2 } }
  | .ingest userId file chunkSize chunkOverlap metadata =>
    match s.server.db.get? "declarative" with
    | none => s
    | some points =>
      let hole := ((ingestFile (w.rabbits userId) file chunkSize chunkOverlap metadata).run
        ⟨points, s.plugins⟩).state
      ⟨{ s.server with db := s.server.db.set "declarative" hole.declarative }, hole.rest⟩

/-- The point of a message: of the text that it has in the working memory when the agent has answered it,
as the hook leaves it there. -/
def Told (s : CatServer C ι V) (userId : String) (messageDict : Json) (time : Rat) (point : Point V) : Prop :=
  ∃ output m, (answerMessage (w.minds userId) w.client s.db userId messageDict).run.run
      (s.load w.cache w.minds userId) = (.ok (.answered output), m) ∧
    let doc := (((w.minds userId).beforeCatStoresEpisodicMemory
      ⟨messageText m, [("source", .str userId), ("when", .number (.float time))]⟩).run m).1
    point.pageContent = doc.pageContent ∧ point.metadata = doc.metadata ∧
      (w.minds userId).embedDocument (messageText m) = .ok point.vector

/-- A point that is sent, with its source and its time. -/
def Sent (ctx : Context V) (content : String) (metadata : Fields) (point : Point V) : Prop :=
  point.pageContent = content ∧ point.metadata = ensureMetadata ctx metadata ∧
    ctx.embedQuery content = .ok point.vector

/-- What the file is read as in the state of the cat, and the state of the plugins after it. -/
def LongTermMemory.reads (s : LongTermMemory C ι V U) (userId : String) (file : IngestedFile β)
    (chunkSize chunkOverlap : Option Int) (cut : List Document) (plugins : U) : Prop :=
  ∃ points, s.server.db.get? "declarative" = some points ∧
    (reading (w.rabbits userId) file chunkSize chunkOverlap ⟨points, s.plugins⟩).result = .ok cut ∧
    (reading (w.rabbits userId) file chunkSize chunkOverlap ⟨points, s.plugins⟩).state.rest = plugins

/-- A chunk of a file of the user, as the hooks leave it. -/
def Read (s : LongTermMemory C ι V U) (userId : String) (file : IngestedFile β)
    (chunkSize chunkOverlap : Option Int) (metadata : Json) (point : Point V) : Prop :=
  ∃ cut plugins fields time final, s.reads w userId file chunkSize chunkOverlap cut plugins ∧
    Cut (w.rabbits userId) file chunkSize chunkOverlap cut ∧
    ∃ doc ∈ (((w.rabbits userId).beforeRabbitholeStoresDocuments cut).run plugins).1,
      metadata = .obj fields ∧ MayGive (w.rabbits userId).time time ∧
      MayGive ((w.rabbits userId).beforeRabbitholeInsertMemory (stamp file.name fields doc time)) final ∧
      point.pageContent = final.pageContent ∧ point.metadata = final.metadata ∧ point.pageContent ≠ "" ∧
      MayGive ((w.rabbits userId).embedDocuments point.pageContent) (.ok point.vector)

/-- The event, in the state in which it happens, is the source of the point. -/
def Puts (s : LongTermMemory C ι V U) (collectionId : String) (point : Point V) : MemoryEvent ι V β → Prop
  | .request (.message userId messageDict time _) =>
    collectionId = episodic ∧ Told w s.server userId messageDict time point
  | .request (.createMemoryPoint userId ctx target content metadata) =>
    collectionId = target ∧ Sent { ctx with userId := userId } content metadata point
  | .points (.createMemoryPoint ctx target content metadata)
  | .points (.editMemoryPoint ctx target _ content metadata) =>
    collectionId = target ∧ collectionId ≠ procedural ∧ Sent ctx content metadata point
  | .ingest userId file chunkSize chunkOverlap metadata =>
    collectionId = "declarative" ∧ Read w s userId file chunkSize chunkOverlap metadata point
  | _ => False

end Model

def Stored (db : Collections ι V) (collectionId : String) (point : Point V) : Prop :=
  ∃ points, db.get? collectionId = some points ∧ point ∈ points.values

/-! ### What an operation stores -/

/-- At most one collection is replaced, and what is new in it is as told. -/
def Writes (db : Collections ι V) (New : String → Point V → Prop) (db' : Collections ι V) : Prop :=
  db' = db ∨ ∃ target points points', db.get? target = some points ∧ db' = db.set target points' ∧
    ∀ point ∈ points'.values, point ∈ points.values ∨ New target point

variable {db db' : Collections ι V} {New New' : String → Point V → Prop} {collectionId : String}
  {point : Point V}

omit [DecidableEq ι] in
theorem Writes.mono (h : Writes db New db') (hnew : ∀ target point, New target point → New' target point) :
    Writes db New' db' := by
  rcases h with hsame | ⟨target, points, points', hpoints, hset, hin⟩
  · exact Or.inl hsame
  · exact Or.inr ⟨target, points, points', hpoints, hset, fun point hp =>
      (hin point hp).imp_right (hnew target point)⟩

omit [DecidableEq ι] in
theorem Writes.stored (h : Writes db New db') (hstored : Stored db' collectionId point) :
    Stored db collectionId point ∨ New collectionId point := by
  obtain ⟨found, hfound, hpoint⟩ := hstored
  rcases h with rfl | ⟨target, points, points', hpoints, rfl, hin⟩
  · exact Or.inl ⟨found, hfound, hpoint⟩
  · rw [Dict.get?_set] at hfound
    split at hfound
    · rename_i hsame
      cases hfound
      subst hsame
      rcases hin point hpoint with hold | hnew
      · exact Or.inl ⟨points, hpoints, hold⟩
      · exact Or.inr hnew
    · exact Or.inl ⟨found, hfound, hpoint⟩

omit [DecidableEq ι] in
theorem Writes.keys (h : Writes db New db') : db'.keys = db.keys := by
  rcases h with rfl | ⟨target, points, points', hpoints, rfl, _⟩
  · rfl
  · have hthere : target ∈ db.keys := (Dict.mem_keys_iff _ _).mpr ⟨points, hpoints⟩
    rw [Dict.keys_set, if_pos hthere]

omit [DecidableEq ι] in
/-- Points of a collection that are left. -/
theorem writes_left {target : String} {points points' : Dict ι (Point V)}
    (hpoints : db.get? target = some points) (hsub : points'.entries.Sublist points.entries) :
    Writes db New (db.set target points') :=
  Or.inr ⟨target, points, points', hpoints, rfl, fun _ hp => Or.inl ((hsub.map Prod.snd).subset hp)⟩

/-- A point that is put among the points of a collection. -/
theorem writes_put {target : String} {points : Dict ι (Point V)} (hpoints : db.get? target = some points)
    (id : ι) {new : Point V} (h : New target new) : Writes db New (db.set target (points.set id new)) := by
  refine Or.inr ⟨target, points, _, hpoints, rfl, fun point hpoint => ?_⟩
  obtain ⟨p, hp, rfl⟩ := List.mem_map.mp hpoint
  rcases (Dict.mem_entries_set points id new p).mp hp with rfl | ⟨_, hold⟩
  · exact Or.inr h
  · exact Or.inl (List.mem_map_of_mem hold)

variable {pointId : String → Except String ι} {ctx : Context V} {target : String}

theorem add_point_writes (id : Option String) {new : Point V} (h : New target new) :
    Writes db New (Memory.addPoint pointId ctx db target id new).2 := by
  unfold Memory.addPoint
  dsimp only
  split
  · exact Or.inl rfl
  · exact Or.inl rfl
  · rename_i points _ hpoints
    split
    · exact writes_put hpoints _ h
    · exact writes_put hpoints _ h

/-- What is sent to a collection other than the procedural one. -/
def Accepted (ctx : Context V) (target content : String) (metadata : Fields) (collectionId : String)
    (point : Point V) : Prop :=
  collectionId = target ∧ collectionId ≠ procedural ∧ Sent ctx content metadata point

theorem create_writes (content : String) (metadata : Fields) :
    Writes db (Accepted ctx target content metadata)
      (Memory.createMemoryPoint pointId ctx db target content metadata).2 := by
  unfold Memory.createMemoryPoint
  split
  · exact Or.inl rfl
  · rename_i hwritable
    split
    · exact Or.inl rfl
    · split
      · exact Or.inl rfl
      · rename_i vector hvector
        exact add_point_writes none ⟨rfl, hwritable, rfl, rfl, hvector⟩

theorem edit_writes (id content : String) (metadata : Fields) :
    Writes db (Accepted ctx target content metadata)
      (Memory.editMemoryPoint pointId ctx db target id content metadata).2 := by
  unfold Memory.editMemoryPoint
  split
  · exact Or.inl rfl
  · rename_i hwritable
    split
    · exact Or.inl rfl
    · exact Or.inl rfl
    · split
      · exact Or.inl rfl
      · split
        · exact Or.inl rfl
        · rename_i vector hvector
          exact add_point_writes (some id) ⟨rfl, hwritable, rfl, rfl, hvector⟩

theorem delete_writes (id : String) : Writes db New (Memory.deleteMemoryPoint pointId db target id).2 := by
  unfold Memory.deleteMemoryPoint
  split
  · exact Or.inl rfl
  · exact Or.inl rfl
  · rename_i points i hpoints _
    split
    · exact Or.inl rfl
    · exact writes_left hpoints List.filter_sublist

omit [DecidableEq ι] in
theorem delete_by_metadata_writes (metadata : Fields) :
    Writes db New (Memory.deleteMemoryPointsByMetadata db target metadata).2 := by
  unfold Memory.deleteMemoryPointsByMetadata
  split
  · exact Or.inl rfl
  · rename_i points hpoints
    split
    · exact Or.inl rfl
    · rename_i left hleft
      unfold deletePointsByMetadataFilter at hleft
      split at hleft
      · cases hleft
      · split at hleft
        · cases hleft
          exact writes_left hpoints List.filter_sublist
        · cases hleft

variable {w : Writers C ι V W U β φ}

/-- The point is new with the event. -/
abbrev NewWith (w : Writers C ι V W U β φ) (s : LongTermMemory C ι V U) (e : MemoryEvent ι V β)
    (collectionId : String) (point : Point V) : Prop :=
  Puts w s collectionId point e

theorem points_write (s : LongTermMemory C ι V U) (r : PointRequest V) :
    Writes db (NewWith w s (.points r)) (Memory.serve w.pointId db r).2 := by
  cases r with
  | createMemoryPoint ctx target content metadata => exact create_writes content metadata
  | editMemoryPoint ctx target id content metadata => exact edit_writes id content metadata
  | deleteMemoryPoint target id => exact delete_writes id
  | deleteMemoryPointsByMetadata target metadata => exact delete_by_metadata_writes metadata

/-- The collections that a turn leaves. -/
theorem call_writes {s : CatServer C ι V} {userId : String} {messageDict : Json} {time : Rat} {id : ι}
    {reply : Reply} {db : Collections ι V} {m : RecallingMemory ι V W}
    (hran : (call (w.minds userId) w.client s.db userId messageDict time id).run.run
      (s.load w.cache w.minds userId) = (.ok (reply, db), m)) :
    Writes s.db (fun target point => target = episodic ∧ Told w s userId messageDict time point) db := by
  obtain ⟨progress, m₁, hanswer, hran⟩ := bind_ran hran
  cases progress with
  | replied reply' =>
    cases hran
    exact Or.inl rfl
  | answered output =>
    obtain ⟨m₂, m₃, hget, hstored⟩ := bind_ran hran
    obtain ⟨rfl, rfl⟩ : m₂ = m₁ ∧ m₃ = m₁ := by
      cases hget
      exact ⟨rfl, rfl⟩
    obtain ⟨db', m₄, hstore, hsent⟩ := bind_ran hstored
    obtain ⟨new, m₅, hpoint, hput⟩ := bind_ran hstore
    obtain ⟨doc, m₆, hdoc, hembed⟩ := bind_ran hpoint
    obtain ⟨vector, m₇, hvector, hnew⟩ := bind_ran hembed
    have htold : Told w s userId messageDict time new := by
      cases hdoc
      cases hnew
      exact ⟨output, _, hanswer, rfl, rfl, congrArg Prod.fst hvector⟩
    obtain rfl : db' = db := by
      obtain ⟨_, _, _, hhook⟩ := bind_ran hsent
      obtain ⟨_, _, _, hmodify⟩ := bind_ran hhook
      obtain ⟨_, _, _, hpure⟩ := bind_ran hmodify
      exact congrArg Prod.snd (Except.ok.inj (congrArg Prod.fst hpure))
    cases hpoints : s.db.get? episodic with
    | none =>
      rw [hpoints] at hput
      cases hput
    | some points =>
      rw [hpoints] at hput
      cases hput
      exact writes_put hpoints id ⟨rfl, htold⟩

theorem request_writes (s : LongTermMemory C ι V U) (r : CatRequest ι V) :
    Writes s.server.db (NewWith w s (.request r))
      (CatServer.serve w.cache w.minds w.client w.pointId s.server r).2.db := by
  cases r with
  | message userId messageDict time id =>
    change Writes s.server.db _
      (serveMessage w.cache w.minds w.client s.server userId messageDict time id).2.db
    unfold serveMessage
    dsimp only
    split
    · rename_i reply db m hran
      exact call_writes hran
    · exact Or.inl rfl
  | getConversationHistory userId => exact Or.inl rfl
  | wipeConversationHistory userId => exact Or.inl rfl
  | createMemoryPoint userId ctx target content metadata =>
    exact (create_writes content metadata).mono (fun _ _ h => ⟨h.1, h.2.2⟩)

/-- What a run of the rabbit hole adds are chunks of the file. -/
theorem ingested_read {s : LongTermMemory C ι V U} {userId : String} (hfresh : (w.rabbits userId).Fresh)
    {file : IngestedFile β} {chunkSize chunkOverlap : Option Int} {metadata : Json}
    {points : Dict ι (Point V)} (hpoints : s.server.db.get? "declarative" = some points) {p : ι × Point V}
    (h : p ∈ ((ingestFile (w.rabbits userId) file chunkSize chunkOverlap metadata).run
      ⟨points, s.plugins⟩).state.declarative.entries) :
    p ∈ points.entries ∨ Read w s userId file chunkSize chunkOverlap metadata p.2 := by
  have hgrown := ingest_logs hfresh file chunkSize chunkOverlap metadata ⟨points, s.plugins⟩
  have hadded : (ingestFile (w.rabbits userId) file chunkSize chunkOverlap metadata).Ends
    ⟨points, s.plugins⟩ _ := ingest_digs file chunkSize chunkOverlap metadata _
  rw [Traced.ends_run] at hgrown hadded
  dsimp only at hgrown
  rw [hgrown, List.mem_append] at h
  rcases h with hold | hnew
  · exact Or.inl hold
  · right
    change p ∈ additions _ at hnew
    rcases hadded with ⟨hnone, _⟩ | ⟨cut, hread, hcut, done, rest, pieces, hsplit, hshelved, hadditions, _⟩
    · rw [hnone] at hnew
      cases hnew
    · rw [hadditions, List.mem_flatten] at hnew
      obtain ⟨piece, hpiece, hp⟩ := hnew
      obtain ⟨i, hi, rfl⟩ := List.getElem_of_mem hpiece
      have hi' : i < done.length := hshelved.length_eq ▸ hi
      have hdoc : done[i] ∈ done ++ rest := List.mem_append_left _ (List.getElem_mem hi')
      rw [← hsplit] at hdoc
      obtain ⟨fields, u₁, u₂, hfields, hfinal⟩ := (List.forall₂_iff_get.mp hshelved).2 i hi' hi
      dsimp only at hfinal
      split at hfinal
      · rw [List.get_eq_getElem] at hfinal
        rw [hfinal] at hp
        cases hp
      · rename_i hcontent
        obtain ⟨id, vector, u₃, hvector, hpoint⟩ := hfinal
        rw [List.get_eq_getElem] at hpoint
        rw [hpoint, List.mem_singleton] at hp
        subst hp
        exact ⟨cut, _, fields, _, _, ⟨points, hpoints, hread, rfl⟩, hcut, done[i], hdoc, hfields, ⟨u₁, rfl⟩,
          ⟨u₂, rfl⟩, rfl, rfl, hcontent, u₃, hvector⟩

theorem step_writes (hfresh : ∀ userId, (w.rabbits userId).Fresh) (s : LongTermMemory C ι V U)
    (e : MemoryEvent ι V β) : Writes s.server.db (NewWith w s e) (s.step w e).server.db := by
  cases e with
  | request r => exact request_writes s r
  | points r => exact points_write s r
  | ingest userId file chunkSize chunkOverlap metadata =>
    rw [LongTermMemory.step]
    cases hpoints : s.server.db.get? "declarative" with
    | none => exact Or.inl rfl
    | some points =>
      refine Or.inr ⟨"declarative", points, _, hpoints, rfl, fun point hpoint => ?_⟩
      obtain ⟨p, hp, rfl⟩ := List.mem_map.mp hpoint
      rcases ingested_read (hfresh userId) hpoints hp with hold | hread
      · exact Or.inl (List.mem_map_of_mem hold)
      · exact Or.inr ⟨rfl, hread⟩

/-- A point that a step leaves was there before it, or is new with it. -/
theorem step_origin (hfresh : ∀ userId, (w.rabbits userId).Fresh) (s : LongTermMemory C ι V U)
    (e : MemoryEvent ι V β) (h : Stored (s.step w e).server.db collectionId point) :
    Stored s.server.db collectionId point ∨ Puts w s collectionId point e :=
  (step_writes hfresh s e).stored h

/-- Every memory there is was there from the start, or was told in a message, sent to the point API or read
in a file, and looks as that left it. -/
theorem memories_accounted (hfresh : ∀ userId, (w.rabbits userId).Fresh) (s : LongTermMemory C ι V U)
    (events : List (MemoryEvent ι V β))
    (h : Stored (events.foldl (LongTermMemory.step w) s).server.db collectionId point) :
    Stored s.server.db collectionId point ∨ ∃ before e rest, events = before ++ e :: rest ∧
      Puts w (before.foldl (LongTermMemory.step w) s) collectionId point e :=
  foldl_origin (P := fun s => Stored s.server.db collectionId point)
    (fun s e => step_origin hfresh s e) h

abbrev PlainCache : Type := Dict String (RecallingMemory Nat Unit Unit)

def plainWriters : Writers PlainCache Nat Unit Unit Rat (List String) Unit :=
  ⟨dictCache, fun _ => echo, scan, fun id => .ok id.length, fun _ => lineReader⟩

def letterContext : Context Unit := ⟨"bob", fun _ => .ok ⟨⟩, 3, "IIII", true⟩

/-- Something is said, a file is read and a document is sent. -/
def shelving : List (MemoryEvent Nat Unit (List String)) :=
  [.request (tells "bob" "my pin is 4821" 0),
    .ingest "alice" (.uploadFile "tea.txt" ["a readable line"]) none none (.obj [("lang", .str "en")]),
    .points (.createMemoryPoint letterContext "declarative" "a letter" [("when", .number (.int 1890))])]

def emptyShelf : LongTermMemory PlainCache Nat Unit Rat := ⟨⟨.empty, memories⟩, 0⟩

def shelved : LongTermMemory PlainCache Nat Unit Rat :=
  shelving.foldl (LongTermMemory.step plainWriters) emptyShelf

theorem shelf_accounted :
    (shelved.server.db.get? "declarative").map (fun points => points.values.map Point.pageContent) =
        some ["a readable line", "a letter"] ∧
      ∀ point, Stored shelved.server.db "declarative" point →
        ∃ before e rest, shelving = before ++ e :: rest ∧
          Puts plainWriters (before.foldl (LongTermMemory.step plainWriters) emptyShelf) "declarative"
            point e := by
  refine ⟨by decide +kernel, fun point hpoint => ?_⟩
  rcases memories_accounted (fun _ => line_reader_fresh) emptyShelf shelving hpoint with
    ⟨points, hpoints, hin⟩ | hputs
  · have hempty : memories.get? "declarative" = some .empty := rfl
    rw [show emptyShelf.server.db.get? "declarative" = some .empty from hempty] at hpoints
    cases hpoints
    cases hin
  · exact hputs

end CheshireCat.Session
