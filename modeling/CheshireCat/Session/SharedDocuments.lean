import CheshireCat.Session.LongTermMemory

/-! Whose documents a user is recalled. -/

namespace CheshireCat.Session
open Base Memory Json Documents

variable {C ι V W U β φ : Type}

/-! ### Flags -/

/-- A filter that asks for the flag finds it. -/
def Carries (metadata : Fields) (key : String) : Prop :=
  (resolve (pathSteps key) (.obj metadata)).any (matchesValue (.bool true)) = true

theorem carries_iff {key name : String} {rest : List PathStep} (hsteps : pathSteps key = .field name :: rest)
    (metadata : Fields) : Carries metadata key ↔
      ∃ value, field? metadata name = some value ∧
        (resolve rest value).any (matchesValue (.bool true)) = true := by
  rw [Carries, hsteps, resolve]
  cases field? metadata name with
  | none => simp
  | some value => simp

theorem scalar_flag {rest : List PathStep} {v : Json} (hobj : ∀ fields, v ≠ .obj fields)
    (harr : ∀ items, v ≠ .arr items) (h : (resolve rest v).any (matchesValue (.bool true)) = true) :
    rest = [] ∧ v = .bool true := by
  rw [resolve_scalar rest hobj harr] at h
  split at h
  · rename_i hrest
    refine ⟨hrest, ?_⟩
    cases v <;> simp_all [matchesValue]
  · cases h

/-- A text or a time is no flag. -/
theorem Carries.of_set_field {metadata : Fields} {key k : String} {v : Json}
    (hv : (∃ text, v = .str text) ∨ ∃ n, v = .number n) (h : Carries (setField metadata k v) key) :
    Carries metadata key := by
  obtain ⟨name, rest, hsteps⟩ := path_steps_cons key
  rw [carries_iff hsteps] at h ⊢
  obtain ⟨value, hvalue, hmatch⟩ := h
  rw [field?_setField] at hvalue
  split at hvalue
  · cases hvalue
    rcases hv with ⟨text, rfl⟩ | ⟨n, rfl⟩
    · cases (scalar_flag (by simp) (by simp) hmatch).2
    · cases (scalar_flag (by simp) (by simp) hmatch).2
  · exact ⟨value, hvalue, hmatch⟩

theorem field_over (metadata fields : Fields) (name : String) :
    field? (setFields metadata fields) name =
      (field? (setFields [] fields) name).or (field? metadata name) := by
  have hset (p : String × Json) (before rest : Fields) :
      setFields before (p :: rest) = setFields (setField before p.1 p.2) rest := rfl
  induction fields generalizing metadata with
  | nil => rfl
  | cons p fields ih =>
    rw [hset, hset, ih, ih (setField [] p.1 p.2), Option.or_assoc]
    congr 1
    rw [field?_setField, field?_setField]
    split
    · rfl
    · rfl

theorem Carries.of_set_fields {metadata fields : Fields} {key : String}
    (h : Carries (setFields metadata fields) key) :
    Carries (setFields [] fields) key ∨ Carries metadata key := by
  obtain ⟨name, rest, hsteps⟩ := path_steps_cons key
  rw [carries_iff hsteps] at h
  rw [carries_iff hsteps, carries_iff hsteps]
  obtain ⟨value, hvalue, hmatch⟩ := h
  rw [field_over] at hvalue
  rcases Option.or_eq_some_iff.mp hvalue with hnew | ⟨_, hold⟩
  · exact Or.inl ⟨value, hnew, hmatch⟩
  · exact Or.inr ⟨value, hold, hmatch⟩

theorem carries_user_flags {active : List String} {user key : String}
    (h : Carries (setFields [] (userFlags active user)) key) : key = user ∨ key ∈ active := by
  obtain ⟨name, rest, hsteps⟩ := path_steps_cons key
  rw [carries_iff hsteps] at h
  obtain ⟨value, hvalue, hmatch⟩ := h
  rw [field?_upload] at hvalue
  split at hvalue
  · rename_i hflag
    cases hvalue
    obtain ⟨rfl, -⟩ := scalar_flag (by simp) (by simp) hmatch
    rw [path_steps_single hsteps]
    exact hflag
  · cases hvalue

theorem carries_stamp {source key : String} {fields : Fields} {doc : Document} {time : Rat}
    (h : Carries (stamp source fields doc time).metadata key) :
    Carries (setFields [] fields) key ∨ Carries doc.metadata key := by
  refine h.of_set_fields.imp_right (fun h => ?_)
  exact (h.of_set_field (Or.inr ⟨_, rfl⟩)).of_set_field (Or.inl ⟨_, rfl⟩)

theorem carries_ensure {ctx : Context V} {metadata : Fields} {key : String}
    (h : Carries (ensureMetadata ctx metadata) key) : Carries metadata key := by
  unfold ensureMetadata at h
  by_cases hsource : ((field? metadata "source").getD .null).truthy = true
  · simp only [if_pos hsource] at h
    split at h
    · exact h
    · exact h.of_set_field (Or.inr ⟨_, rfl⟩)
  · simp only [if_neg hsource] at h
    split at h
    · exact h.of_set_field (Or.inl ⟨_, rfl⟩)
    · exact (h.of_set_field (Or.inr ⟨_, rfl⟩)).of_set_field (Or.inl ⟨_, rfl⟩)

/-! ### The hooks -/

/-- `before_cat_recalls_declarative_memories` gets the config as a dictionary and sets its metadata. -/
def tagConfig (static : Static) (userId : String) (config : RecallConfig V) : RecallConfig V :=
  match Documents.beforeCatRecallsDeclarativeMemories static userId [("metadata", .obj config.metadata)] with
  | some fields => { config with metadata := fieldsOf (field? fields "metadata") }
  | none => config

/-- The hook of the plugin flags what is uploaded, where it does not raise. The other hooks leave the
metadata. -/
structure FlagsUploads (w : Writers C ι V W U β φ) (static : U → Static) : Prop where
  uploads : ∀ userId docs u, (((w.rabbits userId).beforeRabbitholeStoresDocuments docs).run u).1 =
    ((Documents.beforeRabbitholeStoresDocuments (static u) userId docs).map Prod.snd).getD docs
  inserts : ∀ userId doc u,
    (((w.rabbits userId).beforeRabbitholeInsertMemory doc).run u).1.metadata = doc.metadata

/-- The metadata of a recall of documents are the flags, and what is recalled is left. -/
structure RecallsByTags (mind : Mind ι V W) (static : Static) (userId : String) : Prop where
  declarative : ∀ config m, ((mind.beforeCatRecalls "declarative" config).run m).1.metadata =
    (tagConfig static userId config).metadata
  after : ∀ m, (mind.afterCatRecallsMemories.run m).2.memories = m.memories

theorem tag_config_metadata {static : Static} {userId : String} {active : List String}
    (h : static.activeTags userId = some active) (config : RecallConfig V) :
    (tagConfig static userId config).metadata = userFlags active userId := by
  rw [tagConfig, Documents.beforeCatRecallsDeclarativeMemories, h, Option.map_some]
  dsimp only
  rw [field?_setField, if_pos rfl]
  rfl

/-- What matches the flags carries all of them. -/
theorem matches_flags {active : List String} {user : String} {pageContent : String} {metadata : Fields}
    (h : matchesFilter (qdrantFilterFromDict (userFlags active user)) (pointPayload pageContent metadata) =
      true) {key : String} (hkey : key = user ∨ key ∈ active) : Carries metadata key := by
  have hne : userFlags active user ≠ [] :=
    List.ne_nil_of_mem ((mem_userFlags active user user _).mpr ⟨Or.inl rfl, rfl⟩)
  have hflat : ∀ p ∈ userFlags active user, buildCondition p.1 p.2 = [⟨"metadata." ++ p.1, p.2⟩] := by
    rintro ⟨k, value⟩ hp
    obtain ⟨-, rfl⟩ := (mem_userFlags active user k value).mp hp
    rfl
  have hpair := (matches_flat hne hflat).mp h (key, .bool true)
    ((mem_userFlags active user key _).mpr ⟨hkey, rfl⟩)
  rwa [holds_metadata] at hpair

/-! ### Who shares what is stored -/

variable (w : Writers C ι V W U β φ) (static : U → Static)

/-- Each of the flags comes with what is sent. Of a file, it comes with the request or with the chunk, or
it is the one of the user or of a tag that is active for him when the file has been read. -/
def Shares (s : LongTermMemory C ι V U) (flag : String → Prop) : MemoryEvent ι V β → Prop
  | .request (.createMemoryPoint _ _ _ _ metadata)
  | .points (.createMemoryPoint _ _ _ metadata)
  | .points (.editMemoryPoint _ _ _ _ metadata) => ∀ key, flag key → Carries metadata key
  | .ingest userId file chunkSize chunkOverlap metadata =>
    ∃ cut plugins doc fields, s.reads w userId file chunkSize chunkOverlap cut plugins ∧ doc ∈ cut ∧
      metadata = .obj fields ∧ ∀ key, flag key → Carries (setFields [] fields) key ∨
        Carries doc.metadata key ∨ key = userId ∨
          ∃ active, (static plugins).activeTags userId = some active ∧ key ∈ active
  | _ => False

variable {w static}

/-- A chunk as the hook of the plugin leaves it. -/
theorem flagged_chunk {static : Static} {userId : String} {cut : List Document} {doc : Document}
    (h : doc ∈ ((Documents.beforeRabbitholeStoresDocuments static userId cut).map Prod.snd).getD cut) :
    ∃ original ∈ cut, ∀ key, Carries doc.metadata key → Carries original.metadata key ∨ key = userId ∨
      ∃ active, static.activeTags userId = some active ∧ key ∈ active := by
  cases hhook : Documents.beforeRabbitholeStoresDocuments static userId cut with
  | none =>
    rw [hhook] at h
    exact ⟨doc, h, fun _ hkey => Or.inl hkey⟩
  | some result =>
    rw [hhook] at h
    obtain ⟨active, hactive, hupload⟩ := Option.bind_eq_some_iff.mp hhook
    have hdocs : doc ∈ result.2 := h
    rw [uploadDocuments_flags hupload] at hdocs
    obtain ⟨original, horiginal, rfl⟩ := List.mem_map.mp hdocs
    refine ⟨original, horiginal, fun key hkey => ?_⟩
    rcases hkey.of_set_fields with hflag | hown
    · exact Or.inr ((carries_user_flags hflag).imp_right (fun htag => ⟨active, hactive, htag⟩))
    · exact Or.inl hown

/-- What is found by flags comes from an event that shares it. -/
theorem puts_shared (hplugin : FlagsUploads w static) {s : LongTermMemory C ι V U}
    {point : Point V} {e : MemoryEvent ι V β} (h : Puts w s "declarative" point e) {flag : String → Prop}
    (hflags : ∀ key, flag key → Carries point.metadata key) : Shares w static s flag e := by
  cases e with
  | request r =>
    cases r with
    | message userId messageDict time id => exact absurd h.1 (by decide)
    | getConversationHistory userId => exact h.elim
    | wipeConversationHistory userId => exact h.elim
    | createMemoryPoint userId ctx target content metadata =>
      obtain ⟨_, _, hmetadata, _⟩ := h
      exact fun key hkey => carries_ensure (hmetadata ▸ hflags key hkey)
  | points r =>
    cases r with
    | createMemoryPoint ctx target content metadata =>
      obtain ⟨_, _, _, hmetadata, _⟩ := h
      exact fun key hkey => carries_ensure (hmetadata ▸ hflags key hkey)
    | editMemoryPoint ctx target id content metadata =>
      obtain ⟨_, _, _, hmetadata, _⟩ := h
      exact fun key hkey => carries_ensure (hmetadata ▸ hflags key hkey)
    | deleteMemoryPoint target id => exact h.elim
    | deleteMemoryPointsByMetadata target metadata => exact h.elim
  | ingest userId file chunkSize chunkOverlap metadata =>
    obtain ⟨_, cut, plugins, fields, time, final, hread, _, doc, hdoc, rfl, _, ⟨u₂, rfl⟩, _, hmetadata, _⟩ := h
    rw [hplugin.uploads] at hdoc
    obtain ⟨original, horiginal, hkeys⟩ := flagged_chunk hdoc
    refine ⟨cut, plugins, original, fields, hread, horiginal, rfl, fun key hkey => ?_⟩
    have hstamped : Carries (stamp file.name fields doc time).metadata key := by
      rw [← hplugin.inserts userId _ u₂, ← hmetadata]
      exact hflags key hkey
    rcases carries_stamp hstamped with hsent | hchunk
    · exact Or.inl hsent
    · rcases hkeys key hchunk with hown | huser | ⟨active, hactive, htag⟩
      · exact Or.inr (Or.inl hown)
      · exact Or.inr (Or.inr (Or.inl huser))
      · exact Or.inr (Or.inr (Or.inr ⟨active, hactive, htag⟩))

/-! ### The recall -/

theorem recall_loop_ran {client : Search ι V} {config : RecallConfig V} {configs : List (RecallConfig V)}
    {memoryType : String} {points : Dict ι (Point V)} {rest : List (String × Dict ι (Point V))}
    {m m' : RecallingMemory ι V W}
    (h : (recallLoop client (config :: configs) ((memoryType, points) :: rest)).run.run m = (.ok ⟨⟩, m')) :
    ∃ hits t, recallByConfig client points config = .ok hits ∧
      t.memories = m.memories.set memoryType hits ∧
      (recallLoop client configs rest).run.run t = (.ok ⟨⟩, m') := by
  obtain ⟨hits, m₁, hhits, h⟩ := bind_ran h
  obtain ⟨_, m₂, hset, h⟩ := bind_ran h
  obtain ⟨hfound, rfl⟩ := Prod.mk.inj hhits
  cases hset
  exact ⟨hits, _, hfound, rfl, h⟩

/-- The recall of the second of the three collections. -/
theorem recalled_declarative {mind : Mind ι V W} {client : Search ι V} {db : Collections ι V}
    {points declarative procedures : Dict ι (Point V)} (hdb : Collected db points declarative procedures)
    (hafter : ∀ m, (mind.afterCatRecallsMemories.run m).2.memories = m.memories) {userId text : String}
    {m m' : RecallingMemory ι V W}
    (hran : (recallRelevantMemoriesToWorkingMemory mind client db userId text).run.run m = (.ok ⟨⟩, m')) :
    ∃ config m₀ hits, recallByConfig client declarative
        ((mind.beforeCatRecalls "declarative" config).run m₀).1 = .ok hits ∧
      m'.memories.get? "declarative" = some hits := by
  obtain ⟨recallQuery, m₁, _, hran₁⟩ := bind_ran hran
  obtain ⟨embedding, m₂, _, hran₂⟩ := bind_ran hran₁
  obtain ⟨_, m₃, _, hran₃⟩ := bind_ran hran₂
  obtain ⟨_, m₄, _, hran₄⟩ := bind_ran hran₃
  obtain ⟨configs, m₅, hconfigs, hran₅⟩ := bind_ran hran₄
  obtain ⟨_, m₆, hloop, hlast⟩ := bind_ran hran₅
  have hhooked : ∃ first config m₀ last, configs = [first,
      ((mind.beforeCatRecalls "declarative" config).run m₀).1, last] := by
    cases hconfigs
    exact ⟨_, _, _, _, rfl⟩
  obtain ⟨first, config, m₀, last, rfl⟩ := hhooked
  rw [hdb] at hloop
  obtain ⟨hits₁, t₁, _, _, hloop⟩ := recall_loop_ran hloop
  obtain ⟨hits₂, t₂, hhits₂, hset₂, hloop⟩ := recall_loop_ran hloop
  obtain ⟨hits₃, t₃, _, hset₃, hloop⟩ := recall_loop_ran hloop
  have hmemories : m'.memories = t₃.memories := by
    cases hloop
    cases hlast
    exact hafter _
  refine ⟨config, m₀, hits₂, hhits₂, ?_⟩
  rw [hmemories, hset₃, hset₂, Dict.get?_set_other _ _ (by decide), Dict.get?_set_self]

/-- The documents that a recall by tags finds are stored and carry the flags of the user and of his tags. -/
theorem recalled_flagged {mind : Mind ι V W} {client : Search ι V} {db : Collections ι V}
    {points declarative procedures : Dict ι (Point V)} (hdb : Collected db points declarative procedures)
    {static : Static} {userId text : String} (hmind : RecallsByTags mind static userId)
    {active : List String} (hactive : static.activeTags userId = some active)
    {m m' : RecallingMemory ι V W}
    (hran : (recallRelevantMemoriesToWorkingMemory mind client db userId text).run.run m = (.ok ⟨⟩, m')) :
    ∃ hits, m'.memories.get? "declarative" = some hits ∧ ∀ hit ∈ hits,
      Stored db "declarative" hit.point ∧
        ∀ key, key = userId ∨ key ∈ active → Carries hit.point.metadata key := by
  obtain ⟨config, m₀, hits, hhits, hget⟩ := recalled_declarative hdb hmind.after hran
  refine ⟨hits, hget, fun hit hhit => ?_⟩
  have hmetadata := (hmind.declarative config m₀).trans (tag_config_metadata hactive config)
  rw [recallByConfig] at hhits
  split at hhits
  · cases hhits
    obtain ⟨hmem, hmatch⟩ := client.found _ _ _ _ hit (List.mem_filter.mp hhit).1
    rw [hmetadata] at hmatch
    refine ⟨⟨declarative, hdb.declarative_points, ?_⟩, fun key hkey => matches_flags hmatch hkey⟩
    exact List.mem_map_of_mem hmem
  · cases hhits

theorem collected_of_keys {db : Collections ι V} (h : db.keys = [episodic, "declarative", procedural]) :
    ∃ points declarative procedures, Collected db points declarative procedures := by
  obtain ⟨⟨_, points⟩, _, hentries, rfl, hmore⟩ := List.map_eq_cons_iff.mp h
  obtain ⟨⟨_, declarative⟩, _, rfl, rfl, hlast⟩ := List.map_eq_cons_iff.mp hmore
  obtain ⟨⟨_, procedures⟩, _, rfl, rfl, hnone⟩ := List.map_eq_cons_iff.mp hlast
  obtain rfl := List.map_eq_nil_iff.mp hnone
  exact ⟨points, declarative, procedures, hentries⟩

variable [DecidableEq ι]

/-- The three collections of the core stay in their order. -/
theorem run_collected {w : Writers C ι V W U β φ} (hfresh : ∀ userId, (w.rabbits userId).Fresh)
    (s : LongTermMemory C ι V U) (events : List (MemoryEvent ι V β)) :
    (events.foldl (LongTermMemory.step w) s).server.db.keys = s.server.db.keys := by
  induction events generalizing s with
  | nil => rfl
  | cons e events ih => exact (ih (s.step w e)).trans (step_writes hfresh s e).keys

/-- After any run, what a user recalls of the documents was there from the start or comes from an event that
shares it with him: his name and all tags that are active for him come with what was sent, or with the
file, or are the name or active tags of the user who uploaded it. -/
theorem recalled_shared {w : Writers C ι V W U β φ} {static : U → Static} (hplugin : FlagsUploads w static)
    (hfresh : ∀ userId, (w.rabbits userId).Fresh) {s : LongTermMemory C ι V U}
    (hcore : s.server.db.keys = [episodic, "declarative", procedural]) (events : List (MemoryEvent ι V β))
    {mind : Mind ι V W} {current : Static} {userId text : String}
    (hmind : RecallsByTags mind current userId) {active : List String}
    (hactive : current.activeTags userId = some active) {m m' : RecallingMemory ι V W}
    (hran : (recallRelevantMemoriesToWorkingMemory mind w.client
      (events.foldl (LongTermMemory.step w) s).server.db userId text).run.run m = (.ok ⟨⟩, m')) :
    let flag := fun key => key = userId ∨ key ∈ active
    ∃ hits, m'.memories.get? "declarative" = some hits ∧ ∀ hit ∈ hits,
      (∀ key, flag key → Carries hit.point.metadata key) ∧
        (Stored s.server.db "declarative" hit.point ∨
          ∃ before e rest, events = before ++ e :: rest ∧
            let s := before.foldl (LongTermMemory.step w) s
            Puts w s "declarative" hit.point e ∧ Shares w static s flag e) := by
  obtain ⟨points, declarative, procedures, hdb⟩ :=
    collected_of_keys ((run_collected hfresh s events).trans hcore)
  obtain ⟨hits, hget, hfound⟩ := recalled_flagged hdb hmind hactive hran
  refine ⟨hits, hget, fun hit hhit => ?_⟩
  obtain ⟨hstored, hflags⟩ := hfound hit hhit
  refine ⟨hflags, ?_⟩
  have horigin := foldl_origin (P := fun s : LongTermMemory C ι V U => Stored s.server.db "declarative" hit.point)
    (fun s e => step_origin hfresh s e) hstored
  rcases horigin with hold | ⟨before, e, rest, hevents, hputs⟩
  · exact Or.inl hold
  · exact Or.inr ⟨before, e, rest, hevents, hputs, puts_shared hplugin hputs hflags⟩

/-- Two users with one tag, which is active for both. -/
def petTags : Static where
  userStatus := some (.obj [("alice", .obj [("pets", .obj [("status", .bool true)])]),
    ("bob", .obj [("pets", .obj [("status", .bool true)])])])
  tags := some (.obj [("tags", .arr [.str "pets"])])

def taggedReader (userId : String) : Rabbits Nat Unit Rat (List String) Unit :=
  { lineReader with
    beforeRabbitholeStoresDocuments := fun docs =>
      pure (((Documents.beforeRabbitholeStoresDocuments petTags userId docs).map Prod.snd).getD docs) }

def taggedWriters : Writers PlainCache Nat Unit Unit Rat (List String) Unit :=
  ⟨dictCache, fun _ => echo, scan, fun id => .ok id.length, taggedReader⟩

def taggedEcho (userId : String) : Mind Nat Unit Unit :=
  { echo with
    beforeCatRecalls := fun memoryType config =>
      pure (if memoryType = "declarative" then tagConfig petTags userId config else config) }

/-- Both read a file, and a letter is sent that is flagged for bob. -/
def petTalk : List (MemoryEvent Nat Unit (List String)) :=
  [.ingest "alice" (.uploadFile "diary.txt" ["my cat ran away"]) none none (.obj []),
    .ingest "bob" (.uploadFile "cats.txt" ["the cat is Tom"]) none none (.obj []),
    .points (.createMemoryPoint letterContext "declarative" "a letter"
      [("bob", .bool true), ("pets", .bool true)])]

def petMemory : LongTermMemory PlainCache Nat Unit Rat :=
  petTalk.foldl (LongTermMemory.step taggedWriters) emptyShelf

def bobRecalls : Except String Unit × RecallingMemory Nat Unit Unit :=
  (recallRelevantMemoriesToWorkingMemory (taggedEcho "bob") scan petMemory.server.db "bob"
    "who is Tom?").run.run { rest := ⟨⟩ }

/-- Bob recalls his own file and the letter, and not what alice has read. -/
theorem own_file_recalled : ∃ hits, bobRecalls.2.memories.get? "declarative" = some hits ∧
    hits.map (fun hit => hit.point.pageContent) = ["the cat is Tom", "a letter"] ∧
    ∀ hit ∈ hits, ∃ before e rest, petTalk = before ++ e :: rest ∧
      Shares taggedWriters (fun _ => petTags) (before.foldl (LongTermMemory.step taggedWriters) emptyShelf)
        (fun key => key = "bob" ∨ key ∈ ["pets"]) e := by
  have hcontents : (bobRecalls.2.memories.get? "declarative").map
      (fun hits => hits.map (fun hit => hit.point.pageContent)) = some ["the cat is Tom", "a letter"] := by
    decide +kernel
  have hok : bobRecalls.1 = .ok ⟨⟩ := by decide +kernel
  have hran : bobRecalls = (.ok ⟨⟩, bobRecalls.2) := Prod.ext hok rfl
  have hplugin : FlagsUploads taggedWriters (fun _ => petTags) := ⟨fun _ _ _ => rfl, fun _ _ _ => rfl⟩
  have hmind : RecallsByTags (taggedEcho "bob") petTags "bob" := ⟨fun _ _ => rfl, fun _ => rfl⟩
  have hactive : petTags.activeTags "bob" = some ["pets"] := by decide +kernel
  obtain ⟨hits, hget, hfound⟩ := recalled_shared hplugin (fun _ => line_reader_fresh) (s := emptyShelf) rfl
    petTalk hmind hactive hran
  obtain ⟨hits', hget', hlist⟩ := Option.map_eq_some_iff.mp hcontents
  obtain rfl := Option.some.inj (hget.symm.trans hget')
  refine ⟨hits, hget, hlist, fun hit hhit => ?_⟩
  rcases (hfound hit hhit).2 with ⟨points, hpoints, hin⟩ | ⟨before, e, rest, hevents, _, hshares⟩
  · cases hpoints
    cases hin
  · exact ⟨before, e, rest, hevents, hshares⟩

end CheshireCat.Session
