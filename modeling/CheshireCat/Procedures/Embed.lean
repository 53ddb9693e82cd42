import CheshireCat.MadHatter.Plugin

namespace CheshireCat.Procedures
open Base MadHatter

/-- A point of the procedural collection without its id. Legacy points have no
`trigger_type`. -/
structure Point (ν τ : Type) where
  vector : ν
  pageContent : String
  source : String
  type : String
  triggerType : Option String
  when : τ
deriving DecidableEq

/-- The collection: points under their ids. -/
abbrev Collection (ν τ : Type) := Dict String (Point ν τ)

/-- One trigger of an active procedure. -/
structure Trigger where
  source : String
  type : String
  triggerType : String
  content : String
deriving DecidableEq

def hash (source triggerType content : String) : String :=
  source ++ "." ++ triggerType ++ "." ++ content

variable {ν τ : Type}

def Point.key (p : Point ν τ) : String :=
  hash p.source (p.triggerType.getD "unsupported") p.pageContent

def Trigger.key (t : Trigger) : String := hash t.source t.triggerType t.content

/-- `get_all_points` reads at most this many points. -/
def limit : Nat := 10000

/-- What the vector store, the interpreter and the embedder decide: the page that
a scroll returns, the order of a set, new ids, vectors and times. -/
structure Env (ν τ : Type) where
  scroll : Collection ν τ → List (String × Point ν τ)
  page : ∀ c, ∃ rest, (scroll c ++ rest).Perm c.entries
  length : ∀ c, (scroll c).length = min limit c.entries.length
  listOfSet : List String → List String
  perm : ∀ keys, (listOfSet keys).Perm keys
  uuid : Collection ν τ → String
  fresh : ∀ c, uuid c ∉ c.keys
  embed : String → ν
  time : Collection ν τ → τ

def buildEmbeddedProceduresHashes (points : List (String × Point ν τ)) : Dict String String :=
  points.foldl (fun hashes ep => hashes.set ep.2.key ep.1) .empty

def triggers (ap : Procedure) : List Trigger :=
  ap.triggersMap.entries.flatMap (fun m =>
    m.2.map (fun content => ⟨ap.name, ap.procedureType, m.1, content⟩))

def buildActiveProceduresHashes (procedures : List Procedure) : Dict String Trigger :=
  (procedures.flatMap triggers).foldl (fun hashes t => hashes.set t.key t) .empty

inductive PointOperation where
  | deletePoints (ids : List String)
  | addPoint (t : Trigger)
deriving DecidableEq

/-- Nothing is sent where there is nothing to delete. -/
def deletions (ids : List String) : List PointOperation :=
  if ids = [] then [] else [.deletePoints ids]

/-- The point operations of `embed_procedures`, in order. -/
def plan (env : Env ν τ) (c : Collection ν τ) (procedures : List Procedure) :
    List PointOperation :=
  let embedded := buildEmbeddedProceduresHashes (env.scroll c)
  let active := buildActiveProceduresHashes procedures
  let toDelete := env.listOfSet (embedded.keys.filter (fun k => k ∉ active.keys))
  let toEmbed := env.listOfSet (active.keys.filter (fun k => k ∉ embedded.keys))
  deletions (toDelete.filterMap embedded.get?) ++ (toEmbed.filterMap active.get?).map .addPoint

def execute (env : Env ν τ) (c : Collection ν τ) : PointOperation → Collection ν τ
  | .deletePoints ids => c.restrict (fun id => id ∉ ids)
  | .addPoint t =>
    c.set (env.uuid c)
      ⟨env.embed t.content, t.content, t.source, t.type, some t.triggerType, env.time c⟩

/-- A run that an exception cuts short after `cut` point operations. -/
def embedProceduresCut (env : Env ν τ) (c : Collection ν τ) (procedures : List Procedure)
    (cut : Nat) : Collection ν τ :=
  ((plan env c procedures).take cut).foldl (execute env) c

def embedProcedures (env : Env ν τ) (c : Collection ν τ) (procedures : List Procedure) :
    Collection ν τ :=
  (plan env c procedures).foldl (execute env) c

/-- The keys of the active triggers, each once. -/
def activeKeys (procedures : List Procedure) : List String :=
  (buildActiveProceduresHashes procedures).keys

/-- The keys of the stored points, with repetitions. -/
def storedKeys (c : Collection ν τ) : List String := c.entries.map (fun e => e.2.key)

/-! ### The two dictionaries -/

theorem active_keys_nodup (procedures : List Procedure) : (activeKeys procedures).Nodup :=
  (buildActiveProceduresHashes procedures).distinct

/-- A key leads to a trigger that has it. -/
theorem active_trigger {procedures : List Procedure} {k : String} (h : k ∈ activeKeys procedures) :
    ∃ t, (buildActiveProceduresHashes procedures).get? k = some t ∧ t.key = k := by
  obtain ⟨t, ht⟩ := (Dict.mem_keys_iff _ _).mp h
  refine ⟨t, ht, ?_⟩
  rcases Dict.get?_foldl_set Trigger.key id ht with ⟨b, _, hk, rfl⟩ | hnone
  · exact hk
  · cases hnone

theorem mem_embedded_keys (points : List (String × Point ν τ)) (k : String) :
    k ∈ (buildEmbeddedProceduresHashes points).keys ↔ ∃ p ∈ points, p.2.key = k := by
  have h := Dict.mem_keys_foldl_set (fun p : String × Point ν τ => p.2.key) Prod.fst points .empty k
  refine h.trans (or_iff_left ?_)
  exact nofun

theorem embedded_id {points : List (String × Point ν τ)} {k id : String}
    (h : (buildEmbeddedProceduresHashes points).get? k = some id) :
    ∃ p ∈ points, p.2.key = k ∧ p.1 = id := by
  rcases Dict.get?_foldl_set (fun p : String × Point ν τ => p.2.key) Prod.fst h with hp | hnone
  · exact hp
  · cases hnone

/-! ### The point operations -/

/-- The ids that a run deletes. -/
def deletedIds (env : Env ν τ) (c : Collection ν τ) (procedures : List Procedure) : List String :=
  (env.listOfSet ((buildEmbeddedProceduresHashes (env.scroll c)).keys.filter
    (fun k => k ∉ activeKeys procedures))).filterMap (buildEmbeddedProceduresHashes (env.scroll c)).get?

/-- The keys that a run embeds, in its order. -/
def embeddedKeys (env : Env ν τ) (c : Collection ν τ) (procedures : List Procedure) : List String :=
  env.listOfSet ((activeKeys procedures).filter
    (fun k => k ∉ (buildEmbeddedProceduresHashes (env.scroll c)).keys))

theorem mem_embedded (env : Env ν τ) (c : Collection ν τ) (procedures : List Procedure) (k : String) :
    k ∈ embeddedKeys env c procedures ↔
      k ∈ activeKeys procedures ∧ ∀ p ∈ env.scroll c, p.2.key ≠ k := by
  unfold embeddedKeys
  rw [(env.perm _).mem_iff, List.mem_filter, decide_eq_true_iff, mem_embedded_keys]
  simp only [not_exists, not_and]

theorem mem_deleted (env : Env ν τ) (c : Collection ν τ) (procedures : List Procedure) (id : String) :
    id ∈ deletedIds env c procedures ↔ ∃ k, k ∉ activeKeys procedures ∧
      (buildEmbeddedProceduresHashes (env.scroll c)).get? k = some id := by
  unfold deletedIds
  rw [List.mem_filterMap]
  refine exists_congr (fun k => ?_)
  rw [(env.perm _).mem_iff, List.mem_filter, decide_eq_true_iff]
  constructor
  · intro hx
    obtain ⟨⟨_, hk⟩, hget⟩ := hx
    exact ⟨hk, hget⟩
  · intro hx
    obtain ⟨hk, hget⟩ := hx
    exact ⟨⟨(Dict.mem_keys_iff _ _).mpr ⟨id, hget⟩, hk⟩, hget⟩

theorem embedded_keys_nodup (env : Env ν τ) (c : Collection ν τ) (procedures : List Procedure) :
    (embeddedKeys env c procedures).Nodup :=
  (env.perm _).nodup_iff.mpr ((active_keys_nodup procedures).filter _)

/-- Adding triggers appends one point for each, under its key. -/
theorem add_points (env : Env ν τ) (ts : List Trigger) (c : Collection ν τ) :
    ∃ added, ((ts.map PointOperation.addPoint).foldl (execute env) c).entries = c.entries ++ added ∧
      added.map (fun e => e.2.key) = ts.map Trigger.key := by
  induction ts generalizing c with
  | nil => exact ⟨[], by simp⟩
  | cons t ts ih =>
    let p : Point ν τ :=
      ⟨env.embed t.content, t.content, t.source, t.type, some t.triggerType, env.time c⟩
    obtain ⟨added, he, hk⟩ := ih (c.set (env.uuid c) p)
    refine ⟨(env.uuid c, p) :: added, ?_, ?_⟩
    · change (((ts.map PointOperation.addPoint).foldl (execute env)
        (c.set (env.uuid c) p))).entries = _
      rw [he, Dict.entries_set_new c p (env.fresh c), List.append_assoc, List.singleton_append]
    · rw [List.map_cons, hk]
      rfl

theorem execute_deletions (env : Env ν τ) (ids : List String) (c : Collection ν τ) :
    (deletions ids).foldl (execute env) c = c.restrict (fun id => id ∉ ids) := by
  unfold deletions
  split
  · rename_i hnil
    apply Dict.ext
    change c.entries = c.entries.filter _
    rw [hnil]
    simp
  · rfl

theorem trigger_keys {procedures : List Procedure} {keys : List String}
    (h : ∀ k ∈ keys, k ∈ activeKeys procedures) :
    (keys.filterMap (buildActiveProceduresHashes procedures).get?).map Trigger.key = keys := by
  induction keys with
  | nil => rfl
  | cons k ks ih =>
    obtain ⟨t, ht, hk⟩ := active_trigger (h k List.mem_cons_self)
    rw [List.filterMap_cons, ht, List.map_cons, hk, ih (fun j hj => h j (List.mem_cons_of_mem k hj))]

/-- The triggers that a run embeds, in its order. -/
def newTriggers (env : Env ν τ) (c : Collection ν τ) (procedures : List Procedure) : List Trigger :=
  (embeddedKeys env c procedures).filterMap (buildActiveProceduresHashes procedures).get?

theorem new_trigger_keys (env : Env ν τ) (c : Collection ν τ) (procedures : List Procedure) :
    (newTriggers env c procedures).map Trigger.key = embeddedKeys env c procedures :=
  trigger_keys (fun k hk => ((mem_embedded env c procedures k).mp hk).1)

theorem plan_eq (env : Env ν τ) (c : Collection ν τ) (procedures : List Procedure) :
    plan env c procedures = deletions (deletedIds env c procedures) ++
      (newTriggers env c procedures).map .addPoint := rfl

/-- A complete run: the points that are left, then the new ones. -/
theorem embed_entries (env : Env ν τ) (c : Collection ν τ) (procedures : List Procedure) :
    ∃ added, (embedProcedures env c procedures).entries =
        c.entries.filter (fun e => e.1 ∉ deletedIds env c procedures) ++ added ∧
      added.map (fun e => e.2.key) = embeddedKeys env c procedures := by
  obtain ⟨added, he, hk⟩ := add_points env (newTriggers env c procedures)
    (c.restrict (fun id => id ∉ deletedIds env c procedures))
  refine ⟨added, ?_, hk.trans (new_trigger_keys env c procedures)⟩
  rw [embedProcedures, plan_eq, List.foldl_append, execute_deletions, he]
  rfl

theorem page_mem {env : Env ν τ} {c : Collection ν τ} {e : String × Point ν τ}
    (h : e ∈ env.scroll c) : e ∈ c.entries := by
  obtain ⟨rest, hperm⟩ := env.page c
  exact hperm.mem_iff.mp (List.mem_append_left rest h)

/-- A collection that fits on one page is read as a whole. -/
theorem page_all (env : Env ν τ) {c : Collection ν τ} (h : c.entries.length ≤ limit)
    (e : String × Point ν τ) : e ∈ env.scroll c ↔ e ∈ c.entries := by
  refine ⟨page_mem, ?_⟩
  intro he
  obtain ⟨rest, hperm⟩ := env.page c
  have hlen := hperm.length_eq
  rw [List.length_append, env.length, Nat.min_eq_right h] at hlen
  have hrest : rest = [] := List.eq_nil_of_length_eq_zero (by omega)
  rw [hrest, List.append_nil] at hperm
  exact hperm.mem_iff.mpr he

theorem entry_unique {c : Collection ν τ} {e f : String × Point ν τ} (he : e ∈ c.entries)
    (hf : f ∈ c.entries) (h : e.1 = f.1) : e = f :=
  List.inj_on_of_nodup_map c.distinct he hf h

/-- Only points of inactive procedures are deleted, and of each key only the one
that the dictionary has kept. -/
theorem deleted_inactive {env : Env ν τ} {c : Collection ν τ} {procedures : List Procedure}
    {e : String × Point ν τ} (he : e ∈ c.entries) (h : e.1 ∈ deletedIds env c procedures) :
    e ∈ env.scroll c ∧ e.2.key ∉ activeKeys procedures ∧
      (buildEmbeddedProceduresHashes (env.scroll c)).get? e.2.key = some e.1 := by
  obtain ⟨k, hk, hget⟩ := (mem_deleted env c procedures e.1).mp h
  obtain ⟨f, hf, hfk, hfid⟩ := embedded_id hget
  have hef : e = f := entry_unique he (page_mem hf) hfid.symm
  rw [hef, hfk]
  exact ⟨hf, hk, hfid ▸ hget⟩

/-- Where the inactive points of a page have distinct keys, all are deleted. -/
theorem deleted_iff {env : Env ν τ} {c : Collection ν τ} {procedures : List Procedure}
    (hn : ((storedKeys c).filter (fun k => k ∉ activeKeys procedures)).Nodup)
    {e : String × Point ν τ} (he : e ∈ env.scroll c) :
    e.1 ∈ deletedIds env c procedures ↔ e.2.key ∉ activeKeys procedures := by
  refine ⟨fun h => (deleted_inactive (page_mem he) h).2.1, ?_⟩
  intro hk
  obtain ⟨id, hget⟩ := (Dict.mem_keys_iff _ _).mp ((mem_embedded_keys _ _).mpr ⟨e, he, rfl⟩)
  obtain ⟨f, hf, hfk, hfid⟩ := embedded_id hget
  have hfe : f = e := by
    have hinj := List.inj_on_of_nodup_map (f := fun x : String × Point ν τ => x.2.key)
      (l := c.entries.filter (fun x => x.2.key ∉ activeKeys procedures)) (by
        rw [storedKeys, List.filter_map] at hn
        exact hn)
    refine hinj ?_ ?_ hfk
    · exact List.mem_filter.mpr ⟨page_mem hf, by simpa [hfk] using hk⟩
    · exact List.mem_filter.mpr ⟨page_mem he, by simpa using hk⟩
  rw [hfe] at hfid
  exact (mem_deleted env c procedures e.1).mpr ⟨e.2.key, hk, hfid ▸ hget⟩

end CheshireCat.Procedures
