import CheshireCat.Base.Noninterference
import CheshireCat.Base.Traced
import CheshireCat.Session.RecallingTurns

namespace CheshireCat.Session
open Base Memory Json

variable {ι V W : Type}

/-- What a user is recalled of the episodic collection. -/
def owns (userId : String) (point : Point V) : Bool := point.hasPair "source" (.str userId)

def ownPoints (userId : String) (points : Dict ι (Point V)) : List (ι × Point V) :=
  points.entries.filter (fun p => owns userId p.2)

/-- A filtered search looks at the points that match and at no others, as a full scan does. -/
def Local (client : Search ι V) : Prop :=
  ∀ points points' : Dict ι (Point V), ∀ filter v k,
    points.entries.filter (fun p => matchesFilter filter (pointPayload p.2.pageContent p.2.metadata)) =
      points'.entries.filter (fun p => matchesFilter filter (pointPayload p.2.pageContent p.2.metadata)) →
    client.search points filter v k = client.search points' filter v k

/-- The hooks leave the source of what is recalled and of what is stored. -/
structure Mind.KeepsSource (mind : Mind ι V W) (userId : String) : Prop where
  recalls : ∀ config m, ("source", .str userId) ∈ config.metadata →
    ("source", .str userId) ∈ ((mind.beforeCatRecalls episodic config).run m).1.metadata
  stores : ∀ doc m, field? ((mind.beforeCatStoresEpisodicMemory doc).run m).1.metadata "source" =
    field? doc.metadata "source"

/-! ### The recall -/

/-- The pair of a filter is a condition of it. -/
theorem matches_owns {metadata : Fields} {userId : String} (h : ("source", .str userId) ∈ metadata)
    {point : Point V} (hmatch : matchesFilter (qdrantFilterFromDict metadata)
      (pointPayload point.pageContent point.metadata) = true) : owns userId point = true := by
  cases metadata with
  | nil => cases h
  | cons p rest =>
    have hall : ∀ c ∈ (p :: rest).flatMap (fun p => buildCondition p.1 p.2),
        c.holds (pointPayload point.pageContent point.metadata) = true := List.all_eq_true.mp hmatch
    exact hall ⟨"metadata.source", .str userId⟩ (List.mem_flatMap.mpr ⟨_, h, by simp [buildCondition]⟩)

theorem recall_own {client : Search ι V} (hlocal : Local client) {points points' : Dict ι (Point V)}
    {userId : String} (hown : ownPoints userId points = ownPoints userId points') {config : RecallConfig V}
    (hsource : ("source", .str userId) ∈ config.metadata) :
    recallByConfig client points config = recallByConfig client points' config := by
  have hnarrow : ∀ d : Dict ι (Point V),
      d.entries.filter (fun p => matchesFilter (qdrantFilterFromDict config.metadata)
        (pointPayload p.2.pageContent p.2.metadata)) =
      (ownPoints userId d).filter (fun p => matchesFilter (qdrantFilterFromDict config.metadata)
        (pointPayload p.2.pageContent p.2.metadata)) := by
    intro d
    rw [ownPoints, List.filter_filter]
    apply List.filter_congr
    intro p _
    rw [Bool.eq_iff_iff, Bool.and_eq_true]
    exact ⟨fun h => ⟨h, matches_owns hsource h⟩, And.left⟩
  have hsearch := hlocal points points' (qdrantFilterFromDict config.metadata) config.embedding config.k
    (by rw [hnarrow, hnarrow, hown])
  rw [recallByConfig, recallByConfig, hsearch]

/-- The three collections of the core, in their order. -/
def Collected (db : Collections ι V) (points declarative procedures : Dict ι (Point V)) : Prop :=
  db.entries = [(episodic, points), ("declarative", declarative), (procedural, procedures)]

/-- Collections that a user cannot tell apart, of which the first have all the ids. -/
def SameDb (userId : String) (db db' : Collections ι V) : Prop :=
  ∃ points points' declarative procedures, Collected db points declarative procedures ∧
    Collected db' points' declarative procedures ∧
    ownPoints userId points = ownPoints userId points' ∧ points'.keys ⊆ points.keys

/-- What follows code that never raises may differ where its results do not come. -/
theorem lift_bind_congr {σ α β : Type} {c : StateM σ α} {f g : α → ExceptT String (StateM σ) β}
    (h : ∀ s, f (c.run s).1 = g (c.run s).1) :
    ((liftM c : ExceptT String (StateM σ) α) >>= f) = (liftM c >>= g) := by
  funext s
  exact congrFun (h s) (c.run s).2

theorem recall_configs_head {mind : Mind ι V W} {userId : String} (hkeeps : mind.KeepsSource userId)
    (embedding : V) (rest : List String) (m : RecallingMemory ι V W) : ∃ config configs,
      ((recallConfigs mind embedding userId (episodic :: rest)).run m).1 = config :: configs ∧
      ("source", .str userId) ∈ config.metadata := by
  refine ⟨_, _, rfl, hkeeps.recalls _ m ?_⟩
  exact List.mem_singleton.mpr rfl

theorem recall_same {mind : Mind ι V W} {client : Search ι V} (hlocal : Local client)
    {userId : String} (hkeeps : mind.KeepsSource userId) {db db' : Collections ι V}
    (h : SameDb userId db db') (text : String) : recallRelevantMemoriesToWorkingMemory mind client db userId text =
      recallRelevantMemoriesToWorkingMemory mind client db' userId text := by
  obtain ⟨points, points', declarative, procedures, hentries, hentries', hown, -⟩ := h
  unfold recallRelevantMemoriesToWorkingMemory
  refine bind_congr (fun recallQuery => bind_congr (fun embedding => bind_congr (fun _ => bind_congr (fun _ => ?_))))
  apply lift_bind_congr
  intro m
  obtain ⟨config, configs, hconfigs, hsource⟩ := recall_configs_head hkeeps embedding
    ["declarative", procedural] m
  rw [hconfigs, hentries, hentries', recallLoop, recallLoop, recall_own hlocal hown hsource]

theorem answer_same {mind : Mind ι V W} {client : Search ι V} (hlocal : Local client)
    {userId : String} (hkeeps : mind.KeepsSource userId) {db db' : Collections ι V}
    (h : SameDb userId db db') (messageDict : Json) :
    answerMessage mind client db userId messageDict = answerMessage mind client db' userId messageDict := by
  unfold answerMessage
  simp only [recall_same hlocal hkeeps h]

/-! ### The turn -/

/-- A turn with the point that it stores. -/
def turn (mind : Mind ι V W) (client : Search ι V) (db : Collections ι V) (userId : String)
    (messageDict : Json) (time : Rat) : TurnCode ι V W (Reply × Option (Point V)) := do
  match ← answerMessage mind client db userId messageDict with
  | .replied reply => pure (reply, none)
  | .answered output => do
    let m ← get
    let point ← episodicPoint mind userId (messageText m) time
    let m ← get
    let final ← mind.beforeCatSendsMessage (mind.finalOutput output m)
    modify (addToHistory final)
    pure (.message final, some point)

/-- The point in the episodic collection. -/
def place [DecidableEq ι] (db : Collections ι V) (points : Dict ι (Point V)) (id : ι) :
    Option (Point V) → Collections ι V
  | none => db
  | some point => db.set episodic (points.set id point)

theorem call_turn [DecidableEq ι] {mind : Mind ι V W} {client : Search ι V} {db : Collections ι V}
    {points : Dict ι (Point V)} (hpoints : db.get? episodic = some points) (userId : String)
    (messageDict : Json) (time : Rat) (id : ι) : call mind client db userId messageDict time id =
      (fun p => (p.1, place db points id p.2)) <$> turn mind client db userId messageDict time := by
  unfold call turn
  rw [map_bind]
  refine bind_congr (fun progress => ?_)
  cases progress with
  | replied reply => simp [place]
  | answered output => simp [storeUserMessage, hpoints, place]

/-- What is stored has the user for its source. -/
theorem turn_source {mind : Mind ι V W} {userId : String} (hkeeps : mind.KeepsSource userId)
    (client : Search ι V) (db : Collections ι V) (messageDict : Json) (time : Rat) :
    Gives (fun p => ∀ point ∈ p.2, field? point.metadata "source" = some (.str userId))
      (turn mind client db userId messageDict time) := by
  refine gives_bind (gives_any (answerMessage mind client db userId messageDict)) ?_
  intro progress _
  cases progress with
  | replied reply => exact gives_pure nofun
  | answered output =>
    have hpoint (text : String) : Gives (fun point => field? point.metadata "source" = some (.str userId))
        (episodicPoint mind userId text time) := by
      refine gives_bind (P := fun doc => field? doc.metadata "source" = some (.str userId))
        (gives_lift (fun m => hkeeps.stores _ m)) ?_
      intro doc hdoc
      refine gives_bind (gives_any (ofExcept (mind.embedDocument text))) ?_
      intro vector _
      exact gives_pure hdoc
    refine gives_bind (gives_any get) ?_
    intro m _
    refine gives_bind (hpoint (messageText m)) ?_
    intro point hsource
    refine gives_bind (gives_any get) ?_
    intro m' _
    refine gives_bind (gives_any (liftM (mind.beforeCatSendsMessage (mind.finalOutput output m')))) ?_
    intro final _
    refine gives_bind (gives_any (modify (addToHistory final))) ?_
    intro _ _
    apply gives_pure
    intro point' hpoint'
    obtain rfl := Option.mem_some_iff.mp hpoint'
    exact hsource

/-! ### The collections -/

theorem Collected.episodic_points {db : Collections ι V} {points declarative procedures : Dict ι (Point V)}
    (h : Collected db points declarative procedures) : db.get? episodic = some points := by
  rw [Dict.get?_eq_some_iff, h]
  exact List.mem_cons_self

theorem Collected.declarative_points {db : Collections ι V}
    {points declarative procedures : Dict ι (Point V)}
    (h : Collected db points declarative procedures) : db.get? "declarative" = some declarative := by
  rw [Dict.get?_eq_some_iff, h]
  exact List.mem_cons_of_mem _ List.mem_cons_self

theorem Collected.keys {db : Collections ι V} {points declarative procedures : Dict ι (Point V)}
    (h : Collected db points declarative procedures) :
    db.keys = [episodic, "declarative", procedural] := by
  rw [Dict.keys, h]
  rfl

theorem Collected.set_episodic {db : Collections ι V} {points declarative procedures : Dict ι (Point V)}
    (h : Collected db points declarative procedures) (points' : Dict ι (Point V)) :
    Collected (db.set episodic points') points' declarative procedures := by
  have hne : ("declarative" : String) ≠ episodic ∧ procedural ≠ episodic := by decide
  simp [Collected, Dict.set, Dict.assign, show db.entries = _ from h, hne.1, hne.2]

theorem Collected.set_declarative {db : Collections ι V} {points declarative procedures : Dict ι (Point V)}
    (h : Collected db points declarative procedures) (declarative' : Dict ι (Point V)) :
    Collected (db.set "declarative" declarative') points declarative' procedures := by
  have hne : episodic ≠ "declarative" ∧ procedural ≠ "declarative" := by decide
  simp [Collected, Dict.set, Dict.assign, show db.entries = _ from h, hne.1, hne.2]

section Points

variable [DecidableEq ι]

theorem own_points_set {points : Dict ι (Point V)} {id : ι} (hfresh : id ∉ points.keys) (point : Point V)
    (userId : String) : ownPoints userId (points.set id point) =
      ownPoints userId points ++ if owns userId point then [(id, point)] else [] := by
  rw [ownPoints, Dict.entries_set_new points point hfresh, List.filter_append, List.filter_singleton,
    Bool.cond_eq_ite]
  rfl

/-- A point that the user does not own. -/
theorem same_set_other {userId : String} {db db' : Collections ι V} (h : SameDb userId db db')
    {points : Dict ι (Point V)} (hpoints : db.get? episodic = some points) {id : ι}
    (hfresh : id ∉ points.keys) {point : Point V} (hother : owns userId point = false) :
    SameDb userId (db.set episodic (points.set id point)) db' := by
  obtain ⟨points₁, points', declarative, procedures, hdb, hdb', hown, hids⟩ := h
  obtain rfl := Option.some.inj (hpoints.symm.trans hdb.episodic_points)
  refine ⟨_, points', declarative, procedures, hdb.set_episodic _, hdb', ?_, ?_⟩
  · rw [own_points_set hfresh, hother, hown]
    simp
  · intro i hi
    exact (Dict.mem_keys_set points id i point).mpr (Or.inr (hids hi))

/-- The same point on both sides. -/
theorem same_set_own {userId : String} {db db' : Collections ι V} (h : SameDb userId db db')
    {points points' : Dict ι (Point V)} (hpoints : db.get? episodic = some points)
    (hpoints' : db'.get? episodic = some points') {id : ι} (hfresh : id ∉ points.keys) (point : Point V) :
    SameDb userId (db.set episodic (points.set id point)) (db'.set episodic (points'.set id point)) := by
  obtain ⟨points₁, points₂, declarative, procedures, hdb, hdb', hown, hids⟩ := h
  obtain rfl := Option.some.inj (hpoints.symm.trans hdb.episodic_points)
  obtain rfl := Option.some.inj (hpoints'.symm.trans hdb'.episodic_points)
  have hfresh' : id ∉ points'.keys := fun h => hfresh (hids h)
  refine ⟨_, _, declarative, procedures, hdb.set_episodic _, hdb'.set_episodic _, ?_, ?_⟩
  · rw [own_points_set hfresh, own_points_set hfresh', hown]
  · intro i hi
    rw [Dict.mem_keys_set] at hi ⊢
    exact hi.imp_right (fun h => hids h)

omit [DecidableEq ι] in
/-- The same document on both sides. -/
theorem same_set_declarative {userId : String} {db db' : Collections ι V} (h : SameDb userId db db')
    (declarative' : Dict ι (Point V)) :
    SameDb userId (db.set "declarative" declarative') (db'.set "declarative" declarative') := by
  obtain ⟨points, points', declarative, procedures, hdb, hdb', hsame⟩ := h
  exact ⟨points, points', _, procedures, hdb.set_declarative _, hdb'.set_declarative _, hsame⟩

theorem owns_source {userId source : String} {point : Point V}
    (h : field? point.metadata "source" = some (.str source)) : owns userId point = true ↔ source = userId := by
  have hsteps : pathSteps "source" = [.field "source"] := (path_steps_plain "source").mpr (by decide)
  have hfound : resolve [.field "source"] (.obj point.metadata) = [.str source] := by
    simp only [resolve, h]
  rw [owns, Point.hasPair, holds_metadata, hsteps, hfound]
  simp [matchesValue]

theorem cache_key_injective {userId userId' : String} (h : cacheKey userId = cacheKey userId') :
    userId = userId' := by
  rw [← String.toList_inj] at h ⊢
  rw [cacheKey, cacheKey, String.toList_append, String.toList_append] at h
  exact List.append_cancel_right h

end Points

/-! ### The steps -/

variable {C M : Type}

/-- The cache gives each of these users back what was last stored for him, from any of the good
states on. -/
structure MemoryCache.KeepsApart (cache : MemoryCache C M) (users : String → Prop)
    (good : C → Prop) : Prop where
  insert : ∀ {c userId}, good c → users userId → ∀ m, good (cache.insert c (cacheKey userId) m)
  own : ∀ {c userId}, good c → users userId → ∀ m,
    cache.getValue (cache.insert c (cacheKey userId) m) (cacheKey userId) = some m
  others : ∀ {c userId other}, good c → users userId → users other → other ≠ userId → ∀ m,
    cache.getValue (cache.insert c (cacheKey other) m) (cacheKey userId) =
      cache.getValue c (cacheKey userId)

section Same

variable (cache : MemoryCache C (RecallingMemory ι V W)) (good : C → Prop)

/-- Servers that a user cannot tell apart. -/
structure Same (userId : String) (s t : CatServer C ι V) : Prop where
  caches : good s.cache ∧ good t.cache
  cache : cache.getValue s.cache (cacheKey userId) = cache.getValue t.cache (cacheKey userId)
  db : SameDb userId s.db t.db

end Same

/-- No episodic point has the id yet. -/
def Fresh (db : Collections ι V) (id : ι) : Prop :=
  ∀ points, db.get? episodic = some points → id ∉ points.keys

instance [DecidableEq ι] (db : Collections ι V) (id : ι) : Decidable (Fresh db id) :=
  inferInstanceAs (Decidable (∀ points ∈ db.get? episodic, id ∉ points.keys))

/-- New points have new ids, and the points that others create by hand are no documents and do not
name the user for their source. -/
def Respects (pointId : String → Except String ι) (userId : String) (s : CatServer C ι V) :
    CatRequest ι V → Prop
  | .message _ _ _ id => Fresh s.db id
  | .createMemoryPoint other ctx collectionId content metadata =>
    (∀ i, pointId ctx.uuid4 = .ok i → Fresh s.db i) ∧
    (other ≠ userId → collectionId ≠ "declarative" ∧ (collectionId = episodic → ∀ vector : V,
      owns userId ⟨content, ensureMetadata { ctx with userId := other } metadata, vector⟩ = false))
  | .getConversationHistory _ | .wipeConversationHistory _ => True

variable {cache : MemoryCache C (RecallingMemory ι V W)} {users : String → Prop} {good : C → Prop}
  {minds : String → Mind ι V W} {client : Search ι V} {pointId : String → Except String ι}
  {userId : String} {s t : CatServer C ι V}

theorem Same.save_other (h : Same cache good userId s t) (hcache : cache.KeepsApart users good)
    {other : String} (huser : users userId) (hother : users other) (hne : other ≠ userId)
    (m : RecallingMemory ι V W) : Same cache good userId (s.save cache other m) t :=
  ⟨⟨hcache.insert h.caches.1 hother m, h.caches.2⟩,
    (hcache.others h.caches.1 huser hother hne m).trans h.cache, h.db⟩

theorem Same.save_own (h : Same cache good userId s t) (hcache : cache.KeepsApart users good)
    (huser : users userId) (m : RecallingMemory ι V W) :
    Same cache good userId (s.save cache userId m) (t.save cache userId m) :=
  ⟨⟨hcache.insert h.caches.1 huser m, hcache.insert h.caches.2 huser m⟩,
    (hcache.own h.caches.1 huser m).trans (hcache.own h.caches.2 huser m).symm, h.db⟩

theorem Same.load [DecidableEq ι] (h : Same cache good userId s t) (minds : String → Mind ι V W) :
    s.load cache minds userId = t.load cache minds userId := by
  rw [CatServer.load, CatServer.load, h.cache]

theorem Same.with_db (h : Same cache good userId s t) {db db' : Collections ι V}
    (hdb : SameDb userId db db') : Same cache good userId { s with db := db } { t with db := db' } :=
  ⟨h.caches, h.cache, hdb⟩

theorem Same.with_db_left (h : Same cache good userId s t) {db : Collections ι V}
    (hdb : SameDb userId db t.db) : Same cache good userId { s with db := db } t :=
  h.with_db hdb

section Steps

variable [DecidableEq ι]

/-- A turn of another user. -/
theorem message_other (hcache : cache.KeepsApart users good) (huser : users userId) {other : String}
    (hother : users other) (hkeeps : (minds other).KeepsSource other) (h : Same cache good userId s t)
    (hne : other ≠ userId) {messageDict : Json} {time : Rat} {id : ι} (hfresh : Fresh s.db id) :
    Same cache good userId (serveMessage cache minds client s other messageDict time id).2 t := by
  obtain ⟨points, _, _, _, hcollected, -⟩ := h.db
  have hpoints := hcollected.episodic_points
  have hsource := turn_source hkeeps client s.db messageDict time (s.load cache minds other)
  simp only [serveMessage]
  rw [call_turn hpoints, run_map]
  cases hran : (turn (minds other) client s.db other messageDict time).run.run
      (s.load cache minds other) with
  | mk result m =>
    rw [hran] at hsource
    cases result with
    | error error => exact h
    | ok p =>
      obtain ⟨reply, point⟩ := p
      refine (h.save_other hcache huser hother hne m).with_db ?_
      cases point with
      | none => exact h.db
      | some point =>
        apply same_set_other h.db hpoints (hfresh points hpoints)
        have hsourced := hsource (reply, some point) m rfl point rfl
        rw [← Bool.not_eq_true, owns_source hsourced]
        exact hne

/-- A turn of the user. -/
theorem message_own (hcache : cache.KeepsApart users good) (huser : users userId)
    (hlocal : Local client) (hkeeps : (minds userId).KeepsSource userId)
    (h : Same cache good userId s t) (messageDict : Json) (time : Rat) {id : ι} (hfresh : Fresh s.db id) :
    (serveMessage cache minds client s userId messageDict time id).1 =
        (serveMessage cache minds client t userId messageDict time id).1 ∧
      Same cache good userId (serveMessage cache minds client s userId messageDict time id).2
        (serveMessage cache minds client t userId messageDict time id).2 := by
  obtain ⟨points, points', _, _, hcollected, hcollected', -⟩ := h.db
  have hpoints := hcollected.episodic_points
  have hpoints' := hcollected'.episodic_points
  have hturn : turn (minds userId) client t.db userId messageDict time =
      turn (minds userId) client s.db userId messageDict time := by
    unfold turn
    rw [answer_same hlocal hkeeps h.db]
  simp only [serveMessage]
  rw [call_turn hpoints, call_turn hpoints', run_map, run_map, hturn, h.load minds]
  cases hran : (turn (minds userId) client s.db userId messageDict time).run.run
      (t.load cache minds userId) with
  | mk result m =>
    cases result with
    | error error => exact ⟨rfl, h⟩
    | ok p =>
      obtain ⟨reply, point⟩ := p
      refine ⟨rfl, (h.save_own hcache huser m).with_db ?_⟩
      cases point with
      | none => exact h.db
      | some point => exact same_set_own h.db hpoints hpoints' (hfresh points hpoints) point

/-- A point that another user creates. -/
theorem create_other {db db' : Collections ι V} (h : SameDb userId db db') {ctx : Context V}
    {collectionId content : String} {metadata : Fields}
    (hfresh : ∀ i, pointId ctx.uuid4 = .ok i → Fresh db i) (hdocument : collectionId ≠ "declarative")
    (hsource : collectionId = episodic → ∀ vector : V,
      owns userId ⟨content, ensureMetadata ctx metadata, vector⟩ = false) :
    SameDb userId (createMemoryPoint pointId ctx db collectionId content metadata).2 db' := by
  obtain ⟨points, _, _, _, hcollected, -⟩ := id h
  unfold createMemoryPoint
  split
  · exact h
  · rename_i hprocedural
    split
    · exact h
    · rename_i hkey
      have hname : collectionId = episodic := by
        rw [not_not, hcollected.keys] at hkey
        simpa [hdocument, hprocedural] using hkey
      subst hname
      cases ctx.embedQuery content with
      | error error => exact h
      | ok vector =>
        simp only [addPoint, Option.filter_none, Option.getD_none, hcollected.episodic_points]
        cases hid : pointId ctx.uuid4 with
        | error error => exact h
        | ok i =>
          have hset := same_set_other h hcollected.episodic_points
            (hfresh i hid points hcollected.episodic_points) (hsource rfl vector)
          by_cases hcompleted : ctx.completed = true <;> simpa [hcompleted] using hset

/-- The point that the user creates is put into the same collection on both sides. -/
theorem add_own {db db' : Collections ι V} (h : SameDb userId db db') {ctx : Context V}
    (hfresh : ∀ i, pointId ctx.uuid4 = .ok i → Fresh db i) {collectionId : String}
    (hname : collectionId = episodic ∨ collectionId = "declarative") (point : Point V) :
    (addPoint pointId ctx db collectionId none point).1 = (addPoint pointId ctx db' collectionId none point).1 ∧
      SameDb userId (addPoint pointId ctx db collectionId none point).2
        (addPoint pointId ctx db' collectionId none point).2 := by
  obtain ⟨points, points', declarative, _, hcollected, hcollected', -⟩ := id h
  unfold addPoint
  simp only [Option.filter_none, Option.getD_none]
  cases hid : pointId ctx.uuid4 with
  | error error => exact ⟨rfl, h⟩
  | ok i =>
    rcases hname with rfl | rfl
    · rw [hcollected.episodic_points, hcollected'.episodic_points]
      have hset := same_set_own h hcollected.episodic_points hcollected'.episodic_points
        (hfresh i hid points hcollected.episodic_points) point
      by_cases hcompleted : ctx.completed = true <;> simpa [hcompleted] using hset
    · rw [hcollected.declarative_points, hcollected'.declarative_points]
      have hset := same_set_declarative h (declarative.set i point)
      by_cases hcompleted : ctx.completed = true <;> simpa [hcompleted] using hset

/-- A point that the user creates. -/
theorem create_own {db db' : Collections ι V} (h : SameDb userId db db') (ctx : Context V)
    (collectionId content : String) (metadata : Fields)
    (hfresh : ∀ i, pointId ctx.uuid4 = .ok i → Fresh db i) :
    (createMemoryPoint pointId ctx db collectionId content metadata).1 =
        (createMemoryPoint pointId ctx db' collectionId content metadata).1 ∧
      SameDb userId (createMemoryPoint pointId ctx db collectionId content metadata).2
        (createMemoryPoint pointId ctx db' collectionId content metadata).2 := by
  obtain ⟨_, _, _, _, hcollected, hcollected', -⟩ := id h
  unfold createMemoryPoint
  rw [hcollected.keys, hcollected'.keys]
  split
  · exact ⟨rfl, h⟩
  · rename_i hprocedural
    split
    · exact ⟨rfl, h⟩
    · rename_i hkey
      cases ctx.embedQuery content with
      | error error => exact ⟨rfl, h⟩
      | ok vector =>
        have hname : collectionId = episodic ∨ collectionId = "declarative" := by
          rw [not_not] at hkey
          simpa [hprocedural] using hkey
        exact add_own h hfresh hname _

/-- What a user is answered and what is recalled of him do not depend on what others do, where the cache
keeps the users apart: with the requests of the others left out, he gets the same answers. -/
theorem users_isolated (hcache : cache.KeepsApart users good) (hlocal : Local client)
    (hkeeps : ∀ userId, (minds userId).KeepsSource userId) {s : CatServer C ι V} (hgood : good s.cache)
    {points declarative procedures : Dict ι (Point V)} (hs : Collected s.db points declarative procedures)
    {requests : List (CatRequest ι V)} (huser : users userId) (husers : ∀ r ∈ requests, users r.userId)
    (hrespects : Along (CatServer.serve cache minds client pointId) (Respects pointId userId) s requests) :
    answersTo (fun r => r.userId = userId) (CatServer.serve cache minds client pointId) s requests =
        answers (CatServer.serve cache minds client pointId) s
          (requests.filter (fun r => r.userId = userId)) ∧
      Same cache good userId (after (CatServer.serve cache minds client pointId) s requests)
        (after (CatServer.serve cache minds client pointId) s
          (requests.filter (fun r => r.userId = userId))) := by
  have hstart : Same cache good userId s s :=
    ⟨⟨hgood, hgood⟩, rfl, points, points, declarative, procedures, hs, hs, rfl, fun _ h => h⟩
  refine unwinding ?_ ?_ (along_and hrespects husers) hstart
  · intro s t r hmine hcond h
    obtain ⟨hcond, hother⟩ := hcond
    have hne : r.userId ≠ userId := of_decide_eq_false hmine
    cases r with
    | message other messageDict time id =>
      exact message_other hcache huser hother (hkeeps other) h hne hcond
    | getConversationHistory other => exact h.save_other hcache huser hother hne _
    | wipeConversationHistory other => exact h.save_other hcache huser hother hne _
    | createMemoryPoint other ctx collectionId content metadata =>
      obtain ⟨hdocument, hsource⟩ := hcond.2 hne
      refine Same.with_db_left ?_ (create_other h.db hcond.1 hdocument hsource)
      split
      · exact h.save_other hcache huser hother hne _
      · exact h
  · intro s t r hmine hcond h
    obtain ⟨hcond, -⟩ := hcond
    have heq : r.userId = userId := of_decide_eq_true hmine
    cases r with
    | message own messageDict time id =>
      obtain rfl : own = userId := heq
      obtain ⟨hreply, hafter⟩ := message_own hcache huser hlocal (hkeeps own) h messageDict time hcond
      exact ⟨congrArg CatAnswer.reply hreply, hafter⟩
    | getConversationHistory own =>
      obtain rfl : own = userId := heq
      simp only [CatServer.serve, h.load minds]
      exact ⟨trivial, h.save_own hcache huser _⟩
    | wipeConversationHistory own =>
      obtain rfl : own = userId := heq
      simp only [CatServer.serve, h.load minds]
      exact ⟨trivial, h.save_own hcache huser _⟩
    | createMemoryPoint own ctx collectionId content metadata =>
      obtain rfl : own = userId := heq
      obtain ⟨hpoint, hafter⟩ := create_own h.db { ctx with userId := own } collectionId content
        metadata hcond.1
      simp only [CatServer.serve, h.load minds, hpoint]
      refine ⟨trivial, Same.with_db ?_ hafter⟩
      split
      · exact h.save_own hcache huser _
      · exact h

end Steps

/-- Every point that matches is as close as can be. -/
def scan : Search Nat Unit where
  search points filter _ _ := (points.entries.filter (fun p =>
    matchesFilter filter (pointPayload p.2.pageContent p.2.metadata))).map (fun p => ⟨p.1, p.2, 1⟩)
  found points filter _ _ hit hhit := by
    obtain ⟨p, hp, rfl⟩ := List.mem_map.mp hhit
    exact List.mem_filter.mp hp
  conjunction points must must' _ _ h := by
    have hsame (p : Nat × Point Unit) :
        matchesFilter (some must) (pointPayload p.2.pageContent p.2.metadata) =
          matchesFilter (some must') (pointPayload p.2.pageContent p.2.metadata) := h.all_eq
    simp only [hsame]

/-- The agent repeats what the user is recalled to have said. -/
def echo : Mind Nat Unit Unit where
  newMemory := ()
  resetInteractions := id
  userMessage
    | userId, .obj [("text", .str text)] => .ok ⟨userId, "Human", text⟩
    | _, _ => .error "ValidationError"
  fastReply := pure none
  beforeCatReadsMessage := pure
  catRecallQuery := pure
  embedQuery _ := .ok ()
  logEmbedding _ _ rest := rest
  beforeCatRecallsMemories := pure ()
  beforeCatRecalls _ := pure
  afterCatRecallsMemories := pure ()
  agent := do
    let m ← get
    pure (String.join (((m.memories.get? episodic).getD []).map (fun hit => hit.point.pageContent)))
  beforeCatStoresEpisodicMemory := pure
  embedDocument _ := .ok ()
  finalOutput output _ := ⟨"", "AI", output⟩
  beforeCatSendsMessage := pure

/-- The working memories in a dictionary. -/
def dictCache {M : Type} : MemoryCache (Dict String M) M := ⟨Dict.get?, Dict.set⟩

theorem dict_keeps_apart {M : Type} :
    (dictCache : MemoryCache (Dict String M) M).KeepsApart (fun _ => True) (fun _ => True) where
  insert _ _ _ := trivial
  own _ _ m := Dict.get?_set_self _ _ m
  others _ _ _ hne m := Dict.get?_set_other _ m (fun heq => hne (cache_key_injective heq).symm)

def memories : Collections Nat Unit :=
  Dict.ofList [(episodic, .empty), ("declarative", .empty), (procedural, .empty)]

def tells (userId text : String) (id : Nat) : CatRequest Nat Unit :=
  .message userId (.obj [("text", .str text)]) id id

theorem collected : Collected memories .empty .empty .empty := rfl

def CatAnswer.text : CatAnswer Unit → Option String
  | .reply (.ok (.message m)) => some m.text
  | _ => none

/-- Two users who talk in turns. -/
def talk : List (CatRequest Nat Unit) :=
  [tells "bob" "my pin is 4821" 0, tells "alice" "I like tea" 1, tells "bob" "bye" 2, tells "alice" "well?" 3]

/-- Alice hears of her tea and not of the pin of bob. -/
theorem pin_kept :
    (answersTo (fun r => r.userId = "alice")
      (CatServer.serve dictCache (fun _ => echo) scan (fun id => .ok id.length)) ⟨.empty, memories⟩
      talk).map CatAnswer.text = [some "", some "I like tea"] := by
  have hlocal : Local scan := fun points points' filter v k h => congrArg (List.map _) h
  have hkeeps (userId : String) : echo.KeepsSource userId := ⟨fun _ _ h => h, fun _ _ => rfl⟩
  have hrespects : Along (CatServer.serve dictCache (fun _ => echo) scan (fun id => .ok id.length))
      (Respects (fun id => .ok id.length) "alice") ⟨.empty, memories⟩ talk := by
    refine ⟨?_, ?_, ?_, ?_, trivial⟩ <;> (change Fresh _ _; decide +kernel)
  obtain ⟨hanswers, -⟩ := users_isolated dict_keeps_apart hlocal hkeeps trivial collected trivial
    (fun _ _ => trivial) hrespects
  rw [hanswers]
  decide +kernel

end CheshireCat.Session
