import CheshireCat.Session.Interleaving

namespace CheshireCat.Session
open Base

/-- An HTTP request that runs alone. `StrayCat.run` saves after a call that returned, and
`ConnectionAuth` after a response; an exception skips what is left. -/
def httpRequest (user : String) (endpoint : Endpoint) (cache : Cache) : Cache :=
  let cat := StrayCat.create cache user
  match endpoint with
  | .message turn =>
    match cat.call turn with
    | (cat, .ok (.message _)) => cat.updateWorkingMemoryCache (cat.updateWorkingMemoryCache cache)
    | (cat, .ok .vectorMemoryError) => cat.updateWorkingMemoryCache cache
    | (_, .error _) => cache
  | .wipeConversationHistory =>
    let wm := { cat.workingMemory with history := [] }
    { cat with workingMemory := wm }.updateWorkingMemoryCache cache
  | .other false => cat.updateWorkingMemoryCache cache
  | .other true => cache

/-- The cache, the StrayCat of every open socket of the user, and the memory that the
messages and the wipes make in their order, which no step reads. -/
structure SocketServer (κ : Type) where
  cache : Cache
  socket : κ → Option StrayCat
  applied : WorkingMemory

inductive SessionEvent (κ : Type) where
  | connect (k : κ)
  | wsMessage (k : κ) (turn : Turn)
  | disconnect (k : κ)
  | fail (k : κ)
  | http (endpoint : Endpoint)

variable {κ : Type}

def SocketServer.cached (user : String) (s : SocketServer κ) : WorkingMemory :=
  loadWorkingMemoryFromCache s.cache user

def SocketServer.start (user : String) (cache : Cache) : SocketServer κ :=
  ⟨cache, fun _ => none, loadWorkingMemoryFromCache cache user⟩

/-- `ConnectionAuth` loads when the socket connects and saves when it is closed.
`handle_messages` loads before every message, and `StrayCat.run` saves after a call that
returned. A socket that ends in any exception but `WebSocketDisconnect` is not saved. -/
def sessionStep [DecidableEq κ] (user : String) (s : SocketServer κ) :
    SessionEvent κ → Option (SocketServer κ)
  | .connect k =>
    match s.socket k with
    | some _ => none
    | none =>
      some { s with socket := Function.update s.socket k (some (StrayCat.create s.cache user)) }
  | .wsMessage k turn =>
    match s.socket k with
    | none => none
    | some cat =>
      let cat := { cat with workingMemory := loadWorkingMemoryFromCache s.cache cat.userId }
      let applied := (Endpoint.message turn).made user s.applied
      match cat.call turn with
      | (cat, .ok _) =>
        some ⟨cat.updateWorkingMemoryCache s.cache, Function.update s.socket k (some cat), applied⟩
      | (cat, .error _) => some ⟨s.cache, Function.update s.socket k (some cat), applied⟩
  | .disconnect k =>
    match s.socket k with
    | none => none
    | some cat =>
      some { s with
        cache := cat.updateWorkingMemoryCache s.cache
        socket := Function.update s.socket k none }
  | .fail k =>
    match s.socket k with
    | none => none
    | some _ => some { s with socket := Function.update s.socket k none }
  | .http endpoint =>
    some { s with
      cache := httpRequest user endpoint s.cache
      applied := endpoint.made user s.applied }

/-- The message of the turn is in the history when the turn raises. -/
def Turn.raisesLate (turn : Turn) : Prop :=
  (∃ message, turn.userMessage = .ok message) ∧ turn.fastReply = none ∧
    turn.recallRaises = false ∧
      ((∃ error, turn.agent = .raised error) ∨ ∃ error, turn.storeRaises = some error)

/-- The memory with the message as the latest of the user. -/
def WorkingMemory.record (wm : WorkingMemory) (message : Message) : WorkingMemory :=
  { wm with userMessageJson := some message }.updateHistory message

/-- A socket that is closed holds the memory that is cached. A message does not raise after it
was recorded, unless the memory is full of it. -/
def InStep (user : String) (s : SocketServer κ) : SessionEvent κ → Prop
  | .wsMessage k turn =>
    (s.socket k).isSome → turn.raisesLate →
      (s.cached user).record turn.readMessage = s.cached user
  | .http (.message turn) =>
    turn.raisesLate → (s.cached user).record turn.readMessage = s.cached user
  | .disconnect k => ∀ cat, s.socket k = some cat → cat.workingMemory = s.cached user
  | _ => True

/-- Every socket serves the user. -/
def SocketsOf (user : String) (socket : κ → Option StrayCat) : Prop :=
  ∀ k cat, socket k = some cat → cat.userId = user

/-- The cached memory is what the messages and the wipes make in their order. -/
structure Shared (user : String) (s : SocketServer κ) : Prop where
  owned : SocketsOf user s.socket
  cached : s.cached user = s.applied

theorem Shared.start (user : String) (cache : Cache) :
    Shared user (SocketServer.start user cache : SocketServer κ) :=
  ⟨fun _ _ h => absurd h (Option.some_ne_none _).symm, rfl⟩

/-- A call that returns does not raise late. -/
theorem call_ok {user : String} {turn : Turn} {wm : WorkingMemory} {cat : StrayCat}
    {reply : Reply} (h : StrayCat.call ⟨user, wm⟩ turn = (cat, .ok reply)) :
    ¬ turn.raisesLate := by
  intro hlate
  obtain ⟨⟨message, hmessage⟩, hfast, hrecall, hraises⟩ := hlate
  have herror : ∃ error, (StrayCat.call ⟨user, wm⟩ turn).2 = .error error := by
    simp only [StrayCat.call, hmessage, hfast, hrecall]
    cases hagent : turn.agent with
    | raised error => exact ⟨error, rfl⟩
    | _ =>
      rcases hraises with ⟨error, hx⟩ | ⟨error, hx⟩
      · rw [hagent] at hx
        cases hx
      · exact ⟨error, by simp [StrayCat.answer, hx]⟩
  obtain ⟨error, herror⟩ := herror
  rw [h] at herror
  cases herror

/-- A call raises before it has changed anything, or after the message was recorded. -/
theorem call_error {user : String} {turn : Turn} {wm : WorkingMemory} {cat : StrayCat}
    {error : String} (h : StrayCat.call ⟨user, wm⟩ turn = (cat, .error error)) :
    (turn.raisesLate ∧ cat.workingMemory = wm.record turn.readMessage) ∨
      ((∃ e, turn.userMessage = .error e) ∧ cat.workingMemory = wm) := by
  unfold StrayCat.call at h
  cases hmessage : turn.userMessage with
  | error e =>
    rw [hmessage] at h
    cases h
    exact Or.inr ⟨⟨_, rfl⟩, rfl⟩
  | ok message =>
    cases hfast : turn.fastReply with
    | some reply => simp [hmessage, hfast] at h
    | none =>
      cases hrecall : turn.recallRaises with
      | true => simp [hmessage, hfast, hrecall] at h
      | false =>
        simp only [hmessage, hfast, hrecall] at h
        left
        cases hagent : turn.agent with
        | raised e =>
          simp only [hagent] at h
          cases h
          exact ⟨⟨⟨message, hmessage⟩, hfast, hrecall, Or.inl ⟨_, hagent⟩⟩, rfl⟩
        | _ =>
          cases hstore : turn.storeRaises with
          | none => simp [hagent, StrayCat.answer, hstore] at h
          | some e =>
            simp only [hagent, StrayCat.answer, hstore] at h
            cases h
            exact ⟨⟨⟨message, hmessage⟩, hfast, hrecall, Or.inr ⟨_, hstore⟩⟩, rfl⟩

/-- A turn over HTTP leaves in the cache what it made of the memory exactly when it does not
raise late, or has made nothing. -/
theorem recorded_iff (user : String) (turn : Turn) (wm : WorkingMemory) :
    (turn.raisesLate → wm.record turn.readMessage = wm) ↔
      (Endpoint.message turn).effect user wm = (Endpoint.message turn).made user wm := by
  cases hcall : StrayCat.call ⟨user, wm⟩ turn with
  | mk cat answer =>
    simp only [Endpoint.effect, Endpoint.made, hcall]
    cases answer with
    | ok reply => exact iff_of_true (fun hlate => absurd hlate (call_ok hcall)) rfl
    | error error =>
      rcases call_error hcall with ⟨hlate, hrecord⟩ | ⟨hearly, hsame⟩
      · rw [hrecord]
        exact ⟨fun hin => (hin hlate).symm, fun hsame _ => hsame.symm⟩
      · refine iff_of_true (fun hlate => ?_) hsame.symm
        obtain ⟨error, hx⟩ := hearly
        obtain ⟨message, hok⟩ := hlate.1
        cases hx.symm.trans hok

/-- What a request alone leaves in the cache. -/
theorem http_cached (user : String) (endpoint : Endpoint) (cache : Cache) :
    loadWorkingMemoryFromCache (httpRequest user endpoint cache) user =
      endpoint.effect user (loadWorkingMemoryFromCache cache user) := by
  let wm := loadWorkingMemoryFromCache cache user
  cases endpoint with
  | message turn =>
    have hid : (StrayCat.call ⟨user, wm⟩ turn).1.userId = user :=
      StrayCat.call_user_id ⟨user, wm⟩ turn
    cases hcall : StrayCat.call ⟨user, wm⟩ turn with
    | mk cat answer =>
      rw [hcall] at hid
      subst hid
      simp only [httpRequest, StrayCat.create, Endpoint.effect, wm, hcall]
      cases answer with
      | error error => rfl
      | ok reply => cases reply <;> exact load_update cat _
  | wipeConversationHistory => exact load_update ⟨user, { wm with history := [] }⟩ cache
  | other raises =>
    cases raises with
    | false => exact load_update ⟨user, wm⟩ cache
    | true => rfl

/-- The steps of a request, when no other one is served meanwhile, are those of
`httpRequest`. -/
theorem request_alone (user : String) (endpoint : Endpoint) (cache : Cache) :
    ∃ steps s, run (step user (fun _ : Unit => endpoint)) (Server.start cache) steps = some s ∧
      s.phase () = .finished ∧ s.cache = httpRequest user endpoint cache := by
  cases endpoint with
  | message turn =>
    cases hcall : StrayCat.call ⟨user, loadWorkingMemoryFromCache cache user⟩ turn with
    | mk cat answer =>
      cases answer with
      | ok reply =>
        cases reply with
        | message m =>
          refine ⟨[(), (), (), ()], _, by
            simp [run, step, Server.start, StrayCat.create, hcall]; rfl, ?_, ?_⟩
          · simp
          · simp [httpRequest, StrayCat.create, hcall, Server.save, Server.move]
        | vectorMemoryError =>
          refine ⟨[(), (), ()], _, by
            simp [run, step, Server.start, StrayCat.create, hcall]; rfl, ?_, ?_⟩
          · simp
          · simp [httpRequest, StrayCat.create, hcall, Server.save, Server.move]
      | error error =>
        refine ⟨[(), ()], _, by
          simp [run, step, Server.start, StrayCat.create, hcall]; rfl, ?_, ?_⟩
        · simp
        · simp [httpRequest, StrayCat.create, hcall, Server.move]
  | wipeConversationHistory => exact ⟨[(), (), ()], _, rfl, by simp, rfl⟩
  | other raises =>
    cases raises with
    | false => exact ⟨[(), (), ()], _, rfl, by simp, rfl⟩
    | true => exact ⟨[(), ()], _, rfl, by simp, rfl⟩

variable [DecidableEq κ]

theorem SocketsOf.update {user : String} {socket : κ → Option StrayCat} (h : SocketsOf user socket)
    (k : κ) {new : Option StrayCat} (hnew : ∀ cat, new = some cat → cat.userId = user) :
    SocketsOf user (Function.update socket k new) := by
  intro k' cat hcat
  by_cases hk : k' = k
  · rw [hk, Function.update_self] at hcat
    exact hnew cat hcat
  · rw [Function.update_of_ne hk] at hcat
    exact h k' cat hcat

theorem session_step_owned {user : String} {s t : SocketServer κ} {e : SessionEvent κ}
    (h : SocketsOf user s.socket) (hstep : sessionStep user s e = some t) : SocketsOf user t.socket := by
  cases e with
  | connect k =>
    simp only [sessionStep] at hstep
    split at hstep
    · cases hstep
    · cases hstep
      apply h.update k
      intro cat hcat
      cases hcat
      rfl
  | wsMessage k turn =>
    simp only [sessionStep] at hstep
    split at hstep
    · cases hstep
    · rename_i cat hsocket
      have hid := (StrayCat.call_user_id { cat with
        workingMemory := loadWorkingMemoryFromCache s.cache cat.userId } turn).trans
          (h k cat hsocket)
      have hnew : ∀ after, some (StrayCat.call { cat with
          workingMemory := loadWorkingMemoryFromCache s.cache cat.userId } turn).1 = some after →
            after.userId = user := fun after hx => Option.some.inj hx ▸ hid
      split at hstep
      · rename_i hcall
        rw [hcall] at hnew
        cases hstep
        exact h.update k hnew
      · rename_i hcall
        rw [hcall] at hnew
        cases hstep
        exact h.update k hnew
  | disconnect k =>
    simp only [sessionStep] at hstep
    split at hstep
    · cases hstep
    · cases hstep
      apply h.update k
      intro cat hcat
      cases hcat
  | fail k =>
    simp only [sessionStep] at hstep
    split at hstep
    · cases hstep
    · cases hstep
      apply h.update k
      intro cat hcat
      cases hcat
  | http endpoint =>
    cases hstep
    exact h

/-- A socket that connects or fails leaves the cache alone. -/
theorem untouched_step {user : String} {s t : SocketServer κ} {k : κ} {e : SessionEvent κ}
    (he : e = .connect k ∨ e = .fail k) (hstep : sessionStep user s e = some t) :
    t.cached user = s.cached user ∧ t.applied = s.applied := by
  rcases he with rfl | rfl
  · simp only [sessionStep] at hstep
    split at hstep
    · cases hstep
    · cases hstep
      exact ⟨rfl, rfl⟩
  · simp only [sessionStep] at hstep
    split at hstep
    · cases hstep
    · cases hstep
      exact ⟨rfl, rfl⟩

theorem Shared.untouched {user : String} {s t : SocketServer κ} (h : Shared user s) {k : κ}
    {e : SessionEvent κ} (he : e = .connect k ∨ e = .fail k)
    (hstep : sessionStep user s e = some t) : Shared user t := by
  obtain ⟨hcached, happlied⟩ := untouched_step he hstep
  exact ⟨session_step_owned h.owned hstep, by rw [hcached, happlied, h.cached]⟩

theorem Shared.http_iff {user : String} {s : SocketServer κ} (h : Shared user s)
    (endpoint : Endpoint) : InStep user s (.http endpoint) ↔
      ∀ t, sessionStep user s (.http endpoint) = some t → Shared user t := by
  have hshared : (∀ t, sessionStep user s (.http endpoint) = some t → Shared user t) ↔
      endpoint.effect user (s.cached user) = endpoint.made user (s.cached user) := by
    rw [show endpoint.made user (s.cached user) = endpoint.made user s.applied by rw [h.cached]]
    have hsaved := http_cached user endpoint s.cache
    constructor
    · intro hall
      exact hsaved.symm.trans (hall _ rfl).cached
    · intro hsame t ht
      refine ⟨session_step_owned h.owned ht, ?_⟩
      cases ht
      exact hsaved.trans hsame
  rw [hshared]
  cases endpoint with
  | message turn => exact recorded_iff user turn (s.cached user)
  | wipeConversationHistory => exact iff_of_true trivial rfl
  | other raises => exact iff_of_true trivial rfl

/-- A socket that is closed saves its memory. -/
theorem disconnect_step {user : String} {s : SocketServer κ} (h : SocketsOf user s.socket) {k : κ}
    {cat : StrayCat} (hsocket : s.socket k = some cat) :
    ∃ t, sessionStep user s (.disconnect k) = some t ∧ t.applied = s.applied ∧
      t.cached user = cat.workingMemory := by
  have hstep : sessionStep user s (.disconnect k) =
      some { s with
        cache := cat.updateWorkingMemoryCache s.cache
        socket := Function.update s.socket k none } := by
    simp only [sessionStep, hsocket]
  exact ⟨_, hstep, rfl, h k cat hsocket ▸ load_update cat s.cache⟩

theorem Shared.disconnect_iff {user : String} {s : SocketServer κ} (h : Shared user s) (k : κ) :
    InStep user s (.disconnect k) ↔
      ∀ t, sessionStep user s (.disconnect k) = some t → Shared user t := by
  cases hsocket : s.socket k with
  | none =>
    constructor
    · intro _ t ht
      simp [sessionStep, hsocket] at ht
    · intro _ cat hcat
      rw [hsocket] at hcat
      cases hcat
  | some cat =>
    obtain ⟨t, hstep, happlied, hsaved⟩ := disconnect_step h.owned hsocket
    constructor
    · intro hsame t' ht'
      cases hstep.symm.trans ht'
      refine ⟨session_step_owned h.owned hstep, ?_⟩
      rw [hsaved, happlied, hsame cat hsocket, h.cached]
    · intro hall cat' hcat'
      cases hsocket.symm.trans hcat'
      rw [← hsaved, (hall t hstep).cached, happlied, h.cached]

/-- A message on an open socket leaves in the cache what it leaves over HTTP. -/
theorem message_step {user : String} {s : SocketServer κ} (h : SocketsOf user s.socket) {k : κ}
    {cat : StrayCat} (turn : Turn) (hsocket : s.socket k = some cat) :
    ∃ t, sessionStep user s (.wsMessage k turn) = some t ∧
      t.applied = (Endpoint.message turn).made user s.applied ∧
      t.cached user = (Endpoint.message turn).effect user (s.cached user) := by
  have hload : { cat with workingMemory := loadWorkingMemoryFromCache s.cache cat.userId } =
      (⟨user, s.cached user⟩ : StrayCat) := by
    rw [h k cat hsocket]
    rfl
  have hid := StrayCat.call_user_id ⟨user, s.cached user⟩ turn
  simp only [sessionStep, hsocket, hload, Endpoint.effect]
  cases hcall : StrayCat.call ⟨user, s.cached user⟩ turn with
  | mk after answer =>
    rw [hcall] at hid
    subst hid
    cases answer with
    | ok reply => exact ⟨_, rfl, rfl, load_update after s.cache⟩
    | error error => exact ⟨_, rfl, rfl, rfl⟩

theorem Shared.message_iff {user : String} {s : SocketServer κ} (h : Shared user s) (k : κ)
    (turn : Turn) : InStep user s (.wsMessage k turn) ↔
      ∀ t, sessionStep user s (.wsMessage k turn) = some t → Shared user t := by
  cases hsocket : s.socket k with
  | none =>
    constructor
    · intro _ t ht
      simp [sessionStep, hsocket] at ht
    · intro _ hopen
      rw [hsocket] at hopen
      cases hopen
  | some cat =>
    have hopen : (s.socket k).isSome := by rw [hsocket]; rfl
    obtain ⟨t, hstep, happlied, hcached⟩ := message_step h.owned turn hsocket
    rw [← h.cached] at happlied
    -- the step keeps the memory shared exactly when the cache has got what the turn made
    have hshared : (∀ t', sessionStep user s (.wsMessage k turn) = some t' → Shared user t') ↔
        t.cached user = (Endpoint.message turn).made user (s.cached user) := by
      constructor
      · intro hall
        exact (hall t hstep).cached.trans happlied
      · intro hmade t' ht'
        cases hstep.symm.trans ht'
        exact ⟨session_step_owned h.owned hstep, hmade.trans happlied.symm⟩
    have hin : InStep user s (.wsMessage k turn) ↔
        (turn.raisesLate → (s.cached user).record turn.readMessage = s.cached user) :=
      ⟨fun hin => hin hopen, fun hin _ => hin⟩
    rw [hshared, hin, hcached]
    exact recorded_iff user turn (s.cached user)

theorem session_step_iff {user : String} {s : SocketServer κ} (h : Shared user s)
    (e : SessionEvent κ) :
    InStep user s e ↔ ∀ t, sessionStep user s e = some t → Shared user t := by
  cases e with
  | connect k => exact ⟨fun _ t ht => h.untouched (Or.inl rfl) ht, fun _ => trivial⟩
  | fail k => exact ⟨fun _ t ht => h.untouched (Or.inr rfl) ht, fun _ => trivial⟩
  | http endpoint => exact h.http_iff endpoint
  | disconnect k => exact h.disconnect_iff k
  | wsMessage k turn => exact h.message_iff k turn

/-- Over all events of a user, the cached memory is what his messages and wipes make in
their order exactly when the sockets stay in step. -/
theorem session_shared_iff (user : String) (cache : Cache) (events : List (SessionEvent κ)) :
    (∀ earlier, earlier <+: events → ∀ s,
      run (sessionStep user) (SocketServer.start user cache) earlier = some s →
        s.cached user = s.applied) ↔
      Meets (sessionStep user) (InStep user) (SocketServer.start user cache) events := by
  rw [← keeps_iff_meets (fun s e h => session_step_iff h e) (Shared.start user cache)]
  constructor
  · intro h earlier he s hs
    refine ⟨?_, h earlier he s hs⟩
    exact run_keeps (fun s e t => session_step_owned) (Shared.start user cache).owned hs
  · intro h earlier he s hs
    exact (h earlier he s hs).cached

/-- The history is wiped while a socket is open, and back when the socket is closed. -/
theorem wiped_history_returns :
    ∃ before after,
      run (sessionStep "user") (SocketServer.start "user" Dict.empty : SocketServer Nat)
        [.connect 0, .wsMessage 0 hello, .http .wipeConversationHistory] = some before ∧
      sessionStep "user" before (.disconnect 0) = some after ∧
      (before.cached "user").history = [] ∧ before.cached "user" = before.applied ∧
      (after.cached "user").history =
        [⟨"user", "Human", "hello"⟩, ⟨"user", "AI", "hi"⟩] ∧ after.applied.history = [] := by
  refine ⟨_, _, rfl, rfl, by decide, by decide, by decide, by decide⟩

end CheshireCat.Session
