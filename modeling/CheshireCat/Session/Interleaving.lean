import CheshireCat.Session.Requests

namespace CheshireCat.Session
open Base

def Phase.cat? : Phase → Option StrayCat
  | .loaded _ cat => some cat
  | .called _ cat _ => some cat
  | .answered _ cat => some cat
  | _ => none

def Phase.executed : Phase → Prop
  | .received => False
  | .loaded _ _ => False
  | _ => True

variable {ι : Type}

/-- The requests whose endpoint has run. -/
def Server.executed (s : Server ι) (i : ι) : Prop := (s.phase i).executed

def effects (user : String) (endpoint : ι → Endpoint) (i : ι) : WorkingMemory → WorkingMemory :=
  (endpoint i).effect user

/-- Every StrayCat in flight belongs to the user. -/
def Owned (user : String) (s : Server ι) : Prop :=
  ∀ i cat, (s.phase i).cat? = some cat → cat.userId = user

/-- The cache and every copy in flight come from executed requests, each taken
at most once. -/
structure PartlySaved (user : String) (endpoint : ι → Endpoint) (start : WorkingMemory)
    (s : Server ι) : Prop where
  owned : Owned user s
  cache : PartlySerialised (effects user endpoint) start s.executed (s.cached user)
  copies : ∀ i cat, (s.phase i).cat? = some cat →
    PartlySerialised (effects user endpoint) start s.executed cat.workingMemory

theorem partly_saved_start (user : String) (endpoint : ι → Endpoint) (cache : Cache) :
    PartlySaved user endpoint (loadWorkingMemoryFromCache cache user)
      (Server.start cache : Server ι) := by
  refine ⟨?_, PartlySerialised.start, ?_⟩
  · intro i cat h
    cases h
  · intro i cat h
    cases h

theorem PartlySaved.save {user : String} {endpoint : ι → Endpoint} {start : WorkingMemory}
    {s : Server ι} (h : PartlySaved user endpoint start s) {i : ι} {cat : StrayCat}
    (hi : (s.phase i).cat? = some cat) : PartlySaved user endpoint start (s.save cat) := by
  refine ⟨h.owned, ?_, h.copies⟩
  rw [Server.save_cached user s cat (h.owned i cat hi)]
  exact h.copies i cat hi

/-- How far the effect of a request has reached the cache. After `run` has
saved, the copy is what the cache was given. -/
def Phase.Fits (update : WorkingMemory → WorkingMemory) (done : Prop) : Phase → Prop
  | .received => ¬ done
  | .loaded seen cat => ¬ done ∧ cat.workingMemory = seen
  | .called seen cat _ => ¬ done ∧ cat.workingMemory = update seen
  | .answered seen cat =>
    (¬ done ∧ cat.workingMemory = update seen) ∨ (done ∧ cat.workingMemory = seen)
  | .finished => done

/-- The cache comes from exactly the requests whose effect has been saved. -/
def Saved (user : String) (endpoint : ι → Endpoint) (start : WorkingMemory)
    (s : Server ι) : Prop :=
  Owned user s ∧ ∃ done : ι → Prop,
    Serialised (effects user endpoint) start done (s.cached user) ∧
    ∀ i, (s.phase i).Fits (effects user endpoint i) (done i)

theorem saved_start (user : String) (endpoint : ι → Endpoint) (cache : Cache) :
    Saved user endpoint (loadWorkingMemoryFromCache cache user) (Server.start cache : Server ι) := by
  refine ⟨?_, fun _ => False, Serialised.start (fun _ => id), fun _ => id⟩
  intro i cat h
  cases h

variable [DecidableEq ι]

theorem move_executed (s : Server ι) (i j : ι) (p : Phase) :
    (s.move i p).executed j ↔ if j = i then p.executed else s.executed j := by
  by_cases h : j = i
  · subst h
    simp [Server.executed]
  · simp [Server.executed, Server.move_phase_other s p h, h]

theorem move_executed_same {s : Server ι} {i : ι} {p : Phase}
    (h : p.executed ↔ s.executed i) (j : ι) : (s.move i p).executed j ↔ s.executed j := by
  rw [move_executed]
  split
  · rename_i hj
    rw [hj, h]
  · rfl

theorem Owned.move {user : String} {s : Server ι} (h : Owned user s) (i : ι) (p : Phase)
    (hp : ∀ cat, p.cat? = some cat → cat.userId = user) : Owned user (s.move i p) := by
  intro j cat hj
  by_cases hji : j = i
  · subst hji
    exact hp cat (by simpa using hj)
  · exact h j cat (by simpa [Server.move_phase_other s p hji] using hj)

theorem owned_step {user : String} {endpoint : ι → Endpoint} {s t : Server ι} {i : ι}
    (h : Owned user s) (ht : step user endpoint s i = some t) : Owned user t := by
  cases step_moves ht with
  | load hp =>
    apply h.move i _
    intro cat hcat
    cases hcat
    rfl
  | execute seen cat cat' p hp hid _ hnext =>
    apply h.move i p
    have hc := h i cat (by rw [hp]; rfl)
    intro d hd
    rcases hnext with ⟨reply, rfl⟩ | rfl
    · cases hd
      exact hid.trans hc
    · cases hd
      exact hid.trans hc
  | raise seen cat hp _ =>
    apply h.move i _
    intro d hd
    cases hd
  | save seen cat reply p hp hnext =>
    have hs : Owned user (s.save cat) := h
    apply hs.move i _
    intro d hd
    rcases hnext with rfl | rfl
    · cases hd
      exact h i cat (by rw [hp]; rfl)
    · cases hd
  | finish seen cat hp =>
    have hs : Owned user (s.save cat) := h
    apply hs.move i _
    intro d hd
    cases hd

/-- Moving one request to a phase whose copy is accounted for. -/
theorem PartlySaved.move {user : String} {endpoint : ι → Endpoint} {start : WorkingMemory}
    {s : Server ι} (h : PartlySaved user endpoint start s) (i : ι) (p : Phase)
    (hown : Owned user (s.move i p))
    (hmono : ∀ j, s.executed j → (s.move i p).executed j)
    (hp : ∀ cat, p.cat? = some cat →
      PartlySerialised (effects user endpoint) start (s.move i p).executed cat.workingMemory) :
    PartlySaved user endpoint start (s.move i p) := by
  refine ⟨hown, h.cache.mono hmono, ?_⟩
  intro j cat hj
  by_cases hji : j = i
  · subst hji
    exact hp cat (by simpa using hj)
  · have hj' : (s.phase j).cat? = some cat := by
      simpa [Server.move_phase_other s p hji] using hj
    exact (h.copies j cat hj').mono hmono

theorem partly_saved_step {user : String} {endpoint : ι → Endpoint} {start : WorkingMemory}
    {s t : Server ι} {i : ι} (h : PartlySaved user endpoint start s)
    (ht : step user endpoint s i = some t) : PartlySaved user endpoint start t := by
  have hown := owned_step h.owned ht
  cases step_moves ht with
  | load hp =>
    have he := move_executed_same (s := s) (i := i)
      (p := .loaded (s.cached user) ⟨user, s.cached user⟩)
      (by simp [Server.executed, hp, Phase.executed])
    apply h.move i _ hown (fun j => (he j).mpr)
    intro cat hcat
    cases hcat
    exact h.cache.mono (fun j => (he j).mpr)
  | execute seen cat cat' p hp hid heff hnext =>
    have hcat : (s.phase i).cat? = some cat := by rw [hp]; rfl
    have hfresh : ¬ s.executed i := by simp [Server.executed, hp, Phase.executed]
    have hpe : p.executed := by rcases hnext with ⟨reply, rfl⟩ | rfl <;> trivial
    have hpc : p.cat? = some cat' := by rcases hnext with ⟨reply, rfl⟩ | rfl <;> rfl
    have hdone : ∀ j, j = i ∨ s.executed j → (s.move i p).executed j := by
      intro j hj
      rw [move_executed]
      split
      · exact hpe
      · rename_i hji
        exact hj.resolve_left hji
    apply h.move i p hown (fun j hj => hdone j (Or.inr hj))
    intro d hd
    rw [hpc, Option.some.injEq] at hd
    subst hd
    rw [heff (h.owned i cat hcat)]
    exact ((h.copies i cat hcat).apply hfresh).mono hdone
  | raise seen cat hp _ =>
    apply h.move i _ hown
    · intro j hj
      rw [move_executed]
      split
      · trivial
      · exact hj
    · intro d hd
      cases hd
  | save seen cat reply p hp hnext =>
    have hcat : (s.phase i).cat? = some cat := by rw [hp]; rfl
    have hs := h.save hcat
    have he := move_executed_same (s := s.save cat) (i := i) (p := p)
      (by rcases hnext with rfl | rfl <;> simp [Server.executed, hp, Phase.executed])
    apply hs.move i _ hown (fun j => (he j).mpr)
    intro d hd
    rcases hnext with rfl | rfl
    · cases hd
      exact (hs.copies i cat hcat).mono (fun j => (he j).mpr)
    · cases hd
  | finish seen cat hp =>
    have hcat : (s.phase i).cat? = some cat := by rw [hp]; rfl
    have hs := h.save hcat
    have he := move_executed_same (s := s.save cat) (i := i) (p := .finished)
      (by simp [Server.executed, hp, Phase.executed])
    apply hs.move i _ hown (fun j => (he j).mpr)
    intro d hd
    cases hd

theorem fits_move {update : ι → WorkingMemory → WorkingMemory} {done done' : ι → Prop}
    {s : Server ι} (h : ∀ j, (s.phase j).Fits (update j) (done j)) (i : ι) (p : Phase)
    (hd : ∀ j, j ≠ i → (done' j ↔ done j)) (hp : p.Fits (update i) (done' i)) (j : ι) :
    ((s.move i p).phase j).Fits (update j) (done' j) := by
  by_cases hji : j = i
  · subst hji
    simpa using hp
  · rw [Server.move_phase_other s p hji, propext (hd j hji)]
    exact h j

theorem saved_step {user : String} {endpoint : ι → Endpoint} {start : WorkingMemory}
    {s t : Server ι} {i : ι} (hu : Unchanged user s i) (h : Saved user endpoint start s)
    (ht : step user endpoint s i = some t) : Saved user endpoint start t := by
  obtain ⟨hown, done, hser, hfit⟩ := h
  refine ⟨owned_step hown ht, ?_⟩
  have hi := hfit i
  -- a save of a copy that is the effect on the current cache
  have commit (cat : StrayCat) (p : Phase) (hc : cat.userId = user) (hn : ¬ done i)
      (hw : cat.workingMemory = effects user endpoint i (s.cached user))
      (hp : p.Fits (effects user endpoint i) True) :
      ∃ done', Serialised (effects user endpoint) start done'
          (((s.save cat).move i p).cached user) ∧
        ∀ j, (((s.save cat).move i p).phase j).Fits (effects user endpoint j) (done' j) := by
    refine ⟨fun j => j = i ∨ done j, ?_, ?_⟩
    · rw [Server.move_cached, Server.save_cached user s cat hc, hw]
      exact hser.commit hn (fun j => Iff.rfl)
    · apply fits_move (s := s.save cat) hfit i p (fun j hj => by simp [hj])
      simpa using hp
  cases step_moves ht with
  | load hp =>
    rw [hp] at hi
    exact ⟨done, hser, fits_move hfit i _ (fun j _ => Iff.rfl) ⟨hi, rfl⟩⟩
  | execute seen cat cat' p hp hid heff hnext =>
    rw [hp] at hi
    have hw : cat'.workingMemory = effects user endpoint i seen :=
      (heff (hown i cat (by rw [hp]; rfl))).trans (by rw [hi.2]; rfl)
    refine ⟨done, hser, fits_move hfit i p (fun j _ => Iff.rfl) ?_⟩
    rcases hnext with ⟨reply, rfl⟩ | rfl
    · exact ⟨hi.1, hw⟩
    · exact Or.inl ⟨hi.1, hw⟩
  | raise seen cat hp hnone =>
    rw [hp] at hi
    refine ⟨fun j => j = i ∨ done j, ?_, ?_⟩
    · have hsame : effects user endpoint i (s.cached user) = s.cached user := hnone _
      rw [Server.move_cached, ← hsame]
      exact hser.commit hi.1 (fun j => Iff.rfl)
    · exact fits_move hfit i _ (fun j hj => by simp [hj]) (Or.inl rfl)
  | save seen cat reply p hp hnext =>
    have hcat : cat.userId = user := hown i cat (by rw [hp]; rfl)
    rw [hp] at hi
    simp only [Unchanged, hp] at hu
    apply commit cat _ hcat hi.1 (hu ▸ hi.2)
    rcases hnext with rfl | rfl
    · exact Or.inr ⟨trivial, rfl⟩
    · trivial
  | finish seen cat hp =>
    have hcat : cat.userId = user := hown i cat (by rw [hp]; rfl)
    rw [hp] at hi
    simp only [Unchanged, hp] at hu
    rcases hi with ⟨hn, hw⟩ | ⟨hd, hw⟩
    · exact commit cat _ hcat hn (hu ▸ hw) trivial
    · refine ⟨done, ?_, fits_move (s := s.save cat) hfit i _ (fun j _ => Iff.rfl) hd⟩
      rw [Server.move_cached, Server.save_cached user s cat hcat, hw, ← hu]
      exact hser

/-- The order in which the cached history was produced: some of the executed
requests, and all requests once they have finished when every save found the
cache unchanged. -/
theorem cached_history_serial (user : String) (endpoint : ι → Endpoint) (cache : Cache)
    (schedule : List ι) (s : Server ι)
    (h : run (step user endpoint) (Server.start cache) schedule = some s) :
    (∃ order : List ι, order.Nodup ∧ (∀ i ∈ order, s.executed i) ∧
      (s.cached user).history =
        (serial (effects user endpoint) order (loadWorkingMemoryFromCache cache user)).history) ∧
    (Meets (step user endpoint) (Unchanged user) (Server.start cache) schedule →
      (∀ i, s.phase i = .finished) →
      ∃ order : List ι, order.Nodup ∧ (∀ i, i ∈ order) ∧
        (s.cached user).history =
          (serial (effects user endpoint) order (loadWorkingMemoryFromCache cache user)).history) := by
  constructor
  · have hp := run_keeps (fun _ _ _ => partly_saved_step) (partly_saved_start user endpoint cache) h
    obtain ⟨order, hn, hm, hv⟩ := hp.cache
    exact ⟨order, hn, hm, congrArg WorkingMemory.history hv⟩
  · intro hmeets hall
    obtain ⟨_, done, hser, hfit⟩ :=
      run_keeps_when (fun _ _ _ => saved_step) hmeets (saved_start user endpoint cache) h
    have hdone : ∀ i, done i := by
      intro i
      have hi := hfit i
      rw [hall i] at hi
      exact hi
    obtain ⟨order, hn, hm, hv⟩ := hser.all hdone
    exact ⟨order, hn, hm, congrArg WorkingMemory.history hv⟩

/-- An ordinary `/message` turn: one Human and one AI message. -/
def hello : Turn where
  userMessage := .ok ⟨"user", "Human", "hello"⟩
  fastReply := none
  readMessage := ⟨"user", "Human", "hello"⟩
  recallRaises := false
  agent := .output "hi"
  storeRaises := none
  finalOutput := fun text => ⟨"user", "AI", text⟩

/-- Request 0 is a turn, request 1 only reads. -/
def turnAndRead (i : Fin 2) : Endpoint := if i = 0 then .message hello else .other false

/-- The reader loads what the turn has saved, and is executed before the turn has ended. -/
theorem cached_history_serial_interleaved :
    ∃ order : List (Fin 2), order.Nodup ∧ (∀ i, i ∈ order) ∧
      [⟨"user", "Human", "hello"⟩, ⟨"user", "AI", "hi"⟩] =
        (serial (effects "user" turnAndRead) order {}).history := by
  have h := cached_history_serial "user" turnAndRead Dict.empty [0, 0, 0, 1, 1, 0, 1] _ rfl
  exact h.2 (by decide) (by decide)

/-- The reader loads before the turn and saves after it: the turn is gone. -/
theorem stale_save_loses_turn :
    ∃ s, run (step "user" turnAndRead) (Server.start Dict.empty) [1, 0, 0, 0, 0, 1, 1] = some s ∧
      (∀ i, s.phase i = .finished) ∧
      ∀ order : List (Fin 2), order.Nodup → (∀ i, i ∈ order) →
        (s.cached "user").history ≠ (serial (effects "user" turnAndRead) order {}).history := by
  refine ⟨_, rfl, by decide, ?_⟩
  intro order hn hm
  rcases order_of_two hn hm with rfl | rfl <;> decide

end CheshireCat.Session
