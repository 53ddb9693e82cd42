import CheshireCat.Base.Runs
import CheshireCat.Base.Serial
import CheshireCat.Session.StrayCat
import Mathlib.Logic.Function.Basic

namespace CheshireCat.Session
open Base

/-- What the endpoint of a request does with the StrayCat it is given. Any other
endpoint leaves the memory alone, and returns or raises. -/
inductive Endpoint where
  | message (turn : Turn)
  | wipeConversationHistory
  | other (raises : Bool)

/-- Progress of one authenticated HTTP request. `seen` is the working memory it
last loaded or saved, which the code forgets and no step reads. -/
inductive Phase where
  | received
  | loaded (seen : WorkingMemory) (cat : StrayCat)
  | called (seen : WorkingMemory) (cat : StrayCat) (reply : Reply)
  | answered (seen : WorkingMemory) (cat : StrayCat)
  | finished
deriving DecidableEq

structure Server (ι : Type) where
  cache : Cache
  phase : ι → Phase

variable {ι : Type}

def Server.cached (user : String) (s : Server ι) : WorkingMemory :=
  loadWorkingMemoryFromCache s.cache user

def Server.start (cache : Cache) : Server ι := ⟨cache, fun _ => .received⟩

def Server.save (s : Server ι) (cat : StrayCat) : Server ι :=
  { s with cache := cat.updateWorkingMemoryCache s.cache }

@[simp] theorem Server.save_phase (s : Server ι) (cat : StrayCat) :
    (s.save cat).phase = s.phase := rfl

theorem Server.save_cached (user : String) (s : Server ι) (cat : StrayCat)
    (h : cat.userId = user) : (s.save cat).cached user = cat.workingMemory := by
  subst h
  exact load_update cat s.cache

variable [DecidableEq ι]

def Server.move (s : Server ι) (i : ι) (p : Phase) : Server ι :=
  { s with phase := Function.update s.phase i p }

/-- The next step of request `i`: `ConnectionAuth` builds the StrayCat, the
endpoint runs, `StrayCat.run` saves after a call that returned, and
`ConnectionAuth` saves again. An exception of the endpoint, or of its response, is
thrown at the `yield` of `ConnectionAuth`, which then saves nothing. -/
def step (user : String) (endpoint : ι → Endpoint) (s : Server ι) (i : ι) : Option (Server ι) :=
  match s.phase i with
  | .received =>
    let cat := StrayCat.create s.cache user
    some (s.move i (.loaded cat.workingMemory cat))
  | .loaded seen cat =>
    match endpoint i with
    | .message turn =>
      match cat.call turn with
      | (cat, .ok reply) => some (s.move i (.called seen cat reply))
      -- `run` returns a dictionary with the error, which is no CatMessage
      | (_, .error _) => some (s.move i .finished)
    | .wipeConversationHistory =>
      let wm := { cat.workingMemory with history := [] }
      some (s.move i (.answered seen { cat with workingMemory := wm }))
    | .other false => some (s.move i (.answered seen cat))
    | .other true => some (s.move i .finished)
  | .called _ cat reply =>
    match reply with
    | .message _ => some ((s.save cat).move i (.answered cat.workingMemory cat))
    -- no CatMessage either
    | .vectorMemoryError => some ((s.save cat).move i .finished)
  | .answered _ cat => some ((s.save cat).move i .finished)
  | .finished => none

/-- What the endpoint makes of the memory of its StrayCat, also when it raises. -/
def Endpoint.made (user : String) (endpoint : Endpoint) (wm : WorkingMemory) : WorkingMemory :=
  match endpoint with
  | .message turn => (StrayCat.call ⟨user, wm⟩ turn).1.workingMemory
  | .wipeConversationHistory => { wm with history := [] }
  | .other _ => wm

/-- The endpoint executed alone, as a function of the cached memory. -/
def Endpoint.effect (user : String) (endpoint : Endpoint) (wm : WorkingMemory) : WorkingMemory :=
  match endpoint with
  | .message turn =>
    match StrayCat.call ⟨user, wm⟩ turn with
    | (cat, .ok _) => cat.workingMemory
    | (_, .error _) => wm
  | .wipeConversationHistory => { wm with history := [] }
  | .other _ => wm

/-- A save finds the cache as this request last loaded or saved it. -/
def Unchanged (user : String) (s : Server ι) (i : ι) : Prop :=
  match s.phase i with
  | .called seen _ _ => s.cached user = seen
  | .answered seen _ => s.cached user = seen
  | _ => True

instance (user : String) (s : Server ι) (i : ι) : Decidable (Unchanged user s i) :=
  match h : s.phase i with
  | .called seen _ _ => decidable_of_iff (s.cached user = seen) (by simp [Unchanged, h])
  | .answered seen _ => decidable_of_iff (s.cached user = seen) (by simp [Unchanged, h])
  | .received => isTrue (by simp [Unchanged, h])
  | .loaded _ _ => isTrue (by simp [Unchanged, h])
  | .finished => isTrue (by simp [Unchanged, h])

@[simp] theorem Server.move_cached (user : String) (s : Server ι) (i : ι) (p : Phase) :
    (s.move i p).cached user = s.cached user := rfl

@[simp] theorem Server.move_phase_self (s : Server ι) (i : ι) (p : Phase) :
    (s.move i p).phase i = p := by simp [Server.move]

theorem Server.move_phase_other (s : Server ι) {i j : ι} (p : Phase) (h : j ≠ i) :
    (s.move i p).phase j = s.phase j := by simp [Server.move, h]

/-- What one step of a request can be. The endpoint's step computes its effect
on the loaded memory; only the two saves touch the cache. A request that raises
has no effect on any memory. -/
inductive Moves (user : String) (endpoint : ι → Endpoint) (s : Server ι) (i : ι) :
    Server ι → Prop where
  | load (hp : s.phase i = .received) :
      Moves user endpoint s i
        (s.move i (.loaded (s.cached user) ⟨user, s.cached user⟩))
  | execute (seen : WorkingMemory) (cat cat' : StrayCat) (p : Phase)
      (hp : s.phase i = .loaded seen cat)
      (hid : cat'.userId = cat.userId)
      (hcat : cat.userId = user →
        cat'.workingMemory = (endpoint i).effect user cat.workingMemory)
      (hnext : (∃ reply, p = .called seen cat' reply) ∨ p = .answered seen cat') :
      Moves user endpoint s i (s.move i p)
  | raise (seen : WorkingMemory) (cat : StrayCat) (hp : s.phase i = .loaded seen cat)
      (hnone : ∀ wm, (endpoint i).effect user wm = wm) :
      Moves user endpoint s i (s.move i .finished)
  | save (seen : WorkingMemory) (cat : StrayCat) (reply : Reply) (p : Phase)
      (hp : s.phase i = .called seen cat reply)
      (hnext : p = .answered cat.workingMemory cat ∨ p = .finished) :
      Moves user endpoint s i ((s.save cat).move i p)
  | finish (seen : WorkingMemory) (cat : StrayCat) (hp : s.phase i = .answered seen cat) :
      Moves user endpoint s i ((s.save cat).move i .finished)

/-- A call that raises has no effect on the cached memory. -/
theorem effect_raised (user : String) {turn : Turn} {cat : StrayCat} {error : String}
    (h : (cat.call turn).2 = .error error) (wm : WorkingMemory) :
    (Endpoint.message turn).effect user wm = wm := by
  have hanswer := (StrayCat.call_answer ⟨user, wm⟩ cat turn).trans h
  cases hcall : StrayCat.call ⟨user, wm⟩ turn with
  | mk after answer =>
    rw [hcall] at hanswer
    cases hanswer
    simp only [Endpoint.effect, hcall]

theorem step_moves {user : String} {endpoint : ι → Endpoint} {s t : Server ι} {i : ι}
    (h : step user endpoint s i = some t) : Moves user endpoint s i t := by
  unfold step at h
  cases hp : s.phase i with
  | received =>
    simp only [hp, Option.some.injEq] at h
    subst h
    exact .load hp
  | loaded seen cat =>
    simp only [hp] at h
    cases he : endpoint i with
    | message turn =>
      have hid := cat.call_user_id turn
      simp only [he] at h
      cases hc : cat.call turn with
      | mk cat' answer =>
        rw [hc] at hid
        simp only [hc] at h
        cases answer with
        | ok reply =>
          cases h
          refine .execute seen cat cat' _ hp hid ?_ (Or.inl ⟨reply, rfl⟩)
          rintro rfl
          rw [he]
          simp only [Endpoint.effect, hc]
        | error error =>
          cases h
          refine .raise seen cat hp ?_
          rw [he]
          exact effect_raised user (congrArg Prod.snd hc)
    | wipeConversationHistory =>
      simp only [he] at h
      cases h
      let wiped := { cat with workingMemory := { cat.workingMemory with history := [] } }
      exact .execute seen cat wiped _ hp rfl (by intro _; rw [he]; rfl) (Or.inr rfl)
    | other raises =>
      simp only [he] at h
      cases raises with
      | false =>
        cases h
        exact .execute seen cat cat _ hp rfl (by intro _; rw [he]; rfl) (Or.inr rfl)
      | true =>
        cases h
        exact .raise seen cat hp (by intro _; rw [he]; rfl)
  | called seen cat reply =>
    simp only [hp] at h
    cases reply with
    | message m =>
      cases h
      exact .save seen cat _ _ hp (Or.inl rfl)
    | vectorMemoryError =>
      cases h
      exact .save seen cat _ _ hp (Or.inr rfl)
  | answered seen cat =>
    simp only [hp, Option.some.injEq] at h
    subst h
    exact .finish seen cat hp
  | finished => simp [hp] at h

end CheshireCat.Session
