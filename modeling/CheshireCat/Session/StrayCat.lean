import CheshireCat.Base.Dict
import Mathlib.Data.List.DropRight

namespace CheshireCat.Session
open Base

structure Message where
  userId : String
  who : String
  text : String
deriving DecidableEq

structure WorkingMemory where
  history : List Message := []
  userMessageJson : Option Message := none
deriving DecidableEq

def maxWorkingHistoryLength : Nat := 20

def WorkingMemory.updateHistory (wm : WorkingMemory) (message : Message) : WorkingMemory :=
  { wm with history := (wm.history ++ [message]).rtake maxWorkingHistoryLength }

/-- A cache with value semantics: the item under a key is a pickled copy. Working
memories are inserted with `ttl = -1` and never expire. -/
abbrev Cache := Dict String WorkingMemory

structure StrayCat where
  userId : String
  workingMemory : WorkingMemory
deriving DecidableEq

def cacheKey (userId : String) : String := userId ++ "_working_memory"

def loadWorkingMemoryFromCache (cache : Cache) (userId : String) : WorkingMemory :=
  (cache.get? (cacheKey userId)).getD {}

def StrayCat.create (cache : Cache) (userId : String) : StrayCat :=
  ⟨userId, loadWorkingMemoryFromCache cache userId⟩

def StrayCat.updateWorkingMemoryCache (cat : StrayCat) (cache : Cache) : Cache :=
  cache.set (cacheKey cat.userId) cat.workingMemory

/-- How `main_agent.execute` ends. An exception that carries an unparsable LLM
output is turned into an answer, any other one leaves the turn. -/
inductive AgentEnd where
  | output (text : String)
  | unparsable (text : String)
  | raised (error : String)

/-- What the parser, the hooks, the memories and the agent answer during a turn. -/
structure Turn where
  userMessage : Except String Message
  fastReply : Option Message
  readMessage : Message
  recallRaises : Bool
  agent : AgentEnd
  storeRaises : Option String
  finalOutput : String → Message

inductive Reply where
  | message (m : Message)
  | vectorMemoryError
deriving DecidableEq

/-- The last part of `__call__`, once the agent has an output. -/
def StrayCat.answer (cat : StrayCat) (turn : Turn) (output : String) :
    StrayCat × Except String Reply :=
  match turn.storeRaises with
  | some error => (cat, .error error)
  | none =>
    let final := turn.finalOutput output
    ({ cat with workingMemory := cat.workingMemory.updateHistory final }, .ok (.message final))

/-- `__call__`: the working memory is changed in place, so what was appended
before an exception stays. -/
def StrayCat.call (cat : StrayCat) (turn : Turn) : StrayCat × Except String Reply :=
  match turn.userMessage with
  | .error error => (cat, .error error)
  | .ok message =>
    let cat := { cat with workingMemory := { cat.workingMemory with userMessageJson := some message } }
    match turn.fastReply with
    | some reply => (cat, .ok (.message reply))
    | none =>
      let wm := { cat.workingMemory with userMessageJson := some turn.readMessage }
      let cat := { cat with workingMemory := wm.updateHistory turn.readMessage }
      if turn.recallRaises then (cat, .ok .vectorMemoryError)
      else match turn.agent with
        | .raised error => (cat, .error error)
        | .unparsable text => cat.answer turn text
        | .output text => cat.answer turn text

@[simp] theorem StrayCat.call_user_id (cat : StrayCat) (turn : Turn) :
    (cat.call turn).1.userId = cat.userId := by
  unfold StrayCat.call StrayCat.answer
  repeat' split
  all_goals rfl

/-- What a call answers does not depend on the memory. -/
theorem StrayCat.call_answer (cat cat' : StrayCat) (turn : Turn) :
    (cat.call turn).2 = (cat'.call turn).2 := by
  unfold StrayCat.call StrayCat.answer
  cases turn.userMessage with
  | error error => rfl
  | ok message =>
    cases turn.fastReply with
    | some reply => rfl
    | none => cases turn.recallRaises <;> cases turn.agent <;> cases turn.storeRaises <;> rfl

/-- Saving and loading under the same user gives the saved memory back. -/
@[simp] theorem load_update (cat : StrayCat) (cache : Cache) :
    loadWorkingMemoryFromCache (cat.updateWorkingMemoryCache cache) cat.userId =
      cat.workingMemory := by
  simp [loadWorkingMemoryFromCache, StrayCat.updateWorkingMemoryCache]

end CheshireCat.Session
