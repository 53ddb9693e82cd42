import CheshireCat.Base.Replace
import CheshireCat.Memory.Recall
import CheshireCat.Session.StrayCat

/-! A conversation turn with the memories that it recalls and stores. -/

namespace CheshireCat.Session
open Base Memory Json

variable {ι V W : Type}

/-- The working memory of a cat. `rest` is what plugins, the agents and the log of the model
interactions keep there. -/
structure RecallingMemory (ι V W : Type) where
  conversation : WorkingMemory := {}
  recallQuery : String := ""
  memories : Dict String (List (Hit ι V)) := .empty
  rest : W

/-- What the code of a turn does with the working memory. An exception undoes nothing. -/
abbrev TurnCode (ι V W : Type) := ExceptT String (StateM (RecallingMemory ι V W))

structure RecallConfig (V : Type) where
  embedding : V
  k : Nat
  threshold : Option Rat
  metadata : Fields

structure EpisodicDocument where
  pageContent : String
  metadata : Fields

/-- What the plugins, the models and the libraries do in the turns of a user. A hook never raises. -/
structure Mind (ι V W : Type) where
  newMemory : W
  resetInteractions : W → W
  userMessage : String → Json → Except String Message
  fastReply : StateM (RecallingMemory ι V W) (Option Message)
  beforeCatReadsMessage : Message → StateM (RecallingMemory ι V W) Message
  catRecallQuery : String → StateM (RecallingMemory ι V W) String
  embedQuery : String → Except String V
  logEmbedding : String → V → W → W
  beforeCatRecallsMemories : StateM (RecallingMemory ι V W) Unit
  beforeCatRecalls : String → RecallConfig V → StateM (RecallingMemory ι V W) (RecallConfig V)
  afterCatRecallsMemories : StateM (RecallingMemory ι V W) Unit
  agent : TurnCode ι V W String
  beforeCatStoresEpisodicMemory : EpisodicDocument → StateM (RecallingMemory ι V W) EpisodicDocument
  embedDocument : String → Except String V
  finalOutput : String → RecallingMemory ι V W → Message
  beforeCatSendsMessage : Message → StateM (RecallingMemory ι V W) Message

section Turn

variable (mind : Mind ι V W) (client : Search ι V)

/-- What the libraries return or raise. -/
def ofExcept {α : Type} (result : Except String α) : TurnCode ι V W α := ExceptT.mk (pure result)

/-! ### The recall -/

def defaultRecallConfig (embedding : V) (userId memoryType : String) : RecallConfig V where
  embedding := embedding
  k := 3
  threshold := some (7 / 10)
  metadata := if memoryType = episodic then [("source", .str userId)] else []

/-- `recall_memories_from_embedding(**config)` -/
def recallByConfig (points : Dict ι (Point V)) (config : RecallConfig V) : Except String (List (Hit ι V)) :=
  let filter := qdrantFilterFromDict config.metadata
  if (filter.getD []).all FieldCondition.valid then
    .ok ((client.search points filter config.embedding config.k).filter (fun hit =>
      config.threshold.all (· ≤ hit.score)))
  else .error "ValidationError"

/-- The configs meet the collections in their order. -/
def recallLoop : List (RecallConfig V) → List (String × Dict ι (Point V)) → TurnCode ι V W Unit
  | config :: configs, (memoryType, points) :: rest => do
    let memories ← ofExcept (recallByConfig client points config)
    modify (fun m => { m with memories := m.memories.set memoryType memories })
    recallLoop configs rest
  | _, _ => pure ()

/-- The three hooks, one after the other. -/
def recallConfigs (embedding : V) (userId : String) :
    List String → StateM (RecallingMemory ι V W) (List (RecallConfig V))
  | [] => pure []
  | memoryType :: rest => do
    let config ← mind.beforeCatRecalls memoryType (defaultRecallConfig embedding userId memoryType)
    let configs ← recallConfigs embedding userId rest
    pure (config :: configs)

def recallRelevantMemoriesToWorkingMemory (db : Collections ι V) (userId text : String) :
    TurnCode ι V W Unit := do
  let recallQuery ← mind.catRecallQuery text
  let embedding ← ofExcept (mind.embedQuery recallQuery)
  modify (fun m =>
    { m with recallQuery := recallQuery, rest := mind.logEmbedding recallQuery embedding m.rest })
  mind.beforeCatRecallsMemories
  let configs ← recallConfigs mind embedding userId [episodic, "declarative", procedural]
  recallLoop client configs db.entries
  mind.afterCatRecallsMemories

/-! ### The turn -/

def unparsableMark : List Char := "Could not parse LLM output: \x60".toList

def unparsableOutput (error : String) : Option String :=
  if unparsableMark <:+: error.toList then
    some (String.ofList (replaceAll ['\x60'] [] (replaceAll unparsableMark [] error.toList)))
  else none

/-- A turn ends early, or goes on to store the message. -/
inductive Progress where
  | replied (reply : Reply)
  | answered (output : String)

def setMessage (message : Message) (m : RecallingMemory ι V W) : RecallingMemory ι V W :=
  { m with conversation := { m.conversation with userMessageJson := some message } }

def addToHistory (message : Message) (m : RecallingMemory ι V W) : RecallingMemory ι V W :=
  { m with conversation := m.conversation.updateHistory message }

/-- `__call__` up to the output of the agent. -/
def answerMessage (db : Collections ι V) (userId : String) (messageDict : Json) :
    TurnCode ι V W Progress := do
  let userMessage ← ofExcept (mind.userMessage userId messageDict)
  modify (fun m => { m with rest := mind.resetInteractions m.rest })
  modify (setMessage userMessage)
  match ← mind.fastReply with
  | some reply => pure (.replied (.message reply))
  | none => do
    let m ← get
    let userMessage ← mind.beforeCatReadsMessage (m.conversation.userMessageJson.getD userMessage)
    modify (setMessage userMessage)
    modify (addToHistory userMessage)
    let recalled ← tryCatch (do
        recallRelevantMemoriesToWorkingMemory mind client db userId userMessage.text
        pure true)
      (fun _ => pure false)
    if recalled then do
      let output ← tryCatch mind.agent (fun error =>
        match unparsableOutput error with
        | some output => pure output
        | none => throw error)
      pure (.answered output)
    else pure (.replied .vectorMemoryError)

/-- The point of a message, stamped with a time. -/
def episodicPoint (userId text : String) (time : Rat) : TurnCode ι V W (Point V) := do
  let doc ← mind.beforeCatStoresEpisodicMemory
    ⟨text, [("source", .str userId), ("when", .number (.float time))]⟩
  let vector ← ofExcept (mind.embedDocument text)
  pure ⟨doc.pageContent, doc.metadata, vector⟩

variable [DecidableEq ι]

/-- `_store_user_message_in_episodic_memory`, with the id of the new point. -/
def storeUserMessage (db : Collections ι V) (userId text : String) (time : Rat) (id : ι) :
    TurnCode ι V W (Collections ι V) := do
  let point ← episodicPoint mind userId text time
  match db.get? episodic with
  | none => throw "AttributeError"
  | some points => pure (db.set episodic (points.set id point))

def messageText (m : RecallingMemory ι V W) : String :=
  (m.conversation.userMessageJson.map Message.text).getD ""

/-- `__call__`, and the collections it leaves. -/
def call (db : Collections ι V) (userId : String) (messageDict : Json) (time : Rat) (id : ι) :
    TurnCode ι V W (Reply × Collections ι V) := do
  match ← answerMessage mind client db userId messageDict with
  | .replied reply => pure (reply, db)
  | .answered output => do
    let m ← get
    let db ← storeUserMessage mind db userId (messageText m) time id
    let m ← get
    let final ← mind.beforeCatSendsMessage (mind.finalOutput output m)
    modify (addToHistory final)
    pure (.message final, db)

end Turn

/-! ### The server -/

/-- The cache that a cat keeps the working memories in. -/
structure MemoryCache (C M : Type) where
  getValue : C → String → Option M
  insert : C → String → M → C

structure CatServer (C ι V : Type) where
  cache : C
  db : Collections ι V

/-- A request of a user, executed alone. A message comes over HTTP or over a WebSocket. -/
inductive CatRequest (ι V : Type) where
  | message (userId : String) (messageDict : Json) (time : Rat) (id : ι)
  | getConversationHistory (userId : String)
  | wipeConversationHistory (userId : String)
  | createMemoryPoint (userId : String) (ctx : Context V) (collectionId content : String) (metadata : Fields)

def CatRequest.userId : CatRequest ι V → String
  | .message userId _ _ _ => userId
  | .getConversationHistory userId => userId
  | .wipeConversationHistory userId => userId
  | .createMemoryPoint userId _ _ _ _ => userId

inductive CatAnswer (V : Type) where
  | reply (result : Except String Reply)
  | history (messages : List Message)
  | wiped
  | point (result : Except Failure (Response V))

section Server

variable {C : Type}

-- A plugin gets the cat of the user, and knows his id from it.
variable (cache : MemoryCache C (RecallingMemory ι V W)) (minds : String → Mind ι V W)
  (client : Search ι V) [DecidableEq ι]

def CatServer.load (s : CatServer C ι V) (userId : String) : RecallingMemory ι V W :=
  (cache.getValue s.cache (cacheKey userId)).getD { rest := (minds userId).newMemory }

def CatServer.save (s : CatServer C ι V) (userId : String) (m : RecallingMemory ι V W) : CatServer C ι V :=
  { s with cache := cache.insert s.cache (cacheKey userId) m }

/-- `StrayCat.run` saves after a call that returned. An exception skips every save: over a WebSocket
there is no other, and over HTTP the response to it is refused. -/
def serveMessage (s : CatServer C ι V) (userId : String) (messageDict : Json) (time : Rat) (id : ι) :
    Except String Reply × CatServer C ι V :=
  let memory := s.load cache minds userId
  match (call (minds userId) client s.db userId messageDict time id).run.run memory with
  | (.ok (reply, db), m) => (.ok reply, { s.save cache userId m with db := db })
  | (.error error, _) => (.error error, s)

/-- `ConnectionAuth` saves after an endpoint that returned. -/
def CatServer.serve (pointId : String → Except String ι) (s : CatServer C ι V) :
    CatRequest ι V → CatAnswer V × CatServer C ι V
  | .message userId messageDict time id =>
    let ran := serveMessage cache minds client s userId messageDict time id
    (.reply ran.1, ran.2)
  | .getConversationHistory userId =>
    let m := s.load cache minds userId
    (.history m.conversation.history, s.save cache userId m)
  | .wipeConversationHistory userId =>
    let m := s.load cache minds userId
    (.wiped, s.save cache userId { m with conversation := { m.conversation with history := [] } })
  | .createMemoryPoint userId ctx collectionId content metadata =>
    let ctx := { ctx with userId := userId }
    let created := Memory.createMemoryPoint pointId ctx s.db collectionId content metadata
    let after := match created.1 with
      | .ok _ => s.save cache userId (s.load cache minds userId)
      | .error _ => s
    (.point created.1, { after with db := created.2 })

end Server

end CheshireCat.Session
