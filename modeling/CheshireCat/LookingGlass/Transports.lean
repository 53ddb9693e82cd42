import CheshireCat.Base.JsonDump
import CheshireCat.Base.Replace
import CheshireCat.Session.StrayCat

namespace CheshireCat.LookingGlass
open Base Session

/-! ### Messages -/

structure PyException where
  name : String
  text : String
deriving DecidableEq

structure AgentOutput where
  output : Option String := none
  intermediateSteps : List PyValue := []
  returnDirect : Bool := false
  extra : List (String × PyValue) := []

structure MessageWhy where
  input : String
  intermediateSteps : List PyValue
  memory : PyValue
  modelInteractions : List PyValue
  agentOutput : PyValue

structure CatMessage where
  userId : String
  when : Rat
  who : String := "AI"
  text : Option String := none
  image : Option String := none
  audio : Option String := none
  type : String := "chat"
  why : Option MessageWhy := none
  extra : List (String × PyValue) := []

def optional : Option String → PyValue
  | some s => .str s
  | none => .null

/-- The dictionary of named values. -/
def named (fields : List (String × PyValue)) : List (PyKey × PyValue) :=
  fields.map (fun p => (.str p.1, p.2))

def AgentOutput.modelDump (out : AgentOutput) : PyValue :=
  .dict (named ([("output", optional out.output), ("intermediate_steps", .list out.intermediateSteps),
    ("return_direct", .bool out.returnDirect)] ++ out.extra))

def MessageWhy.modelDump (why : MessageWhy) : PyValue :=
  .dict (named [("input", .str why.input), ("intermediate_steps", .list why.intermediateSteps),
    ("memory", why.memory), ("model_interactions", .list why.modelInteractions),
    ("agent_output", why.agentOutput)])

/-- `model_dump()`, with what plugins added and the computed `content`. -/
def CatMessage.modelDump (m : CatMessage) : PyValue :=
  .dict (named ([("user_id", .str m.userId), ("when", .number (.float m.when)), ("who", .str m.who),
    ("text", optional m.text), ("image", optional m.image), ("audio", optional m.audio),
    ("type", .str m.type), ("why", (m.why.map MessageWhy.modelDump).getD .null)] ++ m.extra ++
    [("content", optional m.text)]))

/-- The entry of the conversation history. -/
def CatMessage.entry (m : CatMessage) : Message := ⟨m.userId, m.who, m.text.getD ""⟩

/-! ### The turn -/

inductive FastReply where
  | message (m : CatMessage)
  | dict (output : Option String)
  | other

/-- What `before_cat_sends_message` makes of a message. -/
inductive HookReply where
  | message (m : CatMessage)
  | dict (fields : List (PyKey × PyValue))
  | other

/-- What the parser, the hooks, the memories, the agent and the cache answer during a turn. A
dictionary is taken for a message of the history only if it tells the user. -/
structure Turn where
  userMessage : Except PyException Message
  fastReply : FastReply
  readMessage : Message
  recalled : Except PyException Unit
  agent : Except PyException AgentOutput
  storeMessage : Except PyException Unit
  memory : Except PyException PyValue
  modelInteractions : List PyValue
  now : Rat
  beforeCatSendsMessage : CatMessage → HookReply
  conversationMessage : List (PyKey × PyValue) → Except PyException Message
  conversation_user : ∀ fields entry, conversationMessage fields = .ok entry →
    ∃ v, (PyKey.str "user_id", v) ∈ fields
  insert : Except PyException Unit

inductive Reply where
  | message (m : CatMessage)
  | dict (fields : List (PyKey × PyValue))

def Reply.dump : Reply → PyValue
  | .message m => m.modelDump
  | .dict fields => .dict fields

def vectorMemoryError : List (PyKey × PyValue) :=
  named [("type", .str "error"), ("name", .str "VectorMemoryError"),
    ("description", .str "An error occurred while recalling relevant memories.")]

/-- The reply that skips the rest of the turn. -/
def Turn.fastMessage (turn : Turn) (user : String) : Option CatMessage :=
  match turn.fastReply with
  | .message m => some m
  | .dict (some output) => some { userId := user, when := turn.now, text := some output }
  | .dict none | .other => none

def parseError : List Char := "Could not parse LLM output: \x60".toList

/-- An exception that carries an unparsable output of the model is turned into an answer. -/
def agentOutput : Except PyException AgentOutput → Except PyException AgentOutput
  | .ok out => .ok out
  | .error e =>
    if parseError <:+: e.text.toList then
      .ok { output := some (String.ofList (replaceAll ['\x60'] [] (replaceAll parseError [] e.text.toList))) }
    else .error e

/-- The message that is passed to `before_cat_sends_message`. -/
def Turn.finalOutput (turn : Turn) (user : String) : Except PyException CatMessage := do
  let out ← agentOutput turn.agent
  turn.storeMessage
  let memory ← turn.memory
  pure {
    userId := user
    when := turn.now
    text := some (out.output.getD "None")
    why := some {
      input := turn.readMessage.text
      intermediateSteps := out.intermediateSteps
      memory := memory
      modelInteractions := turn.modelInteractions
      agentOutput := out.modelDump } }

/-- What a turn leaves. An entry that the history refuses has been appended to it before. -/
structure AfterTurn where
  cat : StrayCat
  refused : Option HookReply := none

/-- The last part of `__call__`. A history takes messages, and dictionaries that are like one. -/
def answer (turn : Turn) (cat : StrayCat) (final : CatMessage) : AfterTurn × Except PyException Reply :=
  match turn.beforeCatSendsMessage final with
  | .message m =>
    (⟨{ cat with workingMemory := cat.workingMemory.updateHistory m.entry }, none⟩, .ok (.message m))
  | .dict fields =>
    match turn.conversationMessage fields with
    | .ok entry =>
      (⟨{ cat with workingMemory := cat.workingMemory.updateHistory entry }, none⟩, .ok (.dict fields))
    | .error e => (⟨cat, some (.dict fields)⟩, .error e)
  | .other =>
    (⟨cat, some .other⟩, .error ⟨"ValidationError", "Input should be a valid dictionary"⟩)

/-- The message as the plugins read it is recorded. -/
def Turn.reads (turn : Turn) (cat : StrayCat) : StrayCat :=
  let wm := { cat.workingMemory with userMessageJson := some turn.readMessage }
  { cat with workingMemory := wm.updateHistory turn.readMessage }

/-- `StrayCat.__call__` -/
def call (turn : Turn) (cat : StrayCat) : AfterTurn × Except PyException Reply :=
  match turn.userMessage with
  | .error e => (⟨cat, none⟩, .error e)
  | .ok message =>
    let cat := { cat with workingMemory := { cat.workingMemory with userMessageJson := some message } }
    match turn.fastMessage cat.userId with
    | some m => (⟨cat, none⟩, .ok (.message m))
    | none =>
      let cat := turn.reads cat
      match turn.recalled with
      | .error _ => (⟨cat, none⟩, .ok (.dict vectorMemoryError))
      | .ok () =>
        match turn.finalOutput cat.userId with
        | .error e => (⟨cat, none⟩, .error e)
        | .ok final => answer turn cat final

/-- What the turn is for the conversation history. -/
def Turn.plain (turn : Turn) (user : String) : Session.Turn where
  userMessage := turn.userMessage.mapError PyException.name
  fastReply := (turn.fastMessage user).map CatMessage.entry
  readMessage := turn.readMessage
  recallRaises := !turn.recalled.isOk
  agent := match turn.finalOutput user with
    | .ok final => .output (final.text.getD "")
    | .error e => .raised e.name
  storeRaises := none
  finalOutput text := match turn.finalOutput user with
    | .ok final => match turn.beforeCatSendsMessage final with
      | .message m => m.entry
      | .dict _ | .other => ⟨user, "AI", text⟩
    | .error _ => ⟨user, "AI", text⟩

/-! ### Transports -/

/-- What a run leaves in the cache, sends over the socket and returns. -/
structure Run where
  cache : Cache
  sent : List Json := []
  returned : Option Reply := none

def sendJson (data : PyValue) : Except PyException Json :=
  match data.json? with
  | some json => .ok json
  | none => .error ⟨"TypeError", "Object is not JSON serializable"⟩

/-- A dictionary has no `model_dump`. -/
def sendChatMessage : Reply → Except PyException Json
  | .message m => sendJson m.modelDump
  | .dict _ => .error ⟨"AttributeError", "'dict' object has no attribute 'model_dump'"⟩

def errorMessage (e : PyException) : Json :=
  .obj [("type", .str "error"), ("name", .str e.name), ("description", .str e.text)]

/-- What `run` does with an exception, whichever statement of its body raised it. -/
def failed (returnMessage : Bool) (cache : Cache) (e : PyException) : Run :=
  if returnMessage then { cache := cache, returned := some (.dict (named [("error", .str e.text)])) }
  else { cache := cache, sent := [errorMessage e] }

/-- `StrayCat.run` with an open socket. -/
def run (turn : Turn) (returnMessage : Bool) (cat : StrayCat) (cache : Cache) : Run :=
  match call turn cat with
  | (_, .error e) => failed returnMessage cache e
  | (left, .ok reply) =>
    match turn.insert with
    | .error e => failed returnMessage cache e
    | .ok () =>
      let cache := left.cat.updateWorkingMemoryCache cache
      if returnMessage then { cache := cache, returned := some reply }
      else
        match sendChatMessage reply with
        | .ok json => { cache := cache, sent := [json] }
        | .error e => failed returnMessage cache e

/-! ### What the client receives -/

/-- The client of the socket gets the JSON of what the other one is returned, or the exception. -/
def SameOnBoth (turn : Turn) (cat : StrayCat) (cache : Cache) : Prop :=
  match (call turn cat).2 with
  | .ok _ => ∃ reply json, (run turn true cat cache).returned = some reply ∧
      reply.dump.json? = some json ∧ (run turn false cat cache).sent = [json]
  | .error e => (run turn false cat cache).sent = [errorMessage e] ∧
      (run turn false cat cache).cache = (run turn true cat cache).cache

def CatMessage.HasJson (m : CatMessage) : Prop := ∃ json, m.modelDump.json? = some json

/-- The recall does not raise, and the reply is a message that JSON has, which the cache takes. -/
def Turn.Delivers (turn : Turn) (user : String) : Prop :=
  match turn.userMessage, turn.fastMessage user with
  | .error _, _ => True
  | .ok _, some m => m.HasJson ∧ turn.insert = .ok ()
  | .ok _, none => turn.recalled = .ok () ∧ ∀ final, turn.finalOutput user = .ok final →
    match turn.beforeCatSendsMessage final with
    | .message m => m.HasJson ∧ turn.insert = .ok ()
    | .dict fields => ∀ entry, turn.conversationMessage fields ≠ .ok entry
    | .other => True

variable {turn : Turn} {cat : StrayCat} {left : AfterTurn} {cache : Cache}

theorem same_error {e : PyException} (h : call turn cat = (left, .error e)) :
    SameOnBoth turn cat cache := by
  rw [SameOnBoth, run, run, h]
  exact ⟨rfl, rfl⟩

/-- The error that is returned is not the one that is sent. -/
theorem returned_error_other (e : PyException) {json : Json}
    (hjson : (Reply.dict (named [("error", .str e.text)])).dump.json? = some json) :
    json ≠ errorMessage e := by
  cases hjson
  intro heq
  have hlength : 1 = 3 := congrArg List.length (Json.obj.inj heq)
  exact absurd hlength (by decide)

theorem same_message_iff {m : CatMessage} (h : call turn cat = (left, .ok (.message m))) :
    SameOnBoth turn cat cache ↔ m.HasJson ∧ turn.insert = .ok () := by
  rw [SameOnBoth, run, run, h]
  cases hinsert : turn.insert with
  | error e =>
    refine iff_of_false ?_ (fun hboth => nomatch hboth.2)
    rintro ⟨reply, json, hreply, hjson, hsent⟩
    cases hreply
    exact returned_error_other e hjson (List.singleton_inj.mp hsent).symm
  | ok u =>
    dsimp only
    rw [CatMessage.HasJson, sendChatMessage, sendJson]
    cases hdump : m.modelDump.json? with
    | none =>
      refine iff_of_false ?_ (fun hboth => nomatch hboth.1)
      rintro ⟨reply, json, hreply, hjson, hsent⟩
      cases hreply
      cases hdump.symm.trans hjson
    | some json => exact iff_of_true ⟨.message m, json, rfl, hdump, rfl⟩ ⟨⟨json, rfl⟩, rfl⟩

/-- The keys of a dictionary stand in its JSON. -/
theorem mem_json_keys {entries : List (PyKey × PyValue)} {fields : List (String × Json)} {k : String}
    {v : PyValue} (h : PyValue.entriesJson? entries = some fields) (hk : (PyKey.str k, v) ∈ entries) :
    k ∈ fields.map Prod.fst := by
  induction entries generalizing fields with
  | nil => exact absurd hk List.not_mem_nil
  | cons e entries ih =>
    obtain ⟨key, w⟩ := e
    obtain ⟨k', hkey, hrest⟩ := Option.bind_eq_some_iff.mp h
    obtain ⟨j, hj, hrest⟩ := Option.bind_eq_some_iff.mp hrest
    obtain ⟨fields', hfields, rfl⟩ := Option.map_eq_some_iff.mp hrest
    rcases List.mem_cons.mp hk with heq | hk
    · cases heq
      cases hkey
      exact List.mem_cons_self
    · exact List.mem_cons_of_mem _ (ih hfields hk)

/-- A dictionary is returned as it is, and an `AttributeError` is sent. -/
theorem not_same_dict {fields : List (PyKey × PyValue)} (h : call turn cat = (left, .ok (.dict fields)))
    (hother : (PyValue.dict fields).json? ≠
      some (errorMessage ⟨"AttributeError", "'dict' object has no attribute 'model_dump'"⟩)) :
    ¬ SameOnBoth turn cat cache := by
  rw [SameOnBoth, run, run, h]
  rintro ⟨reply, json, hreply, hjson, hsent⟩
  cases hinsert : turn.insert with
  | error e =>
    rw [hinsert] at hreply hsent
    cases hreply
    exact returned_error_other e hjson (List.singleton_inj.mp hsent).symm
  | ok u =>
    rw [hinsert] at hreply hsent
    cases hreply
    cases hsent
    exact hother hjson

theorem conversation_other {fields : List (PyKey × PyValue)} {entry : Message}
    (h : turn.conversationMessage fields = .ok entry) (e : PyException) :
    (PyValue.dict fields).json? ≠ some (errorMessage e) := by
  obtain ⟨v, huser⟩ := turn.conversation_user fields entry h
  intro hjson
  obtain ⟨json, hentries, hobject⟩ := Option.map_eq_some_iff.mp hjson
  have hmem := mem_json_keys hentries huser
  rw [Json.obj.inj hobject] at hmem
  revert hmem
  simp

/-- The last part of a turn that is not replied to fast. -/
theorem same_answer_iff {final : CatMessage} {cat' : StrayCat}
    (h : call turn cat = answer turn cat' final) :
    SameOnBoth turn cat cache ↔
      match turn.beforeCatSendsMessage final with
      | .message m => m.HasJson ∧ turn.insert = .ok ()
      | .dict fields => ∀ entry, turn.conversationMessage fields ≠ .ok entry
      | .other => True := by
  rw [answer] at h
  cases hhook : turn.beforeCatSendsMessage final with
  | message m =>
    rw [hhook] at h
    exact same_message_iff h
  | other =>
    rw [hhook] at h
    exact iff_of_true (same_error h) trivial
  | dict fields =>
    rw [hhook] at h
    dsimp only at h ⊢
    cases hentry : turn.conversationMessage fields with
    | error e =>
      rw [hentry] at h
      exact iff_of_true (same_error h) (fun entry heq => nomatch heq)
    | ok entry =>
      rw [hentry] at h
      exact iff_of_false (not_same_dict h (conversation_other hentry _)) (fun hno => hno entry rfl)

theorem call_reads {message : Message} (huser : turn.userMessage = .ok message)
    (hfast : turn.fastMessage cat.userId = none) : call turn cat =
      match turn.recalled with
      | .error _ => (⟨turn.reads cat, none⟩, .ok (.dict vectorMemoryError))
      | .ok () =>
        match turn.finalOutput cat.userId with
        | .error e => (⟨turn.reads cat, none⟩, .error e)
        | .ok final => answer turn (turn.reads cat) final := by
  rw [call, huser]
  dsimp only
  rw [hfast]
  rfl

/-- A turn does to the conversation what it does without transports. -/
theorem call_plain (h : ∀ final, ∃ m, turn.beforeCatSendsMessage final = .message m) :
    (call turn cat).1 = ⟨(cat.call (turn.plain cat.userId)).1, none⟩ := by
  rw [StrayCat.call, Turn.plain]
  cases huser : turn.userMessage with
  | error e => rw [call, huser]; rfl
  | ok message =>
    cases hfast : turn.fastMessage cat.userId with
    | some m =>
      rw [call, huser]
      dsimp only
      rw [hfast]
      rfl
    | none =>
      rw [call_reads huser hfast]
      cases turn.recalled with
      | error e => rfl
      | ok u =>
        dsimp only
        cases turn.finalOutput cat.userId with
        | error e => rfl
        | ok final =>
          obtain ⟨m, hm⟩ := h final
          dsimp only
          rw [answer, hm]
          rfl

/-- On both transports the client receives what the turn returned exactly where the recall does not
raise and the turn returns a message that JSON has and the cache takes. -/
theorem same_on_both_iff (turn : Turn) (cat : StrayCat) (cache : Cache) :
    SameOnBoth turn cat cache ↔ turn.Delivers cat.userId := by
  rw [Turn.Delivers]
  cases huser : turn.userMessage with
  | error e =>
    have hcall : call turn cat = (⟨cat, none⟩, .error e) := by rw [call, huser]
    exact iff_of_true (same_error hcall) trivial
  | ok message =>
    cases hfast : turn.fastMessage cat.userId with
    | some m =>
      apply same_message_iff
      · rw [call, huser]
        dsimp only
        rw [hfast]
    | none =>
      dsimp only
      have hcall := call_reads huser hfast
      cases hrecall : turn.recalled with
      | error e =>
        rw [hrecall] at hcall
        exact iff_of_false (not_same_dict hcall (by decide)) (fun hdelivers => nomatch hdelivers.1)
      | ok u =>
        rw [hrecall] at hcall
        rw [and_iff_right rfl]
        cases hfinal : turn.finalOutput cat.userId with
        | error e =>
          rw [hfinal] at hcall
          exact iff_of_true (same_error hcall) (fun final heq => nomatch heq)
        | ok final =>
          rw [hfinal] at hcall
          rw [same_answer_iff hcall]
          exact ⟨fun h _ heq => Except.ok.inj heq ▸ h, fun h => h final rfl⟩

/-! ### The recall fails -/

def alice : StrayCat := ⟨"alice", {}⟩

/-- The memories cannot be reached, and whatever else would go well. -/
def lostMemories : Turn where
  userMessage := .ok ⟨"alice", "Human", "hi"⟩
  fastReply := .dict none
  readMessage := ⟨"alice", "Human", "hi"⟩
  recalled := .error ⟨"ConnectionError", "Connection refused"⟩
  agent := .ok { output := some "hello" }
  storeMessage := .ok ()
  memory := .ok .null
  modelInteractions := []
  now := 0
  beforeCatSendsMessage := .message
  conversationMessage _ := .error ⟨"ValidationError", "Field required"⟩
  conversation_user _ _ h := nomatch h
  insert := .ok ()

/-- The client of the socket is told of a missing attribute. -/
theorem memory_error_not_sent :
    (run lostMemories true alice .empty).returned.bind (fun reply => reply.dump.json?) =
      some (.obj [("type", .str "error"), ("name", .str "VectorMemoryError"),
        ("description", .str "An error occurred while recalling relevant memories.")]) ∧
    (run lostMemories false alice .empty).sent =
      [.obj [("type", .str "error"), ("name", .str "AttributeError"),
        ("description", .str "'dict' object has no attribute 'model_dump'")]] ∧
    ¬ ∀ (turn : Turn) (cat : StrayCat) (cache : Cache), SameOnBoth turn cat cache := by
  refine ⟨by decide, by decide, fun hall => ?_⟩
  obtain ⟨reply, json, hreply, hjson, hsent⟩ := hall lostMemories alice .empty
  cases hreply
  cases hjson
  revert hsent
  decide

end CheshireCat.LookingGlass
