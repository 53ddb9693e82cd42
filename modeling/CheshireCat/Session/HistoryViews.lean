import CheshireCat.Session.History

namespace CheshireCat.Session.History

/-- A part of the content of a langchain message. -/
inductive Part where
  | text (text : String)
  | imageUrl (url : String)
deriving DecidableEq

/-- `HumanMessage` and `AIMessage`. -/
inductive BaseMessage where
  | humanMessage (name : String) (content : List Part)
  | aiMessage (name content : String)
deriving DecidableEq

/-- The answer to a request: Pillow names the format of the body, or fails to. -/
structure Response where
  statusCode : Nat
  format : Except Error String
  base64 : String

variable {δ ω : Type}

/-! ### The conversions -/

/-- A conversion runs while the servers, whose state is `ω`, answer. -/
abbrev Web (ω : Type) := ExceptT Error (StateM ω)

section Conversions
variable (get : String → Web ω Response)

def langchainfyImage (image : String) : Web ω (Option Part) :=
  if "http".toList <+: image.toList then do
    let response ← get image
    if response.statusCode = 200 then
      let format ← response.format
      pure (some (.imageUrl ("data:image/" ++ format.toLower ++ ";base64," ++ response.base64)))
    else pure none
  else pure (some (.imageUrl image))

/-- `UserMessage.langchainfy`: an empty text or image is none. -/
def Content.humanMessage (content : Content) : Web ω BaseMessage := do
  let text := (content.text.filter (fun t => t ≠ "")).map Part.text
  let image ← match content.image.filter (fun i => i ≠ "") with
    | some image => langchainfyImage get image
    | none => pure none
  pure (.humanMessage content.who (text.toList ++ image.toList))

/-- `langchainfy` of the classes of messages: an `AIMessage` has to have a text, and
the base class has no such method. -/
def ConversationMessage.langchainfy : ConversationMessage δ → Web ω BaseMessage
  | .userMessage content => content.humanMessage get
  | .catMessage content _ =>
    match content.text with
    | some text => pure (.aiMessage content.who text)
    | none => throw .validationError
  | .conversationMessage _ => throw .attributeError

/-- The loop of `langchainfy_chat_history`, which appends to what it has. -/
def langchainfyLoop (langchainChatHistory : List BaseMessage) :
    List (ConversationMessage δ) → Web ω (List BaseMessage)
  | [] => pure langchainChatHistory
  | message :: rest => do
    let converted ← message.langchainfy get
    langchainfyLoop (langchainChatHistory ++ [converted]) rest

def WorkingMemory.langchainfyChatHistory (wm : WorkingMemory δ)
    (latestN : Int := maxWorkingHistoryLength) : Web ω (List BaseMessage) :=
  langchainfyLoop get [] (sliceFrom wm.history (-latestN))

end Conversions

def Content.line (turn : Content) : String :=
  "\n - " ++ turn.who ++ ": " ++ turn.text.getD "None"

def WorkingMemory.stringifyChatHistory (wm : WorkingMemory δ)
    (latestN : Int := maxWorkingHistoryLength) : String :=
  (sliceFrom wm.history (-latestN)).foldl (fun historyString turn => historyString ++ turn.content.line) ""

/-- The cat redirects to its working memory. -/
structure StrayCat (δ : Type) where
  workingMemory : WorkingMemory δ

def StrayCat.langchainfyChatHistory (get : String → Web ω Response) (cat : StrayCat δ)
    (latestN : Int := 20) : Web ω (List BaseMessage) :=
  cat.workingMemory.langchainfyChatHistory get latestN

def StrayCat.stringifyChatHistory (cat : StrayCat δ) (latestN : Int := 20) : String :=
  cat.workingMemory.stringifyChatHistory latestN

/-! ### The latest turns -/

/-- What the two views are to tell: the latest turns, in their order. -/
def WorkingMemory.latest (wm : WorkingMemory δ) (n : Nat) : List (ConversationMessage δ) :=
  wm.history.rtake (min n wm.history.length)

theorem langchainfyLoop_eq (get : String → Web ω Response) (messages : List (ConversationMessage δ))
    (acc : List BaseMessage) :
    langchainfyLoop get acc messages =
      (acc ++ ·) <$> messages.mapM (ConversationMessage.langchainfy get) := by
  induction messages generalizing acc with
  | nil => simp [langchainfyLoop]
  | cons message rest ih => simp [langchainfyLoop, ih, List.mapM_cons]

theorem lines_eq (turns : List (ConversationMessage δ)) (acc : String) :
    turns.foldl (fun historyString turn => historyString ++ turn.content.line) acc =
      acc ++ String.join (turns.map (fun turn => turn.content.line)) := by
  induction turns generalizing acc with
  | nil => simp
  | cons turn rest ih => simp [ih, String.append_assoc]

theorem line_ne_empty (turn : Content) : turn.line ≠ "" := by
  intro h
  have hlength := congrArg String.length h
  simp [Content.line] at hlength

theorem latest_eq (wm : WorkingMemory δ) (n : Nat) : wm.latest n = wm.history.rtake n := by
  unfold WorkingMemory.latest List.rtake
  congr 1
  omega

theorem slice_latest (wm : WorkingMemory δ) {n : Nat} (h : n ≠ 0 ∨ wm.history = []) :
    sliceFrom wm.history (-n) = wm.latest n := by
  rcases h with hn | hempty
  · exact (sliceFrom_neg wm.history hn).trans (latest_eq wm n).symm
  · simp [WorkingMemory.latest, hempty, sliceFrom, List.rtake]

theorem stringify_eq (wm : WorkingMemory δ) (latestN : Int) :
    wm.stringifyChatHistory latestN =
      String.join ((sliceFrom wm.history (-latestN)).map (fun turn => turn.content.line)) := by
  simp [WorkingMemory.stringifyChatHistory, lines_eq]

theorem langchainfy_eq (get : String → Web ω Response) (wm : WorkingMemory δ) (latestN : Int) :
    wm.langchainfyChatHistory get latestN =
      (sliceFrom wm.history (-latestN)).mapM (ConversationMessage.langchainfy get) := by
  simp [WorkingMemory.langchainfyChatHistory, langchainfyLoop_eq]

/-- Asked for no turns, the views tell all there are. -/
theorem stringify_zero_ne (wm : WorkingMemory δ) (h : wm.history ≠ []) :
    wm.stringifyChatHistory 0 ≠ "" := by
  obtain ⟨turn, rest, hhistory⟩ := List.exists_cons_of_ne_nil h
  have hslice : sliceFrom wm.history (-0) = turn :: rest := by simp [sliceFrom, hhistory]
  intro hempty
  have hline : turn.content.line = "" := by
    rw [stringify_eq, hslice] at hempty
    simp_all [String.join_cons]
  exact line_ne_empty turn.content hline

/-- Both views, of the working memory and of the cat, tell the latest `n` turns. -/
def StrayCat.TellsLatest (get : String → Web ω Response) (cat : StrayCat δ) (n : Nat) : Prop :=
  let latest := cat.workingMemory.latest n
  cat.workingMemory.stringifyChatHistory n = String.join (latest.map (fun turn => turn.content.line)) ∧
  cat.workingMemory.langchainfyChatHistory get n = latest.mapM (ConversationMessage.langchainfy get) ∧
  cat.stringifyChatHistory n = cat.workingMemory.stringifyChatHistory n ∧
  cat.langchainfyChatHistory get n = cat.workingMemory.langchainfyChatHistory get n

/-- They do exactly when turns are asked for or there are none. -/
theorem tells_latest_iff (get : String → Web ω Response) (cat : StrayCat δ) (n : Nat) :
    cat.TellsLatest get n ↔ n ≠ 0 ∨ cat.workingMemory.history = [] := by
  constructor
  · intro h
    by_contra hnot
    simp only [not_or, ne_eq, not_not] at hnot
    obtain ⟨rfl, hhistory⟩ := hnot
    refine stringify_zero_ne cat.workingMemory hhistory (h.1.trans ?_)
    simp [WorkingMemory.latest, List.rtake]
  · intro h
    have hslice := slice_latest cat.workingMemory h
    refine ⟨?_, ?_, rfl, rfl⟩
    · rw [stringify_eq, hslice]
    · rw [langchainfy_eq, hslice]

/-- A user and the cat have said one thing each. -/
def greeting : StrayCat Unit where
  workingMemory := { history := [
    .userMessage { userId := "123", who := "Human", text := some "Hi" },
    .catMessage { userId := "123", who := "AI", text := some "Meow" } none] }

theorem no_turns_tell_all :
    greeting.stringifyChatHistory 0 = "\n - Human: Hi\n - AI: Meow" ∧
    ¬ greeting.TellsLatest (fun _ => (throw .requestException : Web Unit Response)) 0 := by
  refine ⟨by decide, ?_⟩
  intro h
  exact absurd h.1 (by decide)

end CheshireCat.Session.History
