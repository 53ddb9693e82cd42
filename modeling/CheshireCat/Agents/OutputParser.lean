import CheshireCat.Utils.ParseJson

namespace CheshireCat.Agents
open Base Json Utils

@[ext]
structure LLMAction where
  action : Json := .null
  actionInput : Json := .null
deriving DecidableEq

variable {numbers : NumberTexts} (parser : JsonOutputParser numbers)

/-- `LLMAction(**parsed)`. What has no names of arguments raises. -/
def llmAction : Json → Except String LLMAction
  | .obj fields => .ok ⟨(field? fields "action").getD .null, (field? fields "action_input").getD .null⟩
  | _ => .error "TypeError"

/-- `parse_json` with the model, and its default for whatever raises. -/
def parsedAction (llmOutput : List Char) : LLMAction :=
  match (parseJson parser none llmOutput).bind llmAction with
  | .ok action => action
  | .error _ => {}

def isStr : Json → Bool
  | .str _ => true
  | _ => false

/-- `ChooseProcedureOutputParser.parse`. An input that counts as false is left as it is. -/
def chooseProcedure (llmOutput : List Char) : LLMAction :=
  let action := parsedAction parser llmOutput
  if truthy action.actionInput && !isStr action.actionInput then
    { action with actionInput := .str (String.ofList (numbers.dumps action.actionInput)) }
  else action

/-- The input as the tools take it: none, a string, or the text of another value. -/
def toolInput (numbers : NumberTexts) : Json → Json
  | .null => .null
  | .str s => .str s
  | v => .str (String.ofList (numbers.dumps v))

/-- What counts as false is taken over, and anything else is made a text. -/
theorem chosen_input_iff (numbers : NumberTexts) (input : Json) :
    (if truthy input && !isStr input then .str (String.ofList (numbers.dumps input)) else input) =
      toolInput numbers input ↔
    input ∉ [.bool false, .number (.int 0), .number (.float 0), .arr [], .obj []] := by
  cases input with
  | null => exact iff_of_true rfl (by simp)
  | str s => exact iff_of_true (if_neg (by simp [isStr])) (by simp)
  | bool b => cases b <;> simp [truthy, isStr, toolInput]
  | number n =>
    cases n with
    | int n =>
      by_cases hzero : n = 0
      · simp [truthy, isStr, toolInput, hzero]
      · simp [truthy, isStr, toolInput, hzero]
    | float q =>
      by_cases hzero : q = 0
      · simp [truthy, isStr, toolInput, hzero]
      · simp [truthy, isStr, toolInput, hzero]
  | arr items => cases items <;> simp [truthy, isStr, toolInput]
  | obj fields => cases fields <;> simp [truthy, isStr, toolInput]

/-- The input of the action is the parsed one as the tools take it, and the action is the parsed one,
exactly where the parsed input is no zero, no `false` and no empty list or object. -/
theorem tool_input_iff (llmOutput : List Char) :
    chooseProcedure parser llmOutput = { parsedAction parser llmOutput with
      actionInput := toolInput numbers (parsedAction parser llmOutput).actionInput } ↔
    (parsedAction parser llmOutput).actionInput ∉
      [.bool false, .number (.int 0), .number (.float 0), .arr [], .obj []] := by
  rw [← chosen_input_iff numbers, chooseProcedure]
  split
  · exact LLMAction.ext_iff.trans (and_iff_right rfl)
  · exact LLMAction.ext_iff.trans (and_iff_right rfl)

def someAction : Json.Fields := [("action", .str "some_action"), ("action_input", .number (.int 0))]

/-- An input of zero reaches the tool as a number. -/
theorem zero_stays_number :
    (∀ parser : JsonOutputParser plainNumbers,
      chooseProcedure parser (plainNumbers.dumps (.obj someAction)) =
        ⟨.str "some_action", .number (.int 0)⟩) ∧
    ¬ ∀ (parser : JsonOutputParser plainNumbers) (llmOutput : List Char),
      chooseProcedure parser llmOutput = { parsedAction parser llmOutput with
        actionInput := toolInput plainNumbers (parsedAction parser llmOutput).actionInput } := by
  have hparsed (parser : JsonOutputParser plainNumbers) :
      parsedAction parser (plainNumbers.dumps (.obj someAction)) =
        ⟨.str "some_action", .number (.int 0)⟩ := by
    have hjson : parseJson parser none (plainNumbers.dumps (.obj someAction)) =
        .ok (.obj someAction) := by
      rw [parse_json_dumps]
      apply parser.valid _ _ _ (cleaned_stripped _ _) (fun _ hc => absurd hc List.not_mem_nil)
      decide +kernel
    rw [parsedAction, hjson]
    rfl
  have hchosen (parser : JsonOutputParser plainNumbers) :
      chooseProcedure parser (plainNumbers.dumps (.obj someAction)) =
        ⟨.str "some_action", .number (.int 0)⟩ := by
    rw [chooseProcedure, hparsed]
    rfl
  refine ⟨hchosen, fun hall => ?_⟩
  have hinput := hall (.strict plainNumbers) (plainNumbers.dumps (.obj someAction))
  rw [hchosen, hparsed] at hinput
  cases congrArg LLMAction.actionInput hinput

end CheshireCat.Agents
