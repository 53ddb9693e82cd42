import CheshireCat.Agents.OutputParser
import CheshireCat.Base.Traced
import CheshireCat.Form.CatForm

namespace CheshireCat.Agents
open Base Form

/-! ### The cat and its plugins -/

/-- What plugin code returns as an output: a text, `None`, or a value that no `AgentOutput` takes. -/
inductive Returned where
  | text (s : String)
  | none
  | other
deriving DecidableEq

/-- A form that was made, under the name of its class. -/
structure FormInstance (φ : Type) where
  name : String
  self : φ
deriving DecidableEq

/-- What the agents read and write of a cat, and all the rest of it. The output of the tools is
kept in the `agent_input`, and the memories are the metadata of the recalled points. -/
structure Cat (φ σ : Type) where
  activeForm : Option (FormInstance φ) := none
  proceduralMemories : List Json.Fields := []
  toolsOutput : String := ""
  rest : σ

/-- Code of a plugin, which may change the cat and raise. -/
abbrev PluginCode (φ σ : Type) := ExceptT String (StateM (Cat φ σ))

structure CatTool (φ σ : Type) where
  name : String
  description : String
  startExamples : List String := []
  returnDirect : Bool := false
  run : Json → PluginCode φ σ Returned

/-- A form class. What it need not define is missing otherwise. -/
structure FormClass (φ σ : Type) where
  name : String
  description : Option String := none
  startExamples : Option (List String) := none
  init : PluginCode φ σ φ

inductive Procedure (φ σ : Type) where
  | tool (t : CatTool φ σ)
  | form (f : FormClass φ σ)

def Procedure.name {φ σ : Type} : Procedure φ σ → String
  | .tool t => t.name
  | .form f => f.name

/-- What the plugins, the model and the libraries do when the agents call them. -/
structure Plugins (φ σ : Type) where
  procedures : Cat φ σ → List (Procedure φ σ)
  agentPromptInstructions : List Char → PluginCode φ σ (List Char)
  agentAllowedTools : List Json → PluginCode φ σ (List Json)
  randomChoice : List String → PluginCode φ σ String
  setOrder : List (List Char) → List (List Char)
  llm : List Char → Dict (List Char) String → PluginCode φ σ (List Char)
  formState : FormInstance φ → Cat φ σ → CatFormState
  next : FormInstance φ → PluginCode φ σ (List (String × Returned))

/-! ### What the agents do -/

/-- The calls of interest, in order. The code keeps no such log and no step reads it. -/
inductive Event (φ σ : Type) where
  | next (form : FormInstance φ) (output : Except String Returned)
  | offered (procedures : List (Procedure φ σ)) (names : List Json)
  | answered (llmAction : LLMAction)
  | ran (tool : CatTool φ σ) (actionInput : Json) (output : Except String Returned)
  | started (form : FormClass φ σ)

structure Step where
  action : String
  actionInput : Json
  output : Option String
deriving DecidableEq

structure AgentOutput where
  output : Option String := none
  intermediateSteps : List Step := []
  returnDirect : Bool := false
deriving DecidableEq

abbrev Agent (φ σ : Type) := Traced (Cat φ σ) (Event φ σ)

/-- `AgentOutput(...)` with one step. -/
def agentOutput (action : String) (actionInput : Json) (returnDirect : Bool) :
    Returned → Except String AgentOutput
  | .text s => .ok ⟨some s, [⟨action, actionInput, some s⟩], returnDirect⟩
  | .none => .ok ⟨none, [⟨action, actionInput, none⟩], returnDirect⟩
  | .other => .error "ValidationError"

/-- The output is taken for the output of an agent. -/
def isTaken : Except String Returned → Bool
  | .ok (.text _) | .ok .none => true
  | .ok .other | .error _ => false

/-! ### FormAgent -/

variable {φ σ : Type} (plugins : Plugins φ σ)

/-- `active_form.next()["output"]` -/
def nextOutput (form : FormInstance φ) : PluginCode φ σ Returned := do
  match (← plugins.next form).lookup "output" with
  | some output => pure output
  | none => throw "KeyError"

/-- `FormAgent.execute` -/
def FormAgent.execute : Agent φ σ AgentOutput := do
  let cat ← get
  match cat.activeForm with
  | none => pure {}
  | some form =>
    if plugins.formState form cat = .closed then
      modify (fun cat => { cat with activeForm := none })
      pure {}
    else
      tryCatch (do
        let output ← Traced.observe (.next form) (Traced.call (nextOutput plugins form))
        Traced.lift (agentOutput form.name (.str "") true output))
        (fun _ => pure {})

/-- The form's answer, or nothing if it has none that is taken. -/
def formOutput (form : FormInstance φ) (output : Except String Returned) : AgentOutput :=
  match output.bind (agentOutput form.name (.str "") true) with
  | .ok out => out
  | .error _ => {}

/-- The active form is left alone or closed, or it is continued. -/
inductive FormRun (active : Option (FormInstance φ)) :
    Except String AgentOutput → List (Event φ σ) → Prop where
  | idle : FormRun active (.ok {}) []
  | continued {form : FormInstance φ} (hactive : active = some form) (output : Except String Returned) :
    FormRun active (.ok (formOutput form output)) [.next form output]

/-- One dialogue step of a form, whose errors are only logged. -/
theorem form_step_ends (form : FormInstance φ) (cat : Cat φ σ) :
    (tryCatch (do
      let output ← Traced.observe (.next form) (Traced.call (nextOutput plugins form))
      Traced.lift (agentOutput form.name (.str "") true output))
      (fun _ => pure {}) : Agent φ σ AgentOutput).Ends cat
      (fun r _ t => ∃ output, r = .ok (formOutput form output) ∧ t = [.next form output]) := by
  apply Traced.ends_try
  apply Traced.ends_bind
  apply Traced.ends_observe
  apply Traced.ends_call
  intro output cat'
  cases output with
  | error error => exact ⟨.error error, rfl, rfl⟩
  | ok output =>
    cases output with
    | text s => exact ⟨.ok (.text s), rfl, rfl⟩
    | none => exact ⟨.ok .none, rfl, rfl⟩
    | other => exact ⟨.ok .other, rfl, rfl⟩

theorem form_agent_ends (cat : Cat φ σ) :
    (FormAgent.execute plugins).Ends cat (fun r _ t => FormRun cat.activeForm r t) := by
  apply Traced.ends_bind
  apply Traced.ends_get
  obtain ⟨activeForm, memories, toolsOutput, rest⟩ := cat
  cases activeForm with
  | none => exact Traced.ends_pure FormRun.idle
  | some form =>
    dsimp only
    split
    · apply Traced.ends_bind
      apply Traced.ends_modify
      exact Traced.ends_pure FormRun.idle
    · apply (form_step_ends plugins form _).mono
      rintro r cat' t ⟨output, rfl, rfl⟩
      exact FormRun.continued rfl output

end CheshireCat.Agents
