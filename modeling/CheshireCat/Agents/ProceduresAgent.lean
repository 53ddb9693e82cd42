import CheshireCat.Agents.FormAgent
import CheshireCat.Utils.PromptVariables

namespace CheshireCat.Agents
open Base Json Utils

variable {φ σ : Type} {numbers : NumberTexts} (plugins : Plugins φ σ) (parser : JsonOutputParser numbers)

/-! ### The prompt -/

def toolPrompt : String :=
  "Create a JSON with the correct \"action\" and \"action_input\" to help the Human.\n" ++
  "You can use one of these actions:\n\x7btools\x7d\n" ++
  "- \"no_action\": Use this action if no relevant action is available. Input is always null.\n\n" ++
  "## The JSON must have the following structure:\n\n\x60\x60\x60json\n\x7b\x7b\n" ++
  "    \"action\": // str - The name of the action to take, should be one of [\x7btool_names\x7d, \"no_action\"]\n" ++
  "    \"action_input\": // str or null - The input to the action according to its description\n" ++
  "\x7d\x7d\n\x60\x60\x60\n\n\x7bexamples\x7d\n"

def description : Procedure φ σ → PluginCode φ σ String
  | .tool t => pure t.description
  | .form f => match f.description with
    | some text => pure text
    | none => throw "AttributeError"

def startExamples : Procedure φ σ → PluginCode φ σ (List String)
  | .tool t => pure t.startExamples
  | .form f => match f.startExamples with
    | some examples => pure examples
    | none => throw "AttributeError"

/-- One turn of the loop of `generate_examples`. -/
def addExample (listExamples : String) (proc : Procedure φ σ) : PluginCode φ σ String := do
  let examples ← startExamples proc
  if examples = [] then pure listExamples
  else
    let heading := if listExamples = "" then "## Here some examples:\n" else listExamples
    let question ← plugins.randomChoice examples
    let exampleJson := "\n\x7b\n    \"action\": \"" ++ proc.name ++
      "\",\n    \"action_input\": \"...input here...\"\n\x7d"
    pure (heading ++ "\nQuestion: " ++ question ++ "\n\x60\x60\x60json\n" ++ exampleJson ++
      "\n\x60\x60\x60" ++ "\nQuestion: I have no questions\n\x60\x60\x60json\n\x7b\n" ++
      "    \"action\": \"no_answer\",\n    \"action_input\": null\n\x7d\n\x60\x60\x60")

def generateExamples (allowedProcedures : Dict String (Procedure φ σ)) : PluginCode φ σ String :=
  allowedProcedures.values.foldlM (addExample plugins) ""

/-- `execute_chain` up to the text that the model gives. -/
def executeChain (template : List Char) (allowedProcedures : Dict String (Procedure φ σ)) :
    PluginCode φ σ (List Char) := do
  let tools ← allowedProcedures.values.mapM (fun p => do
    pure ("- \"" ++ p.name ++ "\": " ++ (← description p)))
  let examples ← generateExamples plugins allowedProcedures
  let promptVariables := Dict.ofList [
    ("tools".toList, "\n".intercalate tools),
    ("tool_names".toList, "\"" ++ "\", \"".intercalate allowedProcedures.keys ++ "\""),
    ("examples".toList, examples)]
  let inputs := (inputVariables template).getD []
  let mismatches := promptVariables.keys.filter (fun m => m ∉ inputs) ++
    inputs.dedup.filter (fun m => m ∉ promptVariables.keys)
  match matchPromptVariables (plugins.setOrder mismatches) promptVariables template with
  | some (promptVariables, template) => plugins.llm template promptVariables
  | none => throw "ValueError"

/-! ### The allowed procedures -/

def metadataField (metadata : Fields) (key : String) : Except String Json :=
  match field? metadata key with
  | some v => .ok v
  | none => .error "KeyError"

/-- A list or an object is not hashable. -/
def addName (names : List Json) : Json → Except String (List Json)
  | .arr _ | .obj _ => .error "TypeError"
  | v => .ok (if v ∈ names then names else names ++ [v])

def getRecalledProceduresNames (proceduralMemories : List Fields) : Except String (List Json) :=
  proceduralMemories.foldlM (fun names metadata => do
    let type ← metadataField metadata "type"
    let triggerType ← metadataField metadata "trigger_type"
    let source ← metadataField metadata "source"
    if type ∈ [.str "tool", .str "form"] ∧ triggerType ∈ [.str "description", .str "start_example"]
    then addName names source else pure names) []

def prepareAllowedProcedures (procedures : List (Procedure φ σ)) (names : List Json) :
    Dict String (Procedure φ σ) :=
  (procedures.filter (fun p => .str p.name ∈ names)).foldl (fun allowed p => allowed.set p.name p) .empty

/-! ### The chosen procedure -/

/-- The key under which a procedure is looked up. No name is equal to a number or a boolean. -/
def actionKey : Json → Except String (Option String)
  | .str action => .ok (some action)
  | .arr _ | .obj _ => .error "TypeError"
  | .null | .bool _ | .number _ => .ok none

def runChosen (action : String) (actionInput : Json) : Option (Procedure φ σ) → Agent φ σ AgentOutput
  | some (.tool t) => do
    let toolOutput ← Traced.observe (.ran t actionInput) (Traced.call (t.run actionInput))
    Traced.lift (agentOutput action actionInput t.returnDirect toolOutput)
  | some (.form f) => do
    Traced.note (.started f)
    let self ← Traced.call f.init
    modify (fun cat => { cat with activeForm := some ⟨f.name, self⟩ })
    FormAgent.execute plugins
  | none => pure { output := some "" }

def executeSubagents (llmAction : LLMAction) (allowedProcedures : Dict String (Procedure φ σ)) :
    Agent φ σ AgentOutput :=
  if truthy llmAction.action then do
    match ← Traced.lift (actionKey llmAction.action) with
    | some action =>
      tryCatch (runChosen plugins action llmAction.actionInput (allowedProcedures.get? action))
        (fun _ => pure { output := some "" })
    | none => pure { output := some "" }
  else pure { output := some "" }

def executeProcedures : Agent φ σ AgentOutput := do
  let template ← Traced.call (plugins.agentPromptInstructions toolPrompt.toList)
  let cat ← get
  let recalled ← Traced.lift (getRecalledProceduresNames cat.proceduralMemories)
  let names ← Traced.call (plugins.agentAllowedTools recalled)
  let cat ← get
  Traced.note (.offered (plugins.procedures cat) names)
  let allowedProcedures := prepareAllowedProcedures (plugins.procedures cat) names
  let llmOutput ← Traced.call (executeChain plugins template allowedProcedures)
  Traced.note (.answered (chooseProcedure parser llmOutput))
  executeSubagents plugins (chooseProcedure parser llmOutput) allowedProcedures

def toolsOutput (steps : List Step) : String :=
  steps.foldl (fun text step => text ++ " - " ++ step.action ++ ": " ++ step.output.getD "None" ++ "\n")
    "## Context of executed system tools: \n"

def storeSteps (steps : List Step) (cat : Cat φ σ) : Cat φ σ :=
  if steps = [] then cat else { cat with toolsOutput := toolsOutput steps }

/-- `ProceduresAgent.execute` -/
def ProceduresAgent.execute : Agent φ σ AgentOutput := do
  let formOutput ← FormAgent.execute plugins
  if formOutput.returnDirect then pure formOutput
  else
    let cat ← get
    if cat.proceduralMemories = [] then pure {}
    else
      tryCatch (do
        let result ← executeProcedures plugins parser
        if result.returnDirect then pure result
        else
          modify (storeSteps result.intermediateSteps)
          pure result)
        (fun _ => pure {})

/-! ### What is done -/

theorem get_allowed {procedures : List (Procedure φ σ)} {names : List Json} {action : String}
    {p : Procedure φ σ} (h : (prepareAllowedProcedures procedures names).get? action = some p) :
    p ∈ procedures ∧ .str p.name ∈ names ∧ action = p.name := by
  rcases Dict.get?_foldl_set Procedure.name id h with ⟨q, hq, hname, rfl⟩ | hnone
  · rw [List.mem_filter, decide_eq_true_eq] at hq
    exact ⟨hq.1, hq.2, hname.symm⟩
  · rw [Dict.get?_empty] at hnone
    cases hnone

/-- The tool's answer, or an empty one if the tool has none that is taken. -/
def toolAnswer (action : String) (actionInput : Json) (returnDirect : Bool)
    (output : Except String Returned) : AgentOutput :=
  match output.bind (agentOutput action actionInput returnDirect) with
  | .ok out => out
  | .error _ => { output := some "" }

/-- Nothing is run, or the procedure that is found under the action. -/
inductive Routed (llmAction : LLMAction) (allowedProcedures : Dict String (Procedure φ σ)) :
    Except String AgentOutput → List (Event φ σ) → Prop where
  | unhashable (error : String) : Routed llmAction allowedProcedures (.error error) []
  | nothing : Routed llmAction allowedProcedures (.ok { output := some "" }) []
  | ran {action : String} {t : CatTool φ σ} (haction : llmAction.action = .str action)
    (hget : allowedProcedures.get? action = some (.tool t)) (output : Except String Returned) :
    Routed llmAction allowedProcedures
      (.ok (toolAnswer action llmAction.actionInput t.returnDirect output))
      [.ran t llmAction.actionInput output]
  | failed {action : String} {f : FormClass φ σ} (haction : llmAction.action = .str action)
    (hget : allowedProcedures.get? action = some (.form f)) :
    Routed llmAction allowedProcedures (.ok { output := some "" }) [.started f]
  | started {action : String} {f : FormClass φ σ} (haction : llmAction.action = .str action)
    (hget : allowedProcedures.get? action = some (.form f)) (self : φ) {r : Except String AgentOutput}
    {trace : List (Event φ σ)} (hrun : FormRun (some ⟨f.name, self⟩) r trace) :
    Routed llmAction allowedProcedures r (.started f :: trace)

/-- A run of a form ends in an answer. -/
theorem FormRun.answers {active : Option (FormInstance φ)} {r : Except String AgentOutput}
    {trace : List (Event φ σ)} (h : FormRun active r trace) : ∃ out, r = .ok out := by
  cases h with
  | idle => exact ⟨_, rfl⟩
  | continued hactive output => exact ⟨_, rfl⟩

theorem subagents_end (llmAction : LLMAction) (allowedProcedures : Dict String (Procedure φ σ))
    (cat : Cat φ σ) : (executeSubagents plugins llmAction allowedProcedures).Ends cat
      (fun r _ t => Routed llmAction allowedProcedures r t) := by
  rw [executeSubagents]
  split
  · apply Traced.ends_bind
    apply Traced.ends_lift
    cases haction : llmAction.action with
    | null => exact Traced.ends_pure .nothing
    | bool b => exact Traced.ends_pure .nothing
    | number n => exact Traced.ends_pure .nothing
    | arr items => exact .unhashable _
    | obj fields => exact .unhashable _
    | str action =>
      apply Traced.ends_try
      cases hget : allowedProcedures.get? action with
      | none => exact Traced.ends_pure .nothing
      | some p =>
        cases p with
        | tool t =>
          apply Traced.ends_bind
          apply Traced.ends_observe
          apply Traced.ends_call
          intro output cat'
          have hran := Routed.ran haction hget output
          cases output with
          | error error => exact hran
          | ok output =>
            cases output with
            | text s => exact hran
            | none => exact hran
            | other => exact hran
        | form f =>
          apply Traced.ends_bind
          apply Traced.ends_note
          apply Traced.ends_bind
          apply Traced.ends_call
          intro self cat'
          cases self with
          | error error => exact .failed haction hget
          | ok self =>
            apply Traced.ends_bind
            apply Traced.ends_modify
            apply (form_agent_ends plugins _).mono
            intro r cat'' t hrun
            obtain ⟨out, rfl⟩ := hrun.answers
            exact .started haction hget self hrun
  · exact Traced.ends_pure .nothing

/-- The model is not asked, or what it answers is routed to the procedures that were offered. -/
inductive Proceeded : Except String AgentOutput → List (Event φ σ) → Prop where
  | failed (error : String) : Proceeded (.error error) []
  | unanswered (error : String) (procedures : List (Procedure φ σ)) (names : List Json) :
    Proceeded (.error error) [.offered procedures names]
  | routed {procedures : List (Procedure φ σ)} {names : List Json} {llmAction : LLMAction}
    {r : Except String AgentOutput} {trace : List (Event φ σ)}
    (hrouted : Routed llmAction (prepareAllowedProcedures procedures names) r trace) :
    Proceeded r (.offered procedures names :: .answered llmAction :: trace)

theorem procedures_end (cat : Cat φ σ) :
    (executeProcedures plugins parser).Ends cat (fun r _ t => Proceeded r t) := by
  apply Traced.ends_bind
  apply Traced.ends_call
  intro template cat
  cases template with
  | error error => exact .failed error
  | ok template =>
    apply Traced.ends_bind
    apply Traced.ends_get
    apply Traced.ends_bind
    apply Traced.ends_lift
    cases getRecalledProceduresNames cat.proceduralMemories with
    | error error => exact .failed error
    | ok recalled =>
      apply Traced.ends_bind
      apply Traced.ends_call
      intro names cat
      cases names with
      | error error => exact .failed error
      | ok names =>
        apply Traced.ends_bind
        apply Traced.ends_get
        apply Traced.ends_bind
        apply Traced.ends_note
        apply Traced.ends_bind
        apply Traced.ends_call
        intro llmOutput cat'
        cases llmOutput with
        | error error => exact .unanswered error _ _
        | ok llmOutput =>
          apply Traced.ends_bind
          apply Traced.ends_note
          apply (subagents_end plugins _ _ cat').mono
          intro r cat'' t hrouted
          exact .routed hrouted

/-- A form that answers ends the execution, and the procedures follow otherwise. -/
inductive Executed (active : Option (FormInstance φ)) : AgentOutput → List (Event φ σ) → Prop where
  | answered {out : AgentOutput} {trace : List (Event φ σ)} (hform : FormRun active (.ok out) trace)
    (hdirect : out.returnDirect = true) : Executed active out trace
  | failed {out : AgentOutput} {error : String} {trace trace' : List (Event φ σ)}
    (hform : FormRun active (.ok out) trace) (hdirect : out.returnDirect = false)
    (hproceeded : Proceeded (.error error) trace') : Executed active {} (trace ++ trace')
  | proceeded {out result : AgentOutput} {trace trace' : List (Event φ σ)}
    (hform : FormRun active (.ok out) trace) (hdirect : out.returnDirect = false)
    (hproceeded : Proceeded (.ok result) trace') : Executed active result (trace ++ trace')

theorem execute_ends (cat : Cat φ σ) : (ProceduresAgent.execute plugins parser).Ends cat
    (fun r _ t => ∃ output, r = .ok output ∧ Executed cat.activeForm output t) := by
  apply Traced.ends_bind
  apply (form_agent_ends plugins cat).mono
  intro r cat' trace hform
  obtain ⟨out, rfl⟩ := hform.answers
  dsimp only
  split
  · rename_i hdirect
    apply Traced.ends_pure
    rw [List.append_nil]
    exact ⟨out, rfl, .answered hform hdirect⟩
  · rename_i hdirect
    rw [Bool.not_eq_true] at hdirect
    apply Traced.ends_bind
    apply Traced.ends_get
    dsimp only
    split
    · exact Traced.ends_pure ⟨{}, rfl, .failed hform hdirect (.failed "")⟩
    · apply Traced.ends_try
      apply Traced.ends_bind
      apply (procedures_end plugins parser cat').mono
      intro r cat'' trace' hproceeded
      cases r with
      | error error =>
        apply Traced.ends_pure
        rw [List.nil_append, List.append_nil]
        exact ⟨{}, rfl, .failed hform hdirect hproceeded⟩
      | ok result =>
        dsimp only
        split
        · apply Traced.ends_pure
          rw [List.nil_append, List.append_nil]
          exact ⟨result, rfl, .proceeded hform hdirect hproceeded⟩
        · apply Traced.ends_bind
          apply Traced.ends_modify
          apply Traced.ends_pure
          simp only [List.nil_append, List.append_nil]
          exact ⟨result, rfl, .proceeded hform hdirect hproceeded⟩

/-! ### What is reported -/

/-- The tool that is run or the form that is started. -/
def Event.chosen? : Event φ σ → Option (Procedure φ σ)
  | .ran t _ _ => some (.tool t)
  | .started f => some (.form f)
  | .next _ _ | .offered _ _ | .answered _ => none

def Event.offer? : Event φ σ → Option (List (Procedure φ σ) × List Json)
  | .offered procedures names => some (procedures, names)
  | .next _ _ | .ran _ _ _ | .started _ | .answered _ => none

def Event.answer? : Event φ σ → Option LLMAction
  | .answered llmAction => some llmAction
  | .next _ _ | .ran _ _ _ | .started _ | .offered _ _ => none

def Event.continued? : Event φ σ → Option String
  | .next form _ => some form.name
  | .ran _ _ _ | .started _ | .offered _ _ | .answered _ => none

def Event.started? : Event φ σ → Option String
  | .started f => some f.name
  | .next _ _ | .ran _ _ _ | .offered _ _ | .answered _ => none

/-- The procedure that is run, a tool or a form. -/
def Event.run? : Event φ σ → Option String
  | .next form _ => some form.name
  | .ran t _ _ => some t.name
  | .offered _ _ | .answered _ | .started _ => none

/-- The procedure that is run and whose output is taken. -/
def Event.completed? : Event φ σ → Option String
  | .next form output => if isTaken output then some form.name else none
  | .ran t _ output => if isTaken output then some t.name else none
  | .offered _ _ | .answered _ | .started _ => none

/-- At most one tool is run or form started. It is one of the active procedures, whose name is
allowed and is the action of the model. The forms that are continued are the active one and the
one that is started, once each. -/
structure Contained (active : Option (FormInstance φ)) (trace : List (Event φ σ)) : Prop where
  chosen_once : (trace.filterMap Event.chosen?).length ≤ 1
  chosen_allowed : ∀ p ∈ trace.filterMap Event.chosen?, ∃ procedures names llmAction,
    trace.filterMap Event.offer? = [(procedures, names)] ∧
    trace.filterMap Event.answer? = [llmAction] ∧
    p ∈ procedures ∧ .str p.name ∈ names ∧ llmAction.action = .str p.name
  forms_once : (trace.filterMap Event.continued?).Sublist
    (active.toList.map FormInstance.name ++ trace.filterMap Event.started?)

/-- A form's answer names it where there is one, and is returned directly. -/
theorem form_output_reports (form : FormInstance φ) (output : Except String Returned) :
    (formOutput form output).intermediateSteps.map Step.action =
      (if isTaken output then [form.name] else []) ∧
    (formOutput form output).returnDirect = isTaken output := by
  cases output with
  | error error => exact ⟨rfl, rfl⟩
  | ok output => cases output <;> exact ⟨rfl, rfl⟩

theorem tool_answer_reports (action : String) (actionInput : Json) (returnDirect : Bool)
    (output : Except String Returned) :
    (toolAnswer action actionInput returnDirect output).intermediateSteps.map Step.action =
      if isTaken output then [action] else [] := by
  cases output with
  | error error => rfl
  | ok output => cases output <;> rfl

theorem FormRun.reports {active : Option (FormInstance φ)} {out : AgentOutput}
    {trace : List (Event φ σ)} (h : FormRun active (.ok out) trace) :
    out.intermediateSteps.map Step.action = trace.filterMap Event.completed? := by
  cases h with
  | idle => rfl
  | continued hactive output =>
    rw [(form_output_reports _ output).1]
    cases htaken : isTaken output <;> simp [Event.completed?, htaken]

theorem FormRun.indirect {active : Option (FormInstance φ)} {out : AgentOutput}
    {trace : List (Event φ σ)} (h : FormRun active (.ok out) trace) (hdirect : out.returnDirect = false) :
    trace.filterMap Event.completed? = [] := by
  rw [← h.reports]
  cases h with
  | idle => rfl
  | continued hactive output =>
    rw [(form_output_reports _ output).2] at hdirect
    rw [(form_output_reports _ output).1, hdirect]
    rfl

theorem Routed.reports {llmAction : LLMAction} {procedures : List (Procedure φ σ)} {names : List Json}
    {out : AgentOutput} {trace : List (Event φ σ)}
    (h : Routed llmAction (prepareAllowedProcedures procedures names) (.ok out) trace) :
    out.intermediateSteps.map Step.action = trace.filterMap Event.completed? := by
  cases h with
  | nothing => rfl
  | ran haction hget output =>
    rw [tool_answer_reports, (get_allowed hget).2.2]
    cases htaken : isTaken output <;> simp [Event.completed?, htaken, Procedure.name]
  | failed haction hget => rfl
  | started haction hget self hrun => exact hrun.reports

theorem Proceeded.reports {out : AgentOutput} {trace : List (Event φ σ)}
    (h : Proceeded (.ok out) trace) :
    out.intermediateSteps.map Step.action = trace.filterMap Event.completed? := by
  cases h with
  | routed hrouted => exact hrouted.reports

theorem Proceeded.raised {error : String} {trace : List (Event φ σ)}
    (h : Proceeded (.error error) trace) : trace.filterMap Event.completed? = [] := by
  cases h with
  | failed error => rfl
  | unanswered error procedures names => rfl
  | routed hrouted =>
    cases hrouted with
    | unhashable error => rfl
    | started haction hget self hrun =>
      obtain ⟨out, hout⟩ := hrun.answers
      cases hout

theorem Executed.reports {active : Option (FormInstance φ)} {out : AgentOutput}
    {trace : List (Event φ σ)} (h : Executed active out trace) :
    out.intermediateSteps.map Step.action = trace.filterMap Event.completed? := by
  cases h with
  | answered hform hdirect => exact hform.reports
  | failed hform hdirect hproceeded =>
    rw [List.filterMap_append, hform.indirect hdirect, hproceeded.raised]
    rfl
  | proceeded hform hdirect hproceeded =>
    rw [List.filterMap_append, hform.indirect hdirect, List.nil_append]
    exact hproceeded.reports

theorem FormRun.continues {active : Option (FormInstance φ)} {r : Except String AgentOutput}
    {trace : List (Event φ σ)} (h : FormRun active r trace) :
    (trace.filterMap Event.continued?).Sublist (active.toList.map FormInstance.name) := by
  cases h with
  | idle => exact List.nil_sublist _
  | continued hactive output =>
    rw [hactive]
    exact List.Sublist.refl _

/-- What follows a form that is continued is contained as it was. -/
theorem Contained.after {active : Option (FormInstance φ)} {r : Except String AgentOutput}
    {trace trace' : List (Event φ σ)} (h : Contained none trace') (hform : FormRun active r trace) :
    Contained active (trace ++ trace') := by
  have hquiet : trace.filterMap Event.chosen? = [] ∧ trace.filterMap Event.offer? = [] ∧
      trace.filterMap Event.answer? = [] ∧ trace.filterMap Event.started? = [] := by
    cases hform with
    | idle => exact ⟨rfl, rfl, rfl, rfl⟩
    | continued hactive output => exact ⟨rfl, rfl, rfl, rfl⟩
  obtain ⟨hchosen, hoffer, hanswer, hstarted⟩ := hquiet
  constructor
  · rw [List.filterMap_append, hchosen]
    exact h.chosen_once
  · rw [List.filterMap_append, List.filterMap_append, List.filterMap_append, hchosen, hoffer, hanswer]
    exact h.chosen_allowed
  · rw [List.filterMap_append, List.filterMap_append, hstarted]
    exact hform.continues.append h.forms_once

theorem contained_nothing : Contained none ([] : List (Event φ σ)) :=
  ⟨Nat.zero_le _, fun _ hp => absurd hp List.not_mem_nil, List.nil_sublist _⟩

/-- A procedure that was found under the action is active and allowed. -/
theorem contained_chosen {procedures : List (Procedure φ σ)} {names : List Json}
    {llmAction : LLMAction} {action : String} {p : Procedure φ σ} {trace : List (Event φ σ)}
    (haction : llmAction.action = .str action)
    (hget : (prepareAllowedProcedures procedures names).get? action = some p)
    (hchosen : trace.filterMap Event.chosen? = [p])
    (hoffer : trace.filterMap Event.offer? = [(procedures, names)])
    (hanswer : trace.filterMap Event.answer? = [llmAction])
    (hforms : (trace.filterMap Event.continued?).Sublist (trace.filterMap Event.started?)) :
    Contained none trace := by
  obtain ⟨hactive, hallowed, hname⟩ := get_allowed hget
  constructor
  · rw [hchosen]
    exact Nat.le_refl 1
  · intro q hq
    rw [hchosen, List.mem_singleton] at hq
    subst hq
    exact ⟨procedures, names, llmAction, hoffer, hanswer, hactive, hallowed, hname ▸ haction⟩
  · exact hforms

theorem Proceeded.contained {r : Except String AgentOutput} {trace : List (Event φ σ)}
    (h : Proceeded r trace) : Contained none trace := by
  have hquiet {trace : List (Event φ σ)} (hchosen : trace.filterMap Event.chosen? = [])
      (hforms : trace.filterMap Event.continued? = []) : Contained none trace := by
    refine ⟨?_, ?_, ?_⟩
    · rw [hchosen]
      exact Nat.zero_le 1
    · rw [hchosen]
      exact fun p hp => absurd hp List.not_mem_nil
    · rw [hforms]
      exact List.nil_sublist _
  cases h with
  | failed error => exact contained_nothing
  | unanswered error procedures names => exact hquiet rfl rfl
  | routed hrouted =>
    cases hrouted with
    | unhashable error => exact hquiet rfl rfl
    | nothing => exact hquiet rfl rfl
    | ran haction hget output =>
      exact contained_chosen haction hget rfl rfl rfl (List.Sublist.refl _)
    | failed haction hget =>
      exact contained_chosen haction hget rfl rfl rfl (List.nil_sublist _)
    | started haction hget self hrun =>
      cases hrun with
      | idle => exact contained_chosen haction hget rfl rfl rfl (List.nil_sublist _)
      | continued hself output =>
        cases hself
        exact contained_chosen haction hget rfl rfl rfl (List.Sublist.refl _)

theorem Executed.contained {active : Option (FormInstance φ)} {out : AgentOutput}
    {trace : List (Event φ σ)} (h : Executed active out trace) : Contained active trace := by
  cases h with
  | answered hform hdirect =>
    have h := contained_nothing.after hform
    rw [List.append_nil] at h
    exact h
  | failed hform hdirect hproceeded => exact hproceeded.contained.after hform
  | proceeded hform hdirect hproceeded => exact hproceeded.contained.after hform

/-- The agent always answers, runs at most one procedure of those it may, and reports exactly what
it ran and what gave an output. -/
theorem procedures_contained (cat : Cat φ σ) : (ProceduresAgent.execute plugins parser).Ends cat
    (fun r _ trace => ∃ output, r = .ok output ∧ Contained cat.activeForm trace ∧
      output.intermediateSteps.map Step.action = trace.filterMap Event.completed?) := by
  apply (execute_ends plugins parser cat).mono
  rintro r cat' trace ⟨output, rfl, hexecuted⟩
  exact ⟨output, rfl, hexecuted.contained, hexecuted.reports⟩

/-! ### A form that raises -/

/-- What a tool returns is a text, whatever the forms do. -/
def Event.toolGivesText : Event φ σ → Bool
  | .ran _ _ (.ok (.text _)) => true
  | .ran _ _ (.ok .none) | .ran _ _ (.ok .other) | .ran _ _ (.error _) => false
  | .next _ _ | .offered _ _ | .answered _ | .started _ => true

def pizzaForm : FormClass Unit Unit where
  name := "pizza"
  description := some "Order a pizza"
  startExamples := some ["I want a pizza"]
  init := pure ()

def pizzaAction : Fields := [("action", .str "pizza"), ("action_input", .null)]

/-- The model chooses the form, whose first dialogue step raises. -/
def pizzaPlugins : Plugins Unit Unit where
  procedures _ := [.form pizzaForm]
  agentPromptInstructions _ := pure "\x7btools\x7d".toList
  agentAllowedTools := pure
  randomChoice examples := pure (examples.headD "")
  setOrder := id
  llm _ _ := pure (plainNumbers.dumps (.obj pizzaAction))
  formState _ _ := .incomplete
  next _ := throw "TimeoutError"

def pizzaCat : Cat Unit Unit where
  proceduralMemories := [[("type", .str "form"), ("trigger_type", .str "start_example"),
    ("source", .str "pizza")]]
  rest := ()

/-- The form was started and run, and no step names it. -/
theorem raising_form_unreported :
    ((ProceduresAgent.execute pizzaPlugins (.strict plainNumbers)).run pizzaCat).trace.filterMap
      Event.run? = ["pizza"] ∧
    ((ProceduresAgent.execute pizzaPlugins (.strict plainNumbers)).run pizzaCat).result.toOption =
      some {} ∧
    ¬ ∀ (plugins : Plugins Unit Unit) (parser : JsonOutputParser plainNumbers) (cat : Cat Unit Unit),
      (ProceduresAgent.execute plugins parser).Ends cat (fun r _ trace =>
        (∀ e ∈ trace, e.toolGivesText = true) → ∃ output, r = .ok output ∧
          Contained cat.activeForm trace ∧
          output.intermediateSteps.map Step.action = trace.filterMap Event.run?) := by
  have hrun : ((ProceduresAgent.execute pizzaPlugins (.strict plainNumbers)).run pizzaCat).trace.filterMap
      Event.run? = ["pizza"] := by
    decide +kernel
  have hresult : ((ProceduresAgent.execute pizzaPlugins (.strict plainNumbers)).run
      pizzaCat).result.toOption = some {} := by
    decide +kernel
  have htools : ((ProceduresAgent.execute pizzaPlugins (.strict plainNumbers)).run pizzaCat).trace.all
      Event.toolGivesText = true := by
    decide +kernel
  refine ⟨hrun, hresult, fun hall => ?_⟩
  have hpizza := Traced.ends_run.mp (hall pizzaPlugins (.strict plainNumbers) pizzaCat)
  generalize (ProceduresAgent.execute pizzaPlugins (.strict plainNumbers)).run pizzaCat = ran at *
  obtain ⟨output, houtput, hcontained, hsteps⟩ := hpizza (List.all_eq_true.mp htools)
  rw [houtput] at hresult
  cases hresult
  rw [hrun] at hsteps
  cases hsteps

end CheshireCat.Agents
