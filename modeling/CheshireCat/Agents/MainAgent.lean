import CheshireCat.Agents.Leaves
import CheshireCat.Agents.MemoryAgent

namespace CheshireCat.Agents
open Base Json Utils Documents Markup Session.History

/-! ### MainAgent -/

/-- The variables of the prompts, the output of the tools apart. -/
structure AgentInput (V : Type) where
  fields : Dict (List Char) V
  toolsOutput : String

/-- What a hook gives for `agent_fast_reply`: an output, or a dictionary with one and what pydantic
makes of it, or anything else. -/
inductive AgentFastReply where
  | agentOutput (out : AgentOutput)
  | dict (validated : Except String AgentOutput)
  | other

structure MainPlugins (φ δ V σ : Type) where
  procedures : Plugins φ (MainMemory δ V σ)
  models : Models φ δ V σ
  elapsed : Elapsed
  str : Json → List Char
  beforeAgentStarts : AgentInput V → PluginCode φ (MainMemory δ V σ) (AgentInput V)
  agentFastReply : PluginCode φ (MainMemory δ V σ) AgentFastReply
  agentPromptPrefix : List Char → PluginCode φ (MainMemory δ V σ) (List Char)
  agentPromptSuffix : List Char → PluginCode φ (MainMemory δ V σ) (List Char)

variable {φ δ V σ : Type} (plugins : MainPlugins φ δ V σ) {numbers : NumberTexts}
  (parser : JsonOutputParser numbers)

def formatAgentInput (cat : MainCat φ δ V σ) : Except String (AgentInput V) := do
  let episodic ← agentPromptEpisodicMemories plugins.elapsed cat.rest.episodicMemories
  let declarative ← agentPromptDeclarativeMemories plugins.str cat.rest.declarativeMemories
  let chatHistory := cat.rest.workingMemory.stringifyChatHistory
  match cat.rest.workingMemory.userMessageJson with
  | none => .error "AttributeError"
  | some message => .ok {
      fields := .ofList [("episodic_memory".toList, plugins.models.text (some (String.ofList episodic))),
        ("declarative_memory".toList, plugins.models.text (some (String.ofList declarative))),
        ("input".toList, plugins.models.text message.text),
        ("chat_history".toList, plugins.models.text (some chatHistory))]
      toolsOutput := "" }

def setAgentInput (input : AgentInput V) (cat : MainCat φ δ V σ) : MainCat φ δ V σ :=
  { cat with toolsOutput := input.toolsOutput, rest := { cat.rest with agentInput := input.fields } }

/-- What follows where no hook replied. -/
def MainAgent.runAgents : MainTraced φ δ V σ AgentOutput := do
  let promptPrefix ← Traced.call (plugins.agentPromptPrefix mainPromptPrefix.toList)
  let promptSuffix ← Traced.call (plugins.agentPromptSuffix mainPromptSuffix.toList)
  let cat ← get
  Traced.note (.begun cat.activeForm)
  let proceduresAgentOut ←
    Traced.relabel .procedure (ProceduresAgent.execute plugins.procedures parser)
  if proceduresAgentOut.returnDirect then pure proceduresAgentOut
  else do
    let memoryAgentOut ← MemoryAgent.execute plugins.models promptPrefix promptSuffix
    pure { memoryAgentOut with
      intermediateSteps := memoryAgentOut.intermediateSteps ++ proceduresAgentOut.intermediateSteps }

/-- `MainAgent.execute` -/
def MainAgent.execute : MainTraced φ δ V σ AgentOutput := do
  let cat ← get
  let agentInput ← Traced.lift (formatAgentInput plugins cat)
  let agentInput ← Traced.call (plugins.beforeAgentStarts agentInput)
  modify (setAgentInput agentInput)
  match ← Traced.call plugins.agentFastReply with
  | .agentOutput out => pure out
  | .dict validated => Traced.lift validated
  | .other => MainAgent.runAgents plugins parser

/-! ### What is reported -/

/-- The hook gives the output for a reply. -/
def FastReplies (out : AgentOutput) : Prop :=
  ∃ cat, (plugins.agentFastReply.run.run cat).1 = .ok (.agentOutput out) ∨
    (plugins.agentFastReply.run.run cat).1 = .ok (.dict (.ok out))

/-- The procedures are contained as those of their agent are, with the form that was active when it
began, the model is asked for an answer at most once and after them, and the output has their steps. It
is asked exactly where nothing was to be returned directly. -/
def Reports (r : Except String AgentOutput) (trace : List (MainEvent φ (MainMemory δ V σ))) : Prop :=
  ∃ (active : Option (FormInstance φ)) (procedures : List (Event φ (MainMemory δ V σ)))
    (asked : List (List Char × List BaseMessage)),
    trace = .begun active :: (procedures.map .procedure ++ asked.map (fun p => .asked p.1 p.2)) ∧
    Contained active procedures ∧ asked.length ≤ 1 ∧
    ∀ out, r = .ok out → out.intermediateSteps.map Step.action = procedures.filterMap Event.completed? ∧
      (asked = [] ↔ out.returnDirect = true)

/-- The memory agent asks once, or raises before it does. -/
theorem memory_agent_ends (models : Models φ δ V σ) (promptPrefix promptSuffix : List Char)
    (cat : MainCat φ δ V σ) :
    (MemoryAgent.execute models promptPrefix promptSuffix).Ends cat (fun r _ t =>
      (∃ error, r = .error error ∧ t = []) ∨
      ∃ (prompt : List Char) (history : List BaseMessage), t = [.asked prompt history] ∧
        ∀ out, r = .ok out → out.intermediateSteps = [] ∧ out.returnDirect = false) := by
  apply Traced.ends_bind
  apply (memory_prompt_silent models promptPrefix promptSuffix cat).mono
  rintro r cat' t rfl
  cases r with
  | error error => exact Or.inl ⟨error, rfl, rfl⟩
  | ok prompt =>
    apply Traced.ends_bind
    apply Traced.ends_note
    apply Traced.ends_bind
    apply Traced.ends_call
    intro output cat''
    cases output with
    | error error => exact Or.inr ⟨prompt.1, prompt.2, rfl, nofun⟩
    | ok output =>
      refine Or.inr ⟨prompt.1, prompt.2, rfl, ?_⟩
      intro out hout
      cases hout
      exact ⟨rfl, rfl⟩

theorem run_agents_report (cat : MainCat φ δ V σ) :
    (MainAgent.runAgents plugins parser).Ends cat (fun r _ trace =>
      (∃ error, r = .error error ∧ trace = []) ∨ Reports r trace) := by
  apply Traced.ends_bind
  apply Traced.ends_call
  intro promptPrefix cat
  cases promptPrefix with
  | error error => exact Or.inl ⟨error, rfl, rfl⟩
  | ok promptPrefix =>
    apply Traced.ends_bind
    apply Traced.ends_call
    intro promptSuffix cat
    cases promptSuffix with
    | error error => exact Or.inl ⟨error, rfl, rfl⟩
    | ok promptSuffix =>
      apply Traced.ends_bind
      apply Traced.ends_get
      apply Traced.ends_bind
      apply Traced.ends_note
      apply Traced.ends_bind
      apply Traced.ends_relabel
      apply (procedures_contained plugins.procedures parser cat).mono
      rintro r cat' procedures ⟨out, rfl, hcontained, hsteps⟩
      dsimp only
      split
      · rename_i hdirect
        apply Traced.ends_pure
        refine Or.inr ⟨cat.activeForm, procedures, [], by simp, hcontained, Nat.zero_le 1, ?_⟩
        intro out' hout
        cases hout
        exact ⟨hsteps, iff_of_true rfl hdirect⟩
      · apply Traced.ends_bind
        apply (memory_agent_ends plugins.models promptPrefix promptSuffix cat').mono
        rintro r cat'' t (⟨error, rfl, rfl⟩ | ⟨prompt, history, rfl, hout⟩)
        · exact Or.inr ⟨cat.activeForm, procedures, [], by simp, hcontained, Nat.zero_le 1, nofun⟩
        · cases r with
          | error error =>
            exact Or.inr ⟨cat.activeForm, procedures, [(prompt, history)], by simp, hcontained, le_rfl, nofun⟩
          | ok answer =>
            obtain ⟨hnone, hindirect⟩ := hout answer rfl
            apply Traced.ends_pure
            refine Or.inr ⟨cat.activeForm, procedures, [(prompt, history)], by simp, hcontained, le_rfl, ?_⟩
            intro out' hout'
            cases hout'
            rw [hnone, List.nil_append]
            exact ⟨hsteps, iff_of_false (List.cons_ne_nil _ _) (by simp [hindirect])⟩

/-- The main agent gives a hook's reply and does nothing else, or runs the agents. Then it runs at
most one procedure of those it may, asks the model exactly where that does not return directly, and
reports exactly what was run and gave an output. -/
theorem main_agent_reports (cat : MainCat φ δ V σ) :
    (MainAgent.execute plugins parser).Ends cat (fun r _ trace =>
      (∃ error, r = .error error ∧ trace = []) ∨
      (∃ out, r = .ok out ∧ trace = [] ∧ FastReplies plugins out) ∨ Reports r trace) := by
  apply Traced.ends_bind
  apply Traced.ends_get
  apply Traced.ends_bind
  apply Traced.ends_lift
  cases formatAgentInput plugins cat with
  | error error => exact Or.inl ⟨error, rfl, rfl⟩
  | ok agentInput =>
    apply Traced.ends_bind
    apply Traced.ends_call
    intro agentInput cat
    cases agentInput with
    | error error => exact Or.inl ⟨error, rfl, rfl⟩
    | ok agentInput =>
      apply Traced.ends_bind
      apply Traced.ends_modify
      apply Traced.ends_bind
      apply Traced.ends_call_run
      cases hreply : (plugins.agentFastReply.run.run (setAgentInput agentInput cat)).1 with
      | error error => exact Or.inl ⟨error, rfl, rfl⟩
      | ok reply =>
        cases reply with
        | agentOutput out => exact Or.inr (Or.inl ⟨out, rfl, rfl, _, Or.inl hreply⟩)
        | dict validated =>
          cases validated with
          | error error => exact Or.inl ⟨error, rfl, rfl⟩
          | ok out => exact Or.inr (Or.inl ⟨out, rfl, rfl, _, Or.inr hreply⟩)
        | other =>
          apply (run_agents_report plugins parser _).mono
          rintro r cat' trace (herror | hreports)
          · exact Or.inl herror
          · exact Or.inr (Or.inr hreports)

/-! ### What the model is asked -/

def inputs (cat : MainCat φ δ V σ) : String × Dict (List Char) V := (cat.toolsOutput, cat.rest.agentInput)

/-- How the interpreter goes through a set and writes a text, or none. -/
structure Models.Formats (models : Models φ δ V σ) : Prop where
  orders : models.Orders
  text : ∀ s, models.values.format (models.text (some s)) [] = some s.toList
  none : models.values.format (models.text none) [] = some "None".toList
  letters : ∀ c, c.isAlpha = true → models.values.isDecimal c = false

def inputNames : List (List Char) :=
  ["episodic_memory".toList, "declarative_memory".toList, "input".toList, "chat_history".toList,
    "tools_output".toList]

/-- The plugins leave the agent input and the suffix to the core, and what they give for a prefix has
no other placeholders than the variables of the input. -/
structure MainPlugins.Quiet (plugins : MainPlugins φ δ V σ) : Prop where
  procedures : plugins.procedures.Leave inputs
  starts : ∀ input cat input', ((plugins.beforeAgentStarts input).run.run cat).1 = .ok input' →
    input' = input
  reply : Spares inputs plugins.agentFastReply
  sparesPrefix : ∀ text, Spares inputs (plugins.agentPromptPrefix text)
  sparesSuffix : ∀ text, Spares inputs (plugins.agentPromptSuffix text)
  suffix : ∀ cat text, ((plugins.agentPromptSuffix mainPromptSuffix.toList).run.run cat).1 = .ok text →
    text = mainPromptSuffix.toList
  placeholders : ∀ cat text parts,
    ((plugins.agentPromptPrefix mainPromptPrefix.toList).run.run cat).1 = .ok text →
      parse text = some parts → ∀ field, .field field ∈ parts →
        field = plain field.name ∧ field.name ∈ inputNames

def noneText (text : Option String) : List Char := (text.getD "None").toList

/-- The texts of the variables. -/
def inputTexts (episodic declarative tools : List Char) (workingMemory : WorkingMemory δ)
    (message : Content) (n : List Char) : List Char :=
  if n = "episodic_memory".toList then episodic
  else if n = "declarative_memory".toList then declarative
  else if n = "input".toList then noneText message.text
  else if n = "chat_history".toList then workingMemory.stringifyChatHistory.toList
  else tools

def toolsBlock (steps : List Step) : List Char := if steps = [] then [] else (toolsOutput steps).toList

variable {plugins} {parser}

theorem noneText_format {models : Models φ δ V σ} (h : models.Formats) (text : Option String) :
    models.values.format (models.text text) [] = some (noneText text) := by
  cases text with
  | none => exact h.none
  | some s => exact h.text s

theorem input_name_simple {models : Models φ δ V σ} (h : models.Formats) {n : List Char}
    (hn : n ∈ inputNames) : models.values.Simple n := by
  have hfirst : ∀ n ∈ inputNames, n ≠ [] ∧ '.' ∉ n ∧ '[' ∉ n ∧ ∃ c ∈ n, c.isAlpha = true := by decide
  obtain ⟨hne, hdot, hbracket, c, hc, halpha⟩ := hfirst n hn
  refine ⟨hne, hdot, hbracket, ?_⟩
  rw [List.all_eq_false]
  exact ⟨c, hc, by simp [h.letters c halpha]⟩

/-- The blocks and the message that an input was made of. -/
structure Formatted (plugins : MainPlugins φ δ V σ) (cat : MainCat φ δ V σ) (episodic declarative : List Char)
    (message : Content) : Prop where
  episodic : agentPromptEpisodicMemories plugins.elapsed cat.rest.episodicMemories = .ok episodic
  declarative : agentPromptDeclarativeMemories plugins.str cat.rest.declarativeMemories = .ok declarative
  message : cat.rest.workingMemory.userMessageJson = some message

theorem format_input_iff {cat : MainCat φ δ V σ} {input : AgentInput V} :
    formatAgentInput plugins cat = .ok input ↔ ∃ episodic declarative message,
      Formatted plugins cat episodic declarative message ∧ input = {
        fields := .ofList [("episodic_memory".toList, plugins.models.text (some (String.ofList episodic))),
          ("declarative_memory".toList, plugins.models.text (some (String.ofList declarative))),
          ("input".toList, plugins.models.text message.text),
          ("chat_history".toList, plugins.models.text (some cat.rest.workingMemory.stringifyChatHistory))]
        toolsOutput := "" } := by
  unfold formatAgentInput
  constructor
  · intro h
    cases hepisodic : agentPromptEpisodicMemories plugins.elapsed cat.rest.episodicMemories with
    | error error =>
      rw [hepisodic] at h
      cases h
    | ok episodic =>
      cases hdeclarative : agentPromptDeclarativeMemories plugins.str cat.rest.declarativeMemories with
      | error error =>
        rw [hepisodic, hdeclarative] at h
        cases h
      | ok declarative =>
        cases hmessage : cat.rest.workingMemory.userMessageJson with
        | none =>
          rw [hepisodic, hdeclarative] at h
          simp only [hmessage] at h
          cases h
        | some message =>
          rw [hepisodic, hdeclarative] at h
          simp only [hmessage] at h
          cases h
          exact ⟨episodic, declarative, message, ⟨hepisodic, hdeclarative, hmessage⟩, rfl⟩
  · rintro ⟨episodic, declarative, message, h, rfl⟩
    rw [h.episodic, h.declarative]
    simp only [h.message]
    rfl

/-- The variables of an input are read as the texts of its blocks. -/
theorem input_reads (h : plugins.models.Formats) {cat : MainCat φ δ V σ} {episodic declarative : List Char}
    {message : Content} {workingMemory : WorkingMemory δ} (hfields : cat.rest.agentInput =
      .ofList [("episodic_memory".toList, plugins.models.text (some (String.ofList episodic))),
        ("declarative_memory".toList, plugins.models.text (some (String.ofList declarative))),
        ("input".toList, plugins.models.text message.text),
        ("chat_history".toList, plugins.models.text (some workingMemory.stringifyChatHistory))])
    {n : List Char} (hn : n ∈ inputNames) :
    ∃ v, (modelDump plugins.models cat).get? n = some v ∧ plugins.models.values.format v [] =
      some (inputTexts episodic declarative cat.toolsOutput.toList workingMemory message n) := by
  have hget {n : List Char} {v : V} (hne : n ≠ "tools_output".toList)
      (hmem : (n, v) ∈ [("episodic_memory".toList, plugins.models.text (some (String.ofList episodic))),
        ("declarative_memory".toList, plugins.models.text (some (String.ofList declarative))),
        ("input".toList, plugins.models.text message.text),
        ("chat_history".toList, plugins.models.text (some workingMemory.stringifyChatHistory))]) :
      (modelDump plugins.models cat).get? n = some v := by
    rw [modelDump, hfields, Dict.get?_set_other _ _ hne]
    exact Dict.get?_ofList (by simp only [List.map_cons, List.map_nil]; decide) hmem
  simp only [inputNames, List.mem_cons, List.not_mem_nil, or_false] at hn
  rcases hn with rfl | rfl | rfl | rfl | rfl
  · refine ⟨plugins.models.text (some (String.ofList episodic)), hget (by decide) (by simp), ?_⟩
    rw [h.text, inputTexts, if_pos rfl, String.toList_ofList]
  · refine ⟨plugins.models.text (some (String.ofList declarative)), hget (by decide) (by simp), ?_⟩
    rw [h.text, inputTexts, if_neg (by decide), if_pos rfl, String.toList_ofList]
  · refine ⟨plugins.models.text message.text, hget (by decide) (by simp), ?_⟩
    rw [noneText_format h, inputTexts, if_neg (by decide), if_neg (by decide), if_pos rfl]
  · refine ⟨plugins.models.text (some workingMemory.stringifyChatHistory), hget (by decide) (by simp), ?_⟩
    rw [h.text, inputTexts, if_neg (by decide), if_neg (by decide), if_neg (by decide), if_pos rfl]
  · refine ⟨_, Dict.get?_set_self _ _ _, ?_⟩
    rw [h.text, inputTexts, if_neg (by decide), if_neg (by decide), if_neg (by decide), if_neg (by decide)]

/-- The prompt tells what was recalled in the cat and what was run. -/
def Tells (plugins : MainPlugins φ δ V σ) (cat : MainCat φ δ V σ) (steps : List Step) (prompt : List Char) :
    Prop :=
  ∃ episodic declarative message cat' text parts, Formatted plugins cat episodic declarative message ∧
    ((plugins.agentPromptPrefix mainPromptPrefix.toList).run.run cat').1 = .ok text ∧
    parse text = some parts ∧
    prompt = fill (inputTexts episodic declarative (toolsBlock steps) cat.rest.workingMemory message) parts ++
      context episodic declarative (toolsBlock steps)

theorem fields_append_suffix {field : Field} {parts : List Markup.Part}
    (h : .field field ∈ parts ++ suffixParts) : .field field ∈ parts ∨
      (field = plain field.name ∧ field.name ∈ inputNames) := by
  rcases List.mem_append.mp h with h | h
  · exact Or.inl h
  · right
    simp only [suffixParts, spaced, List.mem_append, List.mem_cons, List.mem_map, reduceCtorEq, and_false,
      exists_false, false_or, List.not_mem_nil, or_false, Markup.Part.field.injEq] at h
    rcases h with rfl | rfl | rfl <;> exact ⟨rfl, by decide⟩

/-- After the procedures agent the inputs are those of the formatted input, with the steps. -/
theorem steps_told_inputs {cat cat' : MainCat φ δ V σ} {out : AgentOutput} {fields : Dict (List Char) V}
    (hinputs : inputs cat = ("", fields)) (h : StepsTold inputs cat (.ok out) cat')
    (hindirect : out.returnDirect = false) :
    cat'.rest.agentInput = fields ∧ cat'.toolsOutput.toList = toolsBlock out.intermediateSteps := by
  obtain ⟨cat'', hview, rfl⟩ := h out rfl hindirect
  obtain ⟨htools, hfields⟩ := Prod.mk.inj (hview.trans hinputs)
  unfold storeSteps toolsBlock
  split
  · exact ⟨hfields, by rw [htools]; rfl⟩
  · exact ⟨hfields, rfl⟩

/-- What the memory agent asks when the input is the formatted one, with the steps. -/
theorem memory_agent_tells (hmodels : plugins.models.Formats) {promptPrefix : List Char}
    (hplaceholders : ∀ parts, parse promptPrefix = some parts → ∀ field, .field field ∈ parts →
      field = plain field.name ∧ field.name ∈ inputNames)
    {cat : MainCat φ δ V σ} {episodic declarative : List Char} {message : Content}
    {workingMemory : WorkingMemory δ} {steps : List Step} (hfields : cat.rest.agentInput =
      .ofList [("episodic_memory".toList, plugins.models.text (some (String.ofList episodic))),
        ("declarative_memory".toList, plugins.models.text (some (String.ofList declarative))),
        ("input".toList, plugins.models.text message.text),
        ("chat_history".toList, plugins.models.text (some workingMemory.stringifyChatHistory))])
    (htools : cat.toolsOutput.toList = toolsBlock steps) :
    (MemoryAgent.execute plugins.models promptPrefix mainPromptSuffix.toList).Ends cat (fun r _ t =>
      ∀ prompt history, .asked prompt history ∈ t →
        (∃ parts, parse promptPrefix = some parts ∧ prompt =
          fill (inputTexts episodic declarative (toolsBlock steps) workingMemory message) parts ++
            context episodic declarative (toolsBlock steps)) ∧
        ∀ out, r = .ok out → out.intermediateSteps = []) := by
  have hreads : ∀ parts, parse promptPrefix = some parts →
      plugins.models.values.Reads (modelDump plugins.models cat)
        (inputTexts episodic declarative (toolsBlock steps) workingMemory message)
        (parts ++ suffixParts) := by
    intro parts hparse field hfield
    have hknown := (fields_append_suffix hfield).elim (hplaceholders parts hparse field) id
    rw [← htools]
    exact ⟨hknown.1, input_name_simple hmodels hknown.2, input_reads hmodels hfields hknown.2⟩
  exact memory_agent_asks hmodels.orders cat hreads

theorem run_agents_prompt (hmodels : plugins.models.Formats) (hquiet : plugins.Quiet)
    {cat cat' : MainCat φ δ V σ} {input : AgentInput V} (hinput : formatAgentInput plugins cat = .ok input)
    (hinputs : inputs cat' = (input.toolsOutput, input.fields)) :
    (MainAgent.runAgents plugins parser).Ends cat' (fun r _ trace => ∀ prompt history,
      .asked prompt history ∈ trace → ∃ steps, Tells plugins cat steps prompt ∧
        ∀ out, r = .ok out → out.intermediateSteps = steps) := by
  obtain ⟨episodic, declarative, message, hformatted, rfl⟩ := format_input_iff.mp hinput
  apply Traced.ends_bind
  apply Traced.ends_call_run
  have hprefix := hquiet.sparesPrefix mainPromptPrefix.toList cat'
  have hplaceholders := hquiet.placeholders cat'
  cases hranPrefix : (plugins.agentPromptPrefix mainPromptPrefix.toList).run.run cat' with
  | mk result cat₁ =>
    rw [hranPrefix] at hprefix hplaceholders
    cases result with
    | error error => exact nofun
    | ok promptPrefix =>
      apply Traced.ends_bind
      apply Traced.ends_call_run
      have hsuffix := hquiet.sparesSuffix mainPromptSuffix.toList cat₁
      have hsame := hquiet.suffix cat₁
      cases hranSuffix : (plugins.agentPromptSuffix mainPromptSuffix.toList).run.run cat₁ with
      | mk result cat₂ =>
        rw [hranSuffix] at hsuffix hsame
        cases result with
        | error error => exact nofun
        | ok promptSuffix =>
          obtain rfl := hsame promptSuffix rfl
          have hinputs₂ := (hsuffix.trans hprefix).trans hinputs
          apply Traced.ends_bind
          apply Traced.ends_get
          apply Traced.ends_bind
          apply Traced.ends_note
          apply Traced.ends_bind
          apply Traced.ends_relabel
          apply ((procedures_contained plugins.procedures parser cat₂).and
            (execute_leaves hquiet.procedures cat₂)).mono
          rintro r cat₃ procedures ⟨⟨out, rfl, -, -⟩, htold⟩
          have hasked : ∀ prompt history, .asked prompt history ∉ procedures.map MainEvent.procedure := by
            simp
          have hbegun : ∀ prompt history, ∀ t : List (MainEvent φ (MainMemory δ V σ)),
              .asked prompt history ∈ .begun cat₂.activeForm :: t → .asked prompt history ∈ t := by
            simp
          dsimp only
          split
          · apply Traced.ends_pure
            intro prompt history h
            rw [List.append_nil] at h
            exact absurd (hbegun _ _ _ h) (hasked prompt history)
          · rename_i hindirect
            obtain ⟨hfields, htools⟩ := steps_told_inputs hinputs₂ htold (Bool.eq_false_of_not_eq_true hindirect)
            apply Traced.ends_bind
            apply (memory_agent_tells hmodels (fun parts => hplaceholders promptPrefix parts rfl)
              hfields htools).mono
            intro r cat₄ t hasks
            have htells : ∀ prompt history, .asked prompt history ∈ procedures.map MainEvent.procedure ++ t →
                Tells plugins cat out.intermediateSteps prompt ∧
                  ∀ answer, r = .ok answer → answer.intermediateSteps = [] := by
              intro prompt history h
              obtain ⟨⟨parts, hparse, rfl⟩, hnone⟩ :=
                hasks prompt history ((List.mem_append.mp h).resolve_left (hasked prompt history))
              exact ⟨⟨episodic, declarative, message, cat', promptPrefix, parts, hformatted,
                congrArg Prod.fst hranPrefix, hparse, rfl⟩, hnone⟩
            cases r with
            | error error =>
              intro prompt history h
              exact ⟨_, (htells prompt history (hbegun _ _ _ h)).1, nofun⟩
            | ok answer =>
              apply Traced.ends_pure
              intro prompt history h
              rw [List.append_nil] at h
              obtain ⟨hprompt, hnone⟩ := htells prompt history (hbegun _ _ _ h)
              refine ⟨_, hprompt, ?_⟩
              intro out' hout
              cases hout
              rw [hnone answer rfl, List.nil_append]

/-- Where the plugins leave the agent input alone, the system message that the model is asked with is
the prefix with its placeholders filled, and after it literally what was recalled and what the
procedures that are reported gave. -/
theorem main_prompt (hmodels : plugins.models.Formats) (hquiet : plugins.Quiet) (cat : MainCat φ δ V σ) :
    (MainAgent.execute plugins parser).Ends cat (fun r _ trace => ∀ prompt history,
      .asked prompt history ∈ trace → ∃ steps, Tells plugins cat steps prompt ∧
        ∀ out, r = .ok out → out.intermediateSteps = steps) := by
  apply Traced.ends_bind
  apply Traced.ends_get
  apply Traced.ends_bind
  apply Traced.ends_lift
  cases hinput : formatAgentInput plugins cat with
  | error error => exact nofun
  | ok input =>
    apply Traced.ends_bind
    apply Traced.ends_call_run
    have hstarts := hquiet.starts input cat
    cases hran : (plugins.beforeAgentStarts input).run.run cat with
    | mk result cat₁ =>
      rw [hran] at hstarts
      cases result with
      | error error => exact nofun
      | ok input' =>
        obtain rfl := hstarts input' rfl
        apply Traced.ends_bind
        apply Traced.ends_modify
        apply Traced.ends_bind
        apply Traced.ends_call_run
        have hreply := hquiet.reply (setAgentInput input' cat₁)
        cases hranReply : plugins.agentFastReply.run.run (setAgentInput input' cat₁) with
        | mk result cat₂ =>
          rw [hranReply] at hreply
          cases result with
          | error error => exact nofun
          | ok reply =>
            cases reply with
            | agentOutput out => exact nofun
            | dict validated => exact nofun
            | other =>
              have hinputs : inputs cat₂ = (input'.toolsOutput, input'.fields) := hreply
              exact run_agents_prompt hmodels hquiet hinput hinputs

/-- Texts without specs. -/
def optionalTexts : Values (Option String) where
  isDecimal c := c.isDigit
  attr _ _ := none
  item _ _ := none
  convert _ v := some v
  format v spec := if spec = [] then some (noneText v) else none

/-- A plugin that changes the prefix. -/
def catPlugins : MainPlugins Unit Unit (Option String) Unit where
  procedures := {
    procedures := fun _ => []
    agentPromptInstructions := pure
    agentAllowedTools := pure
    randomChoice := fun examples => pure (examples.headD "")
    setOrder := id
    llm := fun _ _ => pure []
    formState := fun _ _ => .incomplete
    next := fun _ => throw "NotImplementedError" }
  models := {
    values := optionalTexts
    text := id
    setOrder := id
    get := fun _ => throw .requestException
    errorText := fun _ => "RequestException"
    llm := fun _ _ => pure "Meow".toList }
  elapsed _ _ := .ok ⟨120000000⟩
  str _ := []
  beforeAgentStarts := pure
  agentFastReply := pure .other
  agentPromptPrefix _ := pure "You are a cat.".toList
  agentPromptSuffix := pure

theorem letter_no_digit {c : Char} (h : c.isAlpha = true) : ¬ c.isDigit = true := by
  intro hdigit
  obtain ⟨_, hnine⟩ := Char.isDigit_iff_toNat.mp hdigit
  have hletter : 'A'.toNat ≤ c.toNat := by
    rcases (Bool.or_eq_true _ _).mp h with hupper | hlower
    · exact (of_decide_eq_true hupper).1
    · have ha : 'a'.toNat ≤ c.toNat := of_decide_eq_true ((Bool.and_eq_true _ _).mp hlower).1
      exact le_trans (by decide) ha
  exact absurd (le_trans hletter hnine) (by decide)

theorem cat_formats : catPlugins.models.Formats where
  orders _ := .refl _
  text _ := rfl
  none := rfl
  letters c h := by
    by_contra hdigit
    exact letter_no_digit h (Bool.eq_true_of_not_eq_false hdigit)

theorem cat_quiet : catPlugins.Quiet where
  procedures := ⟨fun _ _ => rfl, fun _ => spares_pure _, fun _ => spares_pure _, fun _ => spares_pure _,
    fun _ _ => spares_pure _, fun _ => spares_throw _, nofun, nofun⟩
  starts := by
    intro input cat input' h
    cases h
    rfl
  reply := spares_pure _
  sparesPrefix _ := spares_pure _
  sparesSuffix _ := spares_pure _
  suffix := by
    intro cat text h
    cases h
    rfl
  placeholders := by
    intro cat text parts h hparse field hfield
    have hchars : parse "You are a cat.".toList = some ("You are a cat.".toList.map .char) :=
      parse_bare (by decide)
    obtain rfl : "You are a cat.".toList = text := Except.ok.inj h
    rw [hchars] at hparse
    rw [← Option.some.inj hparse] at hfield
    obtain ⟨c, -, hc⟩ := List.mem_map.mp hfield
    cases hc

/-- A user who said something two minutes ago. -/
def recallingCat : MainCat Unit Unit (Option String) Unit where
  rest := {
    episodicMemories := [⟨"I like \x7bcheese\x7d", [("when", .number (.int 0))]⟩]
    workingMemory := { userMessageJson := some { userId := "123", who := "Human", text := some "Hi" } }
    rest := () }

theorem braces_in_memory : (MainAgent.execute catPlugins (.strict plainNumbers)).Ends recallingCat
    (fun r _ trace => ∀ prompt history, .asked prompt history ∈ trace → ∃ steps,
      Tells catPlugins recallingCat steps prompt ∧ ∀ out, r = .ok out → out.intermediateSteps = steps) :=
  main_prompt cat_formats cat_quiet recallingCat

end CheshireCat.Agents
