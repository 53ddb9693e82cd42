import CheshireCat.Agents.ContextBlocks
import CheshireCat.Session.HistoryViews

namespace CheshireCat.Agents
open Base Json Utils Documents Markup Session.History

/-! ### The cat of the main agent -/

/-- What the main agent and the memory agent read and write of a cat. The output of the tools, a
variable of the `agent_input` too, is that of the cat. -/
structure MainMemory (δ V σ : Type) where
  episodicMemories : List Document := []
  declarativeMemories : List Document := []
  workingMemory : WorkingMemory δ := {}
  agentInput : Dict (List Char) V := .empty
  rest : σ

abbrev MainCat (φ δ V σ : Type) := Cat φ (MainMemory δ V σ)

/-- The procedures agent begins with the form that is active then. -/
inductive MainEvent (φ σ : Type) where
  | begun (active : Option (FormInstance φ))
  | procedure (event : Event φ σ)
  | asked (prompt : List Char) (history : List BaseMessage)

abbrev MainTraced (φ δ V σ : Type) :=
  Traced (MainCat φ δ V σ) (MainEvent φ (MainMemory δ V σ))

/-- What the libraries and the model do when the memory agent calls them. A text, or none, is a
value of the interpreter by `text`. -/
structure Models (φ δ V σ : Type) where
  values : Values V
  text : Option String → V
  setOrder : List (List Char) → List (List Char)
  get : String → Web (MainCat φ δ V σ) Response
  errorText : Error → String
  llm : List Char → List BaseMessage → PluginCode φ (MainMemory δ V σ) (List Char)

variable {φ δ V σ : Type} (models : Models φ δ V σ)

/-! ### MemoryAgent -/

/-- `agent_input.model_dump()` -/
def modelDump (cat : MainCat φ δ V σ) : Dict (List Char) V :=
  cat.rest.agentInput.set "tools_output".toList (models.text (some cat.toolsOutput))

/-- The system message of the invoked template. The placeholders have to be variables. -/
def invokePrompt (promptVariables : Dict (List Char) V) (sysPrompt : List Char) :
    Except String (List Char) :=
  match inputVariables sysPrompt with
  | none => .error "ValueError"
  | some inputs =>
    if ∀ n ∈ inputs, n ∈ promptVariables.keys then
      match models.values.vformat promptVariables 3 sysPrompt with
      | some prompt => .ok prompt
      | none => .error "KeyError"
    else .error "KeyError"

/-- What the servers answer is that of the cat's own run. -/
def ofWeb {α : Type} (web : Web (MainCat φ δ V σ) α) : PluginCode φ (MainMemory δ V σ) α :=
  ExceptT.mk (do
    let result ← web.run
    pure (result.mapError models.errorText))

/-- The prompt of the chain, a system message and the history. -/
def MemoryAgent.prompt (promptPrefix promptSuffix : List Char) :
    MainTraced φ δ V σ (List Char × List BaseMessage) := do
  let cat ← get
  let promptVariables := modelDump models cat
  let sysPrompt := promptPrefix ++ promptSuffix
  let inputs := (inputVariables sysPrompt).getD []
  let mismatches := promptVariables.keys.filter (fun m => m ∉ inputs) ++
    inputs.dedup.filter (fun m => m ∉ promptVariables.keys)
  match matchPromptVariables (models.setOrder mismatches) promptVariables sysPrompt with
  | none => throw "ValueError"
  | some (promptVariables, sysPrompt) =>
    if inputVariables sysPrompt = none then throw "ValueError"
    else do
      let history ← Traced.call (ofWeb models (cat.rest.workingMemory.langchainfyChatHistory models.get))
      let system ← Traced.lift (invokePrompt models promptVariables sysPrompt)
      pure (system, history)

/-- `MemoryAgent.execute` -/
def MemoryAgent.execute (promptPrefix promptSuffix : List Char) : MainTraced φ δ V σ AgentOutput := do
  let prompt ← MemoryAgent.prompt models promptPrefix promptSuffix
  Traced.note (.asked prompt.1 prompt.2)
  let output ← Traced.call (models.llm prompt.1 prompt.2)
  pure { output := some (String.ofList output) }

def mainPromptPrefix : String :=
  "You are the Cheshire Cat AI, an intelligent AI that passes the Turing test.\n" ++
  "You behave like the Cheshire Cat from Alice's adventures in wonderland, and you are helpful.\n" ++
  "You answer Human shortly and with a focus on the following context."

def mainPromptSuffix : String :=
  "\n\n# Context\n\x7bepisodic_memory\x7d\n\n\x7bdeclarative_memory\x7d\n\n\x7btools_output\x7d\n"

/-! ### The system message -/

variable {models} {promptPrefix : List Char}

/-- A set is gone through in some order of its members. -/
def Models.Orders (models : Models φ δ V σ) : Prop := ∀ l, (models.setOrder l).Perm l

theorem Models.Orders.mismatches (h : models.Orders) (promptVariables : Dict (List Char) V)
    (inputs : List (List Char)) :
    Mismatches promptVariables inputs (models.setOrder
      (promptVariables.keys.filter (fun m => m ∉ inputs) ++
        inputs.dedup.filter (fun m => m ∉ promptVariables.keys))) := by
  constructor
  · apply (h _).nodup_iff.mpr
    rw [List.nodup_append]
    refine ⟨promptVariables.distinct.filter _, (List.nodup_dedup inputs).filter _, ?_⟩
    rintro a ha b hb rfl
    rw [List.mem_filter, decide_eq_true_eq] at ha hb
    exact hb.2 ha.1
  · intro m
    simp [(h _).mem_iff]

/-- Nothing is asked before the prompt is there. -/
theorem memory_prompt_silent (models : Models φ δ V σ) (promptPrefix promptSuffix : List Char)
    (cat : MainCat φ δ V σ) :
    (MemoryAgent.prompt models promptPrefix promptSuffix).Ends cat (fun _ _ t => t = []) := by
  apply Traced.ends_bind
  apply Traced.ends_get
  dsimp only
  split
  · exact Traced.ends_throw rfl
  · split
    · exact Traced.ends_throw rfl
    · apply Traced.ends_bind
      apply Traced.ends_call
      intro history cat'
      cases history with
      | error error => rfl
      | ok history =>
        apply Traced.ends_bind
        apply Traced.ends_lift
        split <;> rfl

/-- What the history makes of a prompt: the conversion may fail, and the system message is there
before it. -/
theorem memory_prompt_ends (horder : models.Orders) {promptSuffix : List Char} {parts : List Markup.Part}
    {texts : List Char → List Char} (cat : MainCat φ δ V σ)
    (hparse : parse (promptPrefix ++ promptSuffix) = some parts)
    (hreads : models.values.Reads (modelDump models cat) texts parts) :
    (MemoryAgent.prompt models promptPrefix promptSuffix).Ends cat (fun r cat' t => t = [] ∧
      ∃ result, (ofWeb models (cat.rest.workingMemory.langchainfyChatHistory models.get)).run.run cat =
        (result, cat') ∧ r = result.map (fill texts parts, ·)) := by
  have hinputs : inputVariables (promptPrefix ++ promptSuffix) = some (names parts) := by
    rw [inputVariables, hparse, Option.map_some]
  obtain ⟨promptVariables, sysPrompt, parts', hmatch, hparse', hkeys, htext⟩ :=
    reads_match hparse hreads (horder.mismatches (modelDump models cat) (names parts))
  have hinputs' : inputVariables sysPrompt = some (names parts') := by
    rw [inputVariables, hparse', Option.map_some]
  apply Traced.ends_bind
  apply Traced.ends_get
  simp only [hinputs, Option.getD_some, hmatch, hinputs', reduceCtorEq, if_false]
  apply Traced.ends_bind
  apply Traced.ends_call_run
  cases hhistory : (ofWeb models (cat.rest.workingMemory.langchainfyChatHistory models.get)).run.run cat with
  | mk result cat' =>
    cases result with
    | error error => exact ⟨rfl, _, rfl, rfl⟩
    | ok history =>
      apply Traced.ends_bind
      have hinvoke : invokePrompt models promptVariables sysPrompt = .ok (fill texts parts) := by
        simp only [invokePrompt, hinputs', if_pos hkeys, htext]
      rw [hinvoke]
      apply Traced.ends_lift
      exact Traced.ends_pure ⟨rfl, _, rfl, rfl⟩

/-- Placeholders that are set apart by texts. -/
def spaced (heading separator : List Char) (first second third : List Char) : List Markup.Part :=
  heading.map .char ++ (.field (plain first) :: (separator.map .char ++ (.field (plain second) ::
    (separator.map .char ++ [.field (plain third), .char '\n']))))

def suffixParts : List Markup.Part :=
  spaced "\n\n# Context\n".toList "\n\n".toList "episodic_memory".toList "declarative_memory".toList
    "tools_output".toList

theorem suffix_parts : parse mainPromptSuffix.toList = some suffixParts := by decide +kernel

/-- The context that the suffix of the core gives to the model. -/
def context (episodic declarative tools : List Char) : List Char :=
  "\n\n# Context\n".toList ++ episodic ++ "\n\n".toList ++ declarative ++ "\n\n".toList ++ tools ++ ['\n']

theorem fill_spaced (texts : List Char → List Char) (heading separator first second third : List Char) :
    fill texts (spaced heading separator first second third) =
      heading ++ texts first ++ separator ++ texts second ++ separator ++ texts third ++ ['\n'] := by
  simp only [spaced, fill_append, fill_chars, fill_cons_field, List.append_assoc]
  rfl

theorem fill_suffix (texts : List Char → List Char) :
    fill texts suffixParts = context (texts "episodic_memory".toList) (texts "declarative_memory".toList)
      (texts "tools_output".toList) :=
  fill_spaced texts _ _ _ _ _

/-- The suffix of the core ends no field that it did not begin. -/
theorem suffix_between {s : State} {parts : List Markup.Part}
    (h : Markup.run s mainPromptSuffix.toList = some (.between, parts)) : s = .between := by
  cases s with
  | between => rfl
  | opened => cases h
  | closed => cases h
  | name n bracket =>
    cases bracket with
    | false => cases h
    | true => cases h
  | conversion n => cases h
  | converted n c => cases h
  | spec n c t depth => cases h

/-- With the suffix of the core, a prefix that is no format string makes no template. -/
theorem prefix_unparsable (h : parse promptPrefix = none) :
    parse (promptPrefix ++ mainPromptSuffix.toList) = none := by
  cases hparse : parse (promptPrefix ++ mainPromptSuffix.toList) with
  | none => rfl
  | some parts =>
    rw [parse_iff, Markup.run_append] at hparse
    obtain ⟨⟨s, first⟩, hfirst, hrest⟩ := Option.bind_eq_some_iff.mp hparse
    obtain ⟨⟨e, rest⟩, hsuffix, heq⟩ := Option.map_eq_some_iff.mp hrest
    obtain ⟨rfl, -⟩ := Prod.mk.inj heq
    rw [suffix_between hsuffix, ← parse_iff, h] at hfirst
    cases hfirst

theorem memory_prompt_unparsable {promptSuffix : List Char} (cat : MainCat φ δ V σ)
    (hparse : parse (promptPrefix ++ promptSuffix) = none) :
    (MemoryAgent.prompt models promptPrefix promptSuffix).Ends cat (fun r _ t =>
      r = .error "ValueError" ∧ t = []) := by
  have hinputs : inputVariables (promptPrefix ++ promptSuffix) = none := by
    rw [inputVariables, hparse, Option.map_none]
  have hmatch : ∀ order, matchPromptVariables order (modelDump models cat) (promptPrefix ++ promptSuffix) =
      none := by
    intro order
    rw [matchPromptVariables, hinputs, Option.map_none]
  apply Traced.ends_bind
  apply Traced.ends_get
  simp only [hmatch]
  exact Traced.ends_throw ⟨rfl, rfl⟩

/-- With the suffix of the core the model is asked with the prefix, the placeholders of which are
filled, and the context. A prefix that is no format string is never asked with. -/
theorem memory_agent_asks (horder : models.Orders) {texts : List Char → List Char} (cat : MainCat φ δ V σ)
    (hreads : ∀ parts, parse promptPrefix = some parts →
      models.values.Reads (modelDump models cat) texts (parts ++ suffixParts)) :
    (MemoryAgent.execute models promptPrefix mainPromptSuffix.toList).Ends cat (fun r _ t =>
      ∀ prompt history, .asked prompt history ∈ t →
        (∃ parts, parse promptPrefix = some parts ∧ prompt = fill texts parts ++
          context (texts "episodic_memory".toList) (texts "declarative_memory".toList)
            (texts "tools_output".toList)) ∧
        ∀ out, r = .ok out → out.intermediateSteps = []) := by
  apply Traced.ends_bind
  cases hparse : parse promptPrefix with
  | none =>
    apply (memory_prompt_unparsable cat (prefix_unparsable hparse)).mono
    rintro r cat' t ⟨rfl, rfl⟩
    exact nofun
  | some parts =>
    apply (memory_prompt_ends horder cat (parse_append hparse suffix_parts) (hreads parts hparse)).mono
    rintro r cat' t ⟨rfl, result, _, rfl⟩
    cases result with
    | error error => exact nofun
    | ok history =>
      have hfill : fill texts (parts ++ suffixParts) = fill texts parts ++
          context (texts "episodic_memory".toList) (texts "declarative_memory".toList)
            (texts "tools_output".toList) := by
        rw [fill_append, fill_suffix]
      apply Traced.ends_bind
      apply Traced.ends_note
      apply Traced.ends_bind
      apply Traced.ends_call
      intro output cat''
      cases output with
      | error error =>
        intro prompt history' hasked
        cases List.mem_singleton.mp hasked
        exact ⟨⟨parts, rfl, hfill⟩, nofun⟩
      | ok output =>
        intro prompt history' hasked
        cases List.mem_singleton.mp hasked
        refine ⟨⟨parts, rfl, hfill⟩, ?_⟩
        intro out hout
        cases hout
        rfl

end CheshireCat.Agents
