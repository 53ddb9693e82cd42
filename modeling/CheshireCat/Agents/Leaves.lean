import CheshireCat.Agents.ProceduresAgent

/-! What the agents leave of a cat, where the plugins do. -/

namespace CheshireCat.Agents
open Base Json Utils

variable {φ σ : Type}

/-- The plugins leave a part of the cat, which the active form does not belong to. -/
structure Plugins.Leave {τ : Type} (plugins : Plugins φ σ) (view : Cat φ σ → τ) : Prop where
  active : ∀ cat form, view { cat with activeForm := form } = view cat
  instructions : ∀ prompt, Spares view (plugins.agentPromptInstructions prompt)
  allowed : ∀ names, Spares view (plugins.agentAllowedTools names)
  choice : ∀ examples, Spares view (plugins.randomChoice examples)
  llm : ∀ template promptVariables, Spares view (plugins.llm template promptVariables)
  next : ∀ form, Spares view (plugins.next form)
  tools : ∀ cat t, .tool t ∈ plugins.procedures cat → ∀ input, Spares view (t.run input)
  forms : ∀ cat f, .form f ∈ plugins.procedures cat → Spares view f.init

variable {τ : Type} {view : Cat φ σ → τ} {plugins : Plugins φ σ} {numbers : NumberTexts}
  {parser : JsonOutputParser numbers}

theorem form_agent_leaves (h : plugins.Leave view) (cat : Cat φ σ) :
    (FormAgent.execute plugins).Ends cat (fun _ s _ => view s = view cat) := by
  apply Traced.ends_bind
  apply Traced.ends_get
  dsimp only
  cases cat.activeForm with
  | none => exact Traced.ends_pure rfl
  | some form =>
    dsimp only
    split
    · apply Traced.ends_bind
      apply Traced.ends_modify
      exact Traced.ends_pure (h.active cat none)
    · apply Traced.spares_try
      · apply Traced.spares_bind
        · intro s
          apply Traced.ends_observe
          apply Traced.ends_call_spares
          apply spares_bind (h.next form)
          intro output
          split
          · exact spares_pure _
          · exact spares_throw _
        · intro output s
          exact Traced.ends_lift rfl
      · intro error s
        exact Traced.ends_pure rfl

theorem description_leaves (p : Procedure φ σ) : Spares view (description p) := by
  cases p with
  | tool t => exact spares_pure _
  | form f =>
    unfold description
    dsimp only
    split
    · exact spares_pure _
    · exact spares_throw _

theorem start_examples_leaves (p : Procedure φ σ) : Spares view (startExamples p) := by
  cases p with
  | tool t => exact spares_pure _
  | form f =>
    unfold startExamples
    dsimp only
    split
    · exact spares_pure _
    · exact spares_throw _

theorem execute_chain_leaves (h : plugins.Leave view) (template : List Char)
    (allowedProcedures : Dict String (Procedure φ σ)) :
    Spares view (executeChain plugins template allowedProcedures) := by
  apply spares_bind
  · apply spares_mapM
    intro p
    exact spares_bind (description_leaves p) (fun _ => spares_pure _)
  · intro tools
    apply spares_bind
    · apply spares_foldlM
      intro listExamples p
      apply spares_bind (start_examples_leaves p)
      intro examples
      dsimp only
      split
      · exact spares_pure _
      · exact spares_bind (h.choice examples) (fun _ => spares_pure _)
    · intro examples
      dsimp only
      split
      · exact h.llm _ _
      · exact spares_throw _

theorem run_chosen_leaves (h : plugins.Leave view) {cat : Cat φ σ} (action : String) (actionInput : Json)
    {found : Option (Procedure φ σ)} (hfound : ∀ p ∈ found, p ∈ plugins.procedures cat) (s : Cat φ σ) :
    (runChosen plugins action actionInput found).Ends s (fun _ s' _ => view s' = view s) := by
  cases found with
  | none => exact Traced.ends_pure rfl
  | some p =>
    have hp := hfound p rfl
    cases p with
    | tool t =>
      apply Traced.spares_bind
      · intro s
        apply Traced.ends_observe
        exact Traced.ends_call_spares (h.tools cat t hp actionInput) s
      · intro output s
        exact Traced.ends_lift rfl
    | form f =>
      apply Traced.spares_bind
      · intro s
        exact Traced.ends_note rfl
      · intro _
        apply Traced.spares_bind
        · exact Traced.ends_call_spares (h.forms cat f hp)
        · intro self
          apply Traced.spares_bind
          · intro s
            exact Traced.ends_modify (h.active s _)
          · intro _
            exact form_agent_leaves h

theorem subagents_leave (h : plugins.Leave view) {cat : Cat φ σ} (llmAction : LLMAction) (names : List Json)
    (s : Cat φ σ) : (executeSubagents plugins llmAction
      (prepareAllowedProcedures (plugins.procedures cat) names)).Ends s
        (fun _ s' _ => view s' = view s) := by
  unfold executeSubagents
  split
  · apply Traced.spares_bind
    · intro s
      exact Traced.ends_lift rfl
    · intro action s
      cases action with
      | none => exact Traced.ends_pure rfl
      | some action =>
        apply Traced.spares_try
        · apply run_chosen_leaves h
          intro p hp
          exact (get_allowed hp).1
        · intro error s
          exact Traced.ends_pure rfl
  · exact Traced.ends_pure rfl

theorem execute_procedures_leaves (h : plugins.Leave view) (s : Cat φ σ) :
    (executeProcedures plugins parser).Ends s (fun _ s' _ => view s' = view s) := by
  apply Traced.spares_bind
  · exact Traced.ends_call_spares (h.instructions _)
  · intro template s
    apply Traced.ends_bind
    apply Traced.ends_get
    dsimp only
    apply Traced.spares_bind
    · intro s
      exact Traced.ends_lift rfl
    · intro recalled
      apply Traced.spares_bind
      · exact Traced.ends_call_spares (h.allowed recalled)
      · intro names s
        apply Traced.ends_bind
        apply Traced.ends_get
        dsimp only
        apply Traced.spares_bind
        · intro s
          exact Traced.ends_note rfl
        · intro _
          apply Traced.spares_bind
          · exact Traced.ends_call_spares (execute_chain_leaves h template _)
          · intro llmOutput
            apply Traced.spares_bind
            · intro s
              exact Traced.ends_note rfl
            · intro _
              exact subagents_leave h _ names

/-- Where nothing is returned directly, the steps are told in the output of the tools and the view is
as it was. -/
def StepsTold (view : Cat φ σ → τ) (cat : Cat φ σ) (r : Except String AgentOutput) (s : Cat φ σ) : Prop :=
  ∀ out, r = .ok out → out.returnDirect = false →
    ∃ cat', view cat' = view cat ∧ s = storeSteps out.intermediateSteps cat'

theorem steps_told_nothing {cat s : Cat φ σ} (hs : view s = view cat) : StepsTold view cat (.ok {}) s := by
  rintro out hout _
  cases hout
  exact ⟨s, hs, rfl⟩

theorem steps_told_direct {cat s : Cat φ σ} {out : AgentOutput} (hdirect : out.returnDirect = true) :
    StepsTold view cat (.ok out) s := by
  intro out' hout hindirect
  cases hout
  rw [hdirect] at hindirect
  cases hindirect

theorem execute_leaves (h : plugins.Leave view) (cat : Cat φ σ) :
    (ProceduresAgent.execute plugins parser).Ends cat (fun r s _ => StepsTold view cat r s) := by
  apply Traced.ends_bind
  apply (form_agent_leaves h cat).mono
  intro r s _ hs
  cases r with
  | error error => exact nofun
  | ok formOutput =>
    dsimp only
    split
    · rename_i hdirect
      exact Traced.ends_pure (steps_told_direct hdirect)
    · apply Traced.ends_bind
      apply Traced.ends_get
      dsimp only
      split
      · exact Traced.ends_pure (steps_told_nothing hs)
      · apply Traced.ends_try
        apply Traced.ends_bind
        apply (execute_procedures_leaves h s).mono
        intro r s' _ hs'
        cases r with
        | error error => exact Traced.ends_pure (steps_told_nothing (hs'.trans hs))
        | ok result =>
          dsimp only
          split
          · rename_i hdirect
            exact Traced.ends_pure (steps_told_direct hdirect)
          · apply Traced.ends_bind
            apply Traced.ends_modify
            apply Traced.ends_pure
            intro out hout _
            cases hout
            exact ⟨s', hs'.trans hs, rfl⟩

end CheshireCat.Agents
