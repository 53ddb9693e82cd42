import CheshireCat.Session.StrayCat

namespace CheshireCat.Session.History

/-- What every message of a conversation carries. -/
structure Content where
  userId : String
  who : String
  text : Option String := none
  image : Option String := none
  audio : Option String := none
deriving DecidableEq

/-- A dictionary by its fields; `δ` are the values of the interpreter. -/
abbrev Fields (δ : Type) := List (String × δ)

inductive ConversationMessage (δ : Type) where
  | userMessage (content : Content)
  | catMessage (content : Content) (why : Option (Fields δ))
  | conversationMessage (content : Content)
deriving DecidableEq

variable {δ : Type}

def ConversationMessage.content : ConversationMessage δ → Content
  | .userMessage content => content
  | .catMessage content _ => content
  | .conversationMessage content => content

inductive Role where
  | ai
  | human
deriving DecidableEq

/-- The argument `why`: nothing, an instance of `MessageWhy`, or a dictionary that
is to be validated as one. -/
inductive Why (δ : Type) where
  | none
  | messageWhy (fields : Fields δ)
  | dict (fields : Fields δ)
deriving DecidableEq

inductive Error where
  | attributeError
  | validationError
  | requestException
  | unidentifiedImage
deriving DecidableEq

structure WorkingMemory (δ : Type) where
  history : List (ConversationMessage δ) := []
  userMessageJson : Option Content := none
deriving DecidableEq

/-! ### Writing -/

/-- The fields of `MessageWhy`. None has a default. -/
def messageWhyFields : List String :=
  ["input", "intermediate_steps", "memory", "model_interactions"]

section Writing

-- `check` is what pydantic finds of the value of a field of `MessageWhy`.
variable (check : String → δ → Bool)

def validateWhy : Why δ → Except Error (Option (Fields δ))
  | .none => .ok none
  | .messageWhy fields => .ok (some fields)
  | .dict fields =>
    if messageWhyFields.all (fun name => (fields.lookup name).any (check name)) then
      .ok (some fields)
    else .error .validationError

/-- The message that `update_conversation_history` builds. -/
def buildMessage (userMessageJson : Option Content) (message who : String) (why : Why δ) :
    Except Error (ConversationMessage δ) :=
  match userMessageJson with
  | none => .error .attributeError
  | some user =>
    let role := if who = "AI" then Role.ai else Role.human
    match role with
    | .ai => (validateWhy check why).map
        (.catMessage { userId := user.userId, who := who, text := some message })
    | .human => .ok (.userMessage { userId := user.userId, who := who, text := some message })

def WorkingMemory.updateConversationHistory (wm : WorkingMemory δ) (message who : String)
    (why : Why δ) : Except Error (WorkingMemory δ) :=
  (buildMessage check wm.userMessageJson message who why).map
    (fun content => { wm with history := wm.history ++ [content] })

/-- `xs[i:]`: a negative index counts from the end. -/
def sliceFrom {α : Type} (xs : List α) (i : Int) : List α :=
  if i < 0 then xs.drop (xs.length + i).toNat else xs.drop i.toNat

def WorkingMemory.updateHistory (wm : WorkingMemory δ) (message : ConversationMessage δ) :
    WorkingMemory δ :=
  { wm with history := sliceFrom (wm.history ++ [message]) (-maxWorkingHistoryLength) }

inductive Call (δ : Type) where
  | updateHistory (message : ConversationMessage δ)
  | updateConversationHistory (message who : String) (why : Why δ)
deriving DecidableEq

def WorkingMemory.perform (wm : WorkingMemory δ) : Call δ → Except Error (WorkingMemory δ)
  | .updateHistory message => .ok (wm.updateHistory message)
  | .updateConversationHistory message who why =>
    wm.updateConversationHistory check message who why

/-- A call that raises leaves the working memory as it was. -/
def WorkingMemory.after (wm : WorkingMemory δ) (calls : List (Call δ)) : WorkingMemory δ :=
  calls.foldl (fun wm call => (wm.perform check call).toOption.getD wm) wm

/-- The message that a call is to add. -/
def Call.message (userMessageJson : Option Content) : Call δ → Except Error (ConversationMessage δ)
  | .updateHistory message => .ok message
  | .updateConversationHistory message who why => buildMessage check userMessageJson message who why

/-- Each of the calls adds its message, and the last twenty of them are the history. -/
def LastTwenty (userMessageJson : Option Content) (calls : List (Call δ)) : Prop :=
  ∃ messages : List (ConversationMessage δ),
    calls.map (Call.message check userMessageJson) = messages.map .ok ∧
    (WorkingMemory.after check { userMessageJson := userMessageJson } calls).history =
      messages.rtake (min maxWorkingHistoryLength calls.length)

/-- A `why` that `CatMessage` takes. -/
def Why.Accepted : Why δ → Prop
  | .none => True
  | .messageWhy _ => True
  | .dict fields => ∀ name ∈ messageWhyFields, ∃ value, fields.lookup name = some value ∧
      check name value = true

/-- The call at position `i` of a sequence adds its message within the bound. -/
def Call.Fits (userMessageJson : Option Content) (i : Nat) : Call δ → Prop
  | .updateHistory _ => True
  | .updateConversationHistory _ who why =>
    i < maxWorkingHistoryLength ∧ userMessageJson.isSome = true ∧ (who = "AI" → why.Accepted check)

end Writing

theorem sliceFrom_neg {α : Type} (xs : List α) {n : Nat} (h : n ≠ 0) :
    sliceFrom xs (-n) = xs.rtake n := by
  have hneg : (-n : Int) < 0 := by omega
  have hlen : (xs.length + -n : Int).toNat = xs.length - n := by omega
  simp only [sliceFrom, hneg, hlen, if_true, List.rtake]

theorem updateHistory_history (wm : WorkingMemory δ) (message : ConversationMessage δ) :
    (wm.updateHistory message).history =
      (wm.history ++ [message]).rtake maxWorkingHistoryLength :=
  sliceFrom_neg (wm.history ++ [message]) (show maxWorkingHistoryLength ≠ 0 by decide)

/-- A list bounded before and after an append is bounded as if it had never been cut. -/
theorem rtake_append_rtake {α : Type} (xs : List α) (x : α) {k : Nat} (h : k ≠ 0) :
    (xs.rtake (min k xs.length) ++ [x]).rtake k = (xs ++ [x]).rtake (min k (xs.length + 1)) := by
  obtain ⟨j, rfl⟩ := Nat.exists_eq_succ_of_ne_zero h
  have hmin : min j (min (j + 1) xs.length) = min j xs.length := by omega
  simp [List.rtake_eq_reverse_take_reverse, List.take_take, Nat.succ_min_succ, hmin]

theorem length_rtake {α : Type} (xs : List α) (n : Nat) :
    (xs.rtake n).length = min n xs.length := by
  simp only [List.rtake, List.length_drop]
  omega

section Runs
variable {check : String → δ → Bool} {user : Option Content} {calls : List (Call δ)}

theorem validateWhy_ok (why : Why δ) : (∃ r, validateWhy check why = .ok r) ↔ why.Accepted check := by
  cases why with
  | none => simp [validateWhy, Why.Accepted]
  | messageWhy fields => simp [validateWhy, Why.Accepted]
  | dict fields =>
    simp only [validateWhy, Why.Accepted, List.all_eq_true, Option.any_eq_true]
    split <;> simp_all

theorem buildMessage_ok (message who : String) (why : Why δ) :
    (∃ content, buildMessage check user message who why = .ok content) ↔
      user.isSome = true ∧ (who = "AI" → why.Accepted check) := by
  cases user with
  | none => simp [buildMessage]
  | some u =>
    by_cases hwho : who = "AI"
    · simp only [buildMessage, hwho, if_true, ← validateWhy_ok, Option.isSome_some, true_and,
        forall_const]
      cases validateWhy check why <;> simp [Except.map]
    · simp [buildMessage, hwho]

theorem after_concat (wm : WorkingMemory δ) (call : Call δ) :
    wm.after check (calls ++ [call]) =
      ((wm.after check calls).perform check call).toOption.getD (wm.after check calls) := by
  simp [WorkingMemory.after]

theorem perform_user {wm wm' : WorkingMemory δ} {call : Call δ}
    (h : wm.perform check call = .ok wm') : wm'.userMessageJson = wm.userMessageJson := by
  cases call with
  | updateHistory message => exact Except.ok.inj h ▸ rfl
  | updateConversationHistory message who why =>
    simp only [WorkingMemory.perform, WorkingMemory.updateConversationHistory] at h
    cases hb : buildMessage check wm.userMessageJson message who why with
    | error e => simp [hb, Except.map] at h
    | ok content =>
      simp only [hb, Except.map, Except.ok.injEq] at h
      simp [← h]

@[simp] theorem after_user (wm : WorkingMemory δ) :
    (wm.after check calls).userMessageJson = wm.userMessageJson := by
  induction calls using List.reverseRecOn with
  | nil => rfl
  | append_singleton calls call ih =>
    rw [after_concat]
    cases h : (wm.after check calls).perform check call with
    | error e => exact ih
    | ok wm' => exact (perform_user h).trans ih

/-- What one more call makes of a history of the last twenty messages. -/
theorem LastTwenty.concat (h : LastTwenty check user calls) (call : Call δ) :
    LastTwenty check user (calls ++ [call]) ↔ call.Fits check user calls.length := by
  obtain ⟨messages, hadded, hhistory⟩ := h
  have hlen : messages.length = calls.length := by
    simpa using (congrArg List.length hadded).symm
  cases call with
  | updateHistory message =>
    refine iff_of_true ⟨messages ++ [message], by simp [hadded, Call.message], ?_⟩ trivial
    simp only [after_concat, WorkingMemory.perform, Except.toOption, Option.getD_some,
      updateHistory_history, hhistory, List.length_append, List.length_singleton, ← hlen]
    exact rtake_append_rtake messages message (by decide)
  | updateConversationHistory message who why =>
    have hbuilt : (∃ content, buildMessage check user message who why = .ok content) ↔ _ :=
      buildMessage_ok message who why
    cases hb : buildMessage check user message who why with
    | error e =>
      have hno : ¬ (user.isSome = true ∧ (who = "AI" → why.Accepted check)) := by
        simpa [hb] using hbuilt
      refine iff_of_false ?_ (fun hfits => hno hfits.2)
      intro hl
      obtain ⟨ms, hms, _⟩ := hl
      have hmem : Except.error e ∈ ms.map (fun m => (.ok m : Except Error _)) := by
        simp [← hms, Call.message, hb]
      simp at hmem
    | ok content =>
      have hyes : user.isSome = true ∧ (who = "AI" → why.Accepted check) := by
        simpa [hb] using hbuilt
      have hafter : ((WorkingMemory.after check { userMessageJson := user } (calls ++
          [.updateConversationHistory message who why])).history) =
            messages.rtake (min maxWorkingHistoryLength calls.length) ++ [content] := by
        simp [after_concat, WorkingMemory.perform, WorkingMemory.updateConversationHistory, hb,
          Except.map, Except.toOption, hhistory]
      constructor
      · intro hl
        obtain ⟨ms, hms, hh⟩ := hl
        have hmslen : ms.length = calls.length + 1 := by
          simpa using (congrArg List.length hms).symm
        have hsize := congrArg List.length (hafter.symm.trans hh)
        simp only [List.length_append, List.length_singleton, length_rtake, hlen, hmslen] at hsize
        exact ⟨by omega, hyes⟩
      · intro hfits
        have hroom : calls.length < maxWorkingHistoryLength := hfits.1
        refine ⟨messages ++ [content], by simp [hadded, Call.message, hb], ?_⟩
        have hmin : min maxWorkingHistoryLength calls.length = messages.length := by omega
        have hmin' : min maxWorkingHistoryLength (calls.length + 1) = messages.length + 1 := by omega
        simp [hafter, List.rtake, hmin, hmin']

end Runs

/-- After every call of a sequence the history is its last twenty messages, exactly when
the deprecated calls are among the first twenty and each of them can build its message. -/
theorem history_last_twenty (check : String → δ → Bool) (userMessageJson : Option Content)
    (calls : List (Call δ)) :
    (∀ p, p <+: calls → LastTwenty check userMessageJson p) ↔
      ∀ (i : Nat) (call : Call δ), calls[i]? = some call → call.Fits check userMessageJson i := by
  induction calls using List.reverseRecOn with
  | nil =>
    refine iff_of_true ?_ (by simp)
    intro p hp
    simp only [List.prefix_nil.mp hp]
    exact ⟨[], rfl, rfl⟩
  | append_singleton calls call ih =>
    constructor
    · intro h
      have hcalls : ∀ p, p <+: calls → LastTwenty check userMessageJson p :=
        fun p hp => h p (hp.trans (List.prefix_append _ _))
      have hcall := ((hcalls calls List.prefix_rfl).concat call).mp (h _ List.prefix_rfl)
      intro i c hc
      rcases Nat.lt_trichotomy i calls.length with hi | hi | hi
      · exact ih.mp hcalls i c (by simpa [List.getElem?_append_left hi] using hc)
      · subst hi
        simp only [List.getElem?_concat_length, Option.some.injEq] at hc
        exact hc ▸ hcall
      · simp [List.getElem?_eq_none (show (calls ++ [call]).length ≤ i by simp; omega)] at hc
    · intro h p hp
      have hcalls : ∀ p, p <+: calls → LastTwenty check userMessageJson p := by
        refine ih.mpr (fun i c hc => h i c ?_)
        obtain ⟨hi, _⟩ := List.getElem?_eq_some_iff.mp hc
        simpa [List.getElem?_append_left hi] using hc
      rcases List.prefix_concat_iff.mp hp with rfl | hp
      · refine ((hcalls calls List.prefix_rfl).concat call).mpr (h _ call ?_)
        simp
      · exact hcalls p hp

/-- Twenty-one deprecated calls leave twenty-one messages. -/
theorem deprecated_calls_overflow :
    ¬ LastTwenty (fun _ (_ : Unit) => true) (some { userId := "123", who := "Human" })
      (List.replicate 21 (.updateConversationHistory "Hi" "Human" .none)) := by
  intro h
  obtain ⟨messages, _, hhistory⟩ := h
  have hlength := congrArg List.length hhistory
  simp only [length_rtake, List.length_replicate] at hlength
  have hleft : (WorkingMemory.after (fun _ (_ : Unit) => true)
      { userMessageJson := some { userId := "123", who := "Human" } }
      (List.replicate 21 (.updateConversationHistory "Hi" "Human" .none))).history.length = 21 := by
    decide
  have hbound : maxWorkingHistoryLength = 20 := rfl
  omega

/-- The default of `why` is not a `MessageWhy`: the deprecated call raises for the cat. -/
theorem default_why_rejected (check : String → δ → Bool) (user : Content) (message : String) :
    buildMessage check (some user) message "AI" (.dict []) = .error .validationError := rfl

/-! ### The messages of a turn -/

/-- The part of a message that the turns of a conversation are told with. -/
def Content.plain (content : Content) : Message :=
  ⟨content.userId, content.who, content.text.getD ""⟩

def WorkingMemory.plain (wm : WorkingMemory δ) : Session.WorkingMemory where
  history := wm.history.map (fun m => m.content.plain)
  userMessageJson := wm.userMessageJson.map Content.plain

/-- The history of the turns is the one of the messages with all their data. -/
theorem plain_updateHistory (wm : WorkingMemory δ) (message : ConversationMessage δ) :
    (wm.updateHistory message).plain = wm.plain.updateHistory message.content.plain := by
  have hcut := updateHistory_history wm message
  simp only [WorkingMemory.plain, Session.WorkingMemory.updateHistory, hcut, List.rtake,
    List.map_drop, List.map_append, List.length_append, List.length_map, List.map_cons,
    List.map_nil, List.length_cons, List.length_nil]
  rfl

end CheshireCat.Session.History
