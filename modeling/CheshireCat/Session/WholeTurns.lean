import CheshireCat.Session.WebSocket

namespace CheshireCat.Session
open Base

/-- A message of the human and one of the AI, again and again. -/
def Alternates : List Message → Prop
  | [] => True
  | [_] => False
  | human :: ai :: rest => human.who = "Human" ∧ ai.who = "AI" ∧ Alternates rest

instance decidableAlternates : (history : List Message) → Decidable (Alternates history)
  | [] => isTrue trivial
  | [_] => isFalse id
  | human :: ai :: rest =>
    have := decidableAlternates rest
    inferInstanceAs (Decidable (human.who = "Human" ∧ ai.who = "AI" ∧ Alternates rest))

/-- The turn ends before its message is recorded. -/
def Turn.skips (turn : Turn) : Prop :=
  (∃ error, turn.userMessage = .error error) ∨ turn.fastReply.isSome

/-- The message that answers, if the turn gets that far. -/
def Turn.answer? (turn : Turn) : Option Message :=
  if turn.recallRaises ∨ turn.storeRaises.isSome then none
  else match turn.agent with
    | .raised _ => none
    | .unparsable text => some (turn.finalOutput text)
    | .output text => some (turn.finalOutput text)

/-- The turn records nothing, or the message of a human and the answer of the AI. -/
def Turn.EntersWhole (turn : Turn) : Prop :=
  turn.skips ∨ ∃ ai, turn.answer? = some ai ∧ turn.readMessage.who = "Human" ∧ ai.who = "AI"

/-- No turn is saved with a message and no answer, and none is left in the copy of a socket
that is closed. -/
def SavesWhole {κ : Type} (s : SocketServer κ) : SessionEvent κ → Prop
  | .wsMessage k turn => (s.socket k).isSome → turn.raisesLate ∨ turn.EntersWhole
  | .disconnect k => ∀ cat, s.socket k = some cat → Alternates cat.workingMemory.history
  | .http (.message turn) => turn.raisesLate ∨ turn.EntersWhole
  | _ => True

/-! ### Histories -/

theorem Alternates.even {history : List Message} (h : Alternates history) :
    history.length % 2 = 0 := by
  fun_induction Alternates history with
  | case1 => rfl
  | case2 => cases h
  | case3 human ai rest ih =>
    have hrest := ih h.2.2
    simp only [List.length_cons]
    omega

/-- Two more messages after whole turns. -/
theorem alternates_append_two {history : List Message} (h : Alternates history) (human ai : Message) :
    Alternates (history ++ [human, ai]) ↔ human.who = "Human" ∧ ai.who = "AI" := by
  fun_induction Alternates history with
  | case1 => simp [Alternates]
  | case2 => cases h
  | case3 first second rest ih =>
    have hrest := ih h.2.2
    simp only [List.cons_append, Alternates, h.1, h.2.1, true_and]
    exact hrest

/-- Whole turns are left when whole turns are dropped. -/
theorem alternates_drop {history : List Message} (h : Alternates history) (k : Nat) :
    Alternates (history.drop (2 * k)) := by
  induction k generalizing history with
  | zero => exact h
  | succ k ih =>
    fun_cases Alternates history with
    | case1 => simpa using h
    | case2 => cases h
    | case3 human ai rest => exact ih h.2.2

/-- A list that starts with an answer does not alternate. -/
theorem not_alternates_drop {history : List Message} (h : Alternates history) {k : Nat}
    (hlength : 2 * k + 2 ≤ history.length) (last : Message) :
    ¬ Alternates (history.drop (2 * k + 1) ++ [last]) := by
  have hdrop := alternates_drop h k
  rw [← List.drop_drop]
  have hleft : 2 ≤ (history.drop (2 * k)).length := by
    rw [List.length_drop]
    omega
  match hx : history.drop (2 * k) with
  | [] => simp [hx] at hleft
  | [_] => simp [hx] at hleft
  | human :: ai :: rest =>
    rw [hx] at hdrop
    intro halt
    have hai : ai.who = "Human" := by
      cases rest with
      | nil => exact halt.1
      | cons next rest => exact halt.1
    exact absurd (hai.symm.trans hdrop.2.1) (by decide)

/-- The history after a message that no answer follows. -/
theorem not_alternates_record {wm : WorkingMemory} (h : Alternates wm.history) (message : Message) :
    ¬ Alternates (wm.updateHistory message).history := by
  have hhistory : (wm.updateHistory message).history =
      wm.history.drop (wm.history.length - 19) ++ [message] :=
    List.rtake_concat_succ _ _ _
  have heven := h.even
  rw [hhistory]
  by_cases hlong : 20 ≤ wm.history.length
  · have hk : wm.history.length - 19 = 2 * ((wm.history.length - 20) / 2) + 1 := by omega
    rw [hk]
    exact not_alternates_drop h (by omega) message
  · intro halt
    have hodd := halt.even
    rw [List.length_append, List.length_drop, List.length_singleton] at hodd
    omega

/-- The history after a message and its answer. -/
theorem alternates_answer {wm : WorkingMemory} (h : Alternates wm.history) (human ai : Message) :
    Alternates ((wm.updateHistory human).updateHistory ai).history ↔
      human.who = "Human" ∧ ai.who = "AI" := by
  have hhistory : ((wm.updateHistory human).updateHistory ai).history =
      wm.history.drop (2 * ((wm.history.length - 18) / 2)) ++ [human, ai] := by
    have heven := h.even
    change List.rtake (List.rtake (wm.history ++ [human]) 20 ++ [ai]) 20 = _
    rw [List.rtake_concat_succ, List.rtake_concat_succ, List.rtake_concat_succ, List.append_assoc]
    congr 1
    rw [List.rtake, List.rtake, List.drop_drop, List.length_drop]
    congr 1
    omega
  rw [hhistory]
  exact alternates_append_two (alternates_drop h _) human ai

/-! ### Turns -/

section Turns

variable {turn : Turn} {wm : WorkingMemory}

/-- A turn that records its message is whole with its answer only. -/
theorem enters_whole_iff (hread : ¬ turn.skips) : turn.EntersWhole ↔
    ∃ ai, turn.answer? = some ai ∧ turn.readMessage.who = "Human" ∧ ai.who = "AI" :=
  or_iff_right hread

theorem unanswered_alternates_iff (h : Alternates wm.history) (hread : ¬ turn.skips)
    (hnone : turn.answer? = none) :
    Alternates (wm.updateHistory turn.readMessage).history ↔ turn.EntersWhole := by
  apply iff_of_false (not_alternates_record h turn.readMessage)
  rw [enters_whole_iff hread, hnone]
  intro hx
  obtain ⟨ai, hai, _⟩ := hx
  cases hai

theorem answered_alternates_iff (h : Alternates wm.history) (hread : ¬ turn.skips) {ai : Message}
    (hai : turn.answer? = some ai) :
    Alternates ((wm.updateHistory turn.readMessage).updateHistory ai).history ↔ turn.EntersWhole := by
  rw [alternates_answer h turn.readMessage ai, enters_whole_iff hread, hai]
  constructor
  · intro hwho
    exact ⟨ai, rfl, hwho⟩
  · intro hx
    obtain ⟨ai', hsame, hwho⟩ := hx
    cases hsame
    exact hwho

end Turns

/-- A turn makes whole turns of whole turns exactly when it enters whole. -/
theorem made_alternates_iff (user : String) {wm : WorkingMemory} (h : Alternates wm.history)
    (turn : Turn) :
    Alternates ((Endpoint.message turn).made user wm).history ↔ turn.EntersWhole := by
  cases hmessage : turn.userMessage with
  | error error =>
    simp only [Endpoint.made, StrayCat.call, hmessage]
    exact iff_of_true h (Or.inl (Or.inl ⟨error, hmessage⟩))
  | ok message =>
    cases hfast : turn.fastReply with
    | some reply =>
      simp only [Endpoint.made, StrayCat.call, hmessage, hfast]
      exact iff_of_true h (Or.inl (Or.inr (by rw [hfast]; rfl)))
    | none =>
      have hread : ¬ turn.skips := by
        simp [Turn.skips, hmessage, hfast]
      let wm' : WorkingMemory := { wm with userMessageJson := some turn.readMessage }
      have hwm : Alternates wm'.history := h
      simp only [Endpoint.made, StrayCat.call, hmessage, hfast]
      cases hrecall : turn.recallRaises with
      | true => exact unanswered_alternates_iff hwm hread (if_pos (Or.inl hrecall))
      | false =>
        cases hstore : turn.storeRaises with
        | some error =>
          have hnone : turn.answer? = none := if_pos (Or.inr (by rw [hstore]; rfl))
          cases turn.agent <;> simp only [StrayCat.answer, hstore] <;>
            exact unanswered_alternates_iff hwm hread hnone
        | none =>
          have hanswer : ¬ (turn.recallRaises ∨ turn.storeRaises.isSome) := by
            simp [hrecall, hstore]
          cases hagent : turn.agent with
          | raised error =>
            exact unanswered_alternates_iff hwm hread ((if_neg hanswer).trans (by rw [hagent]))
          | unparsable text =>
            simp only [StrayCat.answer, hstore]
            exact answered_alternates_iff hwm hread ((if_neg hanswer).trans (by rw [hagent]))
          | output text =>
            simp only [StrayCat.answer, hstore]
            exact answered_alternates_iff hwm hread ((if_neg hanswer).trans (by rw [hagent]))

/-- A turn leaves whole turns in the cache exactly when it raises late or enters whole. -/
theorem effect_alternates_iff (user : String) {wm : WorkingMemory} (h : Alternates wm.history)
    (turn : Turn) : Alternates ((Endpoint.message turn).effect user wm).history ↔
      turn.raisesLate ∨ turn.EntersWhole := by
  have hmade := made_alternates_iff user h turn
  cases hcall : StrayCat.call ⟨user, wm⟩ turn with
  | mk cat answer =>
    simp only [Endpoint.made, hcall] at hmade
    simp only [Endpoint.effect, hcall]
    cases answer with
    | ok reply => rw [hmade, or_iff_right (call_ok hcall)]
    | error error =>
      refine iff_of_true h ?_
      rcases call_error hcall with ⟨hlate, _⟩ | ⟨hearly, _⟩
      · exact Or.inl hlate
      · exact Or.inr (Or.inl (Or.inl hearly))

/-! ### Sessions -/

/-- Every socket serves the user, and the cached history is made of whole turns. -/
structure WholeTurns (user : String) {κ : Type} (s : SocketServer κ) : Prop where
  owned : SocketsOf user s.socket
  cached : Alternates (s.cached user).history

variable {κ : Type} [DecidableEq κ]

theorem WholeTurns.message_iff {user : String} {s : SocketServer κ} (h : WholeTurns user s) (k : κ)
    (turn : Turn) : SavesWhole s (.wsMessage k turn) ↔
      ∀ t, sessionStep user s (.wsMessage k turn) = some t → WholeTurns user t := by
  cases hsocket : s.socket k with
  | none =>
    constructor
    · intro _ t ht
      simp [sessionStep, hsocket] at ht
    · intro _ hopen
      rw [hsocket] at hopen
      cases hopen
  | some cat =>
    have hopen : (s.socket k).isSome := by rw [hsocket]; rfl
    obtain ⟨t, hstep, _, heffect⟩ := message_step h.owned turn hsocket
    -- the step keeps the turns whole exactly when it leaves whole turns in the cache
    have hcached : (∀ t', sessionStep user s (.wsMessage k turn) = some t' → WholeTurns user t') ↔
        Alternates (t.cached user).history := by
      constructor
      · exact fun hall => (hall t hstep).cached
      · intro halt t' ht'
        cases hstep.symm.trans ht'
        exact ⟨session_step_owned h.owned hstep, halt⟩
    have hin : SavesWhole s (.wsMessage k turn) ↔ turn.raisesLate ∨ turn.EntersWhole :=
      ⟨fun hin => hin hopen, fun hin _ => hin⟩
    rw [hcached, hin, heffect]
    exact (effect_alternates_iff user h.cached turn).symm

theorem WholeTurns.disconnect_iff {user : String} {s : SocketServer κ} (h : WholeTurns user s)
    (k : κ) : SavesWhole s (.disconnect k) ↔
      ∀ t, sessionStep user s (.disconnect k) = some t → WholeTurns user t := by
  cases hsocket : s.socket k with
  | none =>
    constructor
    · intro _ t ht
      simp [sessionStep, hsocket] at ht
    · intro _ cat hcat
      rw [hsocket] at hcat
      cases hcat
  | some cat =>
    obtain ⟨t, hstep, _, hsaved⟩ := disconnect_step h.owned hsocket
    constructor
    · intro hwhole t' ht'
      cases hstep.symm.trans ht'
      refine ⟨session_step_owned h.owned hstep, ?_⟩
      rw [hsaved]
      exact hwhole cat hsocket
    · intro hall cat' hcat'
      cases hsocket.symm.trans hcat'
      exact hsaved ▸ (hall t hstep).cached

theorem WholeTurns.http_iff {user : String} {s : SocketServer κ} (h : WholeTurns user s)
    (endpoint : Endpoint) : SavesWhole s (.http endpoint) ↔
      ∀ t, sessionStep user s (.http endpoint) = some t → WholeTurns user t := by
  have hcached : (∀ t, sessionStep user s (.http endpoint) = some t → WholeTurns user t) ↔
      Alternates (endpoint.effect user (s.cached user)).history := by
    have hsaved := http_cached user endpoint s.cache
    constructor
    · intro hall
      have ht := (hall _ rfl).cached
      exact hsaved ▸ ht
    · intro halt t ht
      refine ⟨session_step_owned h.owned ht, ?_⟩
      cases ht
      change Alternates (loadWorkingMemoryFromCache (httpRequest user endpoint s.cache) user).history
      rw [hsaved]
      exact halt
  rw [hcached]
  cases endpoint with
  | message turn => exact (effect_alternates_iff user h.cached turn).symm
  | wipeConversationHistory => exact iff_of_true trivial trivial
  | other => exact iff_of_true trivial h.cached

theorem WholeTurns.untouched {user : String} {s t : SocketServer κ} (h : WholeTurns user s) {k : κ}
    {e : SessionEvent κ} (he : e = .connect k ∨ e = .fail k)
    (hstep : sessionStep user s e = some t) : WholeTurns user t :=
  ⟨session_step_owned h.owned hstep, (untouched_step he hstep).1 ▸ h.cached⟩

theorem whole_turns_step_iff {user : String} {s : SocketServer κ} (h : WholeTurns user s)
    (e : SessionEvent κ) :
    SavesWhole s e ↔ ∀ t, sessionStep user s e = some t → WholeTurns user t := by
  cases e with
  | connect k => exact ⟨fun _ t ht => h.untouched (Or.inl rfl) ht, fun _ => trivial⟩
  | fail k => exact ⟨fun _ t ht => h.untouched (Or.inr rfl) ht, fun _ => trivial⟩
  | http endpoint => exact h.http_iff endpoint
  | disconnect k => exact h.disconnect_iff k
  | wsMessage k turn => exact h.message_iff k turn

/-- Over all events of a user, the cached history is made of whole turns exactly when it is at
the start and no turn is saved in part. -/
theorem history_whole_iff (user : String) (cache : Cache) (events : List (SessionEvent κ)) :
    (∀ earlier, earlier <+: events → ∀ s,
      run (sessionStep user) (SocketServer.start user cache) earlier = some s →
        Alternates (s.cached user).history) ↔
      Alternates (loadWorkingMemoryFromCache cache user).history ∧
        Meets (sessionStep user) SavesWhole (SocketServer.start user cache) events := by
  have hstart : SocketsOf user (SocketServer.start user cache : SocketServer κ).socket :=
    (Shared.start user cache).owned
  constructor
  · intro h
    have hcached := h [] (List.nil_prefix) _ rfl
    refine ⟨hcached, ?_⟩
    rw [← keeps_iff_meets (fun s e hs => whole_turns_step_iff hs e) ⟨hstart, hcached⟩]
    intro earlier he s hs
    exact ⟨run_keeps (fun s e t => session_step_owned) hstart hs, h earlier he s hs⟩
  · intro h earlier he s hs
    obtain ⟨hcached, hm⟩ := h
    rw [← keeps_iff_meets (fun s e hs => whole_turns_step_iff hs e) ⟨hstart, hcached⟩] at hm
    exact (hm earlier he s hs).cached

/-- The vector memories do not answer. -/
def unrecalled : Turn := { hello with recallRaises := true }

/-- A message whose memories are not recalled stays without an answer, over HTTP and over a
WebSocket, and so does one whose agent raises, once the socket is closed. -/
theorem message_without_answer :
    ((run (sessionStep "user") (SocketServer.start "user" Dict.empty : SocketServer Nat)
        [.http (.message unrecalled)]).map (fun s => (s.cached "user").history)) =
      some [⟨"user", "Human", "hello"⟩] ∧
    ((run (sessionStep "user") (SocketServer.start "user" Dict.empty : SocketServer Nat)
        [.connect 0, .wsMessage 0 unrecalled]).map (fun s => (s.cached "user").history)) =
      some [⟨"user", "Human", "hello"⟩] ∧
    ((run (sessionStep "user") (SocketServer.start "user" Dict.empty : SocketServer Nat)
        [.connect 0, .wsMessage 0 { hello with agent := .raised "Timeout" }, .disconnect 0]).map
          (fun s => (s.cached "user").history)) =
      some [⟨"user", "Human", "hello"⟩] ∧
    ¬ Alternates [⟨"user", "Human", "hello"⟩] := by
  refine ⟨by decide, by decide, by decide, by decide⟩

end CheshireCat.Session
