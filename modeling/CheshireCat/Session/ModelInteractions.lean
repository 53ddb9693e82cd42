import CheshireCat.Base.Json
import CheshireCat.Base.Runs

namespace CheshireCat.Session
open Base Json

/-! ### Interactions -/

structure LLMModelInteraction where
  source : String
  prompt : List String := []
  inputTokens : Nat := 0
  reply : String := ""
  outputTokens : Nat := 0
  endedAt : Rat := 0
deriving DecidableEq

structure EmbedderModelInteraction where
  source : String
  prompt : List String
  inputTokens : Nat
  reply : List Rat
deriving DecidableEq

inductive ModelInteraction where
  | llm (i : LLMModelInteraction)
  | embedder (i : EmbedderModelInteraction)
deriving DecidableEq

/-- `int(input_tokens * 1.2)` and the prompt, which both kinds of interactions have. -/
def setPrompt (inputTokens : Nat) (prompt : List String) : ModelInteraction → Except String ModelInteraction
  | .llm i => .ok (.llm { i with inputTokens := inputTokens * 6 / 5, prompt := prompt })
  | .embedder i => .ok (.embedder { i with inputTokens := inputTokens * 6 / 5, prompt := prompt })

/-- An interaction with an embedder has no output tokens. -/
def setReply (outputTokens : Nat) (reply : String) (endedAt : Rat) :
    ModelInteraction → Except String ModelInteraction
  | .llm i => .ok (.llm { i with outputTokens := outputTokens, reply := reply, endedAt := endedAt })
  | .embedder _ => .error "ValueError"

theorem set_prompt_llm (inputTokens : Nat) (prompt : List String) (i : LLMModelInteraction) :
    setPrompt inputTokens prompt (.llm i) =
      .ok (.llm { i with inputTokens := inputTokens * 6 / 5, prompt := prompt }) := rfl

theorem set_reply_llm (outputTokens : Nat) (reply : String) (endedAt : Rat) (i : LLMModelInteraction) :
    setReply outputTokens reply endedAt (.llm i) =
      .ok (.llm { i with outputTokens := outputTokens, reply := reply, endedAt := endedAt }) := rfl

/-! ### Handlers -/

/-- The content of a message is a text or a list of parts. -/
inductive Content where
  | text (s : String)
  | parts (cs : List Json)

variable (countTokens : String → Except String Nat)

def readText (read : Nat × List String) (s : String) : Except String (Nat × List String) := do
  pure (read.1 + (← countTokens s), read.2 ++ [s])

def readPart (read : Nat × List String) : Json → Except String (Nat × List String)
  | .obj fields =>
    match field? fields "type" with
    | none => .error "KeyError"
    | some type =>
      if type = .str "text" then
        match field? fields "text" with
        | none => .error "KeyError"
        | some (.str s) => readText countTokens read s
        | some _ => .error "TypeError"
      else if type = .str "image_url" then .ok (read.1, read.2 ++ ["(image, tokens not counted)"])
      else .ok read
  | _ => .error "TypeError"

def readContent (read : Nat × List String) : Content → Except String (Nat × List String)
  | .text s => readText countTokens read s
  | .parts cs => cs.foldlM (readPart countTokens) read

/-- The tokens and the texts of the messages. -/
def readMessages (messages : List Content) : Except String (Nat × List String) :=
  messages.foldlM (readContent countTokens) (0, [])

variable {ι : Type}

/-- What handlers, recalls and turns do to the interactions, one after the other. -/
inductive CallEvent (ι : Type) where
  | create (call : ι) (source : String)
  | chatModelStart (call : ι) (messages : List Content)
  | llmEnd (call : ι) (text : String) (time : Rat)
  | recalled (source query : String) (embedding : List Rat)
  | reset

/-- The interactions that were made, and which of them the working memory lists. The code keeps no
record of which call appended an interaction or wrote to it, and no step reads one. -/
structure Interactions (ι : Type) where
  objects : List ModelInteraction
  modelInteractions : List Nat
  appended : ι → Option Nat := fun _ => none
  writes : List (ι × Nat) := []

def Interactions.append (s : Interactions ι) (i : ModelInteraction) : Interactions ι :=
  { s with
    objects := s.objects ++ [i]
    modelInteractions := s.modelInteractions ++ [s.objects.length] }

/-- A handler changes the interaction that it takes for its own. -/
def Interactions.update (s : Interactions ι) (call : ι) (target : Option Nat)
    (change : ModelInteraction → Except String ModelInteraction) : Except String (Interactions ι) :=
  match target with
  | none => .error "IndexError"
  | some a =>
    match s.objects[a]? with
    | none => .error "IndexError"
    | some i => (change i).map (fun i' =>
      { s with objects := s.objects.set a i', writes := s.writes ++ [(call, a)] })

variable [DecidableEq ι]

/-- The events, with the handlers writing to what they find under `target`. -/
def handled (target : Interactions ι → ι → Option Nat) (s : Interactions ι) :
    CallEvent ι → Except String (Interactions ι)
  | .create call source =>
    .ok { s.append (.llm { source := source }) with
      appended := fun c => if c = call then some s.objects.length else s.appended c }
  | .chatModelStart call messages =>
    (readMessages countTokens messages).bind (fun read =>
      s.update call (target s call) (setPrompt read.1 read.2))
  | .llmEnd call text time =>
    (countTokens text).bind (fun outputTokens =>
      s.update call (target s call) (setReply outputTokens text time))
  | .recalled source query embedding =>
    (countTokens query).map (fun inputTokens =>
      s.append (.embedder ⟨source, [query], inputTokens, embedding⟩))
  | .reset => .ok { s with modelInteractions := [] }

/-- `ModelInteractionHandler`, whose `last_interaction` is the last one of the list. -/
def handle : Interactions ι → CallEvent ι → Except String (Interactions ι) :=
  handled countTokens (fun s _ => s.modelInteractions.getLast?)

/-- Handlers that keep to the interaction which they appended. -/
def handleOwn : Interactions ι → CallEvent ι → Except String (Interactions ι) :=
  handled countTokens Interactions.appended

/-- An exception in a handler is logged, and changes nothing. -/
def afterEvent (s : Interactions ι) (e : CallEvent ι) : Interactions ι :=
  match handle countTokens s e with
  | .ok t => t
  | .error _ => s

/-- The event does not raise, and writes to what the handler appended. -/
def Attributed (s : Interactions ι) (e : CallEvent ι) : Prop :=
  ∃ t, handle countTokens s e = .ok t ∧ handleOwn countTokens s e = .ok t

inductive CallPhase where
  | create
  | chatModelStart
  | llmEnd
deriving DecidableEq

def CallEvent.phase (call : ι) : CallEvent ι → Option CallPhase
  | .create c _ => if c = call then some .create else none
  | .chatModelStart c _ => if c = call then some .chatModelStart else none
  | .llmEnd c _ _ => if c = call then some .llmEnd else none
  | .recalled _ _ _ | .reset => none

/-- No other handler is created, nothing is recalled and no turn begins between the creation of a
handler and what is delivered to it. The tokens of the texts can be counted. -/
def Undisturbed : Option ι → List (CallEvent ι) → Prop
  | _, [] => True
  | _, .create call _ :: es => Undisturbed (some call) es
  | last, .chatModelStart call messages :: es =>
    (last = some call ∧ ∃ read, readMessages countTokens messages = .ok read) ∧ Undisturbed last es
  | last, .llmEnd call text _ :: es =>
    (last = some call ∧ ∃ n, countTokens text = .ok n) ∧ Undisturbed last es
  | _, .recalled _ query _ :: es => (∃ n, countTokens query = .ok n) ∧ Undisturbed none es
  | _, .reset :: es => Undisturbed none es

/-! ### What is left to come -/

/-- The interactions of the calls are apart from each other, the last one of the list is that of
the call `last`, and a call that is still to be created has none. -/
structure Tracked (rest : ι → List CallPhase) (last : Option ι) (s : Interactions ι) : Prop where
  llm : ∀ call a, s.appended call = some a → ∃ i, s.objects[a]? = some (.llm i)
  apart : ∀ call call' a, s.appended call = some a → s.appended call' = some a → call = call'
  last_iff : ∀ call, last = some call ↔ ∃ a, s.appended call = some a ∧ s.modelInteractions.getLast? = some a
  waiting : ∀ call, CallPhase.create ∉ rest call → ∃ a, s.appended call = some a
  fresh : ∀ call, CallPhase.create ∈ rest call → rest call = [.create, .chatModelStart, .llmEnd]

omit [DecidableEq ι] in
theorem update_eq_ok {s t : Interactions ι} {call : ι} {target : Option Nat}
    {change : ModelInteraction → Except String ModelInteraction}
    (h : s.update call target change = .ok t) :
    ∃ a i i', target = some a ∧ s.objects[a]? = some i ∧ change i = .ok i' ∧
      t = { s with objects := s.objects.set a i', writes := s.writes ++ [(call, a)] } := by
  cases htarget : target with
  | none =>
    rw [htarget] at h
    cases h
  | some a =>
    rw [htarget, Interactions.update] at h
    cases hi : s.objects[a]? with
    | none =>
      rw [hi] at h
      cases h
    | some i =>
      rw [hi] at h
      dsimp only at h
      cases hchange : change i with
      | error error =>
        rw [hchange] at h
        cases h
      | ok i' =>
        rw [hchange] at h
        cases h
        exact ⟨a, i, i', rfl, hi, hchange, rfl⟩

omit [DecidableEq ι] in
/-- The handler writes to its own interaction exactly where this is the last one. -/
theorem update_attributed_iff {s : Interactions ι} {call : ι} {a : Nat} {i i' : LLMModelInteraction}
    {change : ModelInteraction → Except String ModelInteraction}
    (hobject : s.objects[a]? = some (.llm i)) (hchange : change (.llm i) = .ok (.llm i'))
    (target : Option Nat) :
    (∃ t, s.update call target change = .ok t ∧ s.update call (some a) change = .ok t) ↔
      target = some a := by
  constructor
  · rintro ⟨t, hhandled, hown⟩
    obtain ⟨b, j, j', htarget, _, _, rfl⟩ := update_eq_ok hhandled
    obtain ⟨b', k, k', hb', _, _, hsame⟩ := update_eq_ok hown
    cases hb'
    have hwrites := List.append_cancel_left (congrArg Interactions.writes hsame)
    cases hwrites
    exact htarget
  · rintro rfl
    have hupdate : s.update call (some a) change = .ok { s with
        objects := s.objects.set a (.llm i'), writes := s.writes ++ [(call, a)] } := by
      rw [Interactions.update, hobject]
      dsimp only
      rw [hchange]
      rfl
    exact ⟨_, hupdate, hupdate⟩

variable {countTokens} {rest : ι → List CallPhase} {last : Option ι} {s t : Interactions ι}

/-- An event that reads something and then writes it to an interaction. -/
theorem delivered_iff {α : Type} {e : CallEvent ι} {call : ι} {read : Except String α}
    {change : α → ModelInteraction → Except String ModelInteraction}
    (hhandle : handle countTokens s e =
      read.bind (fun v => s.update call s.modelInteractions.getLast? (change v)))
    (hown : handleOwn countTokens s e = read.bind (fun v => s.update call (s.appended call) (change v))) :
    Attributed countTokens s e ↔ ∃ v, read = .ok v ∧
      ∃ t, s.update call s.modelInteractions.getLast? (change v) = .ok t ∧
        s.update call (s.appended call) (change v) = .ok t := by
  rw [Attributed, hhandle, hown]
  cases read with
  | error error => exact iff_of_false (fun ⟨_, h, _⟩ => nomatch h) (fun ⟨_, h, _⟩ => nomatch h)
  | ok v => exact ⟨fun h => ⟨v, rfl, h⟩, fun ⟨_, hread, h⟩ => Except.ok.inj hread ▸ h⟩

omit [DecidableEq ι] in
/-- The last interaction is the call's own exactly where nothing came in between. -/
theorem Tracked.own_iff (h : Tracked rest last s) {call : ι} {a : Nat} (ha : s.appended call = some a) :
    s.modelInteractions.getLast? = some a ↔ last = some call := by
  rw [h.last_iff call]
  constructor
  · exact fun hlast => ⟨a, ha, hlast⟩
  · rintro ⟨b, hb, hlast⟩
    cases ha.symm.trans hb
    exact hlast

/-! ### What an event leaves -/

omit [DecidableEq ι] in
theorem Tracked.lt (h : Tracked rest last s) {call : ι} {a : Nat} (ha : s.appended call = some a) :
    a < s.objects.length := by
  obtain ⟨i, hi⟩ := h.llm call a ha
  exact (List.getElem?_eq_some_iff.mp hi).1

omit [DecidableEq ι] in
/-- What is appended is nobody's own, and the interactions of the calls stay what they are. -/
theorem Tracked.append (h : Tracked rest last s) (i : ModelInteraction) :
    Tracked rest none (s.append i) := by
  refine ⟨?_, h.apart, ?_, h.waiting, h.fresh⟩
  · intro call a ha
    obtain ⟨j, hj⟩ := h.llm call a ha
    exact ⟨j, by rw [Interactions.append, List.getElem?_append_left (h.lt ha), hj]⟩
  · intro call
    refine iff_of_false (fun hnone => nomatch hnone) ?_
    rintro ⟨a, ha, hlast⟩
    rw [Interactions.append, List.getLast?_concat, Option.some.injEq] at hlast
    exact absurd (hlast ▸ h.lt ha) (Nat.lt_irrefl _)

omit [DecidableEq ι] in
theorem Tracked.reset (h : Tracked rest last s) :
    Tracked rest none { s with modelInteractions := [] } :=
  ⟨h.llm, h.apart, fun _ => iff_of_false (fun hnone => nomatch hnone) (fun ⟨_, _, hlast⟩ => nomatch hlast),
    h.waiting, h.fresh⟩

/-- A call that is created takes what it appends for its own. -/
theorem Tracked.create (h : Tracked rest last s) {call : ι} {tail : List CallPhase}
    (hrest : rest call = .create :: tail) (source : String) :
    Tracked (Function.update rest call tail) (some call)
      (afterEvent countTokens s (.create call source)) := by
  have htail : CallPhase.create ∉ tail := by
    have hcall := h.fresh call (hrest ▸ List.mem_cons_self)
    rw [hrest] at hcall
    cases hcall
    decide
  have happended (c : ι) : (afterEvent countTokens s (.create call source)).appended c =
      if c = call then some s.objects.length else s.appended c := rfl
  have hlast : (afterEvent countTokens s (.create call source)).modelInteractions.getLast? =
      some s.objects.length := List.getLast?_concat
  constructor
  · intro c a ha
    rw [happended] at ha
    split at ha
    · cases ha
      exact ⟨_, List.getElem?_concat_length⟩
    · exact (h.append _).llm c a ha
  · intro c c' a hc hc'
    rw [happended] at hc hc'
    split at hc <;> split at hc'
    · rename_i heq heq'
      rw [heq, heq']
    · exact absurd (Option.some.inj hc ▸ h.lt hc') (Nat.lt_irrefl _)
    · exact absurd (Option.some.inj hc' ▸ h.lt hc) (Nat.lt_irrefl _)
    · exact h.apart c c' a hc hc'
  · intro c
    rw [hlast, happended]
    by_cases hc : c = call
    · rw [if_pos hc, hc]
      exact iff_of_true rfl ⟨_, rfl, rfl⟩
    · rw [if_neg hc]
      refine iff_of_false (fun heq => hc (Option.some.inj heq).symm) ?_
      rintro ⟨a, ha, heq⟩
      exact absurd (Option.some.inj heq ▸ h.lt ha) (Nat.lt_irrefl _)
  · intro c hc
    rw [happended]
    split
    · exact ⟨_, rfl⟩
    · rename_i hne
      rw [Function.update_of_ne hne] at hc
      exact h.waiting c hc
  · intro c hc
    by_cases heq : c = call
    · rw [heq, Function.update_self] at hc
      exact absurd hc htail
    · rw [Function.update_of_ne heq] at hc ⊢
      exact h.fresh c hc

omit [DecidableEq ι] in
/-- A call whose handler is delivered something has been created. -/
theorem Tracked.made (h : Tracked rest last s) {call : ι} {phase : CallPhase} {tail : List CallPhase}
    (hrest : rest call = phase :: tail) (hphase : phase ≠ .create) : CallPhase.create ∉ rest call := by
  intro hcreate
  have hcall := h.fresh call hcreate
  rw [hrest] at hcall
  exact hphase (List.cons.inj hcall).1

/-- What a handler writes to its own interaction moves nothing. -/
theorem Tracked.written (h : Tracked rest last s) {call : ι} {phase : CallPhase} {tail : List CallPhase}
    (hrest : rest call = phase :: tail) (hphase : phase ≠ .create) {a : Nat}
    (ha : s.appended call = some a) (i' : LLMModelInteraction) :
    Tracked (Function.update rest call tail) last { s with
      objects := s.objects.set a (.llm i'), writes := s.writes ++ [(call, a)] } := by
  have htail : CallPhase.create ∉ tail := by
    have hmade := h.made hrest hphase
    rw [hrest] at hmade
    exact fun hmem => hmade (List.mem_cons_of_mem _ hmem)
  refine ⟨?_, h.apart, h.last_iff, ?_, ?_⟩
  · intro c b hb
    obtain ⟨j, hj⟩ := h.llm c b hb
    dsimp only
    rw [List.getElem?_set]
    split
    · rename_i heq
      exact ⟨i', if_pos (h.lt ha)⟩
    · exact ⟨j, hj⟩
  · intro c hc
    by_cases heq : c = call
    · rw [heq]
      exact ⟨a, ha⟩
    · rw [Function.update_of_ne heq] at hc
      exact h.waiting c hc
  · intro c hc
    by_cases heq : c = call
    · rw [heq, Function.update_self] at hc
      exact absurd hc htail
    · rw [Function.update_of_ne heq] at hc ⊢
      exact h.fresh c hc

/-- What is delivered is written to the call's own interaction exactly where this is the last one,
and then the rest of the call's events is to come. -/
theorem Tracked.delivered (h : Tracked rest last s) {call : ι} {phase : CallPhase}
    {tail : List CallPhase} (hrest : rest call = phase :: tail) (hphase : phase ≠ .create)
    {α : Type} {e : CallEvent ι} {read : Except String α}
    {change : α → ModelInteraction → Except String ModelInteraction}
    (hchange : ∀ v i, ∃ i', change v (.llm i) = .ok (.llm i'))
    (hhandle : handle countTokens s e =
      read.bind (fun v => s.update call s.modelInteractions.getLast? (change v)))
    (hown : handleOwn countTokens s e = read.bind (fun v => s.update call (s.appended call) (change v))) :
    (Attributed countTokens s e ↔ last = some call ∧ ∃ v, read = .ok v) ∧
    (Attributed countTokens s e →
      Tracked (Function.update rest call tail) last (afterEvent countTokens s e)) := by
  obtain ⟨a, ha⟩ := h.waiting call (h.made hrest hphase)
  obtain ⟨i, hi⟩ := h.llm call a ha
  constructor
  · rw [delivered_iff hhandle hown, ha, ← h.own_iff ha]
    constructor
    · rintro ⟨v, hread, hupdate⟩
      obtain ⟨i', hi'⟩ := hchange v i
      exact ⟨(update_attributed_iff hi hi' _).mp hupdate, v, hread⟩
    · rintro ⟨hlast, v, hread⟩
      obtain ⟨i', hi'⟩ := hchange v i
      exact ⟨v, hread, (update_attributed_iff hi hi' _).mpr hlast⟩
  · intro hattributed
    obtain ⟨v, hread, t, hlast, hwritten⟩ := (delivered_iff hhandle hown).mp hattributed
    rw [hread] at hhandle
    have hafter : afterEvent countTokens s e = t := by
      rw [afterEvent, hhandle.trans hlast]
    obtain ⟨i', hi'⟩ := hchange v i
    obtain ⟨b, j, j', hb, hj, hj', rfl⟩ := update_eq_ok hwritten
    cases ha.symm.trans hb
    cases hi.symm.trans hj
    cases hi'.symm.trans hj'
    rw [hafter]
    exact h.written hrest hphase ha i'

/-- The events that are still to come of each call. -/
def Compatible (rest : ι → List CallPhase) (events : List (CallEvent ι)) : Prop :=
  ∀ call, events.filterMap (CallEvent.phase call) <+: rest call

theorem compatible_cons {e : CallEvent ι} {es : List (CallEvent ι)} (h : Compatible rest (e :: es))
    (call : ι) {phase : CallPhase} (hphase : ∀ c, e.phase c = if call = c then some phase else none) :
    ∃ tail, rest call = phase :: tail ∧ Compatible (Function.update rest call tail) es := by
  have hcall := h call
  rw [List.filterMap_cons_some ((hphase call).trans (if_pos rfl))] at hcall
  obtain ⟨more, hmore⟩ := hcall
  refine ⟨es.filterMap (CallEvent.phase call) ++ more, hmore.symm, ?_⟩
  intro c
  by_cases hc : c = call
  · rw [hc, Function.update_self]
    exact List.prefix_append _ _
  · rw [Function.update_of_ne hc, ← List.filterMap_cons_none ((hphase c).trans (if_neg (Ne.symm hc)))]
    exact h c

theorem compatible_other {e : CallEvent ι} {es : List (CallEvent ι)} (h : Compatible rest (e :: es))
    (hphase : ∀ c, e.phase c = none) : Compatible rest es := by
  intro c
  rw [← List.filterMap_cons_none (hphase c)]
  exact h c

theorem recalled_iff (s : Interactions ι) (source query : String) (embedding : List Rat) :
    Attributed countTokens s (.recalled source query embedding) ↔ ∃ n, countTokens query = .ok n := by
  rw [Attributed, handle, handleOwn, handled, handled]
  cases countTokens query with
  | error error => exact iff_of_false (fun ⟨_, h, _⟩ => nomatch h) (fun ⟨_, h⟩ => nomatch h)
  | ok n => exact iff_of_true ⟨_, rfl, rfl⟩ ⟨n, rfl⟩

/-- An event that meets the condition leaves what the condition says of the rest. -/
theorem tracked_iff {events : List (CallEvent ι)} (h : Tracked rest last s)
    (hcompatible : Compatible rest events) :
    Meets (fun s e => some (afterEvent countTokens s e)) (Attributed countTokens) s events ↔
      Undisturbed countTokens last events := by
  induction events generalizing rest last s with
  | nil => exact Iff.rfl
  | cons e es ih =>
    rw [Meets]
    simp only [Option.some.injEq, forall_eq']
    cases e with
    | create call source =>
      obtain ⟨tail, hrest, htail⟩ := compatible_cons hcompatible call (fun c => rfl)
      rw [Undisturbed, ← ih (h.create hrest source) htail]
      exact and_iff_right ⟨_, rfl, rfl⟩
    | chatModelStart call messages =>
      obtain ⟨tail, hrest, htail⟩ := compatible_cons hcompatible call (fun c => rfl)
      have hown : handleOwn countTokens s (.chatModelStart call messages) =
          (readMessages countTokens messages).bind (fun read =>
            s.update call (s.appended call) (setPrompt read.1 read.2)) := rfl
      obtain ⟨hiff, hafter⟩ := h.delivered hrest (by decide)
        (fun read i => ⟨_, set_prompt_llm read.1 read.2 i⟩) rfl hown
      exact (and_congr_right (fun hattributed => ih (hafter hattributed) htail)).trans (and_congr_left' hiff)
    | llmEnd call text time =>
      obtain ⟨tail, hrest, htail⟩ := compatible_cons hcompatible call (fun c => rfl)
      have hown : handleOwn countTokens s (.llmEnd call text time) =
          (countTokens text).bind (fun n => s.update call (s.appended call) (setReply n text time)) := rfl
      obtain ⟨hiff, hafter⟩ := h.delivered hrest (by decide)
        (fun n i => ⟨_, set_reply_llm n text time i⟩) rfl hown
      exact (and_congr_right (fun hattributed => ih (hafter hattributed) htail)).trans (and_congr_left' hiff)
    | recalled source query embedding =>
      have htail := compatible_other hcompatible (fun c => rfl)
      refine (and_congr_right ?_).trans (and_congr_left' (recalled_iff s source query embedding))
      intro hattributed
      obtain ⟨n, hn⟩ := (recalled_iff s source query embedding).mp hattributed
      have hafter : afterEvent countTokens s (.recalled source query embedding) =
          s.append (.embedder ⟨source, [query], n, embedding⟩) := by
        rw [afterEvent, handle, handled, hn]
        rfl
      rw [hafter]
      exact ih (h.append _) htail
    | reset =>
      have htail := compatible_other hcompatible (fun c => rfl)
      rw [Undisturbed, ← ih h.reset htail]
      exact and_iff_right ⟨_, rfl, rfl⟩

/-- Before the handlers are created, whatever the working memory lists. -/
def Interactions.start (objects : List ModelInteraction) (modelInteractions : List Nat) : Interactions ι where
  objects := objects
  modelInteractions := modelInteractions

/-- In whatever order the events of the calls come, no event raises and each handler writes to the
interaction that it appended and to no other, exactly where nothing comes in between. -/
theorem attributed_iff (objects : List ModelInteraction) (modelInteractions : List Nat)
    (events : List (CallEvent ι))
    (hcompatible : ∀ call, events.filterMap (CallEvent.phase call) <+: [.create, .chatModelStart, .llmEnd]) :
    Meets (fun s e => some (afterEvent countTokens s e)) (Attributed countTokens)
        (.start objects modelInteractions) events ↔
      Undisturbed countTokens none events := by
  have hstart : Tracked (fun _ : ι => [.create, .chatModelStart, .llmEnd]) none
      (.start objects modelInteractions) := by
    refine ⟨fun _ _ h => (nomatch h), fun _ _ _ h _ => (nomatch h), ?_, ?_, fun _ _ => rfl⟩
    · exact fun call => iff_of_false (fun h => nomatch h) (fun ⟨_, h, _⟩ => nomatch h)
    · exact fun call hcreate => absurd List.mem_cons_self hcreate
  exact tracked_iff hstart hcompatible

/-! ### Two calls -/

/-- A call that is alone, and two calls of which the first starts when both are there. -/
def aloneCall : List (CallEvent Bool) :=
  [.recalled "StrayCat" "hi" [1], .create true "llm", .chatModelStart true [.text "hello"],
    .llmEnd true "hello" 5]

def twoCalls : List (CallEvent Bool) :=
  [.create true "tool", .create false "thread", .chatModelStart true [.text "secret"]]

def countLetters (text : String) : Except String Nat := .ok text.length

theorem alone_attributed :
    Meets (fun s e => some (afterEvent countLetters s e)) (Attributed countLetters)
      (.start [] []) aloneCall := by
  refine (attributed_iff [] [] aloneCall ?_).mpr ⟨⟨_, rfl⟩, ⟨rfl, _, rfl⟩, ⟨rfl, _, rfl⟩, trivial⟩
  intro call
  cases call <;> decide

/-- The prompt of the first call is written to the interaction of the second one. -/
theorem prompt_of_other_call :
    (twoCalls.foldl (afterEvent countLetters) (.start [] [])).objects =
      [.llm { source := "tool" }, .llm { source := "thread", prompt := ["secret"], inputTokens := 7 }] ∧
    ¬ ∀ (events : List (CallEvent Bool)),
      (∀ call, events.filterMap (CallEvent.phase call) <+: [.create, .chatModelStart, .llmEnd]) →
        Meets (fun s e => some (afterEvent countLetters s e)) (Attributed countLetters)
          (.start [] []) events := by
  refine ⟨by decide, fun hall => ?_⟩
  have hmeets := hall twoCalls (by decide)
  obtain ⟨t, hlast, hown⟩ := ((hmeets.2 _ rfl).2 _ rfl).1
  have hobjects := congrArg (fun r => (Except.toOption r).map Interactions.objects) (hlast.trans hown.symm)
  revert hobjects
  decide

end CheshireCat.Session
