import CheshireCat.Form.CatForm

namespace CheshireCat.Form
open Base

/-- The model of the last validation, and whether it succeeded. -/
def lastValidation (log : List FormEvent) : Option (FormData × Bool) :=
  log.foldl (fun last e =>
    match e with
    | .validated model valid => some (model, valid)
    | _ => last) none

/-- The state in which the current turn started, and what `confirm` has answered
in it. -/
def currentTurn (log : List FormEvent) : Option (CatFormState × Option Bool) :=
  log.foldl (fun turn e =>
    match e with
    | .nextCalled state => some (state, none)
    | .confirmed answer => turn.map (fun t => (t.1, some answer))
    | _ => turn) none

def submissions (log : List FormEvent) : List FormData :=
  log.filterMap (fun e =>
    match e with
    | .submitted model => some model
    | _ => none)

/-- The submission of `model` after `log`: it was validated last, and confirmed
in this turn where the form asks. -/
structure Allowed (cls : FormClass) (log : List FormEvent) (model : FormData) : Prop where
  validated : lastValidation log = some (model, true)
  confirmed : cls.askConfirm = true → currentTurn log = some (.waitConfirm, some true)

def Justified (cls : FormClass) (log : List FormEvent) : Prop :=
  ∀ before model after, log = before ++ .submitted model :: after → Allowed cls before model

theorem last_validation_snoc (log : List FormEvent) (e : FormEvent) :
    lastValidation (log ++ [e]) =
      match e with
      | .validated model valid => some (model, valid)
      | _ => lastValidation log := by
  unfold lastValidation
  rw [List.foldl_append]
  rfl

theorem current_turn_snoc (log : List FormEvent) (e : FormEvent) :
    currentTurn (log ++ [e]) =
      match e with
      | .nextCalled state => some (state, none)
      | .confirmed answer => (currentTurn log).map (fun t => (t.1, some answer))
      | _ => currentTurn log := by
  unfold currentTurn
  rw [List.foldl_append]
  rfl

/-- A new last event is the only one that needs a reason. -/
theorem Justified.snoc {cls : FormClass} {log : List FormEvent} (h : Justified cls log)
    {e : FormEvent} (he : ∀ model, e = .submitted model → Allowed cls log model) :
    Justified cls (log ++ [e]) := by
  intro before model after heq
  rcases List.eq_nil_or_concat after with rfl | ⟨after', x, rfl⟩
  · obtain ⟨rfl, hl⟩ := List.append_inj' heq rfl
    exact he model (List.cons.inj hl).1
  · have heq' : log ++ [e] = (before ++ .submitted model :: after') ++ [x] := by
      simpa using heq
    obtain ⟨hlog, _⟩ := List.append_inj' heq' rfl
    exact h before model after' hlog

/-- What holds of a form inside `next` until it is submitted. -/
structure Unsubmitted (cls : FormClass) (f : CatForm) : Prop where
  justified : Justified cls f.log
  none : submissions f.log = []

theorem Unsubmitted.note {cls : FormClass} {f : CatForm} (h : Unsubmitted cls f) {e : FormEvent}
    (he : ∀ model, e ≠ .submitted model) : Unsubmitted cls (f.note e) := by
  refine ⟨h.justified.snoc (fun model hm => absurd hm (he model)), ?_⟩
  change submissions (f.log ++ [e]) = []
  unfold submissions
  rw [List.filterMap_append]
  have hnone : submissions f.log = [] := h.none
  unfold submissions at hnone
  rw [hnone]
  cases e with
  | submitted model => exact absurd rfl (he model)
  | nextCalled state => rfl
  | confirmed answer => rfl
  | validated model valid => rfl

/-- What holds of a form between turns. -/
structure Sound (cls : FormClass) (f : CatForm) : Prop where
  justified : Justified cls f.log
  once : (submissions f.log).length ≤ 1
  notComplete : f.state ≠ .complete
  unsubmitted : f.state ≠ .closed → submissions f.log = []
  waiting : f.state = .waitConfirm → lastValidation f.log = some (f.model, true)

theorem Unsubmitted.sound {cls : FormClass} {f : CatForm} (h : Unsubmitted cls f)
    (hc : f.state ≠ .complete)
    (hw : f.state = .waitConfirm → lastValidation f.log = some (f.model, true)) :
    Sound cls f :=
  ⟨h.justified, by rw [h.none]; exact Nat.zero_le 1, hc, fun _ => h.none, hw⟩

theorem submit_sound {cls : FormClass} {turn : Turn} {f : CatForm} (h : Unsubmitted cls f)
    (hclosed : f.state = .closed) (ha : Allowed cls f.log f.model) :
    (f.submit turn).Ends (Sound cls) (Sound cls) := by
  have hs : Sound cls (f.note (.submitted f.model)) := by
    refine ⟨?_, ?_, ?_, ?_, ?_⟩
    · refine h.justified.snoc ?_
      intro model hm
      cases hm
      exact ha
    · have hnone := h.none
      change (submissions (f.log ++ [.submitted f.model])).length ≤ 1
      unfold submissions at hnone ⊢
      rw [List.filterMap_append, hnone]
      exact Nat.le_refl 1
    · change f.state ≠ .complete
      rw [hclosed]
      exact nofun
    · intro hne
      exact absurd hclosed hne
    · intro hw
      have hw' : f.state = .waitConfirm := hw
      rw [hclosed] at hw'
      cases hw'
  unfold CatForm.submit
  simp only
  split
  · exact hs
  · exact hs

theorem message_ends (turn : Turn) (f : CatForm) :
    (f.message turn).Ends (fun t => t = f) (fun t => t = f) := by
  unfold CatForm.message
  split <;> rfl

/-- Collecting the errors changes the model and the messages only. -/
theorem collect_ends (errors : List FieldError) (f : CatForm) :
    (Outcome.loop CatForm.collect errors f).Ends
      (fun t => t.state = f.state ∧ t.log = f.log) (fun t => t.state = f.state ∧ t.log = f.log) := by
  refine Outcome.Ends.loop ?_ ⟨rfl, rfl⟩
  intro e _ t ht
  unfold CatForm.collect
  split
  · exact ht
  · split
    · exact ht
    · simp only
      split
      · exact ht
      · exact ht

/-- An update ends complete and validated, or incomplete. -/
theorem update_ends {cls : FormClass} {turn : Turn} {f : CatForm} (h : Unsubmitted cls f)
    (hf : f.state = .incomplete) :
    (f.update turn).Ends
      (fun t => Unsubmitted cls t ∧ (t.state = .incomplete ∨
        (t.state = .complete ∧ lastValidation t.log = some (t.model, true))))
      (fun t => Unsubmitted cls t ∧ t.state = .incomplete) := by
  unfold CatForm.update
  split
  · exact ⟨h, hf⟩
  · split
    · exact ⟨h, hf⟩
    · rename_i details _
      unfold CatForm.validate
      simp only
      split
      · refine ⟨?_, Or.inr ⟨rfl, ?_⟩⟩
        · have hn := h.note (e := .validated (f.model.update details) true) nofun
          exact ⟨hn.justified, hn.none⟩
        · exact last_validation_snoc _ _
      · have hn := h.note (e := .validated (f.model.update details) false) nofun
        exact ⟨⟨hn.justified, hn.none⟩, hf⟩
      · rename_i errors _
        have hn := h.note (e := .validated (f.model.update details) false) nofun
        refine ((collect_ends errors _).mono (fun t ht => ht) ?_).andThen ?_
        · intro t ht
          obtain ⟨hstate, hlog⟩ := ht
          have hlog' : t.log = (f.note (.validated (f.model.update details) false)).log := hlog
          exact ⟨⟨hlog' ▸ hn.justified, hlog' ▸ hn.none⟩, hstate.trans hf⟩
        · intro t ht
          obtain ⟨_, hlog⟩ := ht
          have hlog' : t.log = (f.note (.validated (f.model.update details) false)).log := hlog
          exact ⟨⟨hlog' ▸ hn.justified, hlog' ▸ hn.none⟩, Or.inl rfl⟩

theorem conclude_sound {cls : FormClass} {turn : Turn} {f : CatForm} (h : Unsubmitted cls f)
    (hw : f.state ≠ .waitConfirm)
    (hc : f.state = .complete → lastValidation f.log = some (f.model, true)) :
    (f.conclude cls turn).Ends (Sound cls) (Sound cls) := by
  unfold CatForm.conclude
  split
  · rename_i hcomplete
    have hlast := hc hcomplete
    split
    · have hs : Sound cls { f with state := .waitConfirm } :=
        Unsubmitted.sound ⟨h.justified, h.none⟩ nofun (fun _ => hlast)
      exact (message_ends turn _).mono (fun t ht => ht ▸ hs) (fun t ht => ht ▸ hs)
    · rename_i hask
      refine submit_sound ⟨h.justified, h.none⟩ rfl ⟨hlast, ?_⟩
      intro htrue
      exact absurd htrue hask
  · rename_i hcomplete
    have hs : Sound cls f := h.sound hcomplete (fun hwait => absurd hwait hw)
    exact (message_ends turn f).mono (fun t ht => ht ▸ hs) (fun t ht => ht ▸ hs)

theorem proceed_sound {cls : FormClass} {turn : Turn} {f : CatForm} (h : Unsubmitted cls f)
    (hf : f.state = .incomplete ∨ f.state = .closed) :
    (f.proceed cls turn).Ends (Sound cls) (Sound cls) := by
  have hsound {t : CatForm} (ht : Unsubmitted cls t) (hs : t.state = .incomplete ∨ t.state = .closed) :
      Sound cls t := by
    refine ht.sound ?_ ?_
    · rcases hs with hs | hs <;> rw [hs] <;> exact nofun
    · intro hw
      rcases hs with hs | hs <;> rw [hs] at hw <;> cases hw
  have hafter {t : CatForm} (ht : Unsubmitted cls t)
      (hs : t.state = .incomplete ∨ t.state = .closed) :
      ((if t.state = .incomplete then t.update turn else .returned t).andThen
        (CatForm.conclude cls turn)).Ends (Sound cls) (Sound cls) := by
    split
    · rename_i hinc
      refine ((update_ends ht hinc).mono (fun u hu => hu) ?_).andThen ?_
      · intro u hu
        obtain ⟨hu, hstate⟩ := hu
        exact hsound hu (Or.inl hstate)
      · intro u hu
        obtain ⟨hu, hstate⟩ := hu
        refine conclude_sound hu ?_ ?_
        · rcases hstate with hs | ⟨hs, _⟩ <;> rw [hs] <;> exact nofun
        · intro hcomplete
          rcases hstate with hs | ⟨_, hlast⟩
          · rw [hcomplete] at hs
            cases hs
          · exact hlast
    · rename_i hinc
      have hclosed : t.state = .closed := hs.resolve_left hinc
      refine conclude_sound ht ?_ ?_
      · rw [hclosed]
        exact nofun
      · intro hcomplete
        rw [hclosed] at hcomplete
        cases hcomplete
  unfold CatForm.proceed
  split
  · exact hsound h hf
  · rename_i exit _
    cases exit with
    | true => exact hafter (t := { f with state := .closed }) ⟨h.justified, h.none⟩ (Or.inr rfl)
    | false => exact hafter h hf

/-- One call of `next` on an open form, in any turn. -/
theorem next_sound {cls : FormClass} {turn : Turn} {f : CatForm} (h : Sound cls f)
    (hopen : f.state ≠ .closed) :
    ((f.note (.nextCalled f.state)).next cls turn).Ends (Sound cls) (Sound cls) := by
  have hstart : Unsubmitted cls (f.note (.nextCalled f.state)) :=
    Unsubmitted.note ⟨h.justified, h.unsubmitted hopen⟩ nofun
  unfold CatForm.next
  split
  · rename_i hwait
    have hwait' : f.state = .waitConfirm := hwait
    have hlast : lastValidation (f.note (.nextCalled f.state)).log = some (f.model, true) :=
      (last_validation_snoc _ _).trans (h.waiting hwait')
    split
    · refine hstart.sound ?_ (fun _ => hlast)
      rw [hwait]
      exact nofun
    · -- confirmed: the model is still the one that was validated last
      have hn := hstart.note (e := .confirmed true) nofun
      refine submit_sound ⟨hn.justified, hn.none⟩ rfl ⟨?_, fun _ => ?_⟩
      · exact (last_validation_snoc _ _).trans hlast
      · change currentTurn ((f.log ++ [.nextCalled f.state]) ++ [.confirmed true]) = _
        rw [current_turn_snoc, current_turn_snoc, hwait']
        rfl
    · have hn := hstart.note (e := .confirmed false) nofun
      simp only
      split
      · refine hn.sound ?_ ?_
        · change f.state ≠ .complete
          rw [hwait']
          exact nofun
        · intro _
          exact (last_validation_snoc _ _).trans hlast
      · exact proceed_sound ⟨hn.justified, hn.none⟩ (Or.inr rfl)
      · exact proceed_sound ⟨hn.justified, hn.none⟩ (Or.inl rfl)
  · rename_i hwait
    refine proceed_sound hstart ?_
    change f.state = .incomplete ∨ f.state = .closed
    have hwait' : f.state ≠ .waitConfirm := hwait
    cases hs : f.state with
    | incomplete => exact Or.inl rfl
    | complete => exact absurd hs h.notComplete
    | waitConfirm => exact absurd hs hwait'
    | closed => exact Or.inr rfl

theorem execute_sound {cls : FormClass} {m : FormMemory} (h : Sound cls m.form) (turn : Turn) :
    Sound cls (execute cls m turn).form := by
  unfold execute
  split
  · split
    · exact h
    · rename_i hopen
      exact (next_sound h hopen).state
  · exact h

theorem execute_closed {cls : FormClass} {m : FormMemory} (h : m.form.state = .closed) (turn : Turn) :
    (execute cls m turn).form = m.form := by
  simp only [execute, h, if_true]
  split
  · rfl
  · rfl

/-- Over any turns: at most one submission, of the model that was validated last
and, where the form asks, in a turn that started with a confirmation; never
complete between turns; and a closed form is left alone, `next` included. -/
theorem form_submitted_once (cls : FormClass) (turns : List Turn) :
    let m := turns.foldl (execute cls) {}
    (submissions m.form.log).length ≤ 1 ∧ Justified cls m.form.log ∧
      m.form.state ≠ .complete ∧
      (m.form.state = .closed → ∀ later : List Turn,
        (later.foldl (execute cls) m).form = m.form) := by
  have hrun (turns : List Turn) (m : FormMemory) (h : Sound cls m.form) :
      Sound cls (turns.foldl (execute cls) m).form := by
    induction turns generalizing m with
    | nil => exact h
    | cons turn turns ih => exact ih _ (execute_sound h turn)
  have hstay (later : List Turn) (m : FormMemory) (h : m.form.state = .closed) :
      (later.foldl (execute cls) m).form = m.form := by
    induction later generalizing m with
    | nil => rfl
    | cons turn turns ih =>
      have hone : (execute cls m turn).form = m.form := execute_closed h turn
      exact (ih _ (hone ▸ h)).trans hone
  have hstart : Sound cls ({} : FormMemory).form := by
    refine Unsubmitted.sound ⟨?_, rfl⟩ nofun nofun
    intro before model after h
    cases before <;> cases h
  intro m
  have hm := hrun turns {} hstart
  exact ⟨hm.once, hm.justified, hm.notComplete, fun h later => hstay later m h⟩

/-- Every answer of the LLM is yes, but nobody wants to exit. -/
def agreeable : Turn where
  confirm := .ok true
  refusedExit := .ok false
  exit := .ok false
  extract := .ok (.obj [("name", .str "Alice"), ("size", .null)])
  model := fun _ => .valid
  submit := fun _ => none
  message := fun _ => none

example : submissions (([agreeable, agreeable, agreeable].foldl (execute ⟨true⟩) {}).form.log) =
    [Dict.ofList [("name", .str "Alice")]] := by decide

end CheshireCat.Form
