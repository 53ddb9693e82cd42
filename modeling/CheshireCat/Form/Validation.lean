import CheshireCat.Form.CatForm

namespace CheshireCat.Form
open Base

def Validation.errors : Validation → List FieldError
  | .invalid errors => errors
  | _ => []

/-- The top-level fields of the errors other than missing values. -/
def reportedFields (errors : List FieldError) : List (Option String) :=
  (errors.filter (fun e => e.type ≠ "missing")).map (fun e => e.loc.head?)

/-- The form tells about the error. -/
def FieldError.Reflected (e : FieldError) (f : CatForm) : Prop :=
  match e.loc with
  | [] => ∃ text ∈ f.missingFields ++ f.errors, e.msg.toList <:+ text.toList
  | fieldName :: _ =>
    if e.type = "missing" then fieldName ∈ f.missingFields
    else fieldName ++ ": " ++ e.msg ∈ f.errors

/-- The form `t` after a validation of `f`: its state tells whether the model is valid, it has
lost the fields that were reported invalid and no others, and it tells about every error. -/
structure Validated (result : Validation) (f t : CatForm) : Prop where
  complete : t.state = .complete ↔ result = .valid
  incomplete : t.state = .incomplete ↔ result ≠ .valid
  model : t.model = f.model.restrict (fun k => some k ∉ reportedFields result.errors)
  reflected : ∀ e ∈ result.errors, e.Reflected t

/-- Every error names a field, and those other than missing values name different fields that
are in the model. -/
structure ErrorsApart (model : FormData) (errors : List FieldError) : Prop where
  named : ∀ e ∈ errors, e.loc ≠ []
  collected : ∀ k, some k ∈ reportedFields errors → k ∈ model.keys
  apart : (reportedFields errors).Nodup

/-- The form after a series of updates. What an update raises is only logged. -/
def CatForm.updates (turns : List Turn) (f : CatForm) : CatForm :=
  turns.foldl (fun f turn => (f.update turn).state) f

/-- The validation in one of the updates reports the field as invalid. -/
def ReportedInvalid (turns : List Turn) (f : CatForm) (k : String) : Prop :=
  ∃ before turn after jsonDetails details, turns = before ++ turn :: after ∧
    turn.extract = .ok jsonDetails ∧ sanitize jsonDetails = .ok details ∧
    some k ∈ reportedFields (turn.model ((f.updates before).model.update details)).errors

/-! ### Collecting the errors -/

theorem reported_missing {e : FieldError} (h : e.type = "missing") (errors : List FieldError) :
    reportedFields (e :: errors) = reportedFields errors := by
  simp [reportedFields, h]

theorem reported_invalid {e : FieldError} (h : e.type ≠ "missing") (errors : List FieldError) :
    reportedFields (e :: errors) = e.loc.head? :: reportedFields errors := by
  simp [reportedFields, h]

theorem collect_missing {e : FieldError} {fieldName : String} {rest : List String}
    (hloc : e.loc = fieldName :: rest) (h : e.type = "missing") (f : CatForm) :
    f.collect e = .returned { f with missingFields := f.missingFields ++ [fieldName] } := by
  unfold CatForm.collect
  rw [hloc]
  exact if_pos h

theorem collect_invalid {e : FieldError} {fieldName : String} {rest : List String}
    (hloc : e.loc = fieldName :: rest) (h : e.type ≠ "missing") (f : CatForm) :
    f.collect e =
      let t := { f with errors := f.errors ++ [fieldName ++ ": " ++ e.msg] }
      if fieldName ∈ f.model.keys then .returned { t with model := f.model.erase fieldName }
      else .raised "KeyError" t := by
  unfold CatForm.collect
  rw [hloc]
  exact if_neg h

/-- What is told stays told. -/
theorem FieldError.Reflected.mono {e : FieldError} {f t : CatForm} (h : e.Reflected f)
    (hmissing : f.missingFields ⊆ t.missingFields) (herrors : f.errors ⊆ t.errors) :
    e.Reflected t := by
  unfold FieldError.Reflected at *
  split at h
  · obtain ⟨text, htext, hmsg⟩ := h
    refine ⟨text, ?_, hmsg⟩
    rcases List.mem_append.mp htext with htext | htext
    · exact List.mem_append_left _ (hmissing htext)
    · exact List.mem_append_right _ (herrors htext)
  · split at h
    · rename_i he
      exact (if_pos he).mpr (hmissing h)
    · rename_i he
      exact (if_neg he).mpr (herrors h)

/-- What is known of a form that has collected the errors. -/
structure Collected (errors : List FieldError) (f t : CatForm) : Prop where
  errorsApart : ErrorsApart f.model errors
  model : t.model = f.model.restrict (fun k => some k ∉ reportedFields errors)
  reflected : ∀ e ∈ errors, e.Reflected t
  missing : f.missingFields ⊆ t.missingFields
  told : f.errors ⊆ t.errors

theorem restrict_all (d : FormData) {p : String → Bool} (h : ∀ k, p k = true) : d.restrict p = d :=
  Dict.ext (List.filter_eq_self.mpr (fun e _ => h e.1))

theorem collected_nil (f : CatForm) : Collected [] f f where
  errorsApart := ⟨nofun, nofun, List.nodup_nil⟩
  model := (restrict_all f.model (by simp [reportedFields])).symm
  reflected := nofun
  missing := fun _ => id
  told := fun _ => id

theorem Collected.missing_cons {e : FieldError} {errors : List FieldError} {f t : CatForm}
    {fieldName : String} {rest : List String} (hloc : e.loc = fieldName :: rest)
    (he : e.type = "missing")
    (h : Collected errors { f with missingFields := f.missingFields ++ [fieldName] } t) :
    Collected (e :: errors) f t := by
  have hreported := reported_missing he errors
  refine ⟨⟨?_, ?_, ?_⟩, ?_, ?_, ?_, h.told⟩
  · intro e' he'
    rcases List.mem_cons.mp he' with rfl | he'
    · exact hloc ▸ List.cons_ne_nil fieldName rest
    · exact h.errorsApart.named e' he'
  · exact hreported ▸ h.errorsApart.collected
  · exact hreported ▸ h.errorsApart.apart
  · exact hreported ▸ h.model
  · intro e' he'
    rcases List.mem_cons.mp he' with rfl | he'
    · unfold FieldError.Reflected
      rw [hloc]
      exact (if_pos he).mpr (h.missing (List.mem_append_right _ (List.mem_singleton_self _)))
    · exact h.reflected e' he'
  · exact fun k hk => h.missing (List.mem_append_left _ hk)

theorem mem_keys_erase (d : FormData) (k k' : String) : k ∈ (d.erase k').keys ↔ k ≠ k' ∧ k ∈ d.keys := by
  simp only [Dict.mem_keys_iff, Dict.get?_erase]
  by_cases h : k = k' <;> simp [h]

theorem Collected.invalid_cons {e : FieldError} {errors : List FieldError} {f t : CatForm}
    {fieldName : String} {rest : List String} (hloc : e.loc = fieldName :: rest)
    (he : e.type ≠ "missing") (hkey : fieldName ∈ f.model.keys)
    (h : Collected errors { f with
      errors := f.errors ++ [fieldName ++ ": " ++ e.msg]
      model := f.model.erase fieldName } t) :
    Collected (e :: errors) f t := by
  have hreported : reportedFields (e :: errors) = some fieldName :: reportedFields errors := by
    rw [reported_invalid he, hloc]
    rfl
  have hcollected : ∀ k, some k ∈ reportedFields errors → k ≠ fieldName ∧ k ∈ f.model.keys :=
    fun k hk => (mem_keys_erase _ _ _).mp (h.errorsApart.collected k hk)
  refine ⟨⟨?_, ?_, ?_⟩, ?_, ?_, h.missing, ?_⟩
  · intro e' he'
    rcases List.mem_cons.mp he' with rfl | he'
    · exact hloc ▸ List.cons_ne_nil fieldName rest
    · exact h.errorsApart.named e' he'
  · intro k hk
    rw [hreported] at hk
    rcases List.mem_cons.mp hk with hk | hk
    · exact Option.some.inj hk ▸ hkey
    · exact (hcollected k hk).2
  · rw [hreported]
    exact List.nodup_cons.mpr ⟨fun hk => (hcollected _ hk).1 rfl, h.errorsApart.apart⟩
  · rw [h.model, hreported]
    apply Dict.ext
    change (f.model.entries.filter _).filter _ = f.model.entries.filter _
    rw [List.filter_filter]
    apply List.filter_congr
    intro p _
    simp [Bool.and_comm]
  · intro e' he'
    rcases List.mem_cons.mp he' with rfl | he'
    · unfold FieldError.Reflected
      rw [hloc]
      exact (if_neg he).mpr (h.told (List.mem_append_right _ (List.mem_singleton_self _)))
    · exact h.reflected e' he'
  · exact fun k hk => h.told (List.mem_append_left _ hk)

/-- A loop over the errors that returns has collected them. -/
theorem collected_of_returned {errors : List FieldError} {f t : CatForm}
    (h : Outcome.loop CatForm.collect errors f = .returned t) : Collected errors f t := by
  induction errors generalizing f with
  | nil =>
    cases h
    exact collected_nil _
  | cons e errors ih =>
    rw [Outcome.loop] at h
    cases hloc : e.loc with
    | nil =>
      unfold CatForm.collect at h
      rw [hloc] at h
      cases h
    | cons fieldName rest =>
      by_cases he : e.type = "missing"
      · rw [collect_missing hloc he] at h
        exact (ih h).missing_cons hloc he
      · rw [collect_invalid hloc he] at h
        by_cases hkey : fieldName ∈ f.model.keys
        · rw [if_pos hkey] at h
          exact (ih h).invalid_cons hloc he hkey
        · rw [if_neg hkey] at h
          cases h

theorem loop_returned {errors : List FieldError} {f : CatForm} (h : ErrorsApart f.model errors) :
    ∃ t, Outcome.loop CatForm.collect errors f = .returned t := by
  induction errors generalizing f with
  | nil => exact ⟨f, rfl⟩
  | cons e errors ih =>
    have hnamed : ∀ e' ∈ errors, e'.loc ≠ [] := fun e' he' => h.named e' (List.mem_cons_of_mem e he')
    obtain ⟨fieldName, rest, hloc⟩ := List.exists_cons_of_ne_nil (h.named e List.mem_cons_self)
    rw [Outcome.loop]
    by_cases he : e.type = "missing"
    · rw [collect_missing hloc he]
      have hreported := reported_missing he errors
      exact ih ⟨hnamed, hreported ▸ h.collected, hreported ▸ h.apart⟩
    · have hreported : reportedFields (e :: errors) = some fieldName :: reportedFields errors := by
        rw [reported_invalid he, hloc]
        rfl
      have hnodup := h.apart
      rw [hreported, List.nodup_cons] at hnodup
      rw [collect_invalid hloc he, if_pos (h.collected fieldName (hreported ▸ List.mem_cons_self))]
      apply ih
      refine ⟨hnamed, ?_, hnodup.2⟩
      intro k hk
      refine (mem_keys_erase _ _ _).mpr ⟨?_, h.collected k (hreported ▸ List.mem_cons_of_mem _ hk)⟩
      rintro rfl
      exact hnodup.1 hk

/-- The form when its model was found invalid, before the errors are collected. -/
def CatForm.rejected (f : CatForm) : CatForm :=
  CatForm.note { f with missingFields := [], errors := [] } (.validated f.model false)

theorem validate_invalid {turn : Turn} {f : CatForm} {errors : List FieldError}
    (h : turn.model f.model = .invalid errors) :
    f.validate turn = (Outcome.loop CatForm.collect errors f.rejected).andThen
      (fun f => .returned { f with state := .incomplete }) := by
  unfold CatForm.validate
  simp only [h]
  rfl

/-! ### Series of updates -/

/-- Only a report takes a field out of the model. -/
theorem collect_keeps {errors : List FieldError} {f : CatForm} {k : String} (hk : k ∈ f.model.keys)
    (h : some k ∉ reportedFields errors) :
    k ∈ (Outcome.loop CatForm.collect errors f).state.model.keys := by
  have hends : (Outcome.loop CatForm.collect errors f).Ends (fun t => k ∈ t.model.keys)
      (fun t => k ∈ t.model.keys) := by
    refine Outcome.Ends.loop ?_ hk
    intro e he t ht
    unfold CatForm.collect
    split
    · exact ht
    · rename_i fieldName rest hloc
      split
      · exact ht
      · rename_i htype
        simp only
        split
        · refine (mem_keys_erase _ _ _).mpr ⟨?_, ht⟩
          rintro rfl
          apply h
          refine List.mem_map.mpr ⟨e, List.mem_filter.mpr ⟨he, decide_eq_true htype⟩, ?_⟩
          rw [hloc]
          rfl
        · exact ht
  exact hends.state

theorem validate_keeps {turn : Turn} {f : CatForm} {k : String} (hk : k ∈ f.model.keys)
    (h : some k ∉ reportedFields (turn.model f.model).errors) :
    k ∈ (f.validate turn).state.model.keys := by
  cases hresult : turn.model f.model with
  | valid =>
    unfold CatForm.validate
    simp only [hresult]
    exact hk
  | raises error =>
    unfold CatForm.validate
    simp only [hresult]
    exact hk
  | invalid errors =>
    rw [hresult] at h
    have hkept := collect_keeps (f := f.rejected) hk h
    rw [validate_invalid hresult]
    revert hkept
    change k ∈ (Outcome.loop CatForm.collect errors f.rejected).state.model.keys → _
    cases Outcome.loop CatForm.collect errors f.rejected with
    | returned t => exact id
    | raised error t => exact id

/-- The values that the LLM gives are added to the model before it is validated. -/
theorem update_keeps {turn : Turn} {f : CatForm} {k : String} (hk : k ∈ f.model.keys)
    (h : ∀ jsonDetails details, turn.extract = .ok jsonDetails → sanitize jsonDetails = .ok details →
      some k ∉ reportedFields (turn.model (f.model.update details)).errors) :
    k ∈ (f.update turn).state.model.keys := by
  unfold CatForm.update
  split
  · exact hk
  · rename_i jsonDetails hextract
    split
    · exact hk
    · rename_i details hdetails
      apply validate_keeps
      · exact (Dict.mem_keys_foldl_set _ _ _ _ _).mpr (Or.inr hk)
      · exact h jsonDetails details hextract hdetails

theorem updates_keep {turns : List Turn} {f : CatForm} {k : String} (hk : k ∈ f.model.keys)
    (h : ¬ ReportedInvalid turns f k) : k ∈ (f.updates turns).model.keys := by
  induction turns generalizing f with
  | nil => exact hk
  | cons turn turns ih =>
    apply ih
    · apply update_keeps hk
      intro jsonDetails details hextract hdetails hreported
      exact h ⟨[], turn, turns, jsonDetails, details, rfl, hextract, hdetails, hreported⟩
    · rintro ⟨before, later, after, jsonDetails, details, rfl, hreport⟩
      exact h ⟨turn :: before, later, after, jsonDetails, details, rfl, hreport⟩

/-- A validation returns, and loses only what was reported invalid, exactly where the errors
name different fields of the model; and over any updates only a report loses a field. -/
theorem validates_iff {turn : Turn} {f : CatForm} (h : ∀ error, turn.model f.model ≠ .raises error) :
    ((∃ t, f.validate turn = .returned t ∧ Validated (turn.model f.model) f t) ↔
      ErrorsApart f.model (turn.model f.model).errors) ∧
    ∀ turns k, k ∈ f.model.keys → k ∉ (f.updates turns).model.keys → ReportedInvalid turns f k := by
  constructor
  · cases hresult : turn.model f.model with
    | valid =>
      apply iff_of_true
      · have hvalid : f.validate turn = .returned { CatForm.note
            { f with missingFields := [], errors := [] } (.validated f.model true) with
            state := .complete } := by
          unfold CatForm.validate
          simp only [hresult]
        refine ⟨_, hvalid, by simp, by simp, ?_, nofun⟩
        exact (restrict_all f.model (by simp [Validation.errors, reportedFields])).symm
      · exact (collected_nil f).errorsApart
    | raises error => exact absurd hresult (h error)
    | invalid errors =>
      rw [validate_invalid hresult]
      constructor
      · rintro ⟨t, ht, _⟩
        cases hloop : Outcome.loop CatForm.collect errors f.rejected with
        | returned u => exact (collected_of_returned hloop).errorsApart
        | raised error u =>
          rw [hloop] at ht
          cases ht
      · intro hapart
        obtain ⟨t, hloop⟩ := loop_returned (f := f.rejected) hapart
        change Outcome.loop CatForm.collect errors f.rejected = _ at hloop
        have hcollected := collected_of_returned hloop
        rw [hloop]
        refine ⟨_, rfl, by simp, by simp, hcollected.model, ?_⟩
        intro e he
        exact (hcollected.reflected e he).mono (fun _ => id) (fun _ => id)
  · intro turns k hk hgone
    by_contra hnone
    exact hgone (updates_keep hk hnone)

def orderForm : CatForm where
  model := Dict.ofList [("name", .str "Alice"), ("sizes", .arr [.str "a", .str "b"])]

def turnWith (errors : List FieldError) : Turn where
  confirm := .ok true
  refusedExit := .ok false
  exit := .ok false
  extract := .ok (.obj [])
  model := fun _ => .invalid errors
  submit := fun _ => none
  message := fun _ => none

def sizeError (i : String) : FieldError :=
  ⟨["sizes", i], "int_parsing", "Input should be a valid integer, unable to parse string as an integer"⟩

theorem validates_one_error :
    ∃ t, orderForm.validate (turnWith [sizeError "0"]) = .returned t ∧
      Validated (.invalid [sizeError "0"]) orderForm t := by
  refine (@validates_iff (turnWith [sizeError "0"]) _ (fun _ h => by cases h)).1.mpr ⟨?_, ?_, ?_⟩
  · intro e he
    rw [List.mem_singleton.mp he]
    exact List.cons_ne_nil _ _
  · intro k hk
    rw [Option.some.inj (List.mem_singleton.mp hk)]
    decide
  · decide

/-- Two sizes of the list are wrong, and another time an error is about the model as a whole. -/
theorem second_error_raises :
    (∃ t, orderForm.validate (turnWith [sizeError "0", sizeError "1"]) = .raised "KeyError" t) ∧
    (∃ t, orderForm.validate (turnWith [⟨[], "value_error", "Value error, too many"⟩]) =
      .raised "IndexError" t) ∧
    ¬ ∃ t, orderForm.validate (turnWith [sizeError "0", sizeError "1"]) = .returned t ∧
      Validated (.invalid [sizeError "0", sizeError "1"]) orderForm t := by
  refine ⟨⟨_, rfl⟩, ⟨_, rfl⟩, ?_⟩
  rintro ⟨t, ht, _⟩
  cases ht

end CheshireCat.Form
