import CheshireCat.Documents.Isolation

namespace CheshireCat.Documents
open Base Json Memory

/-- A name that a recall reads as one field, and that `store_documents` does not
overwrite. -/
def PlainName (name : String) : Prop :=
  '.' ∉ name.toList ∧ ¬ ['[', ']'] <:+ name.toList ∧ name ≠ "source" ∧ name ≠ "when"

instance (name : String) : Decidable (PlainName name) :=
  inferInstanceAs (Decidable (_ ∧ _))

/-- The name leads past the flags of the upload to a `true` in the metadata that the
document came with. -/
def OwnFlag (user : String) (active : List String) (metadata : Fields) (key : String) : Prop :=
  ∃ name rest, pathSteps key = .field name :: rest ∧ ¬ Assigned user active name ∧
    (resolve (.field name :: rest) (.obj metadata)).any (matchesValue (.bool true)) = true

/-- The recall asks for nothing but flags of the upload. -/
def Covered (user : String) (active recalled : List String) : Prop :=
  ∀ tag ∈ recalled, tag = user ∨ tag ∈ active

/-- What the names have to be for the recall to see the chunk exactly when it is covered. -/
def NamesFit (user : String) (active recalled : List String) (metadata : Fields) : Prop :=
  (Covered user active recalled →
    ∀ key, key = user ∨ key ∈ recalled → PlainName key ∨ OwnFlag user active metadata key) ∧
  (¬ Covered user active recalled →
    ∃ key, (key = user ∨ key ∈ recalled) ∧ ¬ OwnFlag user active metadata key ∧
      (key = user ∨ key ∈ active → ¬ PlainName key))

theorem flagged_iff (user : String) (active : List String) (metadata : Fields) (key : String) :
    Flagged user active metadata key ↔
      (PlainName key ∧ (key = user ∨ key ∈ active)) ∨ OwnFlag user active metadata key := by
  unfold Flagged PlainName OwnFlag
  rw [path_steps_plain]
  constructor
  · intro h
    rcases h with ⟨⟨hdot, hlist⟩, hflag, hs, hw⟩ | hown
    · exact Or.inl ⟨⟨hdot, hlist, hs, hw⟩, hflag⟩
    · exact Or.inr hown
  · intro h
    rcases h with ⟨⟨hdot, hlist, hs, hw⟩, hflag⟩ | hown
    · exact Or.inl ⟨⟨hdot, hlist⟩, hflag, hs, hw⟩
    · exact Or.inr hown

/-- The names that the recall asks for are flags of the chunk exactly when they are
covered. -/
theorem names_fit_iff (user : String) (active recalled : List String) (metadata : Fields) :
    ((∀ key, key = user ∨ key ∈ recalled → Flagged user active metadata key) ↔
      Covered user active recalled) ↔ NamesFit user active recalled metadata := by
  simp only [flagged_iff]
  by_cases hc : Covered user active recalled
  · have hflag : ∀ key, key = user ∨ key ∈ recalled → key = user ∨ key ∈ active := by
      intro key hkey
      rcases hkey with hu | hr
      · exact Or.inl hu
      · exact hc key hr
    constructor
    · intro h
      refine ⟨?_, fun hn => absurd hc hn⟩
      intro _ key hkey
      rcases h.mpr hc key hkey with hp | hown
      · exact Or.inl hp.1
      · exact Or.inr hown
    · intro h
      refine ⟨fun _ => hc, ?_⟩
      intro _ key hkey
      rcases h.1 hc key hkey with hp | hown
      · exact Or.inl ⟨hp, hflag key hkey⟩
      · exact Or.inr hown
  · constructor
    · intro h
      refine ⟨fun hx => absurd hx hc, ?_⟩
      intro _
      by_contra hnone
      refine hc (h.mp ?_)
      intro key hkey
      by_contra hn
      refine hnone ⟨key, hkey, fun hown => hn (Or.inr hown), ?_⟩
      intro hflag hp
      exact hn (Or.inl ⟨hp, hflag⟩)
    · intro h
      refine ⟨?_, fun hx => absurd hx hc⟩
      intro hall
      obtain ⟨key, hkey, hown, hplain⟩ := h.2 hc
      rcases hall key hkey with hp | ho
      · exact absurd hp.1 (hplain hp.2)
      · exact absurd ho hown

/-- What a user uploads he recalls under the flags it was uploaded with, exactly when
the names fit. -/
theorem own_upload_recalled_iff (atUpload atRecall : Static) (u : String)
    (active recalled : List String) (docs : List Document) (d : Nat) (doc : Document)
    (source : String) (clock : Nat → Rat) (chunk : Json) (config config' : Fields)
    (hactive : atUpload.activeTags u = some active)
    (hrecalled : atRecall.activeTags u = some recalled)
    (hupload : (beforeRabbitholeStoresDocuments atUpload u docs).isSome)
    (hdoc : docs[d]? = some doc)
    (hchunk : (storeDocuments atUpload u docs source clock [])[d]? = some (some chunk))
    (hconfig : beforeCatRecallsDeclarativeMemories atRecall u config = some config') :
    (matchesFilter (recallFilter config') chunk = true ↔ Covered u active recalled) ↔
      NamesFit u active recalled doc.metadata := by
  rw [← names_fit_iff, stored_chunk hactive hupload hdoc hchunk,
    recall_filter_matches hrecalled hconfig]
  simp only [stored_flagged]

/-- alice recalls her report under the tag that she uploaded it with. -/
theorem own_upload_recalled_alice :
    ∃ chunk config',
      (storeDocuments salesTag "alice" [report] "report.pdf" (fun _ => 0) [])[0]? =
        some (some chunk) ∧
      beforeCatRecallsDeclarativeMemories salesTag "alice" recallConfig = some config' ∧
      matchesFilter (recallFilter config') chunk = true := by
  have hiff := own_upload_recalled_iff salesTag salesTag "alice" ["sales"] ["sales"] [report] 0
    report "report.pdf" (fun _ => 0) _ recallConfig _ (by decide) (by decide) (by decide) rfl rfl rfl
  have hcovered : Covered "alice" ["sales"] ["sales"] := fun tag h => Or.inr h
  refine ⟨_, _, rfl, rfl, (hiff.mpr ⟨?_, fun hn => absurd hcovered hn⟩).mpr hcovered⟩
  intro _ key hkey
  left
  rcases hkey with rfl | hr
  · decide
  · rw [List.mem_singleton.mp hr]
    decide

/-- mario.rossi uploads without a tag and does not find the document again: the recall
looks for the field `rossi` of a field `mario`. -/
theorem dotted_name_not_recalled :
    ∃ chunk config',
      (beforeRabbitholeStoresDocuments salesTag "mario.rossi" [report]).isSome ∧
      (storeDocuments salesTag "mario.rossi" [report] "report.pdf" (fun _ => 0) [])[0]? =
        some (some chunk) ∧
      beforeCatRecallsDeclarativeMemories salesTag "mario.rossi" recallConfig = some config' ∧
      salesTag.activeTags "mario.rossi" = some [] ∧ Covered "mario.rossi" [] [] ∧
      ¬ matchesFilter (recallFilter config') chunk = true := by
  refine ⟨_, _, by decide, rfl, rfl, by decide, ?_, by decide⟩
  intro tag h
  exact absurd h List.not_mem_nil

end CheshireCat.Documents
