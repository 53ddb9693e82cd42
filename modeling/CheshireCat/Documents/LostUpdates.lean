import CheshireCat.Base.Serial
import CheshireCat.Documents.StatusFile
import CheshireCat.Documents.UserStatus

namespace CheshireCat.Documents
open Base

variable {ι π σ : Type}

/-- What is to be written is the mutator's result on what was read. -/
def Writers.Computed (w : Writers ι π σ) (i : ι) : Save π σ → Prop
  | .initial => True
  | .merged _ seen new => w.mutator i seen = some new

/-- How far the result of call `i` has come, and that the tmp file holds it. -/
def Phase.Fits (w : Writers ι π σ) (i : ι) (f : Files σ) : Phase π σ → Prop
  | .saving save => w.Computed i save
  | .dumping save t => w.Computed i save ∧ f.tmp = some t ∧ f.inodes t = .empty
  | .dumped save => w.Computed i save ∧ ∃ t, f.tmp = some t ∧ f.inodes t = .json (w.data save)
  | _ => True

/-- Only the phases that use the tmp file depend on the files. -/
theorem Phase.Fits.frame {w : Writers ι π σ} {i : ι} {f g : Files σ} {p : Phase π σ}
    (h : p.Fits w i f) (hp : ¬ p.usesTmp) : p.Fits w i g := by
  cases p with
  | dumping save t => exact absurd trivial hp
  | dumped save => exact absurd trivial hp
  | _ => exact h

/-- The file comes from exactly the calls that have replaced it, and at most one
call uses the tmp file. -/
structure Consistent (w : Writers ι π σ) (start : σ) (s : System ι π σ) : Prop where
  value : Serialised w.update start (fun i => (s.phase i).done) (s.value w)
  decodable : (∃ i, (s.phase i).done) → ∃ v, s.files.content = .json v
  alone : ∀ i j, (s.phase i).usesTmp → (s.phase j).usesTmp → i = j
  fits : ∀ i, (s.phase i).Fits w i s.files

theorem consistent_start (w : Writers ι π σ) (files : Files σ) :
    Consistent w (w.load files.content) (System.start files : System ι π σ) := by
  refine ⟨Serialised.start (fun _ => id), ?_, ?_, fun _ => trivial⟩
  · intro hx
    obtain ⟨_, h⟩ := hx
    cases h
  · intro _ _ h
    cases h

/-- While one call uses the tmp file, the others do not depend on the files. -/
theorem Consistent.others {w : Writers ι π σ} {start : σ} {s : System ι π σ} {i : ι}
    (h : Consistent w start s) (hi : (s.phase i).usesTmp) {j : ι} (hj : j ≠ i) :
    ¬ (s.phase j).usesTmp :=
  fun hju => hj (h.alone j i hju hi)

variable [DecidableEq ι]

/-- A step that keeps the other calls in their phases. -/
theorem Consistent.move {w : Writers ι π σ} {start : σ} {s r : System ι π σ} {i : ι} {p : Phase π σ}
    (h : Consistent w start s) (hphase : r.phase = s.phase)
    (hother : ∀ j, j ≠ i → (s.phase j).Fits w j r.files) (hfit : p.Fits w i r.files)
    (htmp : p.usesTmp → ∀ j, j ≠ i → ¬ (s.phase j).usesTmp)
    (hvalue : Serialised w.update start (fun j => ((r.move i p).phase j).done) (r.value w))
    (hdec : (∃ j, ((r.move i p).phase j).done) → ∃ v, r.files.content = .json v) :
    Consistent w start (r.move i p) := by
  have hj {j : ι} (hji : j ≠ i) : (r.move i p).phase j = s.phase j := by
    rw [System.move_phase_other r p hji, hphase]
  refine ⟨hvalue, hdec, ?_, ?_⟩
  · intro j k hju hku
    by_cases hji : j = i
    · by_cases hki : k = i
      · rw [hji, hki]
      · rw [hji, System.move_phase_self] at hju
        rw [hj hki] at hku
        exact absurd hku (htmp hju k hki)
    · rw [hj hji] at hju
      by_cases hki : k = i
      · rw [hki, System.move_phase_self] at hku
        exact absurd hju (htmp hku j hji)
      · rw [hj hki] at hku
        exact h.alone j k hju hku
  · intro j
    by_cases hji : j = i
    · subst hji
      rw [System.move_phase_self]
      exact hfit
    · rw [hj hji]
      exact hother j hji

theorem move_done_same {s r : System ι π σ} {i : ι} {p : Phase π σ} (hphase : r.phase = s.phase)
    (hp : p.done ↔ (s.phase i).done) (j : ι) :
    ((r.move i p).phase j).done ↔ (s.phase j).done := by
  by_cases hji : j = i
  · subst hji
    rw [System.move_phase_self, hp]
  · rw [System.move_phase_other r p hji, hphase]

theorem move_done_new {s r : System ι π σ} {i : ι} {p : Phase π σ} (hphase : r.phase = s.phase)
    (hp : p.done) (j : ι) : ((r.move i p).phase j).done ↔ j = i ∨ (s.phase j).done := by
  by_cases hji : j = i
  · subst hji
    rw [System.move_phase_self]
    exact ⟨fun _ => Or.inl rfl, fun _ => hp⟩
  · rw [System.move_phase_other r p hji, hphase]
    exact ⟨Or.inr, fun hj => hj.resolve_left hji⟩

/-- The file keeps its content and the set of calls that are done. -/
theorem Consistent.keep {w : Writers ι π σ} {start : σ} {s r : System ι π σ} {i : ι} {p : Phase π σ}
    (h : Consistent w start s) (hphase : r.phase = s.phase)
    (hcontent : r.files.content = s.files.content) (hdone : p.done ↔ (s.phase i).done)
    (hother : ∀ j, j ≠ i → (s.phase j).Fits w j r.files) (hfit : p.Fits w i r.files)
    (htmp : p.usesTmp → ∀ j, j ≠ i → ¬ (s.phase j).usesTmp) : Consistent w start (r.move i p) := by
  have hd := move_done_same hphase hdone
  refine h.move hphase hother hfit htmp ?_ ?_
  · have hv : r.value w = s.value w := congrArg w.load hcontent
    rw [hv]
    exact h.value.congr hd
  · intro hex
    obtain ⟨j, hj⟩ := hex
    rw [hcontent]
    exact h.decodable ⟨j, (hd j).mp hj⟩

/-- The name goes to the tmp file, which holds the result of call `i` on the value that
the file has. -/
theorem Consistent.replace {w : Writers ι π σ} {start : σ} {s : System ι π σ} {i : ι}
    {save : Save π σ} {files : Files σ} (h : Consistent w start s)
    (hp : s.phase i = .dumped save) (hseen : s.value w = w.seen save)
    (hr : s.files.replace = some files) :
    Consistent w start ({ s with files }.move i save.next) := by
  have hother {j : ι} (hj : j ≠ i) : ¬ (s.phase j).usesTmp := h.others (by rw [hp]; trivial) hj
  have hfit := h.fits i
  rw [hp] at hfit
  obtain ⟨hcomputed, k, htmp, hdata⟩ := hfit
  have hcontent : files.content = .json (w.data save) :=
    (Files.replace_content htmp hr).trans hdata
  have hvalue : ({ s with files } : System ι π σ).value w = w.data save := by
    simp [System.value, hcontent, Writers.load]
  have hnext : ¬ save.next.usesTmp := by cases save <;> exact id
  refine h.move (r := { s with files }) rfl (fun j hj => (h.fits j).frame (hother hj))
    (by cases save <;> trivial) (fun hn => absurd hn hnext) ?_ (fun _ => ⟨_, hcontent⟩)
  rw [hvalue]
  cases save with
  | initial =>
    -- `{}` is what the missing file stood for
    have hsame : w.data Save.initial = s.value w := hseen.symm
    rw [hsame]
    refine h.value.congr (move_done_same rfl ?_)
    rw [hp]
    exact Iff.rfl
  | merged lock seen new =>
    have hmutator : w.mutator i seen = some new := hcomputed
    have hupdate : w.update i (s.value w) = w.data (.merged lock seen new) := by
      rw [hseen]
      simp only [Writers.update, Writers.seen, hmutator]
      rfl
    have hpending : ¬ (s.phase i).done := by
      rw [hp]
      exact id
    rw [← hupdate]
    exact h.value.commit hpending (move_done_new rfl trivial)

/-- What one step of a call can be. Four kinds of step matter to the files; the
others change only locks and the phase. -/
inductive Moves (w : Writers ι π σ) (s : System ι π σ) (i : ι) : System ι π σ → Prop where
  | quiet (r : System ι π σ) (p : Phase π σ) (hfiles : r.files = s.files)
      (hphase : r.phase = s.phase) (hfit : p.Fits w i s.files) (htmp : ¬ p.usesTmp)
      (hdone : p.done ↔ (s.phase i).done) :
      Moves w s i (r.move i p)
  | openTmp (save : Save π σ) (hp : s.phase i = .saving save) :
      Moves w s i ({ s with files := s.files.openTmp.1 }.move i (.dumping save s.files.openTmp.2))
  | dump (save : Save π σ) (t : Nat) (mixed : Content σ) (hp : s.phase i = .dumping save t) :
      Moves w s i ({ s with files := s.files.dump t (w.data save) mixed }.move i (.dumped save))
  | replace (save : Save π σ) (files : Files σ) (hp : s.phase i = .dumped save)
      (hr : s.files.replace = some files) :
      Moves w s i ({ s with files }.move i save.next)

variable [DecidableEq π]

theorem acquire_moves {w : Writers ι π σ} {s t : System ι π σ} {i : ι} {lock : Lock π}
    (hi : ¬ (s.phase i).done) (h : s.acquire i lock = some t) : Moves w s i t := by
  unfold System.acquire at h
  split at h
  · cases h
    exact .quiet _ _ rfl rfl trivial id ⟨False.elim, hi⟩
  · cases h

theorem merge_moves (w : Writers ι π σ) (s : System ι π σ) {i : ι} (lock : Lock π) (seen : σ)
    (hi : ¬ (s.phase i).done) : Moves w s i (s.merge w i lock seen) := by
  unfold System.merge
  cases h : w.mutator i seen with
  | some new => exact .quiet s _ rfl rfl h id ⟨False.elim, hi⟩
  | none => exact .quiet (s.release lock) _ rfl rfl trivial id ⟨False.elim, hi⟩

theorem fail_moves (w : Writers ι π σ) (s : System ι π σ) {i : ι} (save : Save π σ)
    (hi : ¬ (s.phase i).done) : Moves w s i (s.fail i save) := by
  cases save with
  | initial => exact .quiet s _ rfl rfl trivial id ⟨False.elim, hi⟩
  | merged lock seen new =>
    exact .quiet (s.release lock) _ rfl rfl trivial id ⟨False.elim, hi⟩

theorem step_moves {w : Writers ι π σ} {s t : System ι π σ} {e : ι × Content σ}
    (h : step w s e = some t) : Moves w s e.1 t := by
  obtain ⟨i, mixed⟩ := e
  have pending {p : Phase π σ} (hp : s.phase i = p) (hn : ¬ p.done) : ¬ (s.phase i).done := by
    rwa [hp]
  unfold step at h
  cases hp : s.phase i with
  | start =>
    have hi := pending hp id
    simp only [hp] at h
    split at h
    · cases h
      exact .quiet s _ rfl rfl trivial id ⟨False.elim, hi⟩
    · cases h
      exact .quiet s _ rfl rfl trivial id ⟨False.elim, hi⟩
    · exact acquire_moves hi h
  | opening =>
    have hi := pending hp id
    simp only [hp] at h
    split at h
    · cases h
      exact .quiet s _ rfl rfl trivial id ⟨False.elim, hi⟩
    · cases h
      exact .quiet s _ rfl rfl trivial id ⟨False.elim, hi⟩
  | opened k =>
    simp only [hp] at h
    exact acquire_moves (pending hp id) h
  | locked lock =>
    have hi := pending hp id
    cases lock with
    | flock k =>
      simp only [hp, Option.some.injEq] at h
      subst h
      exact merge_moves w s _ _ hi
    | thread process =>
      simp only [hp] at h
      split at h
      · cases h
        exact merge_moves w s _ _ hi
      · cases h
        exact .quiet s _ rfl rfl trivial id ⟨False.elim, hi⟩
  | reading lock k =>
    simp only [hp, Option.some.injEq] at h
    subst h
    exact merge_moves w s _ _ (pending hp id)
  | saving save =>
    simp only [hp, Option.some.injEq] at h
    subst h
    exact .openTmp save hp
  | dumping save t =>
    simp only [hp, Option.some.injEq] at h
    subst h
    exact .dump save t mixed hp
  | dumped save =>
    simp only [hp] at h
    split at h
    · cases h
      exact fail_moves w s save (pending hp id)
    · rename_i files hr
      cases h
      exact .replace save files hp hr
  | replaced lock =>
    simp only [hp, Option.some.injEq] at h
    subst h
    exact .quiet (s.release lock) _ rfl rfl trivial id (by simp [hp, Phase.done])
  | finished => simp [hp] at h
  | failed => simp [hp] at h

theorem consistent_step {w : Writers ι π σ} {start : σ} {s t : System ι π σ} {e : ι × Content σ}
    (hu : Undisturbed w s e) (h : Consistent w start s) (ht : step w s e = some t) :
    Consistent w start t := by
  obtain ⟨i, mixed⟩ := e
  have hfit := h.fits i
  cases step_moves ht with
  | quiet r p hfiles hphase hpfit htmp hdone =>
    refine h.keep hphase (congrArg Files.content hfiles) hdone ?_ ?_ (fun hp => absurd hp htmp)
    · intro j _
      rw [hfiles]
      exact h.fits j
    · rw [hfiles]
      exact hpfit
  | openTmp save hp =>
    obtain ⟨htmp, hempty, hcontent⟩ := s.files.openTmp_spec
    simp only [Undisturbed, hp] at hu
    rw [hp] at hfit
    refine h.keep rfl hcontent ?_ ?_ ⟨hfit, htmp, hempty⟩ (fun _ => hu)
    · rw [hp]
      exact Iff.rfl
    · intro j hj
      exact (h.fits j).frame (hu j hj)
  | dump save k mixed hp =>
    have hother {j : ι} (hj : j ≠ i) : ¬ (s.phase j).usesTmp := h.others (by rw [hp]; trivial) hj
    rw [hp] at hfit
    obtain ⟨hcomputed, htmp, hempty⟩ := hfit
    obtain ⟨htmp', hdata, hcontent⟩ := s.files.dump_spec (w.data save) mixed htmp hempty
    refine h.keep rfl hcontent ?_ ?_ ⟨hcomputed, k, htmp', hdata⟩ (fun _ _ => hother)
    · rw [hp]
      exact Iff.rfl
    · intro j hj
      exact (h.fits j).frame (hother hj)
  | replace save files hp hr =>
    simp only [Undisturbed, hp] at hu
    exact h.replace hp hu hr

omit [DecidableEq ι] [DecidableEq π] in
/-- What a consistent system has in its file: the result of the calls that have replaced it. -/
theorem Consistent.serial {w : Writers ι π σ} {files : Files σ} {s : System ι π σ}
    (hc : Consistent w (w.load files.content) s) :
    ∃ order : List ι, order.Nodup ∧ (∀ i, i ∈ order ↔ (s.phase i).done) ∧
      s.value w = Base.serial w.update order (w.load files.content) ∧
      (order ≠ [] → s.files.content = .json (Base.serial w.update order (w.load files.content))) ∧
      ((∀ i, s.phase i = .finished) → ∀ i, i ∈ order) := by
  obtain ⟨order, hn, hm, hv⟩ := hc.value
  refine ⟨order, hn, hm, hv, ?_, ?_⟩
  · intro hne
    obtain ⟨i, hi⟩ := List.exists_mem_of_ne_nil order hne
    obtain ⟨v, hcontent⟩ := hc.decodable ⟨i, (hm i).mp hi⟩
    rw [← hv, hcontent, System.value, hcontent]
    rfl
  · intro hall i
    refine (hm i).mpr ?_
    show (s.phase i).done
    rw [hall i]
    trivial

/-- The file is the result of the calls that have replaced it, one after the other;
once all have finished, of all of them. -/
theorem user_status_serial (w : Writers ι π σ) (files : Files σ)
    (schedule : List (ι × Content σ)) (s : System ι π σ)
    (h : run (step w) (System.start files) schedule = some s)
    (hmeets : Meets (step w) (Undisturbed w) (System.start files) schedule) :
    ∃ order : List ι, order.Nodup ∧ (∀ i, i ∈ order ↔ (s.phase i).done) ∧
      s.value w = serial w.update order (w.load files.content) ∧
      (order ≠ [] → s.files.content = .json (serial w.update order (w.load files.content))) ∧
      ((∀ i, s.phase i = .finished) → ∀ i, i ∈ order) :=
  (run_keeps_when (fun _ _ _ => consistent_step) hmeets (consistent_start w files) h).serial

/-- The order in which two calls take their steps. -/
def turns (calls : List (Fin 2)) : List (Fin 2 × Content Json) :=
  calls.map (fun i => (i, .garbled))

/-- Two calls of one process: an upload by alice, and the synchronisation of bob. -/
def uploadAndSync : Writers (Fin 2) Unit Json where
  default := .obj []
  kind := fun i => if i.val = 0 then .atomic else .sync ()
  mutator := fun i =>
    if i.val = 0 then addSource "alice" ["sales"] "a.pdf"
    else aggiornaUsersTags ["bob"] (some (.obj [("tags", .arr [.str "sales"])]))

/-- An empty folder. -/
def noFiles : Files Json := ⟨fun _ => .empty, 0, none, none, nofun, nofun, nofun⟩

/-- The upload creates the file and replaces it while the synchronisation waits with its lock. -/
theorem user_status_serial_interleaved :
    ∃ s, run (step uploadAndSync) (System.start noFiles)
        (turns ([1] ++ List.replicate 10 0 ++ [1, 1, 0] ++ List.replicate 4 1)) = some s ∧
      ∃ order : List (Fin 2), order.Nodup ∧ (∀ i, i ∈ order) ∧
        s.files.content = .json (serial uploadAndSync.update order (.obj [])) := by
  have hrun : (run (step uploadAndSync) (System.start noFiles)
      (turns ([1] ++ List.replicate 10 0 ++ [1, 1, 0] ++ List.replicate 4 1))).map
        (fun s => (s.phase 0, s.phase 1)) = some (.finished, .finished) := by decide +kernel
  obtain ⟨s, hs, hphases⟩ := Option.map_eq_some_iff.mp hrun
  obtain ⟨h0, h1⟩ := Prod.mk.inj hphases
  obtain ⟨order, hn, _, _, hcontent, hall⟩ :=
    user_status_serial uploadAndSync noFiles _ s hs (by decide +kernel)
  have hmem := hall (by rw [Fin.forall_fin_two]; exact ⟨h0, h1⟩)
  exact ⟨s, hs, order, hn, hmem, hcontent (List.ne_nil_of_mem (hmem 0))⟩

/-- Two uploads by alice, with one tag active. -/
def uploads : Writers (Fin 2) Unit Json where
  default := .obj []
  kind := fun _ => .atomic
  mutator := fun i => addSource "alice" ["sales"] (if i.val = 0 then "a.pdf" else "b.pdf")

def aliceStatus : Json :=
  .obj [("alice", .obj [("sales", .obj [("status", .bool true), ("documents", .arr [])])])]

def aliceFiles : Files Json where
  inodes := fun _ => .json aliceStatus
  next := 1
  path := some 0
  tmp := none
  path_lt := by
    intro k h
    cases h
    exact Nat.zero_lt_one
  tmp_lt := nofun
  apart := fun _ _ => nofun

/-- The second upload has opened the file before the first replaces it. It then locks
and reads the inode that nobody else holds any more, and its result replaces a.pdf. -/
theorem stale_inode_loses_upload :
    ∃ s, run (step uploads) (System.start aliceFiles)
        (turns ([0, 0, 1, 1] ++ List.replicate 6 0 ++ List.replicate 6 1)) = some s ∧
      (∀ i, s.phase i = .finished) ∧
      ∀ order : List (Fin 2), order.Nodup → (∀ i, i ∈ order) →
        s.files.content ≠ .json (serial uploads.update order aliceStatus) := by
  have hrun : (run (step uploads) (System.start aliceFiles)
      (turns ([0, 0, 1, 1] ++ List.replicate 6 0 ++ List.replicate 6 1))).map
        (fun s => (s.files.content, s.phase 0, s.phase 1)) =
      some (.json (.obj [("alice", .obj [("sales", .obj [("status", .bool true),
        ("documents", .arr [.str "b.pdf"])])])]), .finished, .finished) := by decide +kernel
  obtain ⟨s, hs, hend⟩ := Option.map_eq_some_iff.mp hrun
  simp only [Prod.mk.injEq] at hend
  obtain ⟨hcontent, h0, h1⟩ := hend
  refine ⟨s, hs, by rw [Fin.forall_fin_two]; exact ⟨h0, h1⟩, ?_⟩
  intro order hn hm
  rw [hcontent]
  rcases order_of_two hn hm with rfl | rfl <;> decide +kernel

end CheshireCat.Documents
