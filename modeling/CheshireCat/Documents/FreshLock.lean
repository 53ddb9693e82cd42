import CheshireCat.Documents.LostUpdates

namespace CheshireCat.Documents
open Base

variable {ι π σ : Type}

/-- A flock is granted on the inode that the name still has. -/
def Fresh (s : System ι π σ) (e : ι × Content σ) : Prop :=
  match s.phase e.1 with
  | .opened k => s.files.path = some k
  | _ => True

instance (s : System ι π σ) (e : ι × Content σ) : Decidable (Fresh s e) :=
  match h : s.phase e.1 with
  | .opened k => decidable_of_iff (s.files.path = some k) (by simp [Fresh, h])
  | .start | .opening | .locked _ | .reading _ _ | .saving _ | .dumping _ _ | .dumped _ | .replaced _
  | .finished | .failed => isTrue (by simp [Fresh, h])

/-- The lock that a call holds. -/
def Phase.lock? : Phase π σ → Option (Lock π)
  | .locked lock => some lock
  | .reading lock _ => some lock
  | .saving (.merged lock _ _) => some lock
  | .dumping (.merged lock _ _) _ => some lock
  | .dumped (.merged lock _ _) => some lock
  | .replaced lock => some lock
  | _ => none

/-- The call is between its lock and its `replace`. -/
def Phase.critical : Phase π σ → Prop
  | .locked _ => True
  | .saving _ => True
  | .dumping _ _ => True
  | .dumped _ => True
  | _ => False

/-- A call between its lock and its `replace` holds the lock of the inode `k` behind the
name, and has read the value `v` of the file. -/
def Phase.Current (v : σ) (k : Nat) (tmp : Option Nat) : Phase π σ → Prop
  | .locked lock => lock = .flock k
  | .reading _ _ => False
  | .saving save => ∃ new, save = .merged (.flock k) v new
  | .dumping save t => (∃ new, save = .merged (.flock k) v new) ∧ tmp = some t
  | .dumped save => ∃ new, save = .merged (.flock k) v new
  | _ => True

theorem Phase.Current.frame {v v' : σ} {k k' : Nat} {tmp tmp' : Option Nat} {p : Phase π σ}
    (h : p.Current v k tmp) (hp : ¬ p.critical) : p.Current v' k' tmp' := by
  cases p with
  | locked lock => exact absurd trivial hp
  | saving save => exact absurd trivial hp
  | dumping save t => exact absurd trivial hp
  | dumped save => exact absurd trivial hp
  | _ => exact h

theorem Phase.Current.lock {v : σ} {k : Nat} {tmp : Option Nat} {p : Phase π σ}
    (h : p.Current v k tmp) (hp : p.critical) : p.lock? = some (.flock k) := by
  cases p with
  | locked lock => exact congrArg some h
  | saving save =>
    obtain ⟨new, rfl⟩ := h
    rfl
  | dumping save t =>
    obtain ⟨⟨new, rfl⟩, _⟩ := h
    rfl
  | dumped save =>
    obtain ⟨new, rfl⟩ := h
    rfl
  | _ => exact hp.elim

/-- The locks are as the calls hold them, and only the inode behind the name is worked on. -/
structure Exclusive (w : Writers ι π σ) (s : System ι π σ) : Prop where
  held : ∀ i lock, (s.phase i).lock? = some lock → s.locks lock = some i
  current : ∃ k, s.files.path = some k ∧ ∀ i, (s.phase i).Current (s.value w) k s.files.tmp

/-- The flock of the one inode excludes a second call. -/
theorem Exclusive.single {w : Writers ι π σ} {s : System ι π σ} (h : Exclusive w s) {i j : ι}
    (hi : (s.phase i).critical) (hj : (s.phase j).critical) : i = j := by
  obtain ⟨k, _, hcur⟩ := h.current
  have hli := h.held i _ ((hcur i).lock hi)
  have hlj := h.held j _ ((hcur j).lock hj)
  exact Option.some.inj (hli.symm.trans hlj)

theorem exclusive_start (w : Writers ι π σ) {files : Files σ} {k : Nat}
    (hpath : files.path = some k) : Exclusive w (System.start files : System ι π σ) := by
  refine ⟨?_, k, hpath, fun _ => trivial⟩
  intro i lock h
  cases h

theorem Exclusive.undisturbed {w : Writers ι π σ} {s : System ι π σ} (h : Exclusive w s)
    (e : ι × Content σ) : Undisturbed w s e := by
  obtain ⟨k, _, hcur⟩ := h.current
  unfold Undisturbed
  split
  · rename_i save hp
    intro j hj hju
    have hcritical : (s.phase j).critical := by
      cases hpj : s.phase j with
      | dumping save t => trivial
      | dumped save => trivial
      | _ => exact absurd hju (by simp [hpj, Phase.usesTmp])
    exact hj (h.single hcritical (by rw [hp]; trivial))
  · rename_i save hp
    have hsave := hcur e.1
    rw [hp] at hsave
    obtain ⟨new, rfl⟩ := hsave
    rfl
  · trivial

/-- Releasing the lock of one call leaves the others their locks. -/
theorem release_other [DecidableEq π] {s : System ι π σ} {i j : ι} {lock other : Lock π}
    (hi : s.locks lock = some i) (hj : j ≠ i) (h : s.locks other = some j) :
    (s.release lock).locks other = some j := by
  have hne : other ≠ lock := by
    intro he
    rw [he, hi] at h
    exact hj (Option.some.inj h).symm
  exact (Function.update_of_ne hne none s.locks).trans h

variable [DecidableEq ι]

/-- One call moves. The others hold the locks they held. -/
theorem Exclusive.move {w : Writers ι π σ} {s r : System ι π σ} {i : ι} {p : Phase π σ} {k : Nat}
    (h : Exclusive w s) (hphase : r.phase = s.phase) (hpath : r.files.path = some k)
    (hlocks : ∀ j lock, j ≠ i → s.locks lock = some j → r.locks lock = some j)
    (hown : ∀ lock, p.lock? = some lock → r.locks lock = some i)
    (hother : ∀ j, j ≠ i → (s.phase j).Current (r.value w) k r.files.tmp)
    (hcur : p.Current (r.value w) k r.files.tmp) : Exclusive w (r.move i p) := by
  have hj {j : ι} (hji : j ≠ i) : (r.move i p).phase j = s.phase j := by
    rw [System.move_phase_other r p hji, hphase]
  refine ⟨?_, k, hpath, ?_⟩
  · intro j lock hl
    by_cases hji : j = i
    · subst hji
      rw [System.move_phase_self] at hl
      exact hown lock hl
    · rw [hj hji] at hl
      exact hlocks j lock hji (h.held j lock hl)
  · intro j
    by_cases hji : j = i
    · subst hji
      rw [System.move_phase_self]
      exact hcur
    · rw [hj hji]
      exact hother j hji

/-- The files stay as they are. -/
theorem Exclusive.stay {w : Writers ι π σ} {s r : System ι π σ} {i : ι} {p : Phase π σ} {k : Nat}
    (h : Exclusive w s) (hpath : s.files.path = some k) (hphase : r.phase = s.phase)
    (hfiles : r.files = s.files)
    (hlocks : ∀ j lock, j ≠ i → s.locks lock = some j → r.locks lock = some j)
    (hown : ∀ lock, p.lock? = some lock → r.locks lock = some i)
    (hp : p.Current (s.value w) k s.files.tmp) : Exclusive w (r.move i p) := by
  obtain ⟨k', hpath', hcur⟩ := h.current
  rw [hpath] at hpath'
  cases hpath'
  have hvalue : r.value w = s.value w := by rw [System.value, System.value, hfiles]
  refine h.move hphase (hfiles ▸ hpath) hlocks hown ?_ ?_
  · intro j _
    rw [hvalue, hfiles]
    exact hcur j
  · rw [hvalue, hfiles]
    exact hp

/-- The call moves without touching the files or a lock. -/
theorem Exclusive.pass {w : Writers ι π σ} {s : System ι π σ} (h : Exclusive w s) (i : ι)
    {p : Phase π σ} (hl : ∀ lock, p.lock? = some lock → s.locks lock = some i)
    (hp : ∀ k, s.files.path = some k → p.Current (s.value w) k s.files.tmp) :
    Exclusive w (s.move i p) := by
  obtain ⟨k, hpath, _⟩ := h.current
  exact h.stay hpath rfl rfl (fun _ _ _ hj => hj) hl (hp k hpath)

/-- The tmp file changes, which only the one critical call uses. -/
theorem Exclusive.write {w : Writers ι π σ} {s : System ι π σ} {i : ι} {files : Files σ}
    {p : Phase π σ} {k : Nat} (h : Exclusive w s) (hcritical : (s.phase i).critical)
    (hpath : files.path = some k) (hcontent : files.content = s.files.content)
    (hown : ∀ lock, p.lock? = some lock → s.locks lock = some i)
    (hp : p.Current (s.value w) k files.tmp) : Exclusive w ({ s with files }.move i p) := by
  obtain ⟨_, _, hcur⟩ := h.current
  have hvalue : ({ s with files } : System ι π σ).value w = s.value w := congrArg w.load hcontent
  refine h.move (r := { s with files }) rfl hpath (fun _ _ _ hl => hl) hown ?_ ?_
  · intro j hj
    exact (hcur j).frame (fun hcj => hj (h.single hcj hcritical))
  · rw [hvalue]
    exact hp

/-- The name goes to another inode. No other call works on the old one. -/
theorem Exclusive.replace {w : Writers ι π σ} {s : System ι π σ} {i : ι} {files : Files σ}
    {lock : Lock π} (h : Exclusive w s) (hcritical : (s.phase i).critical)
    (hl : s.locks lock = some i) (hr : s.files.replace = some files) :
    Exclusive w ({ s with files }.move i (.replaced lock)) := by
  obtain ⟨_, _, hcur⟩ := h.current
  obtain ⟨t, hpath⟩ := Files.replace_path hr
  refine h.move (r := { s with files }) rfl hpath (fun _ _ _ hj => hj) ?_ ?_ trivial
  · intro other hother
    cases hother
    exact hl
  · intro j hj
    exact (hcur j).frame (fun hcj => hj (h.single hcj hcritical))

variable [DecidableEq π]

theorem Exclusive.leave {w : Writers ι π σ} {s : System ι π σ} {i : ι} {lock : Lock π}
    {p : Phase π σ} (h : Exclusive w s) (hl : s.locks lock = some i) (hnone : p.lock? = none)
    (hp : ∀ k, p.Current (s.value w) k s.files.tmp) :
    Exclusive w ((s.release lock).move i p) := by
  obtain ⟨k, hpath, _⟩ := h.current
  refine h.stay hpath rfl rfl ?_ ?_ (hp k)
  · intro j other hj hother
    exact release_other hl hj hother
  · intro other hother
    rw [hnone] at hother
    cases hother

theorem Exclusive.acquire {w : Writers ι π σ} {s t : System ι π σ} {i : ι} {k : Nat}
    (h : Exclusive w s) (hpath : s.files.path = some k) (ht : s.acquire i (.flock k) = some t) :
    Exclusive w t := by
  unfold System.acquire at ht
  split at ht
  · rename_i hfree
    cases ht
    refine h.stay hpath rfl rfl ?_ ?_ rfl
    · intro j lock _ hl
      have hne : lock ≠ .flock k := by
        intro he
        rw [he, hfree] at hl
        cases hl
      exact (Function.update_of_ne hne _ s.locks).trans hl
    · intro lock hl
      cases hl
      exact Function.update_self (Lock.flock k) (some i) s.locks
  · cases ht

theorem Exclusive.merge {w : Writers ι π σ} {s : System ι π σ} {i : ι} {k : Nat}
    (h : Exclusive w s) (hpath : s.files.path = some k) (hl : s.locks (.flock k) = some i) :
    Exclusive w (s.merge w i (.flock k) (w.load (s.files.inodes k))) := by
  have hread : w.load (s.files.inodes k) = s.value w := by
    rw [System.value, Files.content, hpath]
  unfold System.merge
  split
  · rename_i new _
    refine h.stay hpath rfl rfl (fun _ _ _ hj => hj) ?_ ⟨new, by rw [hread]⟩
    intro lock hlock
    cases hlock
    exact hl
  · exact h.leave hl rfl (fun _ => trivial)

theorem fresh_step {w : Writers ι π σ} (hkind : ∀ i, w.kind i = .atomic) {s t : System ι π σ}
    {e : ι × Content σ} (hf : Fresh s e) (h : Exclusive w s) (ht : step w s e = some t) :
    Exclusive w t := by
  obtain ⟨i, mixed⟩ := e
  obtain ⟨k, hpath, hcur⟩ := h.current
  have hi := hcur i
  have hheld := h.held i
  unfold step at ht
  cases hp : s.phase i with
  | start =>
    simp only [hp, hkind, hpath, Option.some.injEq] at ht
    subst ht
    exact h.pass i (fun _ hl => by cases hl) (fun _ _ => trivial)
  | opening =>
    simp only [hp, hpath, Option.some.injEq] at ht
    subst ht
    exact h.pass i (fun _ hl => by cases hl) (fun _ _ => trivial)
  | opened k' =>
    have hfresh : s.files.path = some k' := by simpa [Fresh, hp] using hf
    simp only [hp] at ht
    exact h.acquire hfresh ht
  | locked lock =>
    rw [hp] at hi hheld
    have hlock : lock = .flock k := hi
    subst hlock
    simp only [hp, Option.some.injEq] at ht
    subst ht
    exact h.merge hpath (hheld _ rfl)
  | reading lock k' =>
    rw [hp] at hi
    exact hi.elim
  | saving save =>
    have hcritical : (s.phase i).critical := by rw [hp]; trivial
    rw [hp] at hi hheld
    obtain ⟨new, rfl⟩ := hi
    simp only [hp, Option.some.injEq] at ht
    subst ht
    obtain ⟨htmp, _, hcontent⟩ := s.files.openTmp_spec
    refine h.write hcritical (s.files.openTmp_path.trans hpath) hcontent ?_ ⟨⟨new, rfl⟩, htmp⟩
    exact fun lock hl => hheld lock hl
  | dumping save t' =>
    have hcritical : (s.phase i).critical := by rw [hp]; trivial
    rw [hp] at hi hheld
    obtain ⟨⟨new, rfl⟩, htmp⟩ := hi
    simp only [hp, Option.some.injEq] at ht
    subst ht
    refine h.write hcritical ((s.files.dump_path _ _ _).trans hpath)
      (s.files.dump_content _ _ htmp) ?_ ⟨new, rfl⟩
    exact fun lock hl => hheld lock hl
  | dumped save =>
    have hcritical : (s.phase i).critical := by rw [hp]; trivial
    rw [hp] at hi hheld
    obtain ⟨new, rfl⟩ := hi
    simp only [hp] at ht
    split at ht
    · cases ht
      exact h.leave (hheld _ rfl) rfl (fun _ => trivial)
    · rename_i files hr
      cases ht
      exact h.replace hcritical (hheld _ rfl) hr
  | replaced lock =>
    rw [hp] at hheld
    simp only [hp, Option.some.injEq] at ht
    subst ht
    exact h.leave (hheld _ rfl) rfl (fun _ => trivial)
  | finished => simp [hp] at ht
  | failed => simp [hp] at ht

/-- Without `aggiorna_users_tags` and with the file in place, a flock that is always
granted on the current inode is enough. -/
theorem fresh_locks_undisturbed (w : Writers ι π σ) (hkind : ∀ i, w.kind i = .atomic)
    (files : Files σ) {k : Nat} (hpath : files.path = some k) (schedule : List (ι × Content σ))
    (hfresh : Meets (step w) Fresh (System.start files) schedule) :
    Meets (step w) (Undisturbed w) (System.start files) schedule :=
  hfresh.of_invariant (fun _ _ _ hf h ht => fresh_step hkind hf h ht)
    (fun _ e _ h => h.undisturbed e) (exclusive_start w hpath)

/-- So no update is lost: the file is the result of the calls that have replaced it, and of all of them
once all have finished. -/
theorem fresh_locks_serial (w : Writers ι π σ) (hkind : ∀ i, w.kind i = .atomic)
    (files : Files σ) {k : Nat} (hpath : files.path = some k) (schedule : List (ι × Content σ))
    (s : System ι π σ) (h : run (step w) (System.start files) schedule = some s)
    (hfresh : Meets (step w) Fresh (System.start files) schedule) :
    ∃ order : List ι, order.Nodup ∧ (∀ i, i ∈ order ↔ (s.phase i).done) ∧
      s.value w = serial w.update order (w.load files.content) ∧
      (order ≠ [] → s.files.content = .json (serial w.update order (w.load files.content))) ∧
      ((∀ i, s.phase i = .finished) → ∀ i, i ∈ order) :=
  (run_keeps_when (fun _ _ _ => consistent_step) (fresh_locks_undisturbed w hkind files hpath schedule hfresh)
    (consistent_start w files) h).serial

/-- The second upload opens the file that the first has put in its place, before the first is done. -/
theorem both_uploads_kept :
    ∃ s, run (step uploads) (System.start aliceFiles)
        (turns (List.replicate 7 0 ++ [1, 1, 1] ++ [0] ++ List.replicate 5 1)) = some s ∧
      ∃ order : List (Fin 2), order.Nodup ∧ (∀ i, i ∈ order) ∧
        s.files.content = .json (serial uploads.update order aliceStatus) := by
  have hrun : (run (step uploads) (System.start aliceFiles)
      (turns (List.replicate 7 0 ++ [1, 1, 1] ++ [0] ++ List.replicate 5 1))).map
        (fun s => (s.phase 0, s.phase 1)) = some (.finished, .finished) := by decide +kernel
  obtain ⟨s, hs, hphases⟩ := Option.map_eq_some_iff.mp hrun
  obtain ⟨h0, h1⟩ := Prod.mk.inj hphases
  obtain ⟨order, hn, _, _, hcontent, hall⟩ :=
    fresh_locks_serial uploads (fun _ => rfl) aliceFiles rfl _ s hs (by decide +kernel)
  have hmem := hall (by rw [Fin.forall_fin_two]; exact ⟨h0, h1⟩)
  exact ⟨s, hs, order, hn, hmem, hcontent (List.ne_nil_of_mem (hmem 0))⟩

end CheshireCat.Documents
