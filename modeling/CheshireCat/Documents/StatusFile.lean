import CheshireCat.Base.Runs
import Mathlib.Logic.Function.Basic

namespace CheshireCat.Documents
open Base

/-- What an inode holds. `garbled` is a text that `json.loads` refuses. -/
inductive Content (σ : Type) where
  | empty
  | json (value : σ)
  | garbled
deriving DecidableEq

/-- The inodes behind the names `user_status.json` and `user_status.json.tmp`. -/
structure Files (σ : Type) where
  inodes : Nat → Content σ
  next : Nat
  path : Option Nat
  tmp : Option Nat
  path_lt : ∀ k, path = some k → k < next
  tmp_lt : ∀ k, tmp = some k → k < next
  apart : ∀ k, path = some k → tmp ≠ some k

namespace Files

variable {σ : Type}

def content (f : Files σ) : Content σ :=
  match f.path with
  | none => .empty
  | some k => f.inodes k

def setInode (f : Files σ) (k : Nat) (c : Content σ) : Files σ :=
  { f with inodes := Function.update f.inodes k c }

def createTmp (f : Files σ) : Files σ where
  inodes := Function.update f.inodes f.next .empty
  next := f.next + 1
  path := f.path
  tmp := some f.next
  path_lt := fun k h => Nat.lt_succ_of_lt (f.path_lt k h)
  tmp_lt := fun k h => by
    cases h
    exact Nat.lt_succ_self f.next
  apart := fun k h he => by
    cases he
    exact Nat.lt_irrefl _ (f.path_lt _ h)

/-- `tmp.open("w")` truncates the inode of the name, or creates one. -/
def openTmp (f : Files σ) : Files σ × Nat :=
  match f.tmp with
  | some t => (f.setInode t .empty, t)
  | none => (f.createTmp, f.next)

/-- The write through an open handle. Into an inode that another writer has filled
in between, it leaves `mixed`. -/
def dump (f : Files σ) (t : Nat) (data : σ) (mixed : Content σ) : Files σ :=
  match f.inodes t with
  | .empty => f.setInode t (.json data)
  | _ => f.setInode t mixed

/-- `tmp.replace(path)`. Without a tmp file it raises. -/
def replace (f : Files σ) : Option (Files σ) :=
  match h : f.tmp with
  | none => none
  | some t => some
      { f with
        path := some t
        tmp := none
        path_lt := fun k hk => by
          cases hk
          exact f.tmp_lt t h
        tmp_lt := fun _ hk => by cases hk
        apart := fun _ _ hk => by cases hk }

@[simp] theorem setInode_self (f : Files σ) (k : Nat) (c : Content σ) :
    (f.setInode k c).inodes k = c := by simp [setInode]

theorem setInode_content (f : Files σ) {t : Nat} (c : Content σ) (h : f.path ≠ some t) :
    (f.setInode t c).content = f.content := by
  obtain ⟨inodes, next, path, tmp, path_lt, tmp_lt, apart⟩ := f
  cases path with
  | none => rfl
  | some k =>
    have hk : k ≠ t := fun e => h (congrArg some e)
    exact Function.update_of_ne hk c inodes

theorem createTmp_content (f : Files σ) : f.createTmp.content = f.content :=
  f.setInode_content .empty (fun h => Nat.lt_irrefl _ (f.path_lt _ h))

theorem path_ne_tmp (f : Files σ) {t : Nat} (h : f.tmp = some t) : f.path ≠ some t :=
  fun hp => f.apart t hp h

theorem openTmp_spec (f : Files σ) : f.openTmp.1.tmp = some f.openTmp.2 ∧
    f.openTmp.1.inodes f.openTmp.2 = .empty ∧ f.openTmp.1.content = f.content := by
  unfold openTmp
  split
  · rename_i t h
    exact ⟨h, f.setInode_self t .empty, f.setInode_content .empty (f.path_ne_tmp h)⟩
  · exact ⟨rfl, by simp [createTmp], f.createTmp_content⟩

theorem openTmp_path (f : Files σ) : f.openTmp.1.path = f.path := by
  unfold openTmp
  split <;> rfl

theorem dump_path (f : Files σ) (t : Nat) (data : σ) (mixed : Content σ) :
    (f.dump t data mixed).path = f.path := by
  unfold dump
  split <;> rfl

theorem dump_content (f : Files σ) {t : Nat} (data : σ) (mixed : Content σ)
    (htmp : f.tmp = some t) : (f.dump t data mixed).content = f.content := by
  unfold dump
  split <;> exact f.setInode_content _ (f.path_ne_tmp htmp)

/-- A write into the empty tmp file. -/
theorem dump_spec (f : Files σ) {t : Nat} (data : σ) (mixed : Content σ)
    (htmp : f.tmp = some t) (hempty : f.inodes t = .empty) :
    (f.dump t data mixed).tmp = some t ∧ (f.dump t data mixed).inodes t = .json data ∧
      (f.dump t data mixed).content = f.content := by
  refine ⟨?_, ?_, f.dump_content data mixed htmp⟩
  all_goals simp only [dump, hempty]
  · exact htmp
  · exact f.setInode_self t _

theorem replace_content {f g : Files σ} {t : Nat} (htmp : f.tmp = some t)
    (h : f.replace = some g) : g.content = f.inodes t := by
  unfold replace at h
  split at h
  · cases h
  · rename_i u hu
    rw [htmp] at hu
    cases hu
    cases h
    rfl

theorem replace_path {f g : Files σ} (h : f.replace = some g) : ∃ t, g.path = some t := by
  unfold replace at h
  split at h
  · cases h
  · cases h
    exact ⟨_, rfl⟩

end Files

/-- The lock of an inode, or the `_LOCK` of a process. -/
inductive Lock (π : Type) where
  | flock (inode : Nat)
  | thread (process : π)
deriving DecidableEq

/-- `_update_user_status_atomic`, or `aggiorna_users_tags` in a process. -/
inductive Kind (π : Type) where
  | atomic
  | sync (process : π)

/-- What is being written: the `{}` of a file that did not exist, or the result of
the mutator on what was read under the lock. -/
inductive Save (π σ : Type) where
  | initial
  | merged (lock : Lock π) (seen new : σ)
deriving DecidableEq

inductive Phase (π σ : Type) where
  | start
  | opening
  | opened (inode : Nat)
  | locked (lock : Lock π)
  | reading (lock : Lock π) (inode : Nat)
  | saving (save : Save π σ)
  | dumping (save : Save π σ) (inode : Nat)
  | dumped (save : Save π σ)
  | replaced (lock : Lock π)
  | finished
  | failed
deriving DecidableEq

/-- The calls that run. `default` is the `{}` that stands for a file that is missing
or cannot be decoded; a mutator that raises gives `none`. -/
structure Writers (ι π σ : Type) where
  default : σ
  kind : ι → Kind π
  mutator : ι → σ → Option σ

structure System (ι π σ : Type) where
  files : Files σ
  locks : Lock π → Option ι
  phase : ι → Phase π σ

variable {ι π σ : Type}

def Writers.load (w : Writers ι π σ) : Content σ → σ
  | .json value => value
  | _ => w.default

/-- A call executed alone: one that raises leaves the content as it is. -/
def Writers.update (w : Writers ι π σ) (i : ι) (v : σ) : σ := (w.mutator i v).getD v

def Writers.seen (w : Writers ι π σ) : Save π σ → σ
  | .initial => w.default
  | .merged _ seen _ => seen

def Writers.data (w : Writers ι π σ) : Save π σ → σ
  | .initial => w.default
  | .merged _ _ new => new

def Save.next : Save π σ → Phase π σ
  | .initial => .opening
  | .merged lock _ _ => .replaced lock

def System.start (files : Files σ) : System ι π σ := ⟨files, fun _ => none, fun _ => .start⟩

def System.value (w : Writers ι π σ) (s : System ι π σ) : σ := w.load s.files.content

variable [DecidableEq ι]

def System.move (s : System ι π σ) (i : ι) (p : Phase π σ) : System ι π σ :=
  { s with phase := Function.update s.phase i p }

@[simp] theorem System.move_phase_self (s : System ι π σ) (i : ι) (p : Phase π σ) :
    (s.move i p).phase i = p := by simp [System.move]

theorem System.move_phase_other (s : System ι π σ) {i j : ι} (p : Phase π σ) (h : j ≠ i) :
    (s.move i p).phase j = s.phase j := by simp [System.move, h]

variable [DecidableEq π]

def System.acquire (s : System ι π σ) (i : ι) (lock : Lock π) : Option (System ι π σ) :=
  match s.locks lock with
  | none => some ({ s with locks := Function.update s.locks lock (some i) }.move i (.locked lock))
  | some _ => none

def System.release (s : System ι π σ) (lock : Lock π) : System ι π σ :=
  { s with locks := Function.update s.locks lock none }

/-- An exception leaves the `with` block of the lock. -/
def System.fail (s : System ι π σ) (i : ι) : Save π σ → System ι π σ
  | .initial => s.move i .failed
  | .merged lock _ _ => (s.release lock).move i .failed

/-- The mutator runs on the content that was read. -/
def System.merge (w : Writers ι π σ) (s : System ι π σ) (i : ι) (lock : Lock π) (seen : σ) :
    System ι π σ :=
  match w.mutator i seen with
  | some new => s.move i (.saving (.merged lock seen new))
  | none => (s.release lock).move i .failed

/-- The next step of call `e.1`. A lock that is held makes it wait. -/
def step (w : Writers ι π σ) (s : System ι π σ) (e : ι × Content σ) : Option (System ι π σ) :=
  let i := e.1
  match s.phase i with
  | .start =>
    match w.kind i, s.files.path with
    | .atomic, none => some (s.move i (.saving .initial))
    | .atomic, some _ => some (s.move i .opening)
    | .sync process, _ => s.acquire i (.thread process)
  | .opening =>
    match s.files.path with
    | none => some (s.move i .failed)
    | some k => some (s.move i (.opened k))
  | .opened k => s.acquire i (.flock k)
  | .locked (.flock k) => some (s.merge w i (.flock k) (w.load (s.files.inodes k)))
  | .locked (.thread process) =>
    match s.files.path with
    | none => some (s.merge w i (.thread process) w.default)
    | some k => some (s.move i (.reading (.thread process) k))
  | .reading lock k => some (s.merge w i lock (w.load (s.files.inodes k)))
  | .saving save =>
    some ({ s with files := s.files.openTmp.1 }.move i (.dumping save s.files.openTmp.2))
  | .dumping save t =>
    some ({ s with files := s.files.dump t (w.data save) e.2 }.move i (.dumped save))
  | .dumped save =>
    match s.files.replace with
    | none => some (s.fail i save)
    | some files => some ({ s with files }.move i save.next)
  | .replaced lock => some ((s.release lock).move i .finished)
  | .finished => none
  | .failed => none

/-- The call is between opening the tmp file and its `replace`. -/
def Phase.usesTmp : Phase π σ → Prop
  | .dumping _ _ => True
  | .dumped _ => True
  | _ => False

/-- The call has replaced the file with its result. -/
def Phase.done : Phase π σ → Prop
  | .replaced _ => True
  | .finished => True
  | _ => False

/-- A writer opens the tmp file when no other is using it, and finds the file at its
`replace` as it read it. -/
def Undisturbed (w : Writers ι π σ) (s : System ι π σ) (e : ι × Content σ) : Prop :=
  match s.phase e.1 with
  | .saving _ => ∀ j, j ≠ e.1 → ¬ (s.phase j).usesTmp
  | .dumped save => s.value w = w.seen save
  | _ => True

instance (p : Phase π σ) : Decidable p.usesTmp :=
  match p with
  | .dumping _ _ => isTrue trivial
  | .dumped _ => isTrue trivial
  | .start | .opening | .opened _ | .locked _ | .reading _ _ | .saving _ | .replaced _ | .finished
  | .failed => isFalse id

instance [DecidableEq σ] {n : Nat} (w : Writers (Fin n) π σ) (s : System (Fin n) π σ)
    (e : Fin n × Content σ) : Decidable (Undisturbed w s e) :=
  match h : s.phase e.1 with
  | .saving _ => decidable_of_iff (∀ j, j ≠ e.1 → ¬ (s.phase j).usesTmp) (by simp [Undisturbed, h])
  | .dumped save => decidable_of_iff (s.value w = w.seen save) (by simp [Undisturbed, h])
  | .start | .opening | .opened _ | .locked _ | .reading _ _ | .dumping _ _ | .replaced _
  | .finished | .failed => isTrue (by simp [Undisturbed, h])

end CheshireCat.Documents
