import CheshireCat.Base.Dict
import CheshireCat.Base.Outcome
import Mathlib.Data.List.Infix

namespace CheshireCat.Base

/-- An absolute path by its parts. The root is the empty path. -/
abbrev FilePath := List String

inductive Node where
  | folder
  | file (content : String)
deriving DecidableEq

abbrev FileSystem := Dict FilePath Node

/-! ### Paths -/

/-- The parts of a path between its slashes. -/
def pathParts (path : String) : List String :=
  (path.toList.splitOn '/').map String.ofList

def isAbsolute (path : String) : Bool := path.toList.head? = some '/'

def enter (dir : FilePath) (part : String) : FilePath :=
  if part = "" ∨ part = "." then dir else if part = ".." then dir.dropLast else dir ++ [part]

/-- `os.path.join`, and where the path leads. -/
def joinPath (dir : FilePath) (path : String) : FilePath :=
  (pathParts path).foldl enter (if isAbsolute path then [] else dir)

/-- The path names something below the folder it starts from, or that folder. -/
def StaysBelow (path : String) : Prop := isAbsolute path = false ∧ ".." ∉ pathParts path

theorem join_stays_below {path : String} (h : StaysBelow path) (dir : FilePath) :
    dir <+: joinPath dir path := by
  obtain ⟨hrelative, hparts⟩ := h
  unfold joinPath
  rw [hrelative]
  generalize pathParts path = parts at hparts
  have hfold (at' : FilePath) (hat : dir <+: at') : dir <+: parts.foldl enter at' := by
    induction parts generalizing at' with
    | nil => exact hat
    | cons part parts ih =>
      apply ih (fun hmem => hparts (List.mem_cons_of_mem _ hmem)) _
      have hpart : part ≠ ".." := fun he => hparts (he ▸ List.mem_cons_self)
      unfold enter
      rw [if_neg hpart]
      split
      · exact hat
      · exact hat.trans (List.prefix_append at' [part])
  exact hfold dir (List.prefix_refl dir)

theorem path_parts_plain {name : String} (hslash : '/' ∉ name.toList) : pathParts name = [name] := by
  rw [pathParts, List.splitOn_eq_singleton hslash, List.map_singleton, String.ofList_toList]

theorem is_absolute_plain {name : String} (hslash : '/' ∉ name.toList) : isAbsolute name = false := by
  apply decide_eq_false
  intro hhead
  exact hslash (List.mem_of_head? hhead)

/-- A name is one part. The empty name stays at the folder. -/
theorem join_name (dir : FilePath) {name : String} (hslash : '/' ∉ name.toList)
    (hdot : '.' ∉ name.toList) : joinPath dir name = if name = "" then dir else dir ++ [name] := by
  have hone : name ≠ "." := by
    rintro rfl
    exact hdot (by decide)
  have htwo : name ≠ ".." := by
    rintro rfl
    exact hdot (by decide)
  unfold joinPath
  rw [is_absolute_plain hslash, path_parts_plain hslash]
  simp [enter, hone, htwo]

/-! ### Operations -/

def pathExists (path : FilePath) (fs : FileSystem) : Bool := (fs.get? path).isSome

/-- A folder that is there is kept. -/
def makeFolder (fs : FileSystem) (path : FilePath) : Outcome FileSystem :=
  if path = [] then .returned fs
  else match fs.get? path with
    | none => .returned (fs.set path .folder)
    | some .folder => .returned fs
    | some (.file _) => .raised "NotADirectoryError" fs

def makeParents (path : FilePath) (fs : FileSystem) : Outcome FileSystem :=
  Outcome.loop makeFolder path.dropLast.inits fs

def writeFile (path : FilePath) (content : String) (fs : FileSystem) : Outcome FileSystem :=
  if path = [] ∨ fs.get? path = some .folder then .raised "IsADirectoryError" fs
  else .returned (fs.set path (.file content))

/-- `os.mkdir`. -/
def mkdir (path : FilePath) (fs : FileSystem) : Outcome FileSystem :=
  if path = [] ∨ pathExists path fs then .raised "FileExistsError" fs
  else if path.dropLast = [] ∨ fs.get? path.dropLast = some .folder then
    .returned (fs.set path .folder)
  else .raised "FileNotFoundError" fs

/-- The names of the entries of a folder. -/
def listdir (path : FilePath) (fs : FileSystem) : List String :=
  fs.keys.filterMap (fun k => k.getLast?.filter (fun name => k = path ++ [name]))

/-- `shutil.rmtree`. -/
def rmtree (path : FilePath) (fs : FileSystem) : Outcome FileSystem :=
  if fs.get? path = some .folder then .returned (fs.restrict (fun k => ¬ path <+: k))
  else .raised "NotADirectoryError" fs

/-- Every entry below `src` is put at the same place below `dst`. -/
def rename (src dst : FilePath) (fs : FileSystem) : FileSystem :=
  (fs.entries.filter (fun e => src <+: e.1)).foldl
    (fun (d : FileSystem) e => d.set (dst ++ e.1.drop src.length) e.2)
    (fs.restrict (fun k => ¬ src <+: k))

/-- `shutil.move`. A folder that is there is moved into, and missing parents are made. -/
def move (src dst : FilePath) (fs : FileSystem) : Outcome FileSystem :=
  let target := if fs.get? dst = some .folder then dst ++ src.getLast?.toList else dst
  if fs.get? dst = some .folder ∧ pathExists target fs then .raised "Destination path already exists" fs
  else (makeParents target fs).andThen (fun fs => .returned (rename src target fs))

/-! ### What operations leave as it was -/

/-- Outside the region both file systems have the same. -/
def SameOutside (region : FilePath → Prop) (fs t : FileSystem) : Prop :=
  ∀ k, ¬ region k → t.get? k = fs.get? k

/-- Every change is in the region, and no folder is lost. -/
structure Grown (region : FilePath → Prop) (fs t : FileSystem) : Prop where
  same : SameOutside region fs t
  folders : ∀ k, fs.get? k = some .folder → t.get? k = some .folder

/-- The path and all folders above it are there. -/
def Present (path : FilePath) (fs : FileSystem) : Prop :=
  ∀ k, k ≠ [] → k <+: path → fs.get? k = some .folder

instance (path : FilePath) (fs : FileSystem) : Decidable (Present path fs) :=
  decidable_of_iff (∀ k ∈ path.inits, k ≠ [] → fs.get? k = some .folder)
    ⟨fun h k hne hk => h k ((List.mem_inits _ _).mpr hk) hne,
      fun h k hk hne => h k hne ((List.mem_inits _ _).mp hk)⟩

section Frame

variable {region : FilePath → Prop} {fs t u : FileSystem} {path dir : FilePath}

theorem SameOutside.trans (h : SameOutside region fs t) (h' : SameOutside region t u) :
    SameOutside region fs u :=
  fun k hk => (h' k hk).trans (h k hk)

theorem SameOutside.mono {region' : FilePath → Prop} (h : SameOutside region fs t)
    (sub : ∀ k, region k → region' k) : SameOutside region' fs t :=
  fun k hk => h k (fun hin => hk (sub k hin))

theorem SameOutside.present (h : SameOutside region fs t) (hp : Present path fs)
    (out : ∀ k, k <+: path → ¬ region k) : Present path t :=
  fun k hne hk => (h k (out k hk)).trans (hp k hne hk)

theorem Grown.refl (region : FilePath → Prop) (fs : FileSystem) : Grown region fs fs :=
  ⟨fun _ _ => rfl, fun _ hk => hk⟩

theorem Grown.trans (h : Grown region fs t) (h' : Grown region t u) : Grown region fs u :=
  ⟨h.same.trans h'.same, fun k hk => h'.folders k (h.folders k hk)⟩

theorem Grown.present (h : Grown region fs t) (hp : Present path fs) : Present path t :=
  fun k hne hk => h.folders k (hp k hne hk)

/-- A new entry, or a new content where there is no folder. -/
theorem grown_set {node : Node} (hin : region path)
    (hnode : fs.get? path = some .folder → node = .folder) : Grown region fs (fs.set path node) := by
  refine ⟨fun k hk => Dict.get?_set_other _ _ (fun he => hk (he ▸ hin)), ?_⟩
  intro k hk
  rw [Dict.get?_set]
  split
  · rename_i he
    rw [hnode (he ▸ hk)]
  · exact hk

theorem make_folder_grown (hin : path ≠ [] → fs.get? path ≠ some .folder → region path) :
    (makeFolder fs path).Ends (Grown region fs) (Grown region fs) := by
  unfold makeFolder
  split
  · exact Grown.refl region fs
  · rename_i hroot
    split
    · rename_i hnone
      exact grown_set (hin hroot (by simp [hnone])) (fun _ => rfl)
    · exact Grown.refl region fs
    · exact Grown.refl region fs

/-- Below a folder that is there, the parents that are missing are below it as well. -/
theorem make_parents_grown (hp : Present dir fs) (hbelow : dir <+: path) :
    (makeParents path fs).Ends (Grown (fun k => dir <+: k) fs) (Grown (fun k => dir <+: k) fs) := by
  refine Outcome.Ends.loop ?_ (Grown.refl _ fs)
  intro k hk t ht
  have hpath : k <+: path := ((List.mem_inits _ _).mp hk).trans (List.dropLast_prefix path)
  refine (make_folder_grown ?_).mono (fun u hu => ht.trans hu) (fun u hu => ht.trans hu)
  intro hroot hmissing
  rcases List.prefix_or_prefix_of_prefix hpath hbelow with habove | hin
  · exact absurd (ht.present hp k hroot habove) hmissing
  · exact hin

theorem make_parents_present (hp : Present path.dropLast fs) :
    makeParents path fs = .returned fs := by
  apply Outcome.loop_idle
  intro k hk
  unfold makeFolder
  split
  · rfl
  · rename_i hroot
    rw [hp k hroot ((List.mem_inits _ _).mp hk)]

theorem write_file_grown (content : String) (hin : region path) :
    (writeFile path content fs).Ends (Grown region fs) (Grown region fs) := by
  unfold writeFile
  split
  · exact Grown.refl region fs
  · rename_i h
    exact grown_set hin (fun hfolder => absurd (Or.inr hfolder) h)

theorem mkdir_grown (path : FilePath) (fs : FileSystem) :
    (mkdir path fs).Ends
      (fun t => Grown (fun k => path <+: k) fs t ∧ path ≠ [] ∧ t.get? path = some .folder ∧
        (path.dropLast = [] ∨ t.get? path.dropLast = some .folder))
      (fun t => t = fs) := by
  unfold mkdir
  split
  · rfl
  · rename_i hnew
    split
    · rename_i hparent
      have hgrown : Grown (fun k => path <+: k) fs (fs.set path .folder) :=
        grown_set (List.prefix_refl path) (fun _ => rfl)
      refine ⟨hgrown, fun he => hnew (Or.inl he), Dict.get?_set_self _ _ _, ?_⟩
      exact hparent.imp_right (fun h => hgrown.folders _ h)
    · rfl

theorem rmtree_same (path : FilePath) (fs : FileSystem) :
    (rmtree path fs).Ends (SameOutside (fun k => path <+: k) fs) (fun t => t = fs) := by
  unfold rmtree
  split
  · intro k hk
    rw [Dict.get?_restrict]
    simp [hk]
  · rfl

theorem rename_same (src dst : FilePath) (fs : FileSystem) :
    SameOutside (fun k => src <+: k ∨ dst <+: k) fs (rename src dst fs) := by
  intro k hk
  have hdst : ¬ dst <+: k := fun h => hk (Or.inr h)
  have hsrc : ¬ src <+: k := fun h => hk (Or.inl h)
  unfold rename
  rw [Dict.get?_foldl_set_other (fun e : FilePath × Node => dst ++ e.1.drop src.length) Prod.snd,
    Dict.get?_restrict]
  · simp [hsrc]
  · intro e _ he
    exact hdst (he ▸ List.prefix_append _ _)

/-- Where the destination is missing and its parents are there, only the two trees that
are moved from and to change. -/
theorem move_same {src dst : FilePath} (hp : Present dst.dropLast fs)
    (hnew : fs.get? dst ≠ some .folder) :
    (move src dst fs).Ends (SameOutside (fun k => src <+: k ∨ dst <+: k) fs)
      (fun t => t = fs) := by
  unfold move
  simp only [hnew, false_and, if_false]
  rw [make_parents_present hp]
  exact rename_same src dst fs

/-- What a folder that is replaced loses is all below it. -/
theorem rmtree_gone (path : FilePath) (fs : FileSystem) :
    (rmtree path fs).Ends (fun t => t.get? path = none) (fun _ => True) := by
  unfold rmtree
  split
  · exact (Dict.get?_restrict _ _ _).trans (if_neg (by simp))
  · trivial

end Frame

end CheshireCat.Base
