import CheshireCat.Base.Dict
import CheshireCat.Base.Replace
import Mathlib.Data.List.Basic

namespace CheshireCat.MadHatter
open Base

/-! ### The names of the modules of a plugin -/

def pySuffix : List Char := ['.', 'p', 'y']

/-- The name under which `_load_decorated_functions` imports a file. -/
def importedName (pyFile : List Char) : List Char :=
  replaceAll ['/'] ['.'] (replaceAll pySuffix [] pyFile)

/-- The name that `deactivate` removes for a file. -/
def removedName (pyFile : List Char) : List Char :=
  replaceAll pySuffix [] (replaceAll ['/'] ['.'] pyFile)

def dotted (c : Char) : Char := if c = '/' then '.' else c

theorem dotted_plain {c d : Char} (hd : d ≠ '.') (h : d = dotted c) : c = d := by
  unfold dotted at h
  split at h
  · exact absurd h hd
  · exact h.symm

/-- Where the dots make a suffix, there was one, or a name that starts with `py`. -/
theorem dotted_suffix {text : List Char} (h : pySuffix <+: text.map dotted) :
    pySuffix <+: text ∨ ['/', 'p', 'y'] <+: text := by
  match text with
  | c :: d :: e :: rest =>
    obtain ⟨hc, h⟩ := List.cons_prefix_cons.mp h
    obtain ⟨hd, h⟩ := List.cons_prefix_cons.mp h
    obtain ⟨he, _⟩ := List.cons_prefix_cons.mp h
    rw [dotted_plain (by decide) hd, dotted_plain (by decide) he]
    unfold dotted at hc
    split at hc
    · rename_i hslash
      rw [hslash]
      exact Or.inr ⟨rest, rfl⟩
    · rw [← hc]
      exact Or.inl ⟨rest, rfl⟩
  | [] => cases List.prefix_nil.mp h
  | [_] => exact absurd (show 3 ≤ 1 from h.length_le) (by decide)
  | [_, _] => exact absurd (show 3 ≤ 2 from h.length_le) (by decide)

theorem passes_py (rest : List Char) :
    replaceAll pySuffix [] ('p' :: 'y' :: rest) = 'p' :: 'y' :: replaceAll pySuffix [] rest := by
  have hdot : '.' ∉ ['p', 'y'] := by decide
  exact replace_skip hdot rest

/-- Dots that come first leave no more, and less where a name starts with `py`. -/
theorem removed_length (text : List Char) :
    (replaceAll pySuffix [] (text.map dotted)).length ≤ (replaceAll pySuffix [] text).length ∧
    (['/', 'p', 'y'] <:+: text →
      (replaceAll pySuffix [] (text.map dotted)).length < (replaceAll pySuffix [] text).length) := by
  have hne : pySuffix ≠ [] := by decide
  induction text using replace_induction hne with
  | nil => exact ⟨Nat.le_refl _, fun h => by cases List.infix_nil.mp h⟩
  | found rest ih =>
    have hmap : (pySuffix ++ rest).map dotted = pySuffix ++ rest.map dotted := List.map_append ..
    rw [hmap, replace_match hne, replace_match hne]
    exact ⟨ih.1, fun h => ih.2 (infix_skip (by decide) h)⟩
  | step c rest hno ih =>
    by_cases hmade : pySuffix <+: (c :: rest).map dotted
    · obtain ⟨rest', hrest⟩ := (dotted_suffix hmade).resolve_left hno
      cases hrest
      have hle : (replaceAll pySuffix [] ('p' :: 'y' :: rest'.map dotted)).length ≤
          (replaceAll pySuffix [] ('p' :: 'y' :: rest')).length := ih.1
      have hmap : ('/' :: 'p' :: 'y' :: rest').map dotted = pySuffix ++ rest'.map dotted := rfl
      have hpass : replaceAll pySuffix [] ('/' :: 'p' :: 'y' :: rest') =
          '/' :: replaceAll pySuffix [] ('p' :: 'y' :: rest') := replace_step hno
      change (replaceAll pySuffix [] (('/' :: 'p' :: 'y' :: rest').map dotted)).length ≤
        (replaceAll pySuffix [] ('/' :: 'p' :: 'y' :: rest')).length ∧ (_ →
        (replaceAll pySuffix [] (('/' :: 'p' :: 'y' :: rest').map dotted)).length <
          (replaceAll pySuffix [] ('/' :: 'p' :: 'y' :: rest')).length)
      rw [passes_py, passes_py, List.length_cons, List.length_cons, List.length_cons, List.length_cons] at hle
      rw [hmap, replace_match hne, hpass, passes_py, List.nil_append, List.length_cons, List.length_cons,
        List.length_cons]
      exact ⟨by omega, fun _ => by omega⟩
    · rw [List.map_cons] at hmade ⊢
      rw [replace_step hno, replace_step hmade, List.length_cons, List.length_cons]
      refine ⟨Nat.succ_le_succ ih.1, ?_⟩
      intro h
      apply Nat.succ_lt_succ
      apply ih.2
      apply (List.infix_cons_iff.mp h).resolve_left
      rintro ⟨rest', hrest⟩
      apply hmade
      rw [← List.map_cons, ← hrest]
      exact ⟨rest'.map dotted, rfl⟩

/-- The two names of a file are one where no part of its path starts with `py` after a slash. -/
theorem names_agree (pyFile : List Char) :
    removedName pyFile = importedName pyFile ↔ ¬ ['/', 'p', 'y'] <:+: pyFile := by
  have hdots (text : List Char) : replaceAll ['/'] ['.'] text = text.map dotted := replace_item '/' '.' text
  rw [removedName, importedName, hdots, hdots]
  constructor
  · intro hsame hoccurs
    have hless := (removed_length pyFile).2 hoccurs
    rw [hsame, List.length_map] at hless
    exact Nat.lt_irrefl _ hless
  · intro hno
    apply replace_map (by decide) rfl rfl
    intro todo htodo hmade
    exact (dotted_suffix hmade).resolve_right (fun h => hno (h.isInfix.trans htodo.isInfix))

/-! ### Importing and removing -/

variable {μ : Type}

/-- The packages that a name is in, from the outermost. -/
def parents (name : List Char) : List (List Char) :=
  ((List.range name.length).filter (fun i => name[i]? = some '.')).map (fun i => name.take i)

/-- What is cached is not read again. `disk` has what an import of the name executes, where it
does not raise. -/
def importCached (disk : List Char → Option μ) (sysModules : Dict (List Char) μ) (name : List Char) :
    Option μ × Dict (List Char) μ :=
  match sysModules.get? name with
  | some m => (some m, sysModules)
  | none =>
    match disk name with
    | some m => (some m, sysModules.set name m)
    | none => (none, sysModules)

/-- The packages are imported first, and the first that fails ends the import. -/
def importChain (disk : List Char → Option μ) :
    Dict (List Char) μ → List (List Char) → List Char → Option μ × Dict (List Char) μ
  | sysModules, [], name => importCached disk sysModules name
  | sysModules, package :: packages, name =>
    match importCached disk sysModules package with
    | (none, sysModules) => (none, sysModules)
    | (some _, sysModules) => importChain disk sysModules packages name

/-- `importlib.import_module(name)`. A relative name raises. -/
def importModule (disk : List Char → Option μ) (sysModules : Dict (List Char) μ) (name : List Char) :
    Option μ × Dict (List Char) μ :=
  if name.head? = some '.' then (none, sysModules)
  else if name ∈ sysModules.keys then (sysModules.get? name, sysModules)
  else importChain disk sysModules (parents name) name

/-- The modules of the files in `_load_decorated_functions`, but for those that raise. -/
def loadModules (disk : List Char → Option μ) : Dict (List Char) μ → List (List Char) →
    List (List Char × μ) × Dict (List Char) μ
  | sysModules, [] => ([], sysModules)
  | sysModules, pyFile :: pyFiles =>
    let (found, sysModules) := importModule disk sysModules (importedName pyFile)
    let (rest, sysModules) := loadModules disk sysModules pyFiles
    ((found.map (fun m => (pyFile, m))).toList ++ rest, sysModules)

/-- The loop of `deactivate`. -/
def removeModules (sysModules : Dict (List Char) μ) (pyFiles : List (List Char)) : Dict (List Char) μ :=
  pyFiles.foldl (fun sysModules pyFile =>
    if removedName pyFile ∈ sysModules.keys then sysModules.erase (removedName pyFile) else sysModules)
    sysModules

/-- The names removed are those imported, so that no module imported for a file stays, and what a
later activation loads is on disk then. -/
structure Unloads (μ : Type) (pyFiles : List (List Char)) : Prop where
  names : ∀ pyFile ∈ pyFiles, removedName pyFile = importedName pyFile
  removed : ∀ sysModules : Dict (List Char) μ, ∀ pyFile ∈ pyFiles,
    importedName pyFile ∉ (removeModules sysModules pyFiles).keys
  reloaded : ∀ (sysModules : Dict (List Char) μ) (disk : List Char → Option μ),
    ∀ p ∈ (loadModules disk (removeModules sysModules pyFiles) pyFiles).1,
      disk (importedName p.1) = some p.2

theorem mem_remove_modules {pyFiles : List (List Char)} {sysModules : Dict (List Char) μ} {name : List Char} :
    name ∈ (removeModules sysModules pyFiles).keys ↔
      name ∈ sysModules.keys ∧ ∀ pyFile ∈ pyFiles, removedName pyFile ≠ name := by
  induction pyFiles generalizing sysModules with
  | nil => exact (and_iff_left (fun _ h => absurd h List.not_mem_nil)).symm
  | cons pyFile pyFiles ih =>
    have herase : (if removedName pyFile ∈ sysModules.keys then sysModules.erase (removedName pyFile)
        else sysModules) = sysModules.erase (removedName pyFile) := by
      split
      · rfl
      · rename_i habsent
        exact (sysModules.erase_absent habsent).symm
    rw [removeModules, List.foldl_cons, herase, ← removeModules, ih, List.forall_mem_cons, Dict.mem_keys_iff,
      Dict.mem_keys_iff, ← and_assoc]
    apply and_congr_left'
    rw [Dict.get?_erase]
    split
    · rename_i hname
      exact iff_of_false (by simp) (fun h => h.2 hname.symm)
    · rename_i hname
      exact (and_iff_left (Ne.symm hname)).symm

/-- What is cached under the names is on disk. -/
def FromDisk (disk : List Char → Option μ) (names : List (List Char)) (sysModules : Dict (List Char) μ) : Prop :=
  ∀ name ∈ names, ∀ m, sysModules.get? name = some m → disk name = some m

section

variable {disk : List Char → Option μ} {names : List (List Char)} {sysModules : Dict (List Char) μ}

theorem FromDisk.cached (h : FromDisk disk names sysModules) (name : List Char) :
    FromDisk disk names (importCached disk sysModules name).2 ∧
    (name ∈ names → ∀ m, (importCached disk sysModules name).1 = some m → disk name = some m) := by
  unfold importCached
  cases hget : sysModules.get? name with
  | some found =>
    refine ⟨h, ?_⟩
    intro hname m hm
    exact h name hname m (hget.trans hm)
  | none =>
    cases hdisk : disk name with
    | none => exact ⟨h, fun _ _ hm => by cases hm⟩
    | some found =>
      refine ⟨?_, fun _ _ hm => hm⟩
      intro name' hname' m hm
      rw [Dict.get?_set] at hm
      split at hm
      · rename_i hsame
        rw [hsame, hdisk]
        exact hm
      · exact h name' hname' m hm

theorem FromDisk.chain (h : FromDisk disk names sysModules) (packages : List (List Char)) (name : List Char) :
    FromDisk disk names (importChain disk sysModules packages name).2 ∧
    (name ∈ names → ∀ m, (importChain disk sysModules packages name).1 = some m → disk name = some m) := by
  induction packages generalizing sysModules with
  | nil => exact h.cached name
  | cons package packages ih =>
    have hpackage := (h.cached package).1
    unfold importChain
    generalize importCached disk sysModules package = result at hpackage
    match result with
    | (none, sysModules') => exact ⟨hpackage, fun _ _ hm => by cases hm⟩
    | (some _, sysModules') => exact ih hpackage

theorem FromDisk.importModule (h : FromDisk disk names sysModules) (name : List Char) :
    FromDisk disk names (importModule disk sysModules name).2 ∧
    (name ∈ names → ∀ m, (importModule disk sysModules name).1 = some m → disk name = some m) := by
  unfold MadHatter.importModule
  split
  · exact ⟨h, fun _ _ hm => by cases hm⟩
  · split
    · exact ⟨h, h name⟩
    · exact h.chain (parents name) name

theorem FromDisk.loaded (h : FromDisk disk names sysModules) {pyFiles : List (List Char)}
    (hnames : ∀ pyFile ∈ pyFiles, importedName pyFile ∈ names) :
    ∀ p ∈ (loadModules disk sysModules pyFiles).1, disk (importedName p.1) = some p.2 := by
  induction pyFiles generalizing sysModules with
  | nil => exact fun _ hp => absurd hp List.not_mem_nil
  | cons pyFile pyFiles ih =>
    obtain ⟨hfirst, hrest⟩ := List.forall_mem_cons.mp hnames
    have himport := h.importModule (importedName pyFile)
    intro p hp
    rcases List.mem_append.mp hp with hp | hp
    · obtain ⟨m, hm, rfl⟩ := Option.map_eq_some_iff.mp (Option.mem_toList.mp hp)
      exact himport.2 hfirst m hm
    · exact ih himport.1 hrest p hp

end

/-- A plugin with a file `pytime.py`, whose module is one number, upgraded from 1 to 2. -/
def pytimeFile : List Char := "cat/plugins/clock/pytime.py".toList

end CheshireCat.MadHatter
