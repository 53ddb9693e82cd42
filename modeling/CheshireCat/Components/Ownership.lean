import CheshireCat.Components.Identity
import Mathlib.Data.Finite.Defs
import Mathlib.Data.Set.Finite.Basic

namespace CheshireCat.Components
open Base

/-! ### What a user sees -/

def ownRows (user : String) (todos : List Row) : List Row :=
  todos.filter (fun row => row.cells .user = .str user)

/-- The rows of the user are the same, and so is every summary. -/
def SameFor (py : Python) (user : String) (tables tables' : Tables) : Prop :=
  ownRows user tables'.todos = ownRows user tables.todos ∧
    ∀ project, projectSummary py user tables' project = projectSummary py user tables project

/-- The names in `projects.csv`, which a summary of a missing project lists. -/
def namesSeen (projects : Option (List (List String))) : Option (Finset String) :=
  projects.map (fun rows => (projectNames rows).toFinset)

section Views

variable {py : Python} {user : String} {tables tables' : Tables}

theorem component_rows_of (user : String) (todos : List Row) (project : String) :
    todos.filter (fun row => row.isComponentOf project user) =
      (ownRows user todos).filter (fun row => row.cells .nomeProgetto = .str project) := by
  rw [ownRows, List.filter_filter]
  rfl

theorem check_project_seen {projects projects' : Option (List (List String))}
    (h : namesSeen projects' = namesSeen projects) (name : String) :
    checkProjectExistence projects' (.str name) = checkProjectExistence projects (.str name) := by
  unfold namesSeen at h
  cases projects with
  | none =>
    cases projects' with
    | none => rfl
    | some rows' => cases h
  | some rows =>
    cases projects' with
    | none => cases h
    | some rows' =>
      have hnames : (projectNames rows').toFinset = (projectNames rows).toFinset :=
        Option.some.inj h
      have hmem : name ∈ projectNames rows' ↔ name ∈ projectNames rows := by
        rw [← List.mem_toFinset, hnames, List.mem_toFinset]
      simp only [checkProjectExistence, hnames, hmem]

/-- A name that is not blank and is no project. -/
theorem exists_missing (names : Finset String) : ∃ name, isBlank name = false ∧ name ∉ names := by
  let word (n : Nat) : String := String.ofList (List.replicate (n + 1) 'x')
  have hword : Function.Injective word := by
    intro m n h
    have hlength := congrArg String.length h
    simpa [word] using hlength
  obtain ⟨name, ⟨n, rfl⟩, hmissing⟩ := (Set.infinite_range_of_injective hword).exists_notMem_finset names
  refine ⟨word n, ?_, hmissing⟩
  simp only [isBlank, word, String.toList_ofList, List.replicate_succ, List.all_cons]
  rfl

def missingReply (name : String) : Option (Finset String) → Reply
  | none => .projectFileNotFound
  | some names => .projectNotFound (.str name) names

theorem summary_missing {name : String} (hblank : isBlank name = false)
    (hmissing : name ∉ (namesSeen tables.projects).getD ∅) :
    projectSummary py user tables name = .ok (missingReply name (namesSeen tables.projects)) := by
  unfold projectSummary namesSeen at *
  rw [hblank]
  cases hp : tables.projects with
  | none => rfl
  | some rows =>
    rw [hp] at hmissing
    have hname : name ∉ projectNames rows := fun hmem => hmissing (List.mem_toFinset.mpr hmem)
    simp [checkProjectExistence, hname, missingReply]

/-- A user sees the same exactly where his rows and the names are the same. -/
theorem same_for_iff : SameFor py user tables tables' ↔
    ownRows user tables'.todos = ownRows user tables.todos ∧
      namesSeen tables'.projects = namesSeen tables.projects := by
  constructor
  · intro h
    refine ⟨h.1, ?_⟩
    obtain ⟨name, hblank, hmissing⟩ :=
      exists_missing ((namesSeen tables.projects).getD ∅ ∪ (namesSeen tables'.projects).getD ∅)
    rw [Finset.mem_union, not_or] at hmissing
    have hsame := h.2 name
    rw [summary_missing hblank hmissing.1, summary_missing hblank hmissing.2] at hsame
    have hreply := Except.ok.inj hsame
    cases hp : namesSeen tables.projects <;> cases hp' : namesSeen tables'.projects <;>
      simp [hp, hp', missingReply] at hreply ⊢
    exact hreply
  · rintro ⟨hrows, hseen⟩
    refine ⟨hrows, ?_⟩
    intro project
    unfold projectSummary
    rw [check_project_seen hseen, component_rows_of, component_rows_of, hrows]

end Views

/-! ### What reaches another user -/

/-- pandas reads the rows of the user, in their places, as they were, and no other row as one of his. -/
def ReadsAs (csv : Csv) (user : String) (olds rows : List Row) : Prop :=
  ∀ p ∈ olds.zip (csv.rows rows),
    p.1.cells .user = .str user ∨ p.2.cells .user = .str user → p.2 = p.1

instance (csv : Csv) (user : String) (olds rows : List Row) : Decidable (ReadsAs csv user olds rows) :=
  inferInstanceAs (Decidable (∀ p ∈ olds.zip (csv.rows rows), _ ∨ _ → _))

/-- The call makes a project with a new name, or deletes the last one of a name. -/
def NamesChange (tables : Tables) (call : ToolCall) : Prop :=
  match call.tool with
  | .createProject project =>
    isBlank project = false ∧ project ∉ projectNames (tables.projects.getD [])
  | .deleteProject project =>
    (project, call.caller.userId) ∈ userProjects (tables.projects.getD []) ∧
      ∀ row ∈ tables.projects.getD [], row ≠ [] ∧
        (row.head? = some project → isProject project call.caller.userId row = some true)
  | _ => False

/-- The rows that the call saves are read so that the rows of `user`, who is not the caller, are others:
one of his is read as something else, or one as his that was not. Where a modification writes half of a
surrogate pair, the rows behind it are lost. -/
def RowsChange (py : Python) (csv : Csv) (tables : Tables) (call : ToolCall) (user : String) : Prop :=
  let caller := call.caller
  match call.tool with
  | .createProject _ => False
  | .deleteProject project =>
    let left := tables.todos.filter (fun row => ¬ row.isComponentOf project caller.userId)
    (project, caller.userId) ∈ userProjects (tables.projects.getD []) ∧
      (∀ row ∈ tables.projects.getD [], isProject project caller.userId row ≠ none) ∧
      ¬ ReadsAs csv user left left
  | .addComponent data =>
    ∃ list rows, data = .components list ∧
      componentRows py caller tables.projects (nextId tables.todos) list = .ok rows ∧
      ¬ ReadsAs csv user (tables.todos ++ rows) (tables.todos ++ rows)
  | .modifyComponentById data =>
    ∃ updates row row', Modifies py tables caller data updates row row' ∧
      (¬ ReadsAs csv user tables.todos (tables.todos.replace row row') ∨
        HalfUpdate updates ∧ ∃ r ∈ tables.todos.dropWhile (fun r => r ≠ row), r.cells .user = .str user)
  | .deleteComponentsByIds ids =>
    ∃ list left deleted, ids = .ids list ∧
      list.foldl (deleteComponentById caller.userId) (tables.todos, []) = (left, deleted) ∧
      deleted ≠ [] ∧ ¬ ReadsAs csv user left left

/-- The call changes what `user`, who is not the caller, sees. -/
def Reaches (py : Python) (csv : Csv) (tables : Tables) (call : ToolCall) (user : String) : Prop :=
  NamesChange tables call ∨ RowsChange py csv tables call user

section Reach

variable {py : Python} {csv : Csv} {user : String} {tables : Tables} {caller : Caller}

/-- Rows of the caller come and go without the rows of another user. -/
theorem own_rows_split {before after : List Row} {row : Row}
    (h : row.cells .user ≠ .str user) :
    ownRows user (before ++ row :: after) = ownRows user (before ++ after) := by
  unfold ownRows
  rw [List.filter_append, List.filter_append, List.filter_cons_of_neg (by simpa using h)]

theorem other_user {row : Row} (hv : user ≠ caller.userId)
    (h : row.cells .user = .str caller.userId) : row.cells .user ≠ .str user := by
  rw [h]
  simpa using Ne.symm hv

/-- Rows that are the same in their places are the same rows. -/
theorem own_rows_same {olds news : List Row} (hids : olds.map Row.id = news.map Row.id)
    (h : ∀ p ∈ olds.zip news, p.1.cells .user = .str user ∨ p.2.cells .user = .str user → p.2 = p.1) :
    ownRows user news = ownRows user olds := by
  induction olds generalizing news with
  | nil =>
    rw [List.map_nil, eq_comm, List.map_eq_nil_iff] at hids
    rw [hids]
  | cons old olds ih =>
    cases news with
    | nil => cases hids
    | cons new news =>
      rw [List.zip_cons_cons, List.forall_mem_cons] at h
      have hrest := ih (List.cons.inj hids).2 h.2
      unfold ownRows at hrest ⊢
      by_cases hold : old.cells .user = .str user
      · have hsame : new = old := h.1 (Or.inl hold)
        rw [hsame, List.filter_cons_of_pos (by simpa using hold),
          List.filter_cons_of_pos (by simpa using hold), hrest]
      · have hnew : new.cells .user ≠ .str user := by
          intro hnew
          have hsame : new = old := h.1 (Or.inr hnew)
          exact hold (hsame ▸ hnew)
        rw [List.filter_cons_of_neg (by simpa using hnew),
          List.filter_cons_of_neg (by simpa using hold), hrest]

theorem own_id_mem {row : Row} {rows rows' : List Row} (h : ownRows user rows = ownRows user rows')
    (hrow : row ∈ rows) (hown : row.cells .user = .str user) : row.id ∈ rows'.map Row.id := by
  have hmem : row ∈ ownRows user rows := List.mem_filter.mpr ⟨hrow, by simpa using hown⟩
  rw [h] at hmem
  exact List.mem_map_of_mem (List.mem_of_mem_filter hmem)

/-- With distinct ids, the same rows are in the same places. -/
theorem own_rows_places {olds news : List Row} (hids : olds.map Row.id = news.map Row.id)
    (hnodup : (news.map Row.id).Nodup) (h : ownRows user news = ownRows user olds) :
    ∀ p ∈ olds.zip news, p.1.cells .user = .str user ∨ p.2.cells .user = .str user → p.2 = p.1 := by
  induction olds generalizing news with
  | nil => exact nofun
  | cons old olds ih =>
    cases news with
    | nil => cases hids
    | cons new news =>
      obtain ⟨hid, hrest⟩ := List.cons.inj hids
      obtain ⟨hfresh, hnodup⟩ := List.nodup_cons.mp hnodup
      rw [List.zip_cons_cons, List.forall_mem_cons]
      dsimp only
      by_cases hold : old.cells .user = .str user <;> by_cases hnew : new.cells .user = .str user
      · rw [ownRows, ownRows, List.filter_cons_of_pos (by simpa using hnew),
          List.filter_cons_of_pos (by simpa using hold)] at h
        obtain ⟨hsame, h⟩ := List.cons.inj h
        exact ⟨fun _ => hsame, ih hrest hnodup h⟩
      · -- the row of the user would be one with another id
        rw [ownRows, List.filter_cons_of_neg (by simpa using hnew)] at h
        exact absurd (hid ▸ own_id_mem h.symm List.mem_cons_self hold) hfresh
      · have hlater : ownRows user (new :: news) = ownRows user olds := by
          rw [h, ownRows, List.filter_cons_of_neg (by simpa using hold)]
          rfl
        exact absurd (hrest ▸ own_id_mem hlater List.mem_cons_self hnew) hfresh
      · rw [ownRows, ownRows, List.filter_cons_of_neg (by simpa using hnew),
          List.filter_cons_of_neg (by simpa using hold)] at h
        exact ⟨fun hown => absurd hown (not_or.mpr ⟨hold, hnew⟩), ih hrest hnodup h⟩

/-- The user has the same rows after the call. -/
def RowsKept (csv : Csv) (user : String) (tables : Tables) (saved : Saved) : Prop :=
  ownRows user (tables.after csv saved).todos = ownRows user tables.todos

/-- The file has the rows that could be written, so that only these are compared. -/
theorem reads_as_iff {kept lost rows : List Row} (hids : kept.map Row.id = (encoded rows).map Row.id) :
    ReadsAs csv user (kept ++ lost) rows ↔ ∀ p ∈ kept.zip (csv.rows rows),
      p.1.cells .user = .str user ∨ p.2.cells .user = .str user → p.2 = p.1 := by
  have hlength : kept.length = (csv.rows rows).length := by
    have hread := congrArg List.length (hids.trans (csv.rows_ids rows).symm)
    rwa [List.length_map, List.length_map] at hread
  have hzip : (kept ++ lost).zip (csv.rows rows) = kept.zip (csv.rows rows) := by
    have happend : (kept ++ lost).zip (csv.rows rows ++ []) = kept.zip (csv.rows rows) ++ lost.zip [] :=
      List.zip_append hlength
    rwa [List.append_nil, List.zip_nil_right, List.append_nil] at happend
  rw [ReadsAs, hzip]

theorem reads_as_kept (kept lost : List Row) {rows : List Row} {saved : Saved} (hsaved : saved.todos = some rows)
    (hids : kept.map Row.id = (encoded rows).map Row.id)
    (hown : ownRows user kept = ownRows user tables.todos) (h : ReadsAs csv user (kept ++ lost) rows) :
    RowsKept csv user tables saved := by
  unfold RowsKept Tables.after
  rw [hsaved, ← hown]
  exact own_rows_same (hids.trans (csv.rows_ids rows).symm) ((reads_as_iff hids).mp h)

theorem kept_reads_as (kept lost : List Row) {rows : List Row} {saved : Saved} (hsaved : saved.todos = some rows)
    (hids : kept.map Row.id = (encoded rows).map Row.id)
    (hown : ownRows user kept = ownRows user tables.todos) (hnodup : (kept.map Row.id).Nodup)
    (h : RowsKept csv user tables saved) : ReadsAs csv user (kept ++ lost) rows := by
  unfold RowsKept Tables.after at h
  rw [hsaved, ← hown] at h
  have hread := hids.trans (csv.rows_ids rows).symm
  exact (reads_as_iff hids).mpr (own_rows_places hread (hread ▸ hnodup) h)

/-- The rows of the user are kept where nothing changes, and change otherwise if the ids are distinct. -/
def Decides (csv : Csv) (user : String) (tables : Tables) (saved : Saved) (change : Prop) : Prop :=
  (¬ change → RowsKept csv user tables saved) ∧
    ((tables.todos.map Row.id).Nodup → RowsKept csv user tables saved → ¬ change)

theorem decides_nothing {saved : Saved} (hsaved : saved.todos = none) {change : Prop} (h : ¬ change) :
    Decides csv user tables saved change := by
  refine ⟨fun _ => ?_, fun _ _ => h⟩
  unfold RowsKept Tables.after
  rw [hsaved]
  rfl

theorem decides_reading (kept lost : List Row) {rows : List Row} {saved : Saved} (hsaved : saved.todos = some rows)
    (hids : kept.map Row.id = (encoded rows).map Row.id)
    (hown : ownRows user kept = ownRows user tables.todos)
    (hnodup : (tables.todos.map Row.id).Nodup → (kept.map Row.id).Nodup) {change : Prop}
    (h : change ↔ ¬ ReadsAs csv user (kept ++ lost) rows) : Decides csv user tables saved change := by
  rw [Decides, h, not_not]
  exact ⟨reads_as_kept kept lost hsaved hids hown,
    fun hdistinct => kept_reads_as kept lost hsaved hids hown (hnodup hdistinct)⟩

theorem mem_project_names_iff (rows : List (List String)) (name : String) :
    name ∈ projectNames rows ↔ ∃ row ∈ rows, row.head? = some name := by
  rw [projectNames, List.mem_filterMap]

theorem mem_names_of_user {rows : List (List String)} {project user : String}
    (h : (project, user) ∈ userProjects rows) : project ∈ projectNames rows := by
  obtain ⟨row, hrow, hp⟩ := List.mem_filterMap.mp h
  refine (mem_project_names_iff rows project).mpr ⟨row, hrow, ?_⟩
  split at hp
  · cases hp
    rfl
  · cases hp

theorem is_project_true {project user : String} {row : List String}
    (h : isProject project user row = some true) : row.head? = some project := by
  match row with
  | [] => cases h
  | [name] =>
    simp only [isProject] at h
    split at h <;> cases h
  | name :: owner :: rest =>
    simp only [isProject, Option.some.injEq, Bool.and_eq_true, decide_eq_true_eq] at h
    rw [h.1]
    rfl

/-- The name stays where another row has it. -/
theorem names_kept_iff {rows : List (List String)} {project user : String}
    (hproject : project ∈ projectNames rows)
    (hshort : ∀ row ∈ rows, isProject project user row ≠ none) :
    (projectNames (rows.filter (fun row => isProject project user row = some false))).toFinset =
        (projectNames rows).toFinset ↔
      ∃ row ∈ rows, row.head? = some project ∧ isProject project user row ≠ some true := by
  constructor
  · intro h
    rw [← List.mem_toFinset, ← h, List.mem_toFinset, mem_project_names_iff] at hproject
    obtain ⟨row, hrow, hname⟩ := hproject
    obtain ⟨hrow, hkept⟩ := List.mem_filter.mp hrow
    have hkept : isProject project user row = some false := by simpa using hkept
    exact ⟨row, hrow, hname, by simp [hkept]⟩
  · rintro ⟨row, hrow, hname, hother⟩
    have hfalse (r : List String) (hr : r ∈ rows) (hne : isProject project user r ≠ some true) :
        isProject project user r = some false := by
      have hsome := hshort r hr
      rcases hkind : isProject project user r with _ | _ | _
      · exact absurd hkind hsome
      · rfl
      · exact absurd hkind hne
    ext name
    rw [List.mem_toFinset, List.mem_toFinset, mem_project_names_iff, mem_project_names_iff]
    constructor
    · rintro ⟨r, hr, hn⟩
      exact ⟨r, List.mem_of_mem_filter hr, hn⟩
    · rintro ⟨r, hr, hn⟩
      by_cases htrue : isProject project user r = some true
      · have he : name = project := Option.some.inj (hn.symm.trans (is_project_true htrue))
        subst he
        exact ⟨row, List.mem_filter.mpr ⟨hrow, by simpa using hfalse row hrow hother⟩, hname⟩
      · exact ⟨r, List.mem_filter.mpr ⟨hr, by simpa using hfalse r hr htrue⟩, hn⟩

theorem add_decides (hread : ∀ row ∈ tables.todos, row.encodes = true) (hv : user ≠ caller.userId)
    (data : ComponentData) : Decides csv user tables (addComponent py caller tables data).2
      (RowsChange py csv tables ⟨caller, .addComponent data⟩ user) := by
  cases data with
  | unreadable error => exact decides_nothing rfl nofun
  | noList => exact decides_nothing rfl nofun
  | components list =>
    unfold addComponent
    dsimp only
    split
    · rename_i reply hrows
      apply decides_nothing rfl
      rintro ⟨_, rows, heq, hok, _⟩
      cases heq
      cases hrows.symm.trans hok
    · rename_i rows hrows
      have hnone : ownRows user (encoded rows) = [] := by
        rw [ownRows, List.filter_eq_nil_iff]
        intro row hrow
        obtain ⟨k, c, _, _, hmade⟩ := mem_component_rows hrows ((encoded_sublist rows).subset hrow)
        obtain ⟨code, description, unitCost, quantity, total, note, _, _, _, _, rfl⟩ :=
          component_row_ok hmade
        simp [componentCells, Ne.symm hv]
      obtain ⟨lost, hlost⟩ := List.takeWhile_prefix (l := rows) Row.encodes
      have hsplit : tables.todos ++ rows = (tables.todos ++ encoded rows) ++ lost := by
        rw [List.append_assoc]
        exact congrArg _ hlost.symm
      refine decides_reading (tables.todos ++ encoded rows) lost rfl
        (congrArg _ (encoded_append hread rows).symm) ?_ ?_ ?_
      · rw [ownRows, List.filter_append]
        exact (congrArg _ hnone).trans (List.append_nil _)
      · intro hids
        exact (added_ids hids hrows).sublist
          (((List.Sublist.refl _).append (encoded_sublist rows)).map Row.id)
      · rw [← hsplit]
        constructor
        · rintro ⟨_, rows', heq, hok, hno⟩
          cases heq
          cases hrows.symm.trans hok
          exact hno
        · exact fun hno => ⟨list, rows, rfl, hrows, hno⟩

theorem delete_own_rows (hv : user ≠ caller.userId) (ids : List Int)
    (state : List Row × List Int) :
    ownRows user (ids.foldl (deleteComponentById caller.userId) state).1 =
      ownRows user state.1 := by
  induction ids generalizing state with
  | nil => rfl
  | cons id ids ih =>
    apply (ih _).trans
    unfold deleteComponentById
    split
    · rfl
    · rename_i row hfind
      obtain ⟨hp, before, after, htodos, herase, _⟩ := found_split hfind
      have hcaller := ((has_id_iff row _ _).mp hp).2
      change ownRows user (state.1.erase row) = _
      rw [herase, htodos, own_rows_split (other_user hv hcaller)]

/-- Where some of the rows are left, those of the user are read as they are, or not. -/
theorem left_decides (hread : ∀ row ∈ tables.todos, row.encodes = true) {left : List Row} {saved : Saved}
    (hpart : left.Sublist tables.todos) (hown : ownRows user left = ownRows user tables.todos)
    (hsaved : saved.todos = some left) {change : Prop} (h : change ↔ ¬ ReadsAs csv user left left) :
    Decides csv user tables saved change := by
  have hencoded : encoded left = left := encoded_all (fun row hrow => hread row (hpart.subset hrow))
  rw [← List.append_nil left] at h
  exact decides_reading left [] hsaved (congrArg _ hencoded.symm) hown
    (fun hids => hids.sublist (hpart.map Row.id)) (by simpa using h)

theorem delete_ids_decides (hread : ∀ row ∈ tables.todos, row.encodes = true)
    (hv : user ≠ caller.userId) (ids : ComponentIds) :
    Decides csv user tables (deleteComponentsByIds caller tables ids).2
      (RowsChange py csv tables ⟨caller, .deleteComponentsByIds ids⟩ user) := by
  cases ids with
  | invalid => exact decides_nothing rfl nofun
  | raises error => exact decides_nothing rfl nofun
  | ids list =>
    have hpart := delete_sublist caller.userId list (tables.todos, [])
    have hown : ownRows user (list.foldl (deleteComponentById caller.userId) (tables.todos, [])).1 =
        ownRows user tables.todos := delete_own_rows hv list (tables.todos, [])
    unfold RowsChange deleteComponentsByIds
    dsimp only
    cases hstate : list.foldl (deleteComponentById caller.userId) (tables.todos, []) with
    | mk left deleted =>
      rw [hstate] at hpart hown
      dsimp only at hpart hown ⊢
      split
      · rename_i hnone
        apply decides_nothing rfl
        rintro ⟨_, _, _, heq, hsame, hsome, _⟩
        cases heq
        cases hstate.symm.trans hsame
        exact hsome hnone
      · rename_i hsome
        refine left_decides hread hpart hown rfl ⟨?_, fun hno => ⟨list, left, deleted, rfl, hstate, hsome, hno⟩⟩
        rintro ⟨_, _, _, heq, hsame, _, hno⟩
        cases heq
        cases hstate.symm.trans hsame
        exact hno

/-- Where a write is cut short, the rows of the user are kept if none of them is among those that are lost. -/
theorem cut_decides {before lost rows : List Row} (htodos : tables.todos = before ++ lost)
    (hcut : encoded rows = before) {saved : Saved} (hsaved : saved.todos = some rows) :
    Decides csv user tables saved
      (¬ ReadsAs csv user tables.todos rows ∨ ∃ r ∈ lost, r.cells .user = .str user) := by
  have hids : before.map Row.id = (encoded rows).map Row.id := congrArg _ hcut.symm
  -- with no row of the user lost, he has the rows before
  have hown (hnone : ¬ ∃ r ∈ lost, r.cells .user = .str user) :
      ownRows user before = ownRows user tables.todos := by
    rw [htodos, ownRows, ownRows, List.filter_append, eq_comm, List.append_right_eq_self,
      List.filter_eq_nil_iff]
    intro r hr hown
    exact hnone ⟨r, hr, of_decide_eq_true hown⟩
  rw [Decides, not_or, not_not]
  constructor
  · rintro ⟨hreads, hnone⟩
    rw [htodos] at hreads
    exact reads_as_kept before lost hsaved hids (hown hnone) hreads
  · intro hdistinct hkept
    rw [htodos, List.map_append, List.nodup_append] at hdistinct
    have hnone : ¬ ∃ r ∈ lost, r.cells .user = .str user := by
      rintro ⟨r, hr, hmine⟩
      have hmem : r ∈ tables.todos := htodos ▸ List.mem_append_right _ hr
      have hread : r.id ∈ (tables.after csv saved).todos.map Row.id := own_id_mem hkept.symm hmem hmine
      rw [Tables.after, hsaved, Option.map_some, Option.getD_some, csv.rows_ids, hcut] at hread
      exact hdistinct.2.2 r.id hread r.id (List.mem_map_of_mem hr) rfl
    rw [htodos]
    exact ⟨kept_reads_as before lost hsaved hids (hown hnone) hdistinct.1 hkept, hnone⟩

theorem modify_decides (hread : ∀ row ∈ tables.todos, row.encodes = true) (data : ModificationData) :
    Decides csv user tables (modifyComponentById py caller tables data).2
      (RowsChange py csv tables ⟨caller, .modifyComponentById data⟩ user) := by
  rcases modify_cases py tables caller data with ⟨updates, row, row', hmodifies, hsaved⟩ | ⟨hno, hsaved⟩
  · rw [hsaved]
    have hrow := hmodifies
    obtain ⟨id, rfl, _, hfind, hmodified⟩ := hrow
    obtain ⟨_, before, after, htodos, _, hreplace, hbefore⟩ := found_split hfind
    have hcut := modify_cut hread htodos hmodified
    rw [← hreplace row'] at hcut
    have hbehind : tables.todos.dropWhile (fun r => r ≠ row) = row :: after := by
      have hsplit := List.takeWhile_append_dropWhile (p := fun r => decide (r ≠ row)) (l := tables.todos)
      rw [hbefore, htodos] at hsplit
      exact htodos ▸ List.append_cancel_left hsplit
    have hchange : RowsChange py csv tables ⟨caller, .modifyComponentById (.updates id updates)⟩ user ↔
        ¬ ReadsAs csv user tables.todos (tables.todos.replace row row') ∨
          HalfUpdate updates ∧ ∃ r ∈ row :: after, r.cells .user = .str user := by
      rw [← hbehind]
      constructor
      · rintro ⟨_, _, _, hmodifies', hchange⟩
        obtain ⟨rfl, rfl, rfl⟩ := hmodifies.unique hmodifies'
        exact hchange
      · exact fun hchange => ⟨updates, row, row', hmodifies, hchange⟩
    by_cases hhalf : HalfUpdate updates
    · rw [if_pos hhalf] at hcut
      rw [hchange, and_iff_right hhalf]
      exact cut_decides htodos hcut rfl
    · rw [if_neg hhalf] at hcut
      have hids : tables.todos.map Row.id = (encoded (tables.todos.replace row row')).map Row.id := by
        rw [hcut, hreplace, htodos, List.map_append, List.map_append, List.map_cons, List.map_cons,
          (modified_spec hmodified).1]
      refine decides_reading tables.todos [] rfl hids rfl (fun hdistinct => hdistinct) ?_
      rw [hchange, List.append_nil, or_iff_left (fun h => hhalf h.1)]
  · rw [hsaved]
    apply decides_nothing rfl
    rintro ⟨updates, row, row', hmodifies, _⟩
    exact hno updates row row' hmodifies

/-- How a deletion ends: with the names checked and every row long enough, or with nothing. -/
theorem delete_project_cases (project : String) :
    (((project, caller.userId) ∈ userProjects (tables.projects.getD []) ∧
        ∀ row ∈ tables.projects.getD [], isProject project caller.userId row ≠ none) ∧
      (deleteProject caller tables project).2 =
        { projects := some ((tables.projects.getD []).filter
            (fun row => isProject project caller.userId row = some false)),
          todos := some (tables.todos.filter (fun row => ¬ row.isComponentOf project caller.userId)) }) ∨
    ¬ ((project, caller.userId) ∈ userProjects (tables.projects.getD []) ∧
        ∀ row ∈ tables.projects.getD [], isProject project caller.userId row ≠ none) ∧
      (deleteProject caller tables project).2 = {} := by
  unfold deleteProject checkProjectExistenceForUser
  cases tables.projects with
  | none => exact Or.inr ⟨fun h => absurd h.1 List.not_mem_nil, rfl⟩
  | some rows =>
    dsimp only [Option.getD_some]
    by_cases hown : (project, caller.userId) ∈ userProjects rows
    · rw [if_pos hown]
      dsimp only
      have hshort : rows.any (fun row => (isProject project caller.userId row).isNone) = true ↔
          ¬ ∀ row ∈ rows, isProject project caller.userId row ≠ none := by
        simp
      split
      · rename_i hany
        exact Or.inr ⟨fun h => hshort.mp hany h.2, rfl⟩
      · rename_i hnone
        exact Or.inl ⟨⟨hown, not_not.mp (mt hshort.mpr hnone)⟩, rfl⟩
    · rw [if_neg hown]
      exact Or.inr ⟨fun h => hown h.1, rfl⟩

theorem delete_project_decides (hread : ∀ row ∈ tables.todos, row.encodes = true)
    (hv : user ≠ caller.userId) (project : String) :
    Decides csv user tables (deleteProject caller tables project).2
      (RowsChange py csv tables ⟨caller, .deleteProject project⟩ user) := by
  rcases @delete_project_cases tables caller project with ⟨hdeleted, hsaved⟩ | ⟨hno, hsaved⟩
  · rw [hsaved]
    refine left_decides hread List.filter_sublist ?_ rfl
      ⟨fun h => h.2.2, fun h => ⟨hdeleted.1, hdeleted.2, h⟩⟩
    rw [ownRows, ownRows, List.filter_filter]
    apply List.filter_congr
    intro row _
    by_cases huser : row.cells .user = .str user
    · simp [Row.isComponentOf, huser, hv]
    · simp [huser]
  · rw [hsaved]
    exact decides_nothing rfl (fun h => hno ⟨h.1, h.2.1⟩)

/-- Of a project that is deleted the name stays where a row of another user has it. -/
theorem delete_project_names (project : String) :
    namesSeen (tables.after csv (deleteProject caller tables project).2).projects =
      namesSeen tables.projects ↔ ¬ NamesChange tables ⟨caller, .deleteProject project⟩ := by
  rcases @delete_project_cases tables caller project with ⟨⟨hown, hlong⟩, hsaved⟩ | ⟨hno, hsaved⟩
  · rw [hsaved]
    cases hprojects : tables.projects with
    | none =>
      rw [hprojects] at hown
      cases hown
    | some rows =>
      rw [hprojects, Option.getD_some] at hown hlong
      have hsame := names_kept_iff (mem_names_of_user hown) hlong
      rw [NamesChange, Tables.after, namesSeen, namesSeen, hprojects]
      simp only [Option.getD_some, Option.or_some, Option.map_some, Option.some.injEq, hsame]
      constructor
      · rintro ⟨row, hrow, hname, hother⟩ ⟨_, hall⟩
        exact hother ((hall row hrow).2 hname)
      · intro hnot
        by_contra hnone
        refine hnot ⟨hown, fun row hrow => ⟨?_, ?_⟩⟩
        · intro hempty
          exact hlong row hrow (by rw [hempty]; rfl)
        · intro hname
          by_contra hother
          exact hnone ⟨row, hrow, hname, hother⟩
  · rw [hsaved]
    refine iff_of_true rfl ?_
    rintro ⟨hown, hall⟩
    refine hno ⟨hown, ?_⟩
    intro row hrow hnone
    obtain ⟨hne, htrue⟩ := hall row hrow
    match row with
    | [] => exact hne rfl
    | [name] =>
      simp only [isProject] at hnone htrue
      split at hnone
      · rename_i hname
        simp [hname] at htrue
      · cases hnone
    | name :: owner :: rest => cases hnone

theorem create_project_names (project : String) :
    namesSeen (tables.after csv (createProject caller tables project).2).projects =
      namesSeen tables.projects ↔ ¬ NamesChange tables ⟨caller, .createProject project⟩ := by
  unfold createProject NamesChange
  dsimp only
  by_cases hblank : isBlank project = true
  · rw [if_pos hblank]
    refine iff_of_true rfl ?_
    rintro ⟨hno, _⟩
    rw [hblank] at hno
    cases hno
  · rw [if_neg hblank]
    split
    · rename_i hexists
      refine iff_of_true rfl ?_
      rintro ⟨_, hnew⟩
      unfold checkProjectExistenceForUser at hexists
      split at hexists
      · cases hexists
      · rename_i rows hprojects
        split at hexists
        · rename_i hown
          rw [hprojects] at hnew
          exact hnew (mem_names_of_user hown)
        · cases hexists
    · change some (projectNames (tables.projects.getD [] ++
        [[project, caller.userId]])).toFinset = namesSeen tables.projects ↔ _
      have hnames : projectNames (tables.projects.getD [] ++ [[project, caller.userId]]) =
          projectNames (tables.projects.getD []) ++ [project] := by
        rw [projectNames, projectNames, List.filterMap_append]
        rfl
      rw [hnames]
      cases hprojects : tables.projects with
      | none => simp [namesSeen, hblank, projectNames]
      | some rows => simp [namesSeen, hblank]

theorem names_same_iff (py : Python) (csv : Csv) (call : ToolCall) :
    namesSeen (step py csv tables call).2.projects = namesSeen tables.projects ↔
      ¬ NamesChange tables call := by
  obtain ⟨caller, tool⟩ := call
  cases tool with
  | createProject project => exact create_project_names project
  | deleteProject project => exact delete_project_names project
  | addComponent data =>
    refine iff_of_true ?_ id
    have hs : Saves py tables caller (.addComponent data) (addComponent py caller tables data).2 :=
      add_saves data
    change namesSeen (tables.after csv (addComponent py caller tables data).2).projects = _
    generalize (addComponent py caller tables data).2 = saved at hs
    cases hs <;> rfl
  | modifyComponentById data =>
    refine iff_of_true ?_ id
    change namesSeen (tables.after csv (modifyComponentById py caller tables data).2).projects = _
    rcases modify_cases py tables caller data with ⟨_, _, _, _, hsaved⟩ | ⟨_, hsaved⟩ <;> rw [hsaved] <;> rfl
  | deleteComponentsByIds ids =>
    refine iff_of_true ?_ id
    have hs : Saves py tables caller (.deleteComponentsByIds ids)
        (deleteComponentsByIds caller tables ids).2 := delete_ids_saves ids
    change namesSeen (tables.after csv (deleteComponentsByIds caller tables ids).2).projects = _
    generalize (deleteComponentsByIds caller tables ids).2 = saved at hs
    cases hs <;> rfl

theorem rows_decide (hread : ∀ row ∈ tables.todos, row.encodes = true) (call : ToolCall)
    (hv : user ≠ call.caller.userId) : Decides csv user tables (call.result py tables).2
      (RowsChange py csv tables call user) := by
  obtain ⟨caller, tool⟩ := call
  cases tool with
  | createProject project =>
    refine decides_nothing ?_ id
    change (createProject caller tables project).2.todos = none
    unfold createProject
    split
    · rfl
    · split <;> rfl
  | deleteProject project => exact delete_project_decides hread hv project
  | addComponent data => exact add_decides hread hv data
  | modifyComponentById data => exact modify_decides hread data
  | deleteComponentsByIds ids => exact delete_ids_decides hread hv ids

end Reach

def valveRow (id : Int) (caller : Caller) : Row :=
  ⟨id, componentCells caller (.str "streamair") (.str "VT-2020") (.str "Valvola") (.float (some 2))
    (.float (some 3)) (.float (some 6)) (.str "urgente")⟩

/-- Alice and Bob have a valve each in the project of Alice. -/
def sharedTables : Tables := ⟨some [["streamair", "alice"]], [valveRow 1 alice, valveRow 2 bob]⟩

def updateValve (updates : Dict String Value) : ToolCall :=
  ⟨alice, .modifyComponentById (.updates (.int 1) updates)⟩

end CheshireCat.Components
