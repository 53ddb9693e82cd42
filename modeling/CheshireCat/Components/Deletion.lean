import CheshireCat.Components.Reload
import CheshireCat.Components.Tools

namespace CheshireCat.Components

def isProjectOf (project user : String) : List String → Bool
  | name :: owner :: _ => name = project && owner = user
  | _ => false

/-- The rows are what pandas reads in the columns of the file. -/
def ReadFrom (p : Pandas) (file : TodoFile) (todos : List Row) : Prop :=
  ∀ c, todos.map (fun row => row.cells c) = p.read (file.columns c)

instance (p : Pandas) (file : TodoFile) (todos : List Row) : Decidable (ReadFrom p file todos) :=
  inferInstanceAs (Decidable (∀ _, _ = _))

/-- The project and the user of each row, as the file has them. -/
def TodoFile.owners (file : TodoFile) : List (String × String) :=
  (file.columns .nomeProgetto).zip (file.columns .user)

/-- The project of the caller is deleted, with the components that the file has for both, and nothing
else. -/
structure DeletesExactly (file : TodoFile) (caller : Caller) (tables : Tables) (project : String)
    (result : Result) : Prop where
  reply : result.1 = .ok (.projectDeleted project caller.userId)
  projects : (tables.written result.2).projects =
    tables.projects.map (fun rows => rows.filter (fun row => ¬ isProjectOf project caller.userId row))
  todos : (tables.written result.2).todos =
    ((tables.todos.zip file.owners).filter (fun x => x.2 ≠ (project, caller.userId))).map Prod.fst

variable {p : Pandas} {file : TodoFile} {caller : Caller} {tables : Tables} {project : String}

theorem is_project_some {user : String} {row : List String} {b : Bool}
    (h : isProject project user row = some b) : b = isProjectOf project user row := by
  match row, h with
  | [name], h =>
    rw [isProject] at h
    split at h
    · cases h
    · exact (Option.some.inj h).symm
  | name :: owner :: _, h => exact (Option.some.inj h).symm

theorem is_project_none (user : String) (row : List String) :
    (isProject project user row).isNone = true ↔ row = [] ∨ row = [project] := by
  match row with
  | [] => exact iff_of_true rfl (Or.inl rfl)
  | [name] =>
    rw [isProject]
    split
    · rename_i hname
      exact iff_of_true rfl (Or.inr (by rw [hname]))
    · rename_i hname
      apply iff_of_false Bool.false_ne_true
      rintro (h | h)
      · cases h
      · exact hname (List.cons.inj h).1
  | _ :: _ :: _ =>
    apply iff_of_false Bool.false_ne_true
    rintro (h | h) <;> cases h

/-- A cell that is read as a text is that text. -/
theorem read_text {texts : List String} {i : Nat} {s : String} (h : (p.read texts)[i]? = some (.str s)) :
    texts[i]? = some s := by
  have hcell {value : String → Value} (h : (p.cells texts value)[i]? = some (.str s)) :
      ∃ t, texts[i]? = some t ∧ value t = .str s := by
    rw [Pandas.cells, List.getElem?_map] at h
    obtain ⟨t, ht, hvalue⟩ := Option.map_eq_some_iff.mp h
    split at hvalue
    · cases hvalue
    · exact ⟨t, ht, hvalue⟩
  unfold Pandas.read at h
  dsimp only at h
  split at h
  · obtain ⟨_, _, hvalue⟩ := hcell h
    cases hvalue
  · split at h
    · obtain ⟨_, _, hvalue⟩ := hcell h
      cases hvalue
    · split at h
      · obtain ⟨_, _, hvalue⟩ := hcell h
        cases hvalue
      · obtain ⟨t, ht, hvalue⟩ := hcell h
        cases hvalue
        exact ht

section File

variable {todos : List Row} (hread : ReadFrom p file todos)
include hread

theorem read_from_encodes : ∀ row ∈ todos, row.encodes = true := by
  intro row hrow
  rw [row_encodes_iff]
  intro c
  have hmem : row.cells c ∈ todos.map (fun row => row.cells c) := List.mem_map_of_mem hrow
  rw [hread c] at hmem
  exact p.read_encodes _ _ hmem

theorem owners_length : file.owners.length = todos.length := by
  have hcolumn (c : Column) : (file.columns c).length = todos.length := by
    rw [← p.length_read, ← hread c, List.length_map]
  rw [TodoFile.owners, List.length_zip, hcolumn, hcolumn, Nat.min_self]

/-- A row that is deleted has the texts in the file. -/
theorem component_texts {user : String} {x : Row × (String × String)} (hx : x ∈ todos.zip file.owners)
    (h : x.1.isComponentOf project user = true) : x.2 = (project, user) := by
  obtain ⟨i, hi⟩ := List.mem_iff_getElem?.mp hx
  obtain ⟨hrow, howner⟩ := List.getElem?_zip_eq_some.mp hi
  rw [TodoFile.owners, List.getElem?_zip_eq_some] at howner
  rw [Row.isComponentOf, Bool.and_eq_true, decide_eq_true_eq, decide_eq_true_eq] at h
  have htext {c : Column} {s : String} (hcell : x.1.cells c = .str s) : (file.columns c)[i]? = some s := by
    apply read_text (p := p)
    rw [← hread c, List.getElem?_map, hrow, ← hcell]
    rfl
  exact Prod.ext (Option.some.inj (howner.1.symm.trans (htext h.1)))
    (Option.some.inj (howner.2.symm.trans (htext h.2)))

/-- The rows of which neither the values nor the texts are of the project are the same exactly where the
texts are read as these values. -/
theorem rest_same_iff (user : String) :
    todos.filter (fun row => ¬ row.isComponentOf project user) =
        ((todos.zip file.owners).filter (fun x => x.2 ≠ (project, user))).map Prod.fst ↔
      ∀ x ∈ todos.zip file.owners, x.2 = (project, user) → x.1.isComponentOf project user = true := by
  have hzip : (todos.zip file.owners).map Prod.fst = todos :=
    List.map_fst_zip (owners_length hread).ge
  have hvalues : todos.filter (fun row => ¬ row.isComponentOf project user) =
      ((todos.zip file.owners).filter (fun x => ¬ x.1.isComponentOf project user)).map Prod.fst := by
    conv_lhs => rw [← hzip]
    rw [List.filter_map]
    rfl
  rw [hvalues]
  constructor
  · intro hsame x hx htext
    by_contra hno
    have hboth : (todos.zip file.owners).filter (fun x => x.2 ≠ (project, user)) =
        ((todos.zip file.owners).filter (fun x => ¬ x.1.isComponentOf project user)).filter
          (fun x => x.2 ≠ (project, user)) := by
      rw [List.filter_filter]
      apply List.filter_congr
      intro y hy
      by_cases hother : y.2 = (project, user)
      · simp [hother]
      · have hkept : y.1.isComponentOf project user = false :=
          Bool.eq_false_of_not_eq_true (fun hcomponent => hother (component_texts hread hy hcomponent))
        simp [hkept]
    have hlength := congrArg List.length hsame
    rw [List.length_map, List.length_map] at hlength
    have hmem : x ∈ (todos.zip file.owners).filter (fun x => ¬ x.1.isComponentOf project user) :=
      List.mem_filter.mpr ⟨hx, decide_eq_true hno⟩
    rw [hboth] at hlength
    rw [← List.filter_sublist.eq_of_length hlength.symm] at hmem
    exact of_decide_eq_true (List.mem_filter.mp hmem).2 htext
  · intro hall
    congr 1
    apply List.filter_congr
    intro x hx
    apply decide_eq_decide.mpr
    exact not_congr ⟨component_texts hread hx, hall x hx⟩

end File

/-- A project that exists is deleted, and nothing else, exactly where no row of the file is blank or
has its name only, and where the texts of its components are read as texts. -/
theorem delete_project_iff (hread : ReadFrom p file tables.todos)
    (h : checkProjectExistenceForUser tables.projects project caller.userId = none) :
    DeletesExactly file caller tables project (deleteProject caller tables project) ↔
      (∀ row ∈ tables.projects.getD [], row ≠ [] ∧ row ≠ [project]) ∧
      ∀ x ∈ tables.todos.zip file.owners, x.2 = (project, caller.userId) →
        x.1.isComponentOf project caller.userId = true := by
  obtain ⟨rows, hrows⟩ : ∃ rows, tables.projects = some rows := by
    cases hprojects : tables.projects with
    | none =>
      rw [hprojects] at h
      cases h
    | some rows => exact ⟨rows, rfl⟩
  rw [deleteProject, h, hrows, Option.getD_some]
  dsimp only
  split
  · rename_i hshort
    obtain ⟨row, hrow, hnone⟩ := List.any_eq_true.mp hshort
    apply iff_of_false
    · intro hdeletes
      cases hdeletes.reply
    · rintro ⟨hall, _⟩
      rcases (is_project_none _ row).mp hnone with hempty | hname
      · exact (hall row hrow).1 hempty
      · exact (hall row hrow).2 hname
  · rename_i hlong
    have hall : ∀ row ∈ rows, row ≠ [] ∧ row ≠ [project] := by
      intro row hrow
      rw [← not_or, ← is_project_none caller.userId]
      exact fun hnone => hlong (List.any_eq_true.mpr ⟨row, hrow, hnone⟩)
    have hkept : rows.filter (fun row => isProject project caller.userId row = some false) =
        rows.filter (fun row => ¬ isProjectOf project caller.userId row) := by
      apply List.filter_congr
      intro row hrow
      cases hproject : isProject project caller.userId row with
      | none =>
        have hnone : row = [] ∨ row = [project] :=
          (is_project_none caller.userId row).mp (by rw [hproject]; rfl)
        rcases hnone with hempty | hname
        · exact absurd hempty (hall row hrow).1
        · exact absurd hname (hall row hrow).2
      | some b =>
        rw [is_project_some hproject]
        cases isProjectOf project caller.userId row <;> rfl
    have hencodes : ∀ row ∈ tables.todos.filter (fun row => ¬ row.isComponentOf project caller.userId),
        row.encodes = true :=
      fun row hrow => read_from_encodes hread row (List.mem_of_mem_filter hrow)
    have hwritten := encoded_all hencodes
    rw [← rest_same_iff hread caller.userId]
    constructor
    · intro hdeletes
      exact ⟨hall, hwritten.symm.trans hdeletes.todos⟩
    · rintro ⟨_, htodos⟩
      refine ⟨?_, ?_, hwritten.trans htodos⟩
      · rw [saveAndReply, List.all_eq_true.mpr hencodes, if_pos rfl]
      · rw [hrows, Option.map_some, ← hkept]
        rfl

/-- A file with a component of the project, and the rows that are read of it. -/
def gardenRows : List Row :=
  [todo "A1" "roof", ((todo "B2" "roof").set .nomeProgetto (.str "garden")).set .user (.str "admin")]

def gardenFile : TodoFile := (saveTodos .plain gardenRows).getD ⟨[], fun _ => []⟩

def twoProjects : Tables where
  projects := some [["streamair", "admin"], ["garden", "admin"], ["note"], ["garden", "bob", "x"]]
  todos := gardenRows

theorem garden_deleted : DeletesExactly gardenFile ⟨"admin", 0⟩ twoProjects "garden"
    (deleteProject ⟨"admin", 0⟩ twoProjects "garden") :=
  (delete_project_iff (p := .plain) (by decide +kernel) (by decide)).mpr ⟨by decide, by decide +kernel⟩

/-- A project whose name is a number, with one component. -/
def numberedFile : TodoFile :=
  (saveTodos .plain [(todo "A1" "roof").set .nomeProgetto (.str "007")]).getD ⟨[], fun _ => []⟩

def numberedTables : Tables where
  projects := some [["007", "alice"]]
  todos := [(todo "A1" "roof").set .nomeProgetto (.int 7)]

/-- The blank line of the shipped file is enough for no project to be deleted, and the component of a
project whose name is a number stays. -/
theorem shipped_project_stays :
    (checkProjectExistenceForUser (some [[], ["streamair", "admin"]]) "streamair" "admin" = none ∧
      deleteProject ⟨"admin", 0⟩ ⟨some [[], ["streamair", "admin"]], []⟩ "streamair" =
        (.ok (.deleteFailed "streamair" "admin" "list index out of range"), {}) ∧
      ¬ DeletesExactly ⟨[], fun _ => []⟩ ⟨"admin", 0⟩ ⟨some [[], ["streamair", "admin"]], []⟩ "streamair"
        (deleteProject ⟨"admin", 0⟩ ⟨some [[], ["streamair", "admin"]], []⟩ "streamair")) ∧
    ReadFrom .plain numberedFile numberedTables.todos ∧
      checkProjectExistenceForUser numberedTables.projects "007" "alice" = none ∧
      ¬ DeletesExactly numberedFile alice numberedTables "007"
        (deleteProject alice numberedTables "007") := by
  have hfailed : deleteProject ⟨"admin", 0⟩ ⟨some [[], ["streamair", "admin"]], []⟩ "streamair" =
      (.ok (.deleteFailed "streamair" "admin" "list index out of range"), {}) := rfl
  refine ⟨⟨rfl, hfailed, ?_⟩, by decide +kernel, by decide, ?_⟩
  · intro h
    cases h.reply
  · intro h
    exact absurd h.todos (by decide +kernel)

end CheshireCat.Components
