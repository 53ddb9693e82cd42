import CheshireCat.Base.Runs
import CheshireCat.Components.Tools

namespace CheshireCat.Components
open Base

/-- The project and the user of a row, where both are texts. -/
def Row.owner? (row : Row) : Option (String × String) :=
  match row.cells .nomeProgetto, row.cells .user with
  | .str project, .str user => some (project, user)
  | _, _ => none

/-- Every component belongs to a project of its own user. -/
def Tables.Consistent (tables : Tables) : Prop :=
  ∀ row ∈ tables.todos, ∃ p ∈ userProjects (tables.projects.getD []), row.owner? = some p

instance (tables : Tables) : Decidable tables.Consistent :=
  inferInstanceAs (Decidable (∀ row ∈ tables.todos, ∃ p ∈ userProjects _, row.owner? = some p))

/-- The names are read again as the texts that are written. -/
def IsOwner (csv : Csv) (p : String × String) : Prop := csv.isText p.1 = true ∧ csv.isText p.2 = true

instance (csv : Csv) (p : String × String) : Decidable (IsOwner csv p) :=
  inferInstanceAs (Decidable (_ ∧ _))

/-- The row, with the project and the user after the updates. -/
def Row.newOwner? (row : Row) (updates : Dict String Value) : Option (String × String) :=
  match row.updated updates .nomeProgetto, row.updated updates .user with
  | .str project, .str user => some (project, user)
  | _, _ => none

/-- The names in the component table are texts, components are added to projects of the caller,
and a row that is modified belongs to a project of its user afterwards. -/
def KeepsProjects (py : Python) (csv : Csv) (tables : Tables) (call : ToolCall) : Prop :=
  (∀ row ∈ tables.todos, ∀ p ∈ row.owner?, IsOwner csv p) ∧
  (∀ list ∈ call.tool.batch?,
    (componentRows py call.caller tables.projects (nextId tables.todos) list).isOk = true →
      ∀ c ∈ list.filterMap id, ∃ p ∈ userProjects (tables.projects.getD []),
        c.projectName = some (.str p.1) ∧ p.2 = call.caller.userId ∧ IsOwner csv p) ∧
  ∀ changes ∈ call.tool.changes?, "ID" ∉ changes.2.keys →
    ∀ row ∈ tables.todos.find? (fun row => row.hasId changes.1 call.caller.userId),
      (row.modified py changes.2).isOk = true →
        ∃ p ∈ userProjects (tables.projects.getD []),
          row.newOwner? changes.2 = some p ∧ IsOwner csv p

instance (py : Python) (csv : Csv) (tables : Tables) (call : ToolCall) :
    Decidable (KeepsProjects py csv tables call) :=
  inferInstanceAs (Decidable (_ ∧ _ ∧ _))

section Projects

variable {py : Python} {csv : Csv} {tables : Tables}

theorem owner_some_iff (row : Row) (p : String × String) :
    row.owner? = some p ↔ row.cells .nomeProgetto = .str p.1 ∧ row.cells .user = .str p.2 := by
  unfold Row.owner?
  split
  · rename_i project user hproject huser
    simp [hproject, huser, Prod.ext_iff]
  · rename_i hno
    apply iff_of_false (by simp)
    rintro ⟨hproject, huser⟩
    exact hno _ _ hproject huser

/-- Rows that are saved with names of projects are read with them, as many as the file has. -/
theorem consistent_rows {rows : List Row} {projects : Option (List (List String))}
    (h : ∀ row ∈ rows, ∃ p ∈ userProjects (projects.getD []), row.owner? = some p ∧ IsOwner csv p) :
    Tables.Consistent ⟨projects, csv.rows rows⟩ := by
  replace h : ∀ row ∈ encoded rows, ∃ p ∈ userProjects (projects.getD []),
      row.owner? = some p ∧ IsOwner csv p :=
    fun row hrow => h row ((encoded_sublist rows).subset hrow)
  intro row' hrow'
  obtain ⟨row, hrow, _, htexts, _⟩ := csv.mem_rows _ hrow'
  obtain ⟨p, hp, howner, _⟩ := h row hrow
  have hproject := htexts .nomeProgetto (by
    intro r hr
    obtain ⟨q, _, hq, htext⟩ := h r hr
    exact ⟨q.1, ((owner_some_iff r q).mp hq).1, htext.1⟩)
  have huser := htexts .user (by
    intro r hr
    obtain ⟨q, _, hq, htext⟩ := h r hr
    exact ⟨q.2, ((owner_some_iff r q).mp hq).2, htext.2⟩)
  refine ⟨p, hp, ?_⟩
  rw [owner_some_iff, hproject, huser, ← owner_some_iff]
  exact howner

theorem mem_user_projects_iff (projects : List (List String)) (p : String × String) :
    p ∈ userProjects projects ↔ ∃ rest, (p.1 :: p.2 :: rest) ∈ projects := by
  unfold userProjects
  rw [List.mem_filterMap]
  constructor
  · rintro ⟨row, hrow, hp⟩
    split at hp
    · rename_i project user rest
      cases hp
      exact ⟨rest, hrow⟩
    · cases hp
  · rintro ⟨rest, hrow⟩
    exact ⟨_, hrow, rfl⟩

/-- Deleting a project keeps the other projects. -/
theorem kept_project {projects : List (List String)} {p : String × String} {project user : String}
    (hp : p ∈ userProjects projects) (hother : ¬ (p.1 = project ∧ p.2 = user)) :
    p ∈ userProjects (projects.filter (fun row => isProject project user row = some false)) := by
  obtain ⟨rest, hrow⟩ := (mem_user_projects_iff projects p).mp hp
  refine (mem_user_projects_iff _ p).mpr ⟨rest, List.mem_filter.mpr ⟨hrow, ?_⟩⟩
  rw [not_and_or] at hother
  simpa [isProject] using hother

theorem consistent_after {call : ToolCall} (h : tables.Consistent)
    (hkeeps : KeepsProjects py csv tables call) : (step py csv tables call).2.Consistent := by
  have hs := result_saves py tables call
  change (tables.after csv (call.result py tables).2).Consistent
  generalize (call.result py tables).2 = saved at hs
  obtain ⟨caller, tool⟩ := call
  obtain ⟨htexts, hbatch, hchanges⟩ := hkeeps
  have hold : ∀ row ∈ tables.todos, ∃ p ∈ userProjects (tables.projects.getD []),
      row.owner? = some p ∧ IsOwner csv p := by
    intro row hrow
    obtain ⟨p, hp, howner⟩ := h row hrow
    exact ⟨p, hp, howner, htexts row hrow p howner⟩
  cases hs with
  | nothing tool => exact h
  | created project =>
    intro row hrow
    obtain ⟨p, hp, howner⟩ := h row hrow
    refine ⟨p, ?_, howner⟩
    obtain ⟨rest, hmem⟩ := (mem_user_projects_iff _ p).mp hp
    exact (mem_user_projects_iff _ p).mpr ⟨rest, List.mem_append_left _ hmem⟩
  | projectDeleted project =>
    apply consistent_rows
    intro row hrow
    obtain ⟨hrow, hother⟩ := List.mem_filter.mp hrow
    obtain ⟨p, hp, howner, htext⟩ := hold row hrow
    refine ⟨p, kept_project hp ?_, howner, htext⟩
    obtain ⟨hproject, huser⟩ := (owner_some_iff row p).mp howner
    rw [not_and_or]
    simpa [Row.isComponentOf, hproject, huser] using hother
  | @added list rows hrows =>
    apply consistent_rows
    intro row hrow
    rcases List.mem_append.mp hrow with hrow | hrow
    · exact hold row hrow
    · obtain ⟨k, c, _, hc, hmade⟩ := mem_component_rows hrows hrow
      obtain ⟨p, hp, hname, hcaller, htext⟩ := hbatch list rfl (by rw [hrows]; rfl) c
        (List.mem_filterMap.mpr ⟨some c, hc, rfl⟩)
      obtain ⟨code, description, unitCost, quantity, total, note, _, _, _, _, rfl⟩ :=
        component_row_ok hmade
      refine ⟨p, hp, (owner_some_iff _ p).mpr ⟨?_, ?_⟩, htext⟩
      · simp [componentCells, hname]
      · simp [componentCells, hcaller]
  | @modified id updates row row' hid hfind hmodified =>
    obtain ⟨p, hp, howner, htext⟩ := hchanges (id, updates) rfl hid row hfind (by rw [hmodified]; rfl)
    have hnew : row'.owner? = some p := by
      obtain ⟨_, hcells, _⟩ := modified_spec hmodified
      rw [Row.owner?, hcells _ (by decide), hcells _ (by decide)]
      exact howner
    exact consistent_rows (replaced_rows hfind hold ⟨p, hp, hnew, htext⟩)
  | deleted list =>
    exact consistent_rows (fun row hrow => hold row ((delete_sublist _ list _).subset hrow))

end Projects

/-- Alice adds a valve to her project and describes it. -/
def ownCalls : List ToolCall :=
  [⟨alice, .createProject "streamair"⟩,
    ⟨alice, .addComponent (.components [some (valve "streamair" 2 3)])⟩,
    ⟨alice, .modifyComponentById
      (.updates (.int 1) (Dict.ofList [("Descrizione", .str "Valvola a sfera")]))⟩]

end CheshireCat.Components
