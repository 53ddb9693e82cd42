import CheshireCat.Base.Runs
import CheshireCat.Components.Tools

namespace CheshireCat.Components
open Base

/-- The total is the unit cost times the quantity, all three of them numbers. -/
def Row.CostsAgree (row : Row) : Prop :=
  match (row.cells .costoUnitario).number?, (row.cells .quantita).number?,
      (row.cells .costoTotale).number? with
  | some unitCost, some quantity, some total => total = unitCost * quantity
  | _, _, _ => False

instance (row : Row) : Decidable row.CostsAgree := by
  unfold Row.CostsAgree
  split <;> infer_instance

def Row.cost (row : Row) : Rat :=
  (row.cells .costoUnitario).number?.getD 0 * (row.cells .quantita).number?.getD 0

/-- Every total that a summary reports is the sum of the products. -/
def SummariesAgree (py : Python) (tables : Tables) : Prop :=
  ∀ user project total components,
    projectSummary py user tables project = .ok (.projectSummary project total components) →
    total = some ((tables.todos.filter
      (fun row => row.isComponentOf project user)).map Row.cost).sum

/-! ### Calls that keep the totals -/

/-- Integers are not rounded to floats, nor too large for one. -/
def Python.Exact (py : Python) : Prop := ∀ n : Int, py.floatInt n = some (n : Rat)

/-- `float` makes a finite number of the value. -/
def Python.finite (py : Python) (v : Value) : Option Rat := (py.float v).toOption.join

/-- `float` makes of the value the number that is read after it is written. -/
def IsCost (py : Python) (csv : Csv) (v : Value) : Prop :=
  (csv.number v).isSome ∧ py.float v = .ok (csv.number v)

instance (py : Python) (csv : Csv) (v : Value) : Decidable (IsCost py csv v) :=
  inferInstanceAs (Decidable (_ ∧ _))

/-- A new row has finite costs, a cost that is updated is a number, and the total is updated
beside the costs only or to their product. -/
def KeepsCosts (py : Python) (csv : Csv) (tables : Tables) (call : ToolCall) : Prop :=
  (∀ list ∈ call.tool.batch?,
    (componentRows py call.caller tables.projects (nextId tables.todos) list).isOk = true →
      ∀ c ∈ list.filterMap id, (c.unitCost.bind py.finite).isSome ∧
        (c.quantity.bind py.finite).isSome) ∧
  ∀ changes ∈ call.tool.changes?, "ID" ∉ changes.2.keys →
    ∀ row ∈ tables.todos.find? (fun row => row.hasId changes.1 call.caller.userId),
      if UpdatesCosts changes.2 then
        (py.float (row.updated changes.2 .costoUnitario)).isOk →
        (py.float (row.updated changes.2 .quantita)).isOk →
          IsCost py csv (row.updated changes.2 .costoUnitario) ∧
          IsCost py csv (row.updated changes.2 .quantita)
      else ∀ total ∈ changes.2.get? Column.costoTotale.header, csv.number total = some row.cost

instance (py : Python) (csv : Csv) (tables : Tables) (call : ToolCall) :
    Decidable (KeepsCosts py csv tables call) :=
  inferInstanceAs (Decidable (_ ∧ _))

/-! ### The invariant -/

def costColumns : List Column := [.costoUnitario, .quantita, .costoTotale]

/-- The costs of a row that is saved, as numbers that are written. -/
def Priced (csv : Csv) (row : Row) : Prop :=
  ∃ unitCost quantity, csv.number (row.cells .costoUnitario) = some unitCost ∧
    csv.number (row.cells .quantita) = some quantity ∧
    csv.number (row.cells .costoTotale) = some (unitCost * quantity)

/-- The rows that are read have such costs, and they are numbers. -/
def Costed (csv : Csv) (tables : Tables) : Prop :=
  ∀ row ∈ tables.todos, Priced csv row ∧
    ∀ c ∈ costColumns, (row.cells c).number? = csv.number (row.cells c)

section Costs

variable {py : Python} {csv : Csv} {tables : Tables} {caller : Caller}

theorem Priced.isSome {row : Row} (h : Priced csv row) :
    ∀ c ∈ costColumns, (csv.number (row.cells c)).isSome := by
  obtain ⟨unitCost, quantity, hunit, hquantity, htotal⟩ := h
  simp [costColumns, hunit, hquantity, htotal]

/-- Rows that are saved with such costs are read with them, as many as the file has. -/
theorem costed_rows {rows : List Row} {projects : Option (List (List String))}
    (h : ∀ row ∈ rows, Priced csv row) :
    Costed csv ⟨projects, csv.rows rows⟩ := by
  replace h : ∀ row ∈ encoded rows, Priced csv row :=
    fun row hrow => h row ((encoded_sublist rows).subset hrow)
  intro row' hrow'
  obtain ⟨row, hrow, _, _, hnumbers⟩ := csv.mem_rows _ hrow'
  have hcolumn : ∀ c ∈ costColumns, (row'.cells c).number? = csv.number (row.cells c) ∧
      csv.number (row'.cells c) = csv.number (row.cells c) :=
    fun c hc => hnumbers c (fun r hr => (h r hr).isSome c hc)
  refine ⟨?_, fun c hc => (hcolumn c hc).1.trans (hcolumn c hc).2.symm⟩
  obtain ⟨unitCost, quantity, hunit, hquantity, htotal⟩ := h row hrow
  exact ⟨unitCost, quantity, (hcolumn .costoUnitario (by decide)).2.trans hunit,
    (hcolumn .quantita (by decide)).2.trans hquantity,
    (hcolumn .costoTotale (by decide)).2.trans htotal⟩

theorem finite_float {v : Value} {x : Rat} (h : py.finite v = some x) : py.float v = .ok (some x) := by
  have hfloat := Option.join_eq_some_iff.mp h
  cases hv : py.float v with
  | error error =>
    rw [hv] at hfloat
    cases hfloat
  | ok y =>
    rw [hv] at hfloat
    exact congrArg Except.ok (Option.some.inj hfloat)

theorem mapped_finite {field : Option Value} {v' : Value} (h : (field.bind py.finite).isSome)
    (hmapped : (given field).mapM (mapNumber py) = .ok (some v')) : ∃ x, v' = .float (some x) := by
  cases field with
  | none => cases h
  | some v =>
    obtain ⟨x, hx⟩ := Option.isSome_iff_exists.mp h
    have hfloat := finite_float hx
    have hnull : v ≠ .null := by
      rintro rfl
      cases hfloat
    have hgiven : given (some v) = some v := Option.filter_some_pos (by simpa using hnull)
    have hnumber : mapNumber py v = .ok (.float (some x)) := by
      rw [mapNumber, hfloat]
    rw [hgiven, Option.mapM_some, hnumber] at hmapped
    exact ⟨x, (Option.some.inj (Except.ok.inj hmapped)).symm⟩

/-- A row of an accepted batch has finite costs. -/
theorem priced_component {id : Int} {component : Component} {row : Row}
    {projects : Option (List (List String))}
    (hunit : (component.unitCost.bind py.finite).isSome)
    (hquantity : (component.quantity.bind py.finite).isSome)
    (h : componentRow py caller projects id component = .ok row) : Priced csv row := by
  obtain ⟨code, description, unitCost, quantity, total, note, _, hu, hq, ht, rfl⟩ :=
    component_row_ok h
  obtain ⟨x, rfl⟩ := mapped_finite hunit hu
  obtain ⟨y, rfl⟩ := mapped_finite hquantity hq
  cases ht
  exact ⟨x, y, csv.number_float x, csv.number_float y, csv.number_float (x * y)⟩

theorem updated_absent {row : Row} {updates : Dict String Value} {c : Column}
    (h : c.header ∉ updates.keys) : row.updated updates c = row.cells c := by
  have hnone : updates.get? c.header = none := by
    rw [Dict.mem_keys_iff] at h
    exact Option.eq_none_iff_forall_ne_some.mpr (fun v hv => h ⟨v, hv⟩)
  rw [Row.updated, hnone]
  rfl

/-- A row that is modified has such costs again. -/
theorem priced_modified {row row' : Row} {id : Value} {updates : Dict String Value}
    (hrow : Costed csv tables) (hid : "ID" ∉ updates.keys)
    (hfind : tables.todos.find? (fun row => row.hasId id caller.userId) = some row)
    (hmodified : row.modified py updates = .ok row')
    (hkeeps : KeepsCosts py csv tables ⟨caller, .modifyComponentById (.updates id updates)⟩) :
    Priced csv row' := by
  obtain ⟨_, hcells, htouched, huntouched⟩ := modified_spec hmodified
  have hcondition := hkeeps.2 (id, updates) rfl hid row hfind
  by_cases hcosts : UpdatesCosts updates
  · obtain ⟨x, y, hx, hy, htotal⟩ := htouched hcosts
    rw [if_pos hcosts, hx, hy] at hcondition
    obtain ⟨⟨hunit, hx'⟩, hquantity, hy'⟩ := hcondition rfl rfl
    obtain ⟨unitCost, hunit⟩ := Option.isSome_iff_exists.mp hunit
    obtain ⟨quantity, hquantity⟩ := Option.isSome_iff_exists.mp hquantity
    rw [hx, hunit] at hx'
    rw [hy, hquantity] at hy'
    cases hx'
    cases hy'
    refine ⟨unitCost, quantity, ?_, ?_, ?_⟩
    · rw [hcells _ (by decide), hunit]
    · rw [hcells _ (by decide), hquantity]
    · rw [htotal]
      exact csv.number_float (unitCost * quantity)
  · rw [if_neg hcosts] at hcondition
    obtain ⟨⟨unitCost, quantity, hunit, hquantity, htotal⟩, hread⟩ :=
      hrow row (List.mem_of_find?_eq_some hfind)
    rw [UpdatesCosts, not_or] at hcosts
    refine ⟨unitCost, quantity, ?_, ?_, ?_⟩
    · rw [hcells _ (by decide), updated_absent hcosts.1, hunit]
    · rw [hcells _ (by decide), updated_absent hcosts.2, hquantity]
    · rw [huntouched (fun h => h.elim hcosts.1 hcosts.2), Row.updated]
      cases hget : updates.get? Column.costoTotale.header with
      | none => exact htotal
      | some total =>
        have hsame := hcondition total hget
        rw [Option.getD_some, hsame, Row.cost, hread .costoUnitario (by decide),
          hread .quantita (by decide), hunit, hquantity]
        rfl

theorem costed_after {call : ToolCall} (h : Costed csv tables)
    (hkeeps : KeepsCosts py csv tables call) :
    Costed csv (step py csv tables call).2 := by
  have hs := result_saves py tables call
  change Costed csv (tables.after csv (call.result py tables).2)
  generalize (call.result py tables).2 = saved at hs
  obtain ⟨caller, tool⟩ := call
  have hold : ∀ row ∈ tables.todos, Priced csv row := fun row hrow => (h row hrow).1
  cases hs with
  | nothing tool => exact h
  | created project => exact h
  | projectDeleted project => exact costed_rows (fun row hrow => hold row (List.mem_of_mem_filter hrow))
  | added hrows =>
    apply costed_rows
    intro row hrow
    rcases List.mem_append.mp hrow with hrow | hrow
    · exact hold row hrow
    · obtain ⟨k, c, _, hc, hmade⟩ := mem_component_rows hrows hrow
      obtain ⟨hunit, hquantity⟩ := hkeeps.1 _ rfl (by rw [hrows]; rfl) c
        (List.mem_filterMap.mpr ⟨some c, hc, rfl⟩)
      exact priced_component hunit hquantity hmade
  | @modified id updates row row' hid hfind hmodified =>
    exact costed_rows (replaced_rows hfind hold (priced_modified h hid hfind hmodified hkeeps))
  | deleted list =>
    exact costed_rows (fun row hrow => hold row ((delete_sublist _ list _).subset hrow))

theorem Costed.agree (h : Costed csv tables) {row : Row} (hrow : row ∈ tables.todos) :
    row.CostsAgree ∧ (row.cells .costoTotale).number? = some row.cost := by
  obtain ⟨⟨unitCost, quantity, hunit, hquantity, htotal⟩, hread⟩ := h row hrow
  rw [← hread _ (by decide)] at hunit hquantity htotal
  unfold Row.CostsAgree Row.cost
  rw [hunit, hquantity, htotal]
  exact ⟨rfl, rfl⟩

theorem float_of_number (hexact : py.Exact) {v : Value} {q : Rat} (h : v.number? = some q) :
    py.float v = .ok (some q) := by
  cases v with
  | int n =>
    cases h
    rw [Python.float, hexact]
  | float x =>
    cases h
    rfl
  | _ => cases h

theorem total_cost_sum (hexact : py.Exact) {rows : List Row}
    (h : ∀ row ∈ rows, (row.cells .costoTotale).number? = some row.cost) :
    totalCost py rows = .ok (some (rows.map Row.cost).sum) := by
  induction rows with
  | nil => rfl
  | cons row rows ih =>
    have hfirst := float_of_number hexact (h row List.mem_cons_self)
    rw [totalCost, hfirst, ih (fun r hr => h r (List.mem_cons_of_mem row hr)), List.map_cons,
      List.sum_cons]
    rfl

/-- A check that fails says that the project or the file is missing. -/
theorem check_project_reply {projects : Option (List (List String))} {name : String} {reply : Reply}
    (h : checkProjectExistence projects (.str name) = .ok (some reply)) :
    reply = .projectFileNotFound ∨ ∃ available, reply = .projectNotFound (.str name) available := by
  unfold checkProjectExistence at h
  split at h
  · cases h
    exact Or.inl rfl
  · dsimp only at h
    split at h
    · cases h
    · cases h
      exact Or.inr ⟨_, rfl⟩

theorem Costed.summaries (h : Costed csv tables) (hexact : py.Exact) : SummariesAgree py tables := by
  intro user project total components hsummary
  unfold projectSummary at hsummary
  split at hsummary
  · cases hsummary
  · split at hsummary
    · cases hsummary
    · rename_i reply hreply
      rcases check_project_reply hreply with rfl | ⟨available, rfl⟩ <;> cases hsummary
    · split at hsummary
      · cases hsummary
      · rw [total_cost_sum hexact (fun row hrow => (h.agree (List.mem_of_mem_filter hrow)).2)] at hsummary
        cases hsummary
        rfl

end Costs

/-- A valve is added and its quantity is changed. -/
def valveCalls (updates : Dict String Value) : List ToolCall :=
  [⟨alice, .createProject "streamair"⟩,
    ⟨alice, .addComponent (.components [some (valve "streamair" 2 3)])⟩,
    ⟨alice, .modifyComponentById (.updates (.int 1) updates)⟩]

end CheshireCat.Components
