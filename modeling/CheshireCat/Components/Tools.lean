import CheshireCat.Base.Dict
import CheshireCat.Components.Table
import Mathlib.Algebra.Order.Ring.Rat

namespace CheshireCat.Components
open Base

def Value.isInt : Value → Bool
  | .int _ => true
  | .bool _ => true
  | _ => false

/-- What Python computes of other values: `float` of an integer, which is rounded, or too large,
of a text and of what is neither, `str(float)`, and products that are not of two floats. -/
structure Python where
  floatInt : Int → Option Rat
  floatText : String → Option (Option Rat)
  floatOther : String → Except String (Option Rat)
  floatRepr : Option Rat → String
  times : Value → Value → Option Value
  /-- Only an integer multiplies a text. -/
  times_half : ∀ v w p, times v w = some p → v.isInt = false → w.isInt = false →
    v.encodes = true ∧ w.encodes = true ∧ p.encodes = true

/-- `float(value)`. -/
def Python.float (py : Python) : Value → Except String (Option Rat)
  | .int n =>
    match py.floatInt n with
    | some q => .ok (some q)
    | none => .error "OverflowError"
  | .bool b => .ok (some (if b then 1 else 0))
  | .float q => .ok q
  | .str s =>
    match py.floatText s with
    | some x => .ok x
    | none => .error "ValueError"
  | .half _ => .error "ValueError"
  | .other repr _ => py.floatOther repr
  | .null => .error "TypeError"

/-- `str(value)`. -/
def Python.str (py : Python) : Value → Value
  | .str s => .str s
  | .half s => .half s
  | .int n => .str (toString n)
  | .bool b => .str (if b then "True" else "False")
  | .float q => .str (py.floatRepr q)
  | .null => .str "None"
  | .other repr _ => .str repr

/-- A product of floats is a number where both are. -/
def product (x y : Option Rat) : Option Rat := x.bind (fun x => y.map (fun y => x * y))

/-- The characters that `strip` takes away. -/
def isSpace (c : Char) : Bool :=
  9 ≤ c.toNat && c.toNat ≤ 13 || 28 ≤ c.toNat && c.toNat ≤ 32 ||
    8192 ≤ c.toNat && c.toNat ≤ 8202 ||
    c.toNat ∈ [133, 160, 5760, 8232, 8233, 8239, 8287, 12288]

/-- `not project_name or not project_name.strip()`. -/
def isBlank (s : String) : Bool := s.toList.all isSpace

structure Added where
  code : Value
  project : Value
  total : Value
deriving DecidableEq

inductive Reply where
  | noProjectName
  | projectFileNotFound
  | projectNotOfUser (project user : String) (available : Finset String)
  | projectNotFound (project : Value) (available : Finset String)
  | projectExists (project user : String)
  | projectCreated (project user : String)
  | projectDeleted (project user : String)
  | deleteFailed (project user error : String)
  | cannotParse (error : String)
  | notAList
  | missingFields (fields : List Column) (code : Value)
  | totalCostError (code : Value)
  | componentsAdded (components : List Added)
  | noComponents (project : String)
  | projectSummary (project : String) (total : Option Rat) (components : List (Int × List Value))
  | invalidIds
  | componentsDeleted (ids : List Int)
  | nothingDeleted
  | invalidFormat (error : String)
  | idNotEditable
  | noComponent (id : Value)
  | componentUpdated (id : Value)
deriving DecidableEq

structure Caller where
  userId : String
  now : Rat

/-- A tool replies or raises, and what it saved before stays. -/
abbrev Result := Except String Reply × Saved

/-- `save_todos`, after what the call has saved before. The file is emptied when it is opened, and a row
that cannot be encoded raises when the rows before it are written. -/
def saveAndReply (reply : Reply) (saved : Saved) (todos : List Row) : Result :=
  (if todos.all Row.encodes then .ok reply else .error "UnicodeEncodeError",
    { saved with todos := some todos })

/-! ### Projects -/

/-- `(row[0], row[1])` of the rows that have both. -/
def userProjects (projects : List (List String)) : List (String × String) :=
  projects.filterMap (fun row =>
    match row with
    | project :: user :: _ => some (project, user)
    | _ => none)

/-- `row[0]` of the rows that have it. -/
def projectNames (projects : List (List String)) : List String := projects.filterMap List.head?

def checkProjectExistenceForUser (projects : Option (List (List String)))
    (project user : String) : Option Reply :=
  match projects with
  | none => some .projectFileNotFound
  | some projects =>
    if (project, user) ∈ userProjects projects then none
    else some (.projectNotOfUser project user
      (((userProjects projects).filter (fun p => p.2 = user)).map Prod.fst).toFinset)

/-- The project of any user. A value that cannot be hashed raises. -/
def checkProjectExistence (projects : Option (List (List String))) (project : Value) :
    Except String (Option Reply) :=
  match projects with
  | none => .ok (some .projectFileNotFound)
  | some projects =>
    let missing := .ok (some (.projectNotFound project (projectNames projects).toFinset))
    match project with
    | .other _ false => .error "TypeError"
    | .str name => if name ∈ projectNames projects then .ok none else missing
    | _ => missing

def createProject (caller : Caller) (tables : Tables) (project : String) : Result :=
  if isBlank project then (.ok .noProjectName, {})
  else match checkProjectExistenceForUser tables.projects project caller.userId with
    | none => (.ok (.projectExists project caller.userId), {})
    | some _ => (.ok (.projectCreated project caller.userId),
        { projects := some (tables.projects.getD [] ++ [[project, caller.userId]]) })

/-- `proj[0] == project_name and proj[1] == user`, or an `IndexError`. -/
def isProject (project user : String) : List String → Option Bool
  | [] => none
  | [name] => if name = project then none else some false
  | name :: owner :: _ => some (name = project && owner = user)

def Row.isComponentOf (row : Row) (project user : String) : Bool :=
  row.cells .nomeProgetto = .str project && row.cells .user = .str user

def deleteProject (caller : Caller) (tables : Tables) (project : String) : Result :=
  match checkProjectExistenceForUser tables.projects project caller.userId with
  | some reply => (.ok reply, {})
  | none =>
    let projects := tables.projects.getD []
    if projects.any (fun row => (isProject project caller.userId row).isNone) then
      (.ok (.deleteFailed project caller.userId "list index out of range"), {})
    else saveAndReply (.projectDeleted project caller.userId)
      { projects := some
          (projects.filter (fun row => isProject project caller.userId row = some false)) }
      (tables.todos.filter (fun row => ¬ row.isComponentOf project caller.userId))

/-! ### Adding components -/

/-- A component of the input, by the fields that are read. -/
structure Component where
  projectName : Option Value
  componentCode : Option Value
  description : Option Value
  unitCost : Option Value
  quantity : Option Value
  note : Option Value

structure MappedData where
  nomeProgetto : Option Value
  codiceComponente : Option Value
  descrizione : Option Value
  costoUnitario : Option Value
  quantita : Option Value
  nota : Option Value

/-- A field that is not `None`. -/
def given (field : Option Value) : Option Value := field.filter (fun v => v ≠ .null)

/-- `float(value)`, where a `ValueError` or `TypeError` leaves the value as it is. -/
def mapNumber (py : Python) (v : Value) : Except String Value :=
  match py.float v with
  | .ok x => .ok (.float x)
  | .error error => if error = "ValueError" ∨ error = "TypeError" then .ok v else .error error

def mapInputFields (py : Python) (component : Component) : Except String MappedData := do
  let costoUnitario ← (given component.unitCost).mapM (mapNumber py)
  let quantita ← (given component.quantity).mapM (mapNumber py)
  return {
    nomeProgetto := (given component.projectName).map py.str,
    codiceComponente := (given component.componentCode).map py.str,
    descrizione := (given component.description).map py.str,
    costoUnitario := costoUnitario,
    quantita := quantita,
    nota := (given component.note).map py.str }

def missingFields (mapped : MappedData) : List Column :=
  [(.nomeProgetto, mapped.nomeProgetto.isSome), (.codiceComponente, mapped.codiceComponente.isSome),
    (.descrizione, mapped.descrizione.isSome), (.costoUnitario, mapped.costoUnitario.isSome),
    (.quantita, mapped.quantita.isSome)].filterMap
      (fun p : Column × Bool => if p.2 then none else some p.1)

/-- The product, or nothing for a `TypeError`. -/
def calculateTotalCost (py : Python) (unitCost quantity : Value) : Option Value :=
  match unitCost, quantity with
  | .float x, .float y => some (.float (product x y))
  | _, _ => py.times unitCost quantity

def componentCells (caller : Caller)
    (project code description unitCost quantity total note : Value) : Column → Value
  | .created => .float (some caller.now)
  | .user => .str caller.userId
  | .nomeProgetto => project
  | .codiceComponente => code
  | .descrizione => description
  | .costoUnitario => unitCost
  | .quantita => quantity
  | .costoTotale => total
  | .nota => note

/-- The row of a component, or how the call ends without it. -/
def componentRow (py : Python) (caller : Caller) (projects : Option (List (List String)))
    (nextId : Int) (component : Component) : Except (Except String Reply) Row :=
  let project := component.projectName.getD (.str "")
  match checkProjectExistence projects project with
  | .error error => .error (.error error)
  | .ok (some reply) => .error (.ok reply)
  | .ok none =>
    match mapInputFields py component with
    | .error error => .error (.error error)
    | .ok mapped =>
      match mapped.nomeProgetto, mapped.codiceComponente, mapped.descrizione, mapped.costoUnitario,
          mapped.quantita with
      | some _, some code, some description, some unitCost, some quantity =>
        match calculateTotalCost py unitCost quantity with
        | none => .error (.ok (.totalCostError code))
        | some total => .ok ⟨nextId, componentCells caller project code description unitCost quantity
            total (mapped.nota.getD (.str ""))⟩
      | _, _, _, _, _ => .error (.ok (.missingFields (missingFields mapped)
          (component.componentCode.getD (.str "unknown"))))

/-- The rows of a batch, with consecutive ids. An element that is no dictionary raises. -/
def componentRows (py : Python) (caller : Caller) (projects : Option (List (List String))) :
    Int → List (Option Component) → Except (Except String Reply) (List Row)
  | _, [] => .ok []
  | _, none :: _ => .error (.error "AttributeError")
  | nextId, some component :: rest =>
    match componentRow py caller projects nextId component with
    | .error reply => .error reply
    | .ok row =>
      match componentRows py caller projects (nextId + 1) rest with
      | .error reply => .error reply
      | .ok rows => .ok (row :: rows)

/-- What `literal_eval` makes of the input. -/
inductive ComponentData where
  | unreadable (error : String)
  | noList
  | components (list : List (Option Component))

def nextId (todos : List Row) : Int := (todos.map Row.id).max?.getD 0 + 1

def Row.added (row : Row) : Added where
  code := row.cells .codiceComponente
  project := row.cells .nomeProgetto
  total := row.cells .costoTotale

/-- Where one of the components is refused, nothing is saved. -/
def addComponent (py : Python) (caller : Caller) (tables : Tables) : ComponentData → Result
  | .unreadable error => (.ok (.cannotParse error), {})
  | .noList => (.ok .notAList, {})
  | .components list =>
    match componentRows py caller tables.projects (nextId tables.todos) list with
    | .error reply => (reply, {})
    | .ok rows => saveAndReply (.componentsAdded (rows.map Row.added)) {} (tables.todos ++ rows)

/-! ### Summary -/

def summaryColumns : List Column :=
  [.codiceComponente, .descrizione, .quantita, .costoUnitario, .costoTotale, .nota]

/-- The sum of `float(row["Costo Totale"])`. -/
def totalCost (py : Python) : List Row → Except String (Option Rat)
  | [] => .ok (some 0)
  | row :: rows =>
    match py.float (row.cells .costoTotale), totalCost py rows with
    | .error error, _ => .error error
    | .ok _, .error error => .error error
    | .ok x, .ok total => .ok (x.bind (fun x => total.map (fun y => x + y)))

def projectSummary (py : Python) (user : String) (tables : Tables) (project : String) :
    Except String Reply :=
  if isBlank project then .ok .noProjectName
  else match checkProjectExistence tables.projects (.str project) with
    | .error error => .error error
    | .ok (some reply) => .ok reply
    | .ok none =>
      match tables.todos.filter (fun row => row.isComponentOf project user) with
      | [] => .ok (.noComponents project)
      | rows =>
        match totalCost py rows with
        | .error error => .error error
        | .ok total => .ok (.projectSummary project total
            (rows.map (fun row => (row.id, summaryColumns.map row.cells))))

/-! ### Deleting and modifying components -/

/-- `row["ID"] == id`, where a float or a bool may be the number. -/
def Value.isId (id : Int) : Value → Bool
  | .int n => n = id
  | .bool b => (if b then 1 else 0) = id
  | .float (some q) => q = id
  | _ => false

def Row.hasId (row : Row) (id : Value) (user : String) : Bool :=
  id.isId row.id && row.cells .user = .str user

inductive ComponentIds where
  | invalid
  | raises (error : String)
  | ids (list : List Int)

/-- The first row of the caller with the id is removed. -/
def deleteComponentById (user : String) (state : List Row × List Int) (id : Int) :
    List Row × List Int :=
  match state.1.find? (fun row => row.hasId (.int id) user) with
  | none => state
  | some row => (state.1.erase row, state.2 ++ [id])

def deleteComponentsByIds (caller : Caller) (tables : Tables) : ComponentIds → Result
  | .invalid => (.ok .invalidIds, {})
  | .raises error => (.error error, {})
  | .ids list =>
    let (todos, deleted) := list.foldl (deleteComponentById caller.userId) (tables.todos, [])
    if deleted = [] then (.ok .nothingDeleted, {})
    else saveAndReply (.componentsDeleted deleted) {} todos

/-- What `literal_eval` makes of the input. Updates that are no dictionary may contain `"ID"`
or not, or raise when they are searched for it. -/
inductive ModificationData where
  | invalid (error : String)
  | noDict (id : Value) (containsId : Option Bool)
  | updates (id : Value) (updates : Dict String Value)

/-- The columns that the row has are assigned one after the other. -/
def Row.assign (row : Row) (updates : List (String × Value)) : Row :=
  updates.foldl (fun row p =>
    match Column.ofHeader? p.1 with
    | some column => row.set column p.2
    | none => row) row

def UpdatesCosts (updates : Dict String Value) : Prop :=
  Column.costoUnitario.header ∈ updates.keys ∨ Column.quantita.header ∈ updates.keys

instance (updates : Dict String Value) : Decidable (UpdatesCosts updates) :=
  inferInstanceAs (Decidable (_ ∨ _))

/-- A value that stays in the row, as a total that is not computed again does, has half of a surrogate pair. -/
def HalfUpdate (updates : Dict String Value) : Prop :=
  ∃ c : Column, ¬ (c = .costoTotale ∧ UpdatesCosts updates) ∧
    ∃ v ∈ updates.get? c.header, v.encodes = false

instance (updates : Dict String Value) : Decidable (HalfUpdate updates) :=
  inferInstanceAs (Decidable (∃ c : Column, _ ∧ ∃ v ∈ updates.get? c.header, _))

/-- The total is computed again where the unit cost or the quantity is updated. -/
def Row.modified (py : Python) (row : Row) (updates : Dict String Value) : Except String Row :=
  let row := row.assign updates.entries
  if UpdatesCosts updates then
    match py.float (row.cells .costoUnitario), py.float (row.cells .quantita) with
    | .error error, _ => .error error
    | .ok _, .error error => .error error
    | .ok unitCost, .ok quantity => .ok (row.set .costoTotale (.float (product unitCost quantity)))
  else .ok row

def modifyComponentById (py : Python) (caller : Caller) (tables : Tables) :
    ModificationData → Result
  | .invalid error => (.ok (.invalidFormat error), {})
  | .noDict _ none => (.error "TypeError", {})
  | .noDict _ (some true) => (.ok .idNotEditable, {})
  | .noDict id (some false) =>
    match tables.todos.find? (fun row => row.hasId id caller.userId) with
    | none => (.ok (.noComponent id), {})
    | some _ => (.error "AttributeError", {})
  | .updates id updates =>
    if "ID" ∈ updates.keys then (.ok .idNotEditable, {})
    else match tables.todos.find? (fun row => row.hasId id caller.userId) with
      | none => (.ok (.noComponent id), {})
      | some row =>
        match row.modified py updates with
        | .error error => (.error error, {})
        | .ok row' => saveAndReply (.componentUpdated id) {} (tables.todos.replace row row')

/-! ### Calls -/

inductive Tool where
  | createProject (project : String)
  | deleteProject (project : String)
  | addComponent (data : ComponentData)
  | modifyComponentById (data : ModificationData)
  | deleteComponentsByIds (ids : ComponentIds)

/-- The batch of a call that adds components. -/
def Tool.batch? : Tool → Option (List (Option Component))
  | .addComponent (.components list) => some list
  | _ => none

/-- The id and the updates of a call that modifies a component. -/
def Tool.changes? : Tool → Option (Value × Dict String Value)
  | .modifyComponentById (.updates id updates) => some (id, updates)
  | _ => none

structure ToolCall where
  caller : Caller
  tool : Tool

def ToolCall.result (py : Python) (tables : Tables) (call : ToolCall) : Result :=
  match call.tool with
  | .createProject project => createProject call.caller tables project
  | .deleteProject project => deleteProject call.caller tables project
  | .addComponent data => addComponent py call.caller tables data
  | .modifyComponentById data => modifyComponentById py call.caller tables data
  | .deleteComponentsByIds ids => deleteComponentsByIds call.caller tables ids

/-- A call leaves the tables in some state, also where it raises. -/
def step (py : Python) (csv : Csv) (tables : Tables) (call : ToolCall) :
    Except String Reply × Tables :=
  ((call.result py tables).1, tables.after csv (call.result py tables).2)

def next (py : Python) (csv : Csv) (tables : Tables) (call : ToolCall) : Option Tables :=
  some (step py csv tables call).2

/-! ### What a call saves -/

/-- Everything that a call can save. -/
inductive Saves (py : Python) (tables : Tables) (caller : Caller) : Tool → Saved → Prop where
  | nothing (tool : Tool) : Saves py tables caller tool {}
  | created (project : String) : Saves py tables caller (.createProject project)
      { projects := some (tables.projects.getD [] ++ [[project, caller.userId]]) }
  | projectDeleted (project : String) : Saves py tables caller (.deleteProject project)
      { projects := some ((tables.projects.getD []).filter
          (fun row => isProject project caller.userId row = some false)),
        todos := some (tables.todos.filter (fun row => ¬ row.isComponentOf project caller.userId)) }
  | added {list : List (Option Component)} {rows : List Row}
      (h : componentRows py caller tables.projects (nextId tables.todos) list = .ok rows) :
      Saves py tables caller (.addComponent (.components list))
        { todos := some (tables.todos ++ rows) }
  | modified {id : Value} {updates : Dict String Value} {row row' : Row}
      (hid : "ID" ∉ updates.keys)
      (hfind : tables.todos.find? (fun row => row.hasId id caller.userId) = some row)
      (hmodified : row.modified py updates = .ok row') :
      Saves py tables caller (.modifyComponentById (.updates id updates))
        { todos := some (tables.todos.replace row row') }
  | deleted (list : List Int) : Saves py tables caller (.deleteComponentsByIds (.ids list))
      { todos := some (list.foldl (deleteComponentById caller.userId) (tables.todos, [])).1 }

section Saves

variable {py : Python} {tables : Tables} {caller : Caller}

theorem create_saves (project : String) :
    Saves py tables caller (.createProject project) (createProject caller tables project).2 := by
  unfold createProject
  split
  · exact .nothing _
  · split
    · exact .nothing _
    · exact .created project

theorem delete_project_saves (project : String) :
    Saves py tables caller (.deleteProject project) (deleteProject caller tables project).2 := by
  unfold deleteProject
  dsimp only
  split
  · exact .nothing _
  · split
    · exact .nothing _
    · exact .projectDeleted project

theorem add_saves (data : ComponentData) :
    Saves py tables caller (.addComponent data) (addComponent py caller tables data).2 := by
  cases data with
  | unreadable error => exact .nothing _
  | noList => exact .nothing _
  | components list =>
    unfold addComponent
    dsimp only
    split
    · exact .nothing _
    · rename_i rows hrows
      exact .added hrows

/-- The call finds the row, and the updates make the other one of it. -/
def Modifies (py : Python) (tables : Tables) (caller : Caller) (data : ModificationData)
    (updates : Dict String Value) (row row' : Row) : Prop :=
  ∃ id, data = .updates id updates ∧ "ID" ∉ updates.keys ∧
    tables.todos.find? (fun row => row.hasId id caller.userId) = some row ∧
    row.modified py updates = .ok row'

theorem modify_cases (py : Python) (tables : Tables) (caller : Caller) (data : ModificationData) :
    (∃ updates row row', Modifies py tables caller data updates row row' ∧
      (modifyComponentById py caller tables data).2 =
        { todos := some (tables.todos.replace row row') }) ∨
    (∀ updates row row', ¬ Modifies py tables caller data updates row row') ∧
      (modifyComponentById py caller tables data).2 = {} := by
  cases data with
  | invalid error => exact Or.inr ⟨nofun, rfl⟩
  | noDict id containsId =>
    refine Or.inr ⟨nofun, ?_⟩
    rcases containsId with _ | _ | _
    · rfl
    · simp only [modifyComponentById]
      split <;> rfl
    · rfl
  | updates id updates =>
    simp only [modifyComponentById]
    split
    · rename_i hid
      refine Or.inr ⟨?_, rfl⟩
      rintro _ row row' ⟨_, heq, hno, _⟩
      cases heq
      exact hno hid
    · rename_i hid
      split
      · rename_i hnone
        refine Or.inr ⟨?_, rfl⟩
        rintro _ row row' ⟨_, heq, _, hfind, _⟩
        cases heq
        cases hnone.symm.trans hfind
      · rename_i row hfind
        split
        · rename_i error hmodified
          refine Or.inr ⟨?_, rfl⟩
          rintro _ row row' ⟨_, heq, _, hfind', hok⟩
          cases heq
          cases hfind.symm.trans hfind'
          cases hmodified.symm.trans hok
        · rename_i row' hmodified
          exact Or.inl ⟨updates, row, row', ⟨id, rfl, hid, hfind, hmodified⟩, rfl⟩

theorem Modifies.unique {data : ModificationData} {updates updates' : Dict String Value}
    {row row' other other' : Row} (h : Modifies py tables caller data updates row row')
    (h' : Modifies py tables caller data updates' other other') :
    updates' = updates ∧ other = row ∧ other' = row' := by
  obtain ⟨id, rfl, _, hfind, hmodified⟩ := h
  obtain ⟨_, heq, _, hfind', hmodified'⟩ := h'
  cases heq
  cases hfind.symm.trans hfind'
  cases hmodified.symm.trans hmodified'
  exact ⟨rfl, rfl, rfl⟩

theorem modify_saves (data : ModificationData) :
    Saves py tables caller (.modifyComponentById data)
      (modifyComponentById py caller tables data).2 := by
  rcases modify_cases py tables caller data with
    ⟨updates, row, row', ⟨id, rfl, hid, hfind, hmodified⟩, hsaved⟩ | ⟨_, hsaved⟩
  · rw [hsaved]
    exact .modified hid hfind hmodified
  · rw [hsaved]
    exact .nothing _

theorem delete_ids_saves (ids : ComponentIds) :
    Saves py tables caller (.deleteComponentsByIds ids)
      (deleteComponentsByIds caller tables ids).2 := by
  cases ids with
  | invalid => exact .nothing _
  | raises error => exact .nothing _
  | ids list =>
    simp only [deleteComponentsByIds]
    split
    · exact .nothing _
    · exact .deleted list

theorem result_saves (py : Python) (tables : Tables) (call : ToolCall) :
    Saves py tables call.caller call.tool (call.result py tables).2 := by
  obtain ⟨caller, tool⟩ := call
  cases tool with
  | createProject project => exact create_saves project
  | deleteProject project => exact delete_project_saves project
  | addComponent data => exact add_saves data
  | modifyComponentById data => exact modify_saves data
  | deleteComponentsByIds ids => exact delete_ids_saves ids

end Saves

/-! ### Rows -/

section Rows

variable {py : Python} {caller : Caller} {projects : Option (List (List String))}

theorem map_input_ok {component : Component} {mapped : MappedData}
    (h : mapInputFields py component = .ok mapped) :
    (given component.unitCost).mapM (mapNumber py) = .ok mapped.costoUnitario ∧
      (given component.quantity).mapM (mapNumber py) = .ok mapped.quantita ∧
      mapped.nomeProgetto = (given component.projectName).map py.str ∧
      mapped.codiceComponente = (given component.componentCode).map py.str ∧
      mapped.descrizione = (given component.description).map py.str ∧
      mapped.nota = (given component.note).map py.str := by
  unfold mapInputFields at h
  cases hunit : (given component.unitCost).mapM (mapNumber py) with
  | error error =>
    rw [hunit] at h
    cases h
  | ok unitCost =>
    cases hquantity : (given component.quantity).mapM (mapNumber py) with
    | error error =>
      rw [hunit, hquantity] at h
      cases h
    | ok quantity =>
      rw [hunit, hquantity] at h
      cases h
      exact ⟨rfl, rfl, rfl, rfl, rfl, rfl⟩

theorem component_row_cells {id : Int} {component : Component} {row : Row}
    (h : componentRow py caller projects id component = .ok row) :
    ∃ mapped project code description unitCost quantity total,
      checkProjectExistence projects (component.projectName.getD (.str "")) = .ok none ∧
      mapInputFields py component = .ok mapped ∧ mapped.nomeProgetto = some project ∧
      mapped.codiceComponente = some code ∧ mapped.descrizione = some description ∧
      mapped.costoUnitario = some unitCost ∧ mapped.quantita = some quantity ∧
      calculateTotalCost py unitCost quantity = some total ∧
      row = ⟨id, componentCells caller (component.projectName.getD (.str "")) code description
        unitCost quantity total (mapped.nota.getD (.str ""))⟩ := by
  unfold componentRow at h
  dsimp only at h
  split at h
  · cases h
  · cases h
  · rename_i hcheck
    split at h
    · cases h
    · rename_i mapped hmapped
      split at h
      · rename_i project code description unitCost quantity hproject hcode hdescription hcost hquantity
        split at h
        · cases h
        · rename_i total htotal
          cases h
          exact ⟨mapped, project, code, description, unitCost, quantity, total, hcheck, hmapped,
            hproject, hcode, hdescription, hcost, hquantity, htotal, rfl⟩
      · cases h

theorem component_row_ok {id : Int} {component : Component} {row : Row}
    (h : componentRow py caller projects id component = .ok row) :
    ∃ code description unitCost quantity total note,
      checkProjectExistence projects (component.projectName.getD (.str "")) = .ok none ∧
      (given component.unitCost).mapM (mapNumber py) = .ok (some unitCost) ∧
      (given component.quantity).mapM (mapNumber py) = .ok (some quantity) ∧
      calculateTotalCost py unitCost quantity = some total ∧
      row = ⟨id, componentCells caller (component.projectName.getD (.str "")) code description
        unitCost quantity total note⟩ := by
  obtain ⟨mapped, _, code, description, unitCost, quantity, total, hproject, hmapped, _, _, _, hunit,
    hquantity, htotal, hrow⟩ := component_row_cells h
  obtain ⟨hu, hq, _⟩ := map_input_ok hmapped
  exact ⟨code, description, unitCost, quantity, total, _, hproject, hunit ▸ hu, hquantity ▸ hq, htotal,
    hrow⟩

theorem component_rows_cons {id : Int} {component : Option Component}
    {list : List (Option Component)} {rows : List Row}
    (h : componentRows py caller projects id (component :: list) = .ok rows) :
    ∃ c row rest, component = some c ∧ componentRow py caller projects id c = .ok row ∧
      componentRows py caller projects (id + 1) list = .ok rest ∧ rows = row :: rest := by
  cases component with
  | none => cases h
  | some c =>
    rw [componentRows] at h
    split at h
    · cases h
    · rename_i row hrow
      split at h
      · cases h
      · rename_i rest hrest
        cases h
        exact ⟨c, row, rest, rfl, hrow, hrest, rfl⟩

/-- Every row comes from a component of the batch. -/
theorem mem_component_rows {id : Int} {list : List (Option Component)} {rows : List Row}
    (h : componentRows py caller projects id list = .ok rows) {row : Row} (hrow : row ∈ rows) :
    ∃ k c, id ≤ k ∧ some c ∈ list ∧ componentRow py caller projects k c = .ok row := by
  induction list generalizing id rows with
  | nil =>
    cases h
    cases hrow
  | cons component list ih =>
    obtain ⟨c, first, rest, rfl, hfirst, hrest, rfl⟩ := component_rows_cons h
    rcases List.mem_cons.mp hrow with rfl | hrow
    · exact ⟨id, c, Int.le_refl id, List.mem_cons_self, hfirst⟩
    · obtain ⟨k, c', hk, hc, hmade⟩ := ih hrest hrow
      exact ⟨k, c', by omega, List.mem_cons_of_mem _ hc, hmade⟩

/-- The ids of a batch are distinct. -/
theorem component_rows_ids {id : Int} {list : List (Option Component)} {rows : List Row}
    (h : componentRows py caller projects id list = .ok rows) :
    (rows.map Row.id).Nodup ∧ ∀ k ∈ rows.map Row.id, id ≤ k := by
  induction list generalizing id rows with
  | nil =>
    cases h
    exact ⟨List.nodup_nil, fun _ hk => absurd hk List.not_mem_nil⟩
  | cons component list ih =>
    obtain ⟨c, first, rest, rfl, hfirst, hrest, rfl⟩ := component_rows_cons h
    obtain ⟨hnodup, hfrom⟩ := ih hrest
    have hid : first.id = id := by
      obtain ⟨code, description, unitCost, quantity, total, note, -, -, -, -, hrow⟩ :=
        component_row_ok hfirst
      rw [hrow]
    rw [List.map_cons, hid]
    refine ⟨List.nodup_cons.mpr ⟨?_, hnodup⟩, ?_⟩
    · intro hmem
      have hle := hfrom id hmem
      omega
    · intro k hk
      rcases List.mem_cons.mp hk with rfl | hk
      · exact Int.le_refl _
      · have hle := hfrom k hk
        omega

theorem has_id_iff (row : Row) (id : Value) (user : String) :
    row.hasId id user = true ↔ id.isId row.id = true ∧ row.cells .user = .str user := by
  simp [Row.hasId]

/-- The row that is found is the first of its kind, and so the first of its value. -/
theorem found_split {todos : List Row} {p : Row → Bool} {row : Row}
    (h : todos.find? p = some row) :
    p row = true ∧ ∃ before after, todos = before ++ row :: after ∧
      todos.erase row = before ++ after ∧ (∀ row', todos.replace row row' = before ++ row' :: after) ∧
      todos.takeWhile (fun r => r ≠ row) = before := by
  obtain ⟨hp, before, after, htodos, hbefore⟩ := List.find?_eq_some_iff_append.mp h
  have hnot : row ∉ before := by
    intro hmem
    have hno := hbefore row hmem
    simp [hp] at hno
  refine ⟨hp, before, after, htodos, ?_, ?_, ?_⟩
  · rw [htodos, List.erase_append_right _ hnot, List.erase_cons_head]
  · intro row'
    rw [htodos, List.replace_append_right hnot, List.replace_cons_self]
  · rw [htodos, List.takeWhile_append_of_pos, List.takeWhile_cons_of_neg (by simp), List.append_nil]
    intro r hr
    simpa using ne_of_mem_of_not_mem hr hnot

/-- A row is replaced by one that has the property of all rows. -/
theorem replaced_rows {P : Row → Prop} {todos : List Row} {p : Row → Bool} {row row' : Row}
    (hfind : todos.find? p = some row) (hold : ∀ r ∈ todos, P r) (hnew : P row') :
    ∀ r ∈ todos.replace row row', P r := by
  obtain ⟨_, before, after, htodos, _, hreplace, _⟩ := found_split hfind
  rw [hreplace row']
  rw [htodos] at hold
  intro r hr
  rcases List.mem_append.mp hr with hr | hr
  · exact hold r (List.mem_append_left _ hr)
  · rcases List.mem_cons.mp hr with rfl | hr
    · exact hnew
    · exact hold r (List.mem_append_right _ (List.mem_cons_of_mem _ hr))

theorem Row.set_cells (row : Row) (c c' : Column) (v : Value) :
    (row.set c v).cells c' = if c' = c then v else row.cells c' :=
  Function.update_apply row.cells c v c'

/-- A column has the value that is assigned to its name. -/
theorem assign_spec (updates : Dict String Value) (row : Row) :
    (row.assign updates.entries).id = row.id ∧
      ∀ c, (row.assign updates.entries).cells c = (updates.get? c.header).getD (row.cells c) := by
  obtain ⟨l, hd⟩ := updates
  unfold Dict.get?
  dsimp only
  induction l generalizing row with
  | nil => exact ⟨rfl, fun _ => rfl⟩
  | cons p l ih =>
    obtain ⟨hp, hd⟩ := List.nodup_cons.mp hd
    rw [Row.assign, List.foldl_cons]
    cases hcolumn : Column.ofHeader? p.1 with
    | none =>
      obtain ⟨hid, hcells⟩ := ih row hd
      refine ⟨hid, ?_⟩
      intro c
      have hne : p.1 ≠ c.header := by
        intro he
        rw [(Column.ofHeader?_eq_some_iff p.1 c).mpr he.symm] at hcolumn
        cases hcolumn
      rw [List.find?_cons_of_neg (by simpa using hne)]
      exact hcells c
    | some d =>
      have hheader := (Column.ofHeader?_eq_some_iff p.1 d).mp hcolumn
      obtain ⟨hid, hcells⟩ := ih (row.set d p.2) hd
      refine ⟨hid, ?_⟩
      intro c
      apply (hcells c).trans
      by_cases hc : c = d
      · subst hc
        have hnone : l.find? (fun q => q.1 == c.header) = none := by
          rw [List.find?_eq_none]
          intro q hq he
          refine hp (List.mem_map.mpr ⟨q, hq, ?_⟩)
          simpa [← hheader] using he
        rw [hnone, List.find?_cons_of_pos (by simp [hheader]), Row.set_cells, if_pos rfl]
        rfl
      · have hne : p.1 ≠ c.header := by
          intro he
          exact hc (Column.header_injective (he.symm.trans hheader.symm))
        rw [List.find?_cons_of_neg (by simpa using hne), Row.set_cells, if_neg hc]

/-- The cells after the assignments, before the total is computed again. -/
def Row.updated (row : Row) (updates : Dict String Value) (c : Column) : Value :=
  (updates.get? c.header).getD (row.cells c)

theorem modified_spec {row row' : Row} {updates : Dict String Value}
    (h : row.modified py updates = .ok row') :
    row'.id = row.id ∧ (∀ c, c ≠ .costoTotale → row'.cells c = row.updated updates c) ∧
    (UpdatesCosts updates → ∃ x y, py.float (row.updated updates .costoUnitario) = .ok x ∧
      py.float (row.updated updates .quantita) = .ok y ∧
      row'.cells .costoTotale = .float (product x y)) ∧
    (¬ UpdatesCosts updates → row'.cells .costoTotale = row.updated updates .costoTotale) := by
  obtain ⟨hid, hcells⟩ := assign_spec updates row
  unfold Row.modified at h
  dsimp only at h
  split at h
  · rename_i hcosts
    split at h
    · cases h
    · cases h
    · rename_i x y hx hy
      cases h
      refine ⟨hid, ?_, ?_, fun hno => absurd hcosts hno⟩
      · intro c hc
        rw [Row.set_cells, if_neg hc]
        exact hcells c
      · intro _
        rw [hcells] at hx hy
        exact ⟨x, y, hx, hy, by rw [Row.set_cells, if_pos rfl]⟩
  · rename_i hcosts
    cases h
    exact ⟨hid, fun c _ => hcells c, fun hyes => absurd hyes hcosts, fun _ => hcells _⟩

theorem modified_encodes_iff {row row' : Row} {updates : Dict String Value} (hrow : row.encodes = true)
    (h : row.modified py updates = .ok row') : row'.encodes = true ↔ ¬ HalfUpdate updates := by
  obtain ⟨_, hcells, htouched, huntouched⟩ := modified_spec h
  have hcell {c : Column} (hc : ¬ (c = .costoTotale ∧ UpdatesCosts updates)) :
      row'.cells c = row.updated updates c := by
    by_cases htotal : c = .costoTotale
    · subst htotal
      exact huntouched (fun hcosts => hc ⟨rfl, hcosts⟩)
    · exact hcells c htotal
  rw [row_encodes_iff] at hrow ⊢
  constructor
  · rintro hall ⟨c, hc, v, hget, hv⟩
    have hencodes := hall c
    rw [hcell hc, Row.updated, hget, Option.getD_some, hv] at hencodes
    cases hencodes
  · intro hno c
    by_cases hc : c = .costoTotale ∧ UpdatesCosts updates
    · obtain ⟨x, y, _, _, htotal⟩ := htouched hc.2
      rw [hc.1, htotal]
      rfl
    · rw [hcell hc, Row.updated]
      cases hget : updates.get? c.header with
      | none => exact hrow c
      | some v =>
        by_contra hv
        exact hno ⟨c, hc, v, hget, Bool.eq_false_of_not_eq_true hv⟩

/-- Deleting by ids leaves a part of the rows. -/
theorem delete_sublist (user : String) (ids : List Int) (state : List Row × List Int) :
    (ids.foldl (deleteComponentById user) state).1.Sublist state.1 := by
  induction ids generalizing state with
  | nil => exact List.Sublist.refl _
  | cons id ids ih =>
    apply (ih _).trans
    unfold deleteComponentById
    split
    · exact List.Sublist.refl _
    · exact List.erase_sublist

end Rows

/-! ### Plain inputs -/

/-- Python on small numbers, without numbers in texts and without products of other values. -/
def Python.plain : Python where
  floatInt n := some (n : Rat)
  floatText _ := none
  floatOther _ := .error "TypeError"
  floatRepr _ := "nan"
  times _ _ := none
  times_half _ _ _ h := by cases h

/-- pandas on columns that are all numbers or all words. -/
def Csv.plain : Csv where
  reread column k := (column.take k).map (fun v => if v.encodes then v else .null)
  isText _ := true
  number := Value.number?
  length_reread column k h := by rw [List.length_map, List.length_take, Nat.min_eq_left h]
  number_float _ := rfl
  reread_texts column k h := by
    refine (List.map_congr_left ?_).trans (List.map_id (column.take k))
    intro v hv
    obtain ⟨s, rfl, _⟩ := h v hv
    rfl
  reread_numbers column k _ := by
    rw [List.map_map]
    apply List.map_congr_left
    intro v _
    cases v <;> rfl
  number_reread _ _ _ _ _ := rfl
  reread_encodes column k v hv := by
    obtain ⟨u, _, rfl⟩ := List.mem_map.mp hv
    cases u <;> rfl

def alice : Caller := ⟨"alice", 1000⟩

def bob : Caller := ⟨"bob", 1001⟩

/-- A valve for the project, with a note. -/
def valve (project : String) (unitCost quantity : Int) : Component where
  projectName := some (.str project)
  componentCode := some (.str "VT-2020")
  description := some (.str "Valvola")
  unitCost := some (.int unitCost)
  quantity := some (.int quantity)
  note := some (.str "urgente")

end CheshireCat.Components
