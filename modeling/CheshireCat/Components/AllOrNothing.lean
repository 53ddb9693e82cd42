import CheshireCat.Base.Numeral
import CheshireCat.Components.Costs
import CheshireCat.Components.LiteralInput
import Mathlib.Data.List.Find

namespace CheshireCat.Components
open Base

/-! ### What add_component promises -/

/-- The row of a component has the texts and the numbers that were given. -/
structure Stores (component : Component) (row : Row) : Prop where
  project : ∀ v ∈ component.projectName, v.text?.isSome → row.cells .nomeProgetto = v
  code : ∀ v ∈ component.componentCode, v.text?.isSome → row.cells .codiceComponente = v
  description : ∀ v ∈ component.description, v.text?.isSome → row.cells .descrizione = v
  note : ∀ v ∈ component.note, v.text?.isSome → row.cells .nota = v
  noNote : component.note = none ∨ component.note = some .null → row.cells .nota = .str ""
  unitCost : ∀ v ∈ component.unitCost, ∀ q, v.number? = some q →
    (row.cells .costoUnitario).number? = some q
  quantity : ∀ v ∈ component.quantity, ∀ q, v.number? = some q →
    (row.cells .quantita).number? = some q

/-- The table is as it was and something else is replied or raised, or the rows of the components
are saved after the old ones, with new ids. -/
def AllOrNothing (tables : Tables) (components : List Component) (result : Result) : Prop :=
  (tables.written result.2 = tables ∧ ∀ added, result.1 ≠ .ok (.componentsAdded added)) ∨
  ∃ rows, result.1 = .ok (.componentsAdded (rows.map Row.added)) ∧
    tables.written result.2 = { tables with todos := tables.todos ++ rows } ∧
    List.Forall₂ Stores components rows ∧ (rows.map Row.id).Nodup ∧
    ∀ row ∈ rows, row.id ∉ tables.todos.map Row.id

/-- A project that is not known, a number that is too large, a required field that is missing, or
no total cost. -/
def Refused (py : Python) (projects : Option (List (List String))) (component : Component) : Prop :=
  checkProjectExistence projects (component.projectName.getD (.str "")) ≠ .ok none ∨
  ∀ mapped, mapInputFields py component = .ok mapped → missingFields mapped ≠ [] ∨
    ∃ unitCost quantity, mapped.costoUnitario = some unitCost ∧ mapped.quantita = some quantity ∧
      calculateTotalCost py unitCost quantity = none

def RefusedInput (py : Python) (projects : Option (List (List String))) : ComponentData → Prop
  | .unreadable _ => True
  | .noList => True
  | .components list => ∃ c ∈ list, ∀ component, c = some component → Refused py projects component

/-- The fields that are stored as texts. -/
def textFields : List String := ["project_name", "component_code", "description", "note"]

/-- The literal of a field, if it is a string, keeps its text. -/
def FieldKept (language : Language) (field : Option Tree) : Prop :=
  ∀ quote body, field = some (.leaf (.quoted quote body)) → KeepsText language body

/-- An integer that is given is not rounded. -/
def NumberKept (py : Python) (given : Option Value) : Prop :=
  ∀ n : Int, given = some (.int n) → py.floatInt n = some n

/-- No text that is stored changes when `null` is replaced and the literals are read by Python, and no
number is rounded. -/
structure Kept (py : Python) (l : Literals) (language : Language) (entries : List (Piece × Tree)) :
    Prop where
  texts : ∀ name ∈ textFields, FieldKept language (lookup (l.givenLeaf language) name entries)
  unitCost : NumberKept py (l.component (l.givenLeaf language) entries).unitCost
  quantity : NumberKept py (l.component (l.givenLeaf language) entries).quantity

/-- The literal of a field is a string that Python reads with half of a surrogate pair. -/
def HalfField (field : Option Tree) : Prop :=
  ∃ quote body, field = some (.leaf (.quoted quote body)) ∧
    (pythonEscapes.strict.decode (replaceNull body)).isSome = false

/-- A text of the component cannot be saved. -/
def HalfText (l : Literals) (language : Language) (entries : List (Piece × Tree)) : Prop :=
  ∃ name ∈ ["component_code", "description", "note"],
    HalfField (lookup (l.givenLeaf language) name entries)

/-! ### Fields after the replacement -/

/-- A field as it is given and as Python reads it after the replacement. -/
inductive Rewritten (language : Language) : Option Tree → Option Value → Option Value → Prop where
  | absent : Rewritten language none none none
  | word (w : List Char) {v : Value} (hv : v.text? = none) :
    Rewritten language (some (.leaf (.word w))) (some v) (some v)
  | text (quote : Char) {body : List Char} {v v' : Value} (hv : v.text?.isSome) (hv' : v'.text?.isSome)
    (h : v' = v ↔ KeepsText language body)
    (hhalf : v'.encodes = true ↔ (pythonEscapes.strict.decode (replaceNull body)).isSome = true) :
    Rewritten language (some (.leaf (.quoted quote body))) (some v) (some v')
  | nested {t : Tree} (ht : ∀ p, t ≠ .leaf p) (repr repr' : String) :
    Rewritten language (some t) (some (.other repr false)) (some (.other repr' false))

section Fields

variable {l : Literals} {language : Language} {field : Option Tree} {given read : Option Value}

theorem Rewritten.stored (h : Rewritten language field given read) {cell : Value}
    (hcell : ∀ v ∈ read, v.text?.isSome → cell = v) :
    (∀ v ∈ given, v.text?.isSome → cell = v) ↔ FieldKept language field := by
  cases h with
  | absent => exact iff_of_true nofun nofun
  | word w hv => exact iff_of_true hcell nofun
  | text quote hv hv' hkeeps _ =>
    have hread := hcell _ rfl hv'
    constructor
    · intro hstored quote' body' heq
      cases heq
      exact hkeeps.mp (hread.symm.trans (hstored _ rfl hv))
    · rintro hkept _ ⟨rfl⟩ _
      rw [hread, hkeeps.mpr (hkept quote _ rfl)]
  | nested ht repr _ =>
    refine iff_of_true ?_ ?_
    · rintro _ ⟨rfl⟩ htext
      cases htext
    · intro quote body heq
      exact absurd (Option.some.inj heq) (ht _)

/-- Only a string has half of a surrogate pair. -/
theorem Rewritten.half (h : Rewritten language field given read) :
    (∃ v ∈ read, v.encodes = false) ↔ HalfField field := by
  cases h with
  | absent => exact iff_of_false nofun nofun
  | @word w v hv =>
    refine iff_of_false ?_ nofun
    rintro ⟨_, ⟨rfl⟩, hhalf⟩
    cases v with
    | half s => cases hv
    | _ => cases hhalf
  | text quote _ _ _ hhalf =>
    have hsame := Bool.eq_iff_iff.mpr hhalf
    constructor
    · rintro ⟨_, ⟨rfl⟩, hno⟩
      exact ⟨quote, _, rfl, hsame.symm.trans hno⟩
    · rintro ⟨_, _, ⟨rfl, rfl⟩, hno⟩
      exact ⟨_, rfl, hsame.trans hno⟩
  | nested ht repr repr' =>
    refine iff_of_false ?_ ?_
    · rintro ⟨_, ⟨rfl⟩, hhalf⟩
      cases hhalf
    · rintro ⟨quote, body, heq, _⟩
      exact absurd (Option.some.inj heq) (ht _)

theorem Rewritten.number (h : Rewritten language field given read) {v : Value} {q : Rat}
    (hv : v ∈ given) (hq : v.number? = some q) : v ∈ read := by
  cases h with
  | absent => cases hv
  | word w _ => exact hv
  | text _ htext _ _ _ =>
    cases hv
    cases v with
    | int n => cases htext
    | float x => cases htext
    | _ => cases hq
  | nested _ _ _ =>
    cases hv
    cases hq

theorem Rewritten.missing (h : Rewritten language field given read)
    (hmissing : given = none ∨ given = some .null) : read = none ∨ read = some .null := by
  cases h with
  | absent => exact hmissing
  | word w _ => exact hmissing
  | text _ htext _ _ _ =>
    rcases hmissing with hnone | hnull
    · cases hnone
    · cases hnull
      cases htext
  | nested _ _ _ => rcases hmissing with h | h <;> cases h

/-- A key has its value at the same entry. -/
theorem lookup_rewritten {name : String} {entries : List (Piece × Tree)}
    (hnull : ¬ nullText <:+: name.toList) (hname : ∀ c ∈ name.toList, isNameChar c = true)
    (h : readable (l.givenLeaf language) (.dict entries) = true)
    (h' : readable l.pythonLeaf (.dict (mapEntries replaceNull entries)) = true) :
    lookup l.pythonLeaf name (mapEntries replaceNull entries) =
      (lookup (l.givenLeaf language) name entries).map (Base.Tree.map replaceNull) := by
  have hread := (all_entries _ _).mp h
  have hread' := (all_entries _ _).mp h'
  rw [map_entries] at hread'
  rw [lookup, lookup, map_entries, ← List.map_reverse, List.find?_map, Option.map_map, Option.map_map]
  have hsame : entries.reverse.find? ((fun e => decide (l.pythonLeaf e.1 = some (.str name))) ∘
      fun e => (e.1.map replaceNull, e.2.map replaceNull)) =
      entries.reverse.find? (fun e => decide (l.givenLeaf language e.1 = some (.str name))) := by
    apply List.find?_congr
    intro e he
    rw [List.mem_reverse] at he
    obtain ⟨v, hv⟩ := Option.isSome_iff_exists.mp (hread e he).1
    obtain ⟨v', hv'⟩ := Option.isSome_iff_exists.mp (hread' _ (List.mem_map_of_mem he)).1
    apply decide_eq_decide.mpr
    rw [hv, hv', Option.some_inj, Option.some_inj]
    exact key_rewritten hnull hname hv hv'
  rw [hsame]
  rfl

theorem readable_lookup {leaf : Piece → Option Value} {name : String} {entries : List (Piece × Tree)}
    (h : readable leaf (.dict entries) = true) {t : Tree} (ht : lookup leaf name entries = some t) :
    readable leaf t = true := by
  obtain ⟨e, he, rfl⟩ := Option.map_eq_some_iff.mp ht
  exact ((all_entries _ _).mp h e (List.mem_reverse.mp (List.mem_of_find?_eq_some he))).2

/-- A value is read again, as a text that may be another one, or as another list or dictionary. -/
theorem value_rewritten {t : Tree} (h : readable (l.givenLeaf language) t = true)
    (h' : readable l.pythonLeaf (t.map replaceNull) = true) :
    Rewritten language (some t) (some (l.value (l.givenLeaf language) t))
      (some (l.value l.pythonLeaf (t.map replaceNull))) := by
  cases t with
  | list items =>
    apply Rewritten.nested
    intro p hp
    cases hp
  | dict entries =>
    apply Rewritten.nested
    intro p hp
    cases hp
  | leaf p =>
    obtain ⟨v, hv⟩ := Option.isSome_iff_exists.mp h
    obtain ⟨v', hv'⟩ := Option.isSome_iff_exists.mp h'
    rw [Base.Tree.map, Literals.value, Literals.value, hv, hv', Option.getD_some, Option.getD_some]
    cases p with
    | blank c => cases hv
    | punct p => cases hv
    | word w =>
      have hsame : v' = v := word_rewritten hv hv'
      subst hsame
      exact .word w (python_word_no_text hv')
    | quoted quote body =>
      have hread := given_quoted hv
      obtain ⟨s, _, htext, _⟩ := string_value_text hread
      obtain ⟨s', _, htext', hhalf⟩ := string_value_text (e := pythonEscapes) hv'
      exact .text quote (Option.isSome_of_eq_some htext) (Option.isSome_of_eq_some htext')
        (keeps_text_iff hread hv') hhalf

/-- The names of the fields have no `null`. -/
theorem field_names : ∀ name ∈ textFields ++ ["unit_cost", "quantity"],
    ¬ nullText <:+: name.toList ∧ ∀ c ∈ name.toList, isNameChar c = true := by
  decide +kernel

theorem field_rewritten {name : String} (hname : name ∈ textFields ++ ["unit_cost", "quantity"])
    {entries : List (Piece × Tree)} (h : readable (l.givenLeaf language) (.dict entries) = true)
    (h' : readable l.pythonLeaf (.dict (mapEntries replaceNull entries)) = true) :
    Rewritten language (lookup (l.givenLeaf language) name entries)
      ((lookup (l.givenLeaf language) name entries).map (l.value (l.givenLeaf language)))
      ((lookup l.pythonLeaf name (mapEntries replaceNull entries)).map (l.value l.pythonLeaf)) := by
  obtain ⟨hnull, hchars⟩ := field_names name hname
  have hsame := lookup_rewritten hnull hchars h h'
  rw [hsame, Option.map_map]
  cases hfield : lookup (l.givenLeaf language) name entries with
  | none => exact .absent
  | some t =>
    rw [hfield] at hsame
    exact value_rewritten (readable_lookup h hfield) (readable_lookup h' hsame)

/-- The fields of a component and of what Python reads of it after the replacement. -/
structure RewrittenComponent (language : Language) (field : String → Option Tree)
    (given read : Component) : Prop where
  project : Rewritten language (field "project_name") given.projectName read.projectName
  code : Rewritten language (field "component_code") given.componentCode read.componentCode
  description : Rewritten language (field "description") given.description read.description
  note : Rewritten language (field "note") given.note read.note
  unitCost : Rewritten language (field "unit_cost") given.unitCost read.unitCost
  quantity : Rewritten language (field "quantity") given.quantity read.quantity

theorem component_rewritten {entries : List (Piece × Tree)}
    (h : readable (l.givenLeaf language) (.dict entries) = true)
    (h' : readable l.pythonLeaf (.dict (mapEntries replaceNull entries)) = true) :
    RewrittenComponent language (fun name => lookup (l.givenLeaf language) name entries)
      (l.component (l.givenLeaf language) entries)
      (l.component l.pythonLeaf (mapEntries replaceNull entries)) where
  project := field_rewritten (by decide) h h'
  code := field_rewritten (by decide) h h'
  description := field_rewritten (by decide) h h'
  note := field_rewritten (by decide) h h'
  unitCost := field_rewritten (by decide) h h'
  quantity := field_rewritten (by decide) h h'

end Fields

/-! ### Rows -/

section Rows

variable {py : Python} {caller : Caller} {projects : Option (List (List String))}

theorem missing_fields_nil (mapped : MappedData) : missingFields mapped = [] ↔
    ∃ project code description unitCost quantity, mapped.nomeProgetto = some project ∧
      mapped.codiceComponente = some code ∧ mapped.descrizione = some description ∧
      mapped.costoUnitario = some unitCost ∧ mapped.quantita = some quantity := by
  obtain ⟨project, code, description, unitCost, quantity, note⟩ := mapped
  cases project <;> cases code <;> cases description <;> cases unitCost <;> cases quantity <;>
    simp [missingFields]

theorem component_row_refused (id : Int) (component : Component) :
    (∃ row, componentRow py caller projects id component = .ok row) ↔
      ¬ Refused py projects component := by
  constructor
  · rintro ⟨row, hrow⟩ hrefused
    obtain ⟨mapped, project, code, description, unitCost, quantity, total, hcheck, hmapped, hproject,
      hcode, hdescription, hcost, hquantity, htotal, _⟩ := component_row_cells hrow
    rcases hrefused with hno | hno
    · exact hno hcheck
    · rcases hno mapped hmapped with hmissing | ⟨unitCost', quantity', hcost', hquantity', htotal'⟩
      · exact hmissing ((missing_fields_nil _).mpr ⟨project, code, description, unitCost, quantity,
          hproject, hcode, hdescription, hcost, hquantity⟩)
      · rw [hcost] at hcost'
        rw [hquantity] at hquantity'
        cases hcost'
        cases hquantity'
        rw [htotal] at htotal'
        cases htotal'
  · intro hrefused
    obtain ⟨hproject, hother⟩ := not_or.mp hrefused
    push Not at hother hproject
    obtain ⟨mapped, hmapped, hfields, htotal⟩ := hother
    obtain ⟨project, code, description, unitCost, quantity, hname, hcode, hdescription, hcost, hquantity⟩ :=
      (missing_fields_nil _).mp hfields
    cases hprice : calculateTotalCost py unitCost quantity with
    | none => exact absurd hprice (htotal unitCost quantity hcost hquantity)
    | some total =>
      rw [componentRow, hproject]
      simp only [hmapped, hname, hcode, hdescription, hcost, hquantity, hprice]
      exact ⟨_, rfl⟩

theorem component_row_error {id : Int} {component : Component} {e : Except String Reply}
    (h : componentRow py caller projects id component = .error e) (added : List Added) :
    e ≠ .ok (.componentsAdded added) := by
  rintro rfl
  unfold componentRow at h
  dsimp only at h
  split at h
  · cases h
  · rename_i reply hreply
    have hadded := Except.ok.inj (Except.error.inj h)
    subst hadded
    unfold checkProjectExistence at hreply
    split at hreply
    · cases hreply
    · dsimp only at hreply
      split at hreply
      · cases hreply
      · split at hreply <;> cases hreply
      · cases hreply
  · split at h
    · cases h
    · split at h
      · split at h <;> cases h
      · cases h

theorem component_rows_refused (list : List (Option Component)) (id : Int) :
    (∃ rows, componentRows py caller projects id list = .ok rows) ↔
      ¬ RefusedInput py projects (.components list) := by
  induction list generalizing id with
  | nil => exact iff_of_true ⟨[], rfl⟩ (fun ⟨c, hc, _⟩ => List.not_mem_nil hc)
  | cons c list ih =>
    have hrest := ih (id + 1)
    constructor
    · rintro ⟨rows, hrows⟩ ⟨c', hc', hrefused⟩
      obtain ⟨component, row, rest, rfl, hrow, hrows', _⟩ := component_rows_cons hrows
      rcases List.mem_cons.mp hc' with rfl | hc'
      · exact (component_row_refused id component).mp ⟨row, hrow⟩ (hrefused component rfl)
      · exact hrest.mp ⟨rest, hrows'⟩ ⟨c', hc', hrefused⟩
    · intro hno
      cases c with
      | none =>
        refine absurd ⟨none, List.mem_cons_self, ?_⟩ hno
        intro component heq
        cases heq
      | some component =>
        have hfirst : ¬ Refused py projects component := by
          intro hrefused
          refine hno ⟨some component, List.mem_cons_self, ?_⟩
          rintro component' heq
          cases heq
          exact hrefused
        obtain ⟨row, hrow⟩ : ∃ row, componentRow py caller projects id component = .ok row :=
          (component_row_refused id component).mpr hfirst
        obtain ⟨rest, hrest'⟩ := hrest.mpr
          (fun ⟨c', hc', hrefused⟩ => hno ⟨c', List.mem_cons_of_mem _ hc', hrefused⟩)
        rw [componentRows, hrow, hrest']
        exact ⟨_, rfl⟩

theorem component_rows_error {list : List (Option Component)} {id : Int} {e : Except String Reply}
    (h : componentRows py caller projects id list = .error e) (added : List Added) :
    e ≠ .ok (.componentsAdded added) := by
  induction list generalizing id with
  | nil => cases h
  | cons c list ih =>
    cases c with
    | none =>
      cases h
      exact nofun
    | some component =>
      rw [componentRows] at h
      split at h
      · rename_i hrow
        cases h
        exact component_row_error hrow added
      · split at h
        · rename_i hrest
          cases h
          exact ih hrest
        · cases h

theorem mapped_text {field : Option Value} {v : Value} (h : v ∈ field) (htext : v.text?.isSome) :
    (given field).map py.str = some v := by
  cases h
  cases v with
  | str s => rfl
  | half s => rfl
  | _ => cases htext

theorem mapped_missing {field : Option Value} (h : field = none ∨ field = some .null) :
    (given field).map py.str = none := by
  rcases h with rfl | rfl <;> rfl

/-- A text that is stored has half of a surrogate pair where the field has. -/
theorem mapped_half (py : Python) (field : Option Value) :
    (((given field).map py.str).getD (.str "")).encodes = false ↔ ∃ v ∈ field, v.encodes = false := by
  cases field with
  | none => exact iff_of_false nofun nofun
  | some v =>
    have hstr : (((given (some v)).map py.str).getD (.str "")).encodes = v.encodes := by
      cases v <;> rfl
    rw [hstr]
    constructor
    · exact fun hhalf => ⟨v, rfl, hhalf⟩
    · rintro ⟨_, ⟨rfl⟩, hhalf⟩
      exact hhalf

theorem map_number_some {field : Option Value} {w : Value}
    (h : (given field).mapM (mapNumber py) = .ok (some w)) :
    ∃ v, given field = some v ∧ mapNumber py v = .ok w := by
  cases hgiven : given field with
  | none =>
    rw [hgiven] at h
    cases h
  | some v =>
    rw [hgiven] at h
    refine ⟨v, rfl, ?_⟩
    cases hmapped : mapNumber py v with
    | error error =>
      rw [Option.mapM_some, hmapped] at h
      cases h
    | ok w' =>
      rw [Option.mapM_some, hmapped] at h
      cases h
      rfl

theorem map_int {n : Int} {w : Value} (h : mapNumber py (.int n) = .ok w) :
    ∃ q, py.floatInt n = some q ∧ w = .float (some q) := by
  rw [mapNumber, Python.float] at h
  cases hn : py.floatInt n with
  | none =>
    rw [hn] at h
    cases h
  | some q =>
    rw [hn] at h
    cases h
    exact ⟨q, rfl, rfl⟩

/-- Where a value is not made a float, it is no integer. -/
theorem mapped_no_int {v w : Value} (h : mapNumber py v = .ok w) : w.isInt = false := by
  cases v with
  | int n =>
    obtain ⟨q, _, rfl⟩ := map_int h
    rfl
  | bool b =>
    cases h
    rfl
  | _ =>
    unfold mapNumber at h
    split at h
    · cases h
      rfl
    · split at h
      · cases h
        rfl
      · cases h

theorem total_encodes {unitCost quantity total : Value} (hunit : unitCost.isInt = false)
    (hquantity : quantity.isInt = false) (h : calculateTotalCost py unitCost quantity = some total) :
    unitCost.encodes = true ∧ quantity.encodes = true ∧ total.encodes = true := by
  unfold calculateTotalCost at h
  split at h
  · cases h
    exact ⟨rfl, rfl, rfl⟩
  · exact py.times_half _ _ _ h hunit hquantity

theorem stored_number {field : Option Value} {v cell : Value} {q : Rat} (h : v ∈ field)
    (hq : v.number? = some q) (hcell : (given field).mapM (mapNumber py) = .ok (some cell)) :
    cell.number? = some q ↔ NumberKept py field := by
  obtain ⟨v', hv', hmapped⟩ := map_number_some hcell
  cases h
  cases v with
  | int n =>
    cases hv'
    cases hq
    obtain ⟨x, hn, rfl⟩ := map_int hmapped
    constructor
    · rintro hsame m ⟨rfl⟩
      exact hn.trans hsame
    · exact fun hkept => hn.symm.trans (hkept n rfl)
  | float x =>
    cases hv'
    cases hmapped
    exact iff_of_true hq nofun
  | _ => cases hq

theorem numbers_stored_iff {language : Language} {field : Option Tree} {written read : Option Value}
    {cell : Value} (h : Rewritten language field written read)
    (hcell : (given read).mapM (mapNumber py) = .ok (some cell)) :
    (∀ v ∈ written, ∀ q, v.number? = some q → cell.number? = some q) ↔ NumberKept py written := by
  constructor
  · intro hstored n hn
    have hread := h.number hn rfl
    exact (stored_number hread rfl hcell).mp (hstored _ hn n rfl) n hread
  · intro hkept v hv q hq
    have hread := h.number hv hq
    refine (stored_number hread hq hcell).mpr ?_
    intro n hn
    rw [hread] at hn
    cases hn
    exact hkept n hv

theorem known_project {project : Value} (h : checkProjectExistence projects project = .ok none) :
    ∃ name, project = .str name := by
  unfold checkProjectExistence at h
  split at h
  · cases h
  · dsimp only at h
    split at h
    · cases h
    · exact ⟨_, rfl⟩
    · cases h

/-- The row of a component has what was given where its texts are kept and its numbers are not rounded. -/
theorem row_stores_iff {language : Language} {field : String → Option Tree} {written read : Component}
    {id : Int} {row : Row} (h : RewrittenComponent language field written read)
    (hrow : componentRow py caller projects id read = .ok row) :
    Stores written row ↔ (∀ name ∈ textFields, FieldKept language (field name)) ∧
      NumberKept py written.unitCost ∧ NumberKept py written.quantity := by
  obtain ⟨mapped, project, code, description, unitCost, quantity, total, _, hmapped, _, hcode,
    hdescription, hcost, hquantity, _, rfl⟩ := component_row_cells hrow
  obtain ⟨hunit_map, hquantity_map, _, hcode_map, hdescription_map, hnote_map⟩ := map_input_ok hmapped
  rw [hcost] at hunit_map
  rw [hquantity] at hquantity_map
  have hproject_iff : (∀ v ∈ written.projectName, v.text?.isSome →
      read.projectName.getD (.str "") = v) ↔ FieldKept language (field "project_name") := by
    apply h.project.stored
    rintro v hv _
    rw [hv]
    rfl
  have hcode_iff : (∀ v ∈ written.componentCode, v.text?.isSome → code = v) ↔
      FieldKept language (field "component_code") := by
    apply h.code.stored
    intro v hv htext
    exact Option.some.inj (hcode.symm.trans (hcode_map.trans (mapped_text hv htext)))
  have hdescription_iff : (∀ v ∈ written.description, v.text?.isSome → description = v) ↔
      FieldKept language (field "description") := by
    apply h.description.stored
    intro v hv htext
    exact Option.some.inj (hdescription.symm.trans (hdescription_map.trans (mapped_text hv htext)))
  have hnote_iff : (∀ v ∈ written.note, v.text?.isSome → mapped.nota.getD (.str "") = v) ↔
      FieldKept language (field "note") := by
    apply h.note.stored
    intro v hv htext
    rw [hnote_map, mapped_text hv htext]
    rfl
  constructor
  · intro hstores
    refine ⟨?_, (numbers_stored_iff h.unitCost hunit_map).mp hstores.unitCost,
      (numbers_stored_iff h.quantity hquantity_map).mp hstores.quantity⟩
    intro name hname
    simp only [textFields, List.mem_cons, List.not_mem_nil, or_false] at hname
    rcases hname with rfl | rfl | rfl | rfl
    · exact hproject_iff.mp hstores.project
    · exact hcode_iff.mp hstores.code
    · exact hdescription_iff.mp hstores.description
    · exact hnote_iff.mp hstores.note
  · rintro ⟨hkept, hunit_kept, hquantity_kept⟩
    refine ⟨hproject_iff.mpr (hkept _ (by decide)), hcode_iff.mpr (hkept _ (by decide)),
      hdescription_iff.mpr (hkept _ (by decide)), hnote_iff.mpr (hkept _ (by decide)), ?_,
      (numbers_stored_iff h.unitCost hunit_map).mpr hunit_kept,
      (numbers_stored_iff h.quantity hquantity_map).mpr hquantity_kept⟩
    intro hmissing
    change mapped.nota.getD (.str "") = _
    rw [hnote_map, mapped_missing (h.note.missing hmissing)]
    rfl

/-- The row cannot be saved where one of the texts that it takes from the component has half of a surrogate
pair. -/
theorem row_half_iff {language : Language} {field : String → Option Tree} {written read : Component}
    {id : Int} {row : Row} (h : RewrittenComponent language field written read)
    (hrow : componentRow py caller projects id read = .ok row) :
    row.encodes = false ↔
      ∃ name ∈ ["component_code", "description", "note"], HalfField (field name) := by
  obtain ⟨mapped, project, code, description, unitCost, quantity, total, hcheck, hmapped, _, hcode,
    hdescription, hcost, hquantity, htotal, rfl⟩ := component_row_cells hrow
  obtain ⟨hunit_map, hquantity_map, _, hcode_map, hdescription_map, hnote_map⟩ := map_input_ok hmapped
  rw [hcost] at hunit_map
  rw [hquantity] at hquantity_map
  obtain ⟨_, _, hunit⟩ := map_number_some hunit_map
  obtain ⟨_, _, hquantity⟩ := map_number_some hquantity_map
  obtain ⟨hunit, hquantity, htotal⟩ := total_encodes (mapped_no_int hunit) (mapped_no_int hquantity) htotal
  obtain ⟨name, hname⟩ := known_project hcheck
  have hcode_iff : code.encodes = false ↔ HalfField (field "component_code") := by
    rw [← h.code.half, ← mapped_half py, ← hcode_map, hcode]
    rfl
  have hdescription_iff : description.encodes = false ↔ HalfField (field "description") := by
    rw [← h.description.half, ← mapped_half py, ← hdescription_map, hdescription]
    rfl
  have hnote_iff : (mapped.nota.getD (.str "")).encodes = false ↔ HalfField (field "note") := by
    rw [← h.note.half, ← mapped_half py, ← hnote_map]
  have hcells (c : Column) : (componentCells caller (read.projectName.getD (.str "")) code description
      unitCost quantity total (mapped.nota.getD (.str "")) c).encodes = true ∨
      c = .codiceComponente ∨ c = .descrizione ∨ c = .nota := by
    rw [hname]
    cases c with
    | codiceComponente => exact Or.inr (Or.inl rfl)
    | descrizione => exact Or.inr (Or.inr (Or.inl rfl))
    | nota => exact Or.inr (Or.inr (Or.inr rfl))
    | costoUnitario => exact Or.inl hunit
    | quantita => exact Or.inl hquantity
    | costoTotale => exact Or.inl htotal
    | _ => exact Or.inl rfl
  rw [← Bool.not_eq_true, row_encodes_iff]
  simp only [List.mem_cons, List.not_mem_nil, or_false, exists_eq_or_imp, exists_eq_left, ← hcode_iff,
    ← hdescription_iff, ← hnote_iff]
  constructor
  · intro hno
    obtain ⟨c, hc⟩ := not_forall.mp hno
    rw [Bool.not_eq_true] at hc
    rcases hcells c with hencodes | rfl | rfl | rfl
    · rw [hencodes] at hc
      cases hc
    · exact Or.inl hc
    · exact Or.inr (Or.inl hc)
    · exact Or.inr (Or.inr hc)
  · rintro hhalf hall
    rcases hhalf with hhalf | hhalf | hhalf
    · exact Bool.false_ne_true (hhalf.symm.trans (hall .codiceComponente))
    · exact Bool.false_ne_true (hhalf.symm.trans (hall .descrizione))
    · exact Bool.false_ne_true (hhalf.symm.trans (hall .nota))

variable {l : Literals} {language : Language}

/-- The rows of the components stand for them, one for one. -/
theorem rows_of_dicts {dicts : List (List (Piece × Tree))} {id : Int} {rows : List Row}
    (h : ∀ entries ∈ dicts, readable (l.givenLeaf language) (.dict entries) = true)
    (h' : ∀ entries ∈ dicts, readable l.pythonLeaf (.dict (mapEntries replaceNull entries)) = true)
    (hrows : componentRows py caller projects id
      (dicts.map (fun entries => some (l.component l.pythonLeaf (mapEntries replaceNull entries)))) =
        .ok rows) :
    List.Forall₂ (fun entries row =>
      (Stores (l.component (l.givenLeaf language) entries) row ↔ Kept py l language entries) ∧
      (row.encodes = false ↔ HalfText l language entries)) dicts rows := by
  induction dicts generalizing id rows with
  | nil =>
    cases hrows
    exact .nil
  | cons entries dicts ih =>
    rw [List.forall_mem_cons] at h h'
    obtain ⟨component, row, rest, hcomponent, hrow, hrest, rfl⟩ := component_rows_cons hrows
    cases hcomponent
    have hrewritten := component_rewritten h.1 h'.1
    refine .cons ⟨?_, row_half_iff hrewritten hrow⟩ (ih h.2 h'.2 hrest)
    rw [row_stores_iff hrewritten hrow]
    exact ⟨fun ⟨htexts, hunit, hquantity⟩ => ⟨htexts, hunit, hquantity⟩,
      fun hkept => ⟨hkept.texts, hkept.unitCost, hkept.quantity⟩⟩

theorem saved_dicts_iff {dicts : List (List (Piece × Tree))} {rows : List Row}
    (h : List.Forall₂ (fun entries row =>
      (Stores (l.component (l.givenLeaf language) entries) row ↔ Kept py l language entries) ∧
      (row.encodes = false ↔ HalfText l language entries)) dicts rows) :
    ((∀ row ∈ rows, row.encodes = true) ∧
        List.Forall₂ Stores (dicts.map (l.component (l.givenLeaf language))) rows) ↔
      ∀ entries ∈ dicts, Kept py l language entries ∧ ¬ HalfText l language entries := by
  induction h with
  | nil => exact iff_of_true ⟨nofun, .nil⟩ nofun
  | @cons entries row dicts rows hrow _ ih =>
    rw [List.map_cons, List.forall₂_cons, List.forall_mem_cons, List.forall_mem_cons, ← ih, hrow.1,
      ← hrow.2, Bool.not_eq_false]
    tauto

end Rows

/-! ### Batches -/

theorem lex_replaced {text : List Char} {pieces : List Piece} (h : lex text = some pieces) :
    lex (replaceNull text) = some (pieces.map (Piece.map replaceNull)) := by
  obtain ⟨rfl, hlayout⟩ := lex_layout h
  have hletters : ∀ c ∈ nullText ++ noneText, isWordChar c = true ∧ c ≠ '\\' := by decide +kernel
  have hold : ∀ c ∈ nullText, isWordChar c = true := fun c hc => (hletters c (List.mem_append_left _ hc)).1
  have hreplace : replaceAll nullText noneText (textOf pieces) =
      textOf (pieces.map (Piece.map (replaceAll nullText noneText))) :=
    replace_layout (by decide) hold hlayout
  rw [replaceNull, hreplace]
  apply lex_text
  apply layout_map _ _ hlayout
  · intro w hw hchars
    refine ⟨replace_ne_nil (by decide) (by decide) hw, ?_⟩
    intro c hc
    rcases mem_replace (by decide) hc with hc | hc
    · exact (hletters c (List.mem_append_right _ hc)).1
    · exact hchars c hc
  · intro quote body hquote hclosed
    apply closed_replace (by decide) (by decide) _ hclosed
    intro c hc
    refine ⟨?_, (hletters c hc).2⟩
    rintro rfl
    have hno := quote_not_word hquote
    rw [(hletters c hc).1] at hno
    cases hno

variable {l : Literals} {language : Language} {text : List Char} {dicts : List (List (Piece × Tree))}

/-- After the replacement Python reads the same dictionaries, but for what stands in them. -/
theorem literal_eval_replaced (h : l.Given language text dicts) :
    l.literalEval (replaceNull text) =
      if ∀ entries ∈ dicts, readable l.pythonLeaf (.dict (mapEntries replaceNull entries)) = true then
        .components
          (dicts.map (fun entries => some (l.component l.pythonLeaf (mapEntries replaceNull entries))))
      else .unreadable (l.message (replaceNull text)) := by
  obtain ⟨pieces, hpieces, htree⟩ := Option.bind_eq_some_iff.mp h.read
  have hparse : (lex (replaceNull text)).bind (parse true) =
      some (.list (dicts.map (fun entries => .dict (mapEntries replaceNull entries)))) := by
    rw [lex_replaced hpieces, Option.bind_some, parse_map, htree, Option.map_some, Base.Tree.map, map_items,
      List.map_map]
    rfl
  have hreadable : readable l.pythonLeaf
      (.list (dicts.map (fun entries => .dict (mapEntries replaceNull entries)))) = true ↔
      ∀ entries ∈ dicts, readable l.pythonLeaf (.dict (mapEntries replaceNull entries)) = true := by
    rw [readable, Base.Tree.all, all_items, List.forall_mem_map]
    rfl
  rw [Literals.literalEval, hparse]
  dsimp only
  rw [List.map_map]
  exact if_congr hreadable rfl rfl

variable (py : Python) (caller : Caller) (tables : Tables)

/-- What a batch leaves in the file, and how the call ends. -/
theorem saved_batch (hread : ∀ row ∈ tables.todos, row.encodes = true) {list : List (Option Component)}
    {rows : List Row} (hrows : componentRows py caller tables.projects (nextId tables.todos) list = .ok rows) :
    tables.written (addComponent py caller tables (.components list)).2 =
        { tables with todos := tables.todos ++ encoded rows } ∧
      (addComponent py caller tables (.components list)).1 =
        if rows.all Row.encodes then .ok (.componentsAdded (rows.map Row.added))
        else .error "UnicodeEncodeError" := by
  have hresult : addComponent py caller tables (.components list) =
      saveAndReply (.componentsAdded (rows.map Row.added)) {} (tables.todos ++ rows) := by
    rw [addComponent, hrows]
  rw [hresult, saveAndReply, List.all_append, List.all_eq_true.mpr hread, Bool.true_and,
    ← encoded_append hread]
  exact ⟨rfl, rfl⟩

/-- A batch is saved where its rows can be, or the first of them cannot. -/
theorem saved_batch_iff (hread : ∀ row ∈ tables.todos, row.encodes = true) {components : List Component}
    {list : List (Option Component)} {rows : List Row}
    (hrows : componentRows py caller tables.projects (nextId tables.todos) list = .ok rows) :
    AllOrNothing tables components (addComponent py caller tables (.components list)) ↔
      (∃ row ∈ rows.head?, row.encodes = false) ∨
      (∀ row ∈ rows, row.encodes = true) ∧ List.Forall₂ Stores components rows := by
  obtain ⟨htables, hreply⟩ := saved_batch py caller tables hread hrows
  rw [AllOrNothing, htables, hreply]
  by_cases hall : ∀ row ∈ rows, row.encodes = true
  · rw [if_pos (List.all_eq_true.mpr hall), encoded_all hall]
    constructor
    · rintro (⟨_, hno⟩ | ⟨rows', _, htodos, hstored, _⟩)
      · exact absurd rfl (hno _)
      · have hsame : tables.todos ++ rows = tables.todos ++ rows' := congrArg Tables.todos htodos
        rw [List.append_cancel_left hsame]
        exact Or.inr ⟨List.append_cancel_left hsame ▸ hall, hstored⟩
    · rintro (⟨row, hrow, hhalf⟩ | ⟨_, hstored⟩)
      · rw [hall row (List.mem_of_mem_head? hrow)] at hhalf
        cases hhalf
      · obtain ⟨hnodup, hfrom⟩ := component_rows_ids hrows
        refine Or.inr ⟨rows, rfl, rfl, hstored, hnodup, ?_⟩
        intro row hrow hold
        have hold' := next_id_fresh tables.todos row.id hold
        have hnew := hfrom row.id (List.mem_map_of_mem hrow)
        omega
  · rw [if_neg (fun hencodes => hall (List.all_eq_true.mp hencodes))]
    cases rows with
    | nil => exact absurd (fun _ hrow => absurd hrow List.not_mem_nil) hall
    | cons row rows =>
      by_cases hrow : row.encodes = true
      · rw [encoded, List.takeWhile_cons_of_pos hrow]
        refine iff_of_false ?_ ?_
        · rintro (⟨htodos, _⟩ | ⟨_, hsaved, _⟩)
          · have hlength := congrArg (fun t : Tables => t.todos.length) htodos
            simp at hlength
          · cases hsaved
        · rintro (⟨_, ⟨rfl⟩, hhalf⟩ | ⟨hsaved, _⟩)
          · exact Bool.false_ne_true (hhalf.symm.trans hrow)
          · exact hall hsaved
      · rw [encoded, List.takeWhile_cons_of_neg hrow, List.append_nil]
        rw [Bool.not_eq_true] at hrow
        exact iff_of_true (Or.inl ⟨rfl, fun _ hreply => by cases hreply⟩) (Or.inl ⟨row, rfl, hrow⟩)

theorem refused_batch {components : List Component} {list : List (Option Component)}
    {e : Except String Reply}
    (h : componentRows py caller tables.projects (nextId tables.todos) list = .error e) :
    AllOrNothing tables components (addComponent py caller tables (.components list)) ∧
      RefusedInput py tables.projects (.components list) := by
  constructor
  · rw [addComponent, h]
    exact Or.inl ⟨rfl, component_rows_error h⟩
  · by_contra hno
    obtain ⟨rows, hrows⟩ :
        ∃ rows, componentRows py caller tables.projects (nextId tables.todos) list = .ok rows :=
      (component_rows_refused list (nextId tables.todos)).mpr hno
    rw [h] at hrows
    cases hrows

/-- Texts with integers. -/
def Literals.plain : Literals where
  number w := (readInt? w).map .int
  repr _ := ""
  message _ := "malformed node or string"
  number_no_text := by
    intro w v h
    obtain ⟨n, _, rfl⟩ := Option.map_eq_some_iff.mp h
    rfl
  number_letters := by
    intro w v h c hc
    obtain ⟨n, hn, _⟩ := Option.map_eq_some_iff.mp h
    rcases read_int_chars hn hc with hdigit | rfl
    · intro hmem
      have hno : ∀ c ∈ ['N', 's', 'u'], c.isDigit = false := by decide +kernel
      rw [hno c hmem] at hdigit
      cases hdigit
    · decide

/-- One component with the description as it stands in the string. -/
def billItem (description : String) : List Char :=
  "\x7b\"project_name\": \"streamair\", \"component_code\": \"VT-2020\", \"description\": \"".toList ++
    description.toList ++ "\", \"unit_cost\": 12, \"quantity\": 10, \"note\": null\x7d".toList

def bill (descriptions : List String) : List Char :=
  '[' :: ([',', ' '].intercalate (descriptions.map billItem) ++ [']'])

def quotedText (s : String) : Piece := .quoted '"' s.toList

def billEntries (description : String) : List (Piece × Tree) :=
  [(quotedText "project_name", .leaf (quotedText "streamair")),
    (quotedText "component_code", .leaf (quotedText "VT-2020")),
    (quotedText "description", .leaf (quotedText description)),
    (quotedText "unit_cost", .leaf (.word ['1', '2'])),
    (quotedText "quantity", .leaf (.word ['1', '0'])),
    (quotedText "note", .leaf (.word nullText))]

def streamair : Tables := ⟨some [["streamair", "alice"]], []⟩

set_option maxRecDepth 4000 in
theorem valve_bill_given :
    Literals.plain.Given .json (bill ["Valvola VT-2020"]) [billEntries "Valvola VT-2020"] where
  read := rfl
  leaves := by decide

theorem valve_bill_kept : Kept .plain .plain .json (billEntries "Valvola VT-2020") where
  texts := by
    intro name hname
    simp only [textFields, List.mem_cons, List.not_mem_nil, or_false] at hname
    rcases hname with rfl | rfl | rfl | rfl
    · rintro quote body ⟨rfl, rfl⟩
      exact ⟨by decide, by decide⟩
    · rintro quote body ⟨rfl, rfl⟩
      exact ⟨by decide, by decide⟩
    · rintro quote body ⟨rfl, rfl⟩
      exact ⟨by decide, by decide⟩
    · rintro quote body ⟨⟩
  unitCost := fun _ _ => rfl
  quantity := fun _ _ => rfl

theorem valve_bill_whole : ¬ HalfText .plain .json (billEntries "Valvola VT-2020") := by
  rintro ⟨name, hname, quote, body, hfield, hhalf⟩
  simp only [List.mem_cons, List.not_mem_nil, or_false] at hname
  rcases hname with rfl | rfl | rfl
  · obtain ⟨rfl, rfl⟩ := hfield
    revert hhalf
    decide
  · obtain ⟨rfl, rfl⟩ := hfield
    revert hhalf
    decide
  · cases hfield

/-- The descriptions that are saved, if they are. -/
def savedDescriptions (result : Result) : Option (List Value) :=
  result.2.todos.map (fun rows => (encoded rows).map (fun row => row.cells .descrizione))

end CheshireCat.Components
