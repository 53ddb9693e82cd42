import Mathlib.Data.Fintype.Pi
import Mathlib.Data.List.TakeWhile
import Mathlib.Data.Rat.Defs

namespace CheshireCat.Components

/-- A Python value as `literal_eval` or `read_csv` gives it. A float without a number is
infinite or no number, as for an empty cell. -/
inductive Value where
  | null
  | bool (b : Bool)
  | int (n : Int)
  | float (q : Option Rat)
  | str (s : String)
  /-- A string with half of a surrogate pair in it, each half shown as U+FFFD. -/
  | half (s : String)
  | other (repr : String) (hashable : Bool)
deriving DecidableEq

/-- UTF-8 has no bytes for half of a surrogate pair. -/
def Value.encodes : Value → Bool
  | .half _ => false
  | _ => true

def Value.text? : Value → Option String
  | .str s => some s
  | .half s => some s
  | _ => none

def Value.number? : Value → Option Rat
  | .int n => some n
  | .float q => q
  | _ => none

/-- The columns of `todo.csv` beside `ID`. -/
inductive Column where
  | created
  | user
  | nomeProgetto
  | codiceComponente
  | descrizione
  | costoUnitario
  | quantita
  | costoTotale
  | nota
deriving DecidableEq

def Column.all : List Column :=
  [.created, .user, .nomeProgetto, .codiceComponente, .descrizione, .costoUnitario, .quantita,
    .costoTotale, .nota]

theorem Column.mem_all (c : Column) : c ∈ Column.all := by
  cases c <;> decide

instance : Fintype Column where
  elems := Column.all.toFinset
  complete c := List.mem_toFinset.mpr c.mem_all

def Column.header : Column → String
  | .created => "created"
  | .user => "user"
  | .nomeProgetto => "nome progetto"
  | .codiceComponente => "codice componente"
  | .descrizione => "Descrizione"
  | .costoUnitario => "Costo Unitario"
  | .quantita => "Quantità"
  | .costoTotale => "Costo Totale"
  | .nota => "NOTA"

theorem Column.header_injective : Function.Injective Column.header := by
  intro c d
  cases c <;> cases d <;> decide

def Column.ofHeader? (name : String) : Option Column :=
  Column.all.find? (fun c => c.header = name)

theorem Column.ofHeader?_eq_some_iff (name : String) (c : Column) :
    Column.ofHeader? name = some c ↔ c.header = name := by
  constructor
  · intro h
    simpa using List.find?_some h
  · intro h
    cases hfind : Column.ofHeader? name with
    | none =>
      have hnone := List.find?_eq_none.mp hfind c c.mem_all
      simp [h] at hnone
    | some d =>
      have hd : d.header = name := by simpa using List.find?_some hfind
      rw [Column.header_injective (hd.trans h.symm)]

@[ext]
structure Row where
  id : Int
  cells : Column → Value

theorem row_eq_iff (row row' : Row) :
    (row.id = row'.id ∧ ∀ c, row.cells c = row'.cells c) ↔ row = row' := by
  rw [Row.ext_iff, funext_iff]

instance : DecidableEq Row := fun row row' => decidable_of_iff _ (row_eq_iff row row')

def Row.set (row : Row) (column : Column) (value : Value) : Row :=
  { row with cells := Function.update row.cells column value }

def Row.encodes (row : Row) : Bool := Column.all.all (fun c => (row.cells c).encodes)

/-- What pandas makes of the first cells of a column that is written by `to_csv` and read by `read_csv`.
They are read as numbers where they are only numbers, and a text stands for a number or a missing value
unless `isText` holds of it. -/
structure Csv where
  reread : List Value → Nat → List Value
  isText : String → Bool
  number : Value → Option Rat
  length_reread : ∀ column k, k ≤ column.length → (reread column k).length = k
  number_float : ∀ q, number (.float (some q)) = some q
  reread_texts : ∀ column k, (∀ v ∈ column.take k, ∃ s, v = .str s ∧ isText s = true) →
    reread column k = column.take k
  reread_numbers : ∀ column k, (∀ v ∈ column.take k, (number v).isSome) →
    (reread column k).map Value.number? = (column.take k).map number
  number_reread : ∀ column k, ∀ v ∈ reread column k, v.number?.isSome → number v = v.number?
  reread_encodes : ∀ column k, ∀ v ∈ reread column k, v.encodes = true

/-- The rows that `to_csv` writes: it raises at the first one that cannot be encoded. -/
def encoded (rows : List Row) : List Row := rows.takeWhile Row.encodes

/-- The rows once they are written and read again. -/
def Csv.rows (csv : Csv) (rows : List Row) : List Row :=
  (encoded rows).mapIdx (fun i row => { row with cells := fun c =>
    (csv.reread (rows.map (fun r => r.cells c)) (encoded rows).length)[i]?.getD .null })

/-- `projects.csv`, if it is there, and the rows of `todo.csv`. Without the file there are
none. -/
structure Tables where
  projects : Option (List (List String))
  todos : List Row

/-- What a call saves: the rows of the two files, where it writes them. -/
structure Saved where
  projects : Option (List (List String)) := none
  todos : Option (List Row) := none

def Tables.after (csv : Csv) (tables : Tables) (saved : Saved) : Tables where
  projects := saved.projects.or tables.projects
  todos := (saved.todos.map csv.rows).getD tables.todos

/-- The tables as they are written, before pandas reads them again. -/
def Tables.written (tables : Tables) (saved : Saved) : Tables where
  projects := saved.projects.or tables.projects
  todos := (saved.todos.map encoded).getD tables.todos

section Reread

variable (csv : Csv) (rows : List Row)

theorem encoded_sublist : (encoded rows).Sublist rows := List.takeWhile_sublist _

variable {rows} in
theorem encoded_all (h : ∀ row ∈ rows, row.encodes = true) : encoded rows = rows :=
  List.takeWhile_eq_self_iff.mpr h

variable {rows} in
theorem encoded_append (h : ∀ row ∈ rows, row.encodes = true) (rows' : List Row) :
    encoded (rows ++ rows') = rows ++ encoded rows' := List.takeWhile_append_of_pos h

theorem take_encoded {α : Type} (f : Row → α) :
    (rows.map f).take (encoded rows).length = (encoded rows).map f := by
  rw [← List.map_take]
  exact congrArg _ (List.prefix_iff_eq_take.mp (List.takeWhile_prefix _)).symm

theorem Csv.rows_ids : (csv.rows rows).map Row.id = (encoded rows).map Row.id := by
  apply List.ext_getElem
  · simp [Csv.rows]
  · intro i _ _
    simp [Csv.rows]

theorem row_encodes_iff (row : Row) : row.encodes = true ↔ ∀ c, (row.cells c).encodes = true := by
  rw [Row.encodes, List.all_eq_true]
  exact ⟨fun h c => h c c.mem_all, fun h c _ => h c⟩

theorem Csv.reread_length (c : Column) :
    (csv.reread (rows.map (fun r => r.cells c)) (encoded rows).length).length = (encoded rows).length := by
  apply csv.length_reread
  rw [List.length_map]
  exact (encoded_sublist rows).length_le

/-- A cell of a row that is read, with the row that was written in its place. -/
theorem Csv.rows_cell {i : Nat} (hi : i < (csv.rows rows).length) (c : Column)
    (hread : i < (csv.reread (rows.map (fun r => r.cells c)) (encoded rows).length).length) :
    (csv.rows rows)[i].cells c =
      (csv.reread (rows.map (fun r => r.cells c)) (encoded rows).length)[i] := by
  simp [Csv.rows, hread]

theorem Csv.encodes_rows {row : Row} (h : row ∈ csv.rows rows) : row.encodes = true := by
  obtain ⟨i, hi, rfl⟩ := List.mem_iff_getElem.mp h
  have hi' : i < (encoded rows).length := by simpa [Csv.rows] using hi
  rw [row_encodes_iff]
  intro c
  rw [csv.rows_cell rows hi c ((csv.reread_length rows c).symm ▸ hi')]
  exact csv.reread_encodes _ _ _ (List.getElem_mem _)

/-- A column of texts is read as it was written, and a column of numbers as numbers. -/
theorem Csv.mem_rows {row' : Row} (h : row' ∈ csv.rows rows) :
    ∃ row ∈ encoded rows, row'.id = row.id ∧
      (∀ c, (∀ r ∈ encoded rows, ∃ s, r.cells c = .str s ∧ csv.isText s = true) →
        row'.cells c = row.cells c) ∧
      ∀ c, (∀ r ∈ encoded rows, (csv.number (r.cells c)).isSome) →
        (row'.cells c).number? = csv.number (row.cells c) ∧
        csv.number (row'.cells c) = csv.number (row.cells c) := by
  obtain ⟨i, hi, rfl⟩ := List.mem_iff_getElem.mp h
  have hi' : i < (encoded rows).length := by simpa [Csv.rows] using hi
  refine ⟨(encoded rows)[i], List.getElem_mem hi', by simp [Csv.rows], ?_, ?_⟩
  · intro c htexts
    have hkept := csv.reread_texts (rows.map (fun r => r.cells c)) (encoded rows).length (by
      rw [take_encoded]
      simpa using htexts)
    rw [csv.rows_cell rows hi c ((csv.reread_length rows c).symm ▸ hi')]
    simp only [hkept, take_encoded, List.getElem_map]
  · intro c hnumbers
    have hkept := csv.reread_numbers (rows.map (fun r => r.cells c)) (encoded rows).length (by
      rw [take_encoded]
      simpa using hnumbers)
    have hget := congrArg (fun column : List (Option Rat) => column[i]?) hkept
    simp only [take_encoded, List.getElem?_map, csv.reread_length, hi', getElem?_pos,
      Option.map_some, Option.some.injEq] at hget
    rw [csv.rows_cell rows hi c ((csv.reread_length rows c).symm ▸ hi')]
    refine ⟨hget, ?_⟩
    rw [← hget]
    apply csv.number_reread _ _ _ (List.getElem_mem _)
    rw [hget]
    exact hnumbers _ (List.getElem_mem hi')

/-- Rows that are read from a file can be encoded, so they can after a call. -/
theorem after_encodes {tables : Tables} (h : ∀ row ∈ tables.todos, row.encodes = true) (saved : Saved) :
    ∀ row ∈ (tables.after csv saved).todos, row.encodes = true := by
  unfold Tables.after
  cases saved.todos with
  | none => exact h
  | some rows => exact fun row hrow => csv.encodes_rows rows hrow

end Reread

end CheshireCat.Components
