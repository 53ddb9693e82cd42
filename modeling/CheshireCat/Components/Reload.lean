import CheshireCat.Base.Numeral
import CheshireCat.Components.Table

namespace CheshireCat.Components
open Base

/-- The texts of numbers in a csv file, and the texts that `read_csv` takes for a missing value,
a number or a boolean. A float without a number is infinite. A number need not be read as the one that
was written: the default parser is not exact to the last digit. -/
structure Pandas where
  integerText : Int → String
  floatText : Option Rat → String
  missing : String → Bool
  integer : String → Option Int
  number : String → Option (Option Rat)
  boolean : String → Option Bool
  empty_missing : missing "" = true
  integer_number : ∀ s n, integer s = some n → number s = some (some (n : Rat))
  number_present : ∀ s q, number s = some (some q) → missing s = false

namespace Pandas

variable (p : Pandas)

/-- A cell of a column of objects. -/
def text : Value → String
  | .null => ""
  | .bool b => if b then "True" else "False"
  | .int n => p.integerText n
  | .float q => p.floatText q
  | .str s => s
  | .half s => s
  | .other repr _ => repr

def isFloat : Value → Bool
  | .float _ => true
  | _ => false

/-- A column as `to_csv` writes it. With one float, a column of numbers is one of floats. -/
def write (column : List Value) : List String :=
  if column.all (fun v => v.number?.isSome) && column.any isFloat then
    column.map (fun v => p.floatText v.number?)
  else column.map p.text

/-- The cells of a column of one type, where a missing value is `NaN`. -/
def cells (texts : List String) (value : String → Value) : List Value :=
  texts.map (fun s => if p.missing s then .float none else value s)

/-- A column as `read_csv` reads it: as integers, as floats, as booleans, else as texts. -/
def read (texts : List String) : List Value :=
  let present := texts.filter (fun s => ¬ p.missing s)
  if texts.all (fun s => ¬ p.missing s && (p.integer s).isSome) then
    p.cells texts (fun s => .int ((p.integer s).getD 0))
  else if present.all (fun s => (p.number s).isSome) then
    p.cells texts (fun s => .float (p.number s).join)
  else if present.all (fun s => (p.boolean s).isSome) then
    p.cells texts (fun s => .bool ((p.boolean s).getD false))
  else p.cells texts .str

/-! ### Columns of numbers -/

theorem length_write (column : List Value) : (p.write column).length = column.length := by
  unfold write
  split <;> exact List.length_map _

theorem length_read (texts : List String) : (p.read texts).length = texts.length := by
  unfold read cells
  dsimp only
  split
  · exact List.length_map _
  · split
    · exact List.length_map _
    · split <;> exact List.length_map _

/-- Texts that are all finite numbers are read as these. -/
theorem read_numbers (texts : List String) (h : ∀ s ∈ texts, ∃ q, p.number s = some (some q)) :
    (p.read texts).map Value.number? = texts.map (fun s => (p.number s).join) := by
  have hpresent : ∀ s ∈ texts, p.missing s = false := by
    intro s hs
    obtain ⟨q, hq⟩ := h s hs
    exact p.number_present s q hq
  have hnumbers : (texts.filter (fun s => ¬ p.missing s)).all (fun s => (p.number s).isSome) = true := by
    rw [List.all_eq_true]
    intro s hs
    obtain ⟨q, hq⟩ := h s (List.mem_filter.mp hs).1
    rw [hq]
    rfl
  unfold read cells
  dsimp only
  split
  · rename_i hints
    rw [List.map_map]
    apply List.map_congr_left
    intro s hs
    have hint := List.all_eq_true.mp hints s hs
    rw [Bool.and_eq_true] at hint
    obtain ⟨n, hn⟩ := Option.isSome_iff_exists.mp hint.2
    rw [Function.comp, hpresent s hs, hn, p.integer_number s n hn]
    rfl
  · rw [List.map_map]
    apply List.map_congr_left
    intro s hs
    rw [Function.comp, hpresent s hs]
    rfl

/-- What is read as finite numbers are texts of such. -/
theorem finite_texts (texts : List String) (h : ∀ v ∈ p.read texts, v.number?.isSome) :
    ∀ s ∈ texts, ∃ q, p.number s = some (some q) := by
  intro s hs
  -- the cell of the text
  have hcell {value : String → Value} (hcells : ∀ v ∈ p.cells texts value, v.number?.isSome) :
      (value s).number?.isSome := by
    have hv := hcells _ (List.mem_map_of_mem hs)
    split at hv
    · cases hv
    · exact hv
  unfold read at h
  dsimp only at h
  split at h
  · rename_i hints
    have hint := List.all_eq_true.mp hints s hs
    rw [Bool.and_eq_true] at hint
    obtain ⟨n, hn⟩ := Option.isSome_iff_exists.mp hint.2
    exact ⟨n, p.integer_number s n hn⟩
  · split at h
    · obtain ⟨q, hq⟩ := Option.isSome_iff_exists.mp (hcell h)
      exact ⟨q, Option.join_eq_some_iff.mp hq⟩
    · split at h
      · cases hcell h
      · cases hcell h

/-- Each number of a column is read from its text. -/
def KeepsNumbers (column : List Value) : Prop :=
  (p.write column).map p.number = column.map (fun v => some v.number?)

instance (column : List Value) : Decidable (p.KeepsNumbers column) :=
  inferInstanceAs (Decidable (_ = _))

/-- A column of numbers is read as it was exactly where each number is read from its text. -/
theorem numbers_read_iff {column : List Value} (h : ∀ v ∈ column, v.number?.isSome) :
    (p.read (p.write column)).map Value.number? = column.map Value.number? ↔ p.KeepsNumbers column := by
  constructor
  · intro hread
    have hfinite := p.finite_texts (p.write column) (by
      intro v hv
      have hmem : v.number? ∈ column.map Value.number? := hread ▸ List.mem_map_of_mem hv
      obtain ⟨w, hw, hsame⟩ := List.mem_map.mp hmem
      exact hsame ▸ h w hw)
    have hjoin : (p.write column).map (fun s => some (p.number s).join) = (p.write column).map p.number := by
      apply List.map_congr_left
      intro s hs
      obtain ⟨q, hq⟩ := hfinite s hs
      rw [hq, Option.join_some]
    rw [p.read_numbers _ hfinite] at hread
    have hsome := congrArg (List.map some) hread
    rw [List.map_map, List.map_map] at hsome
    exact hjoin.symm.trans hsome
  · intro hkeeps
    have hfinite : ∀ s ∈ p.write column, ∃ q, p.number s = some (some q) := by
      intro s hs
      have hmem : p.number s ∈ column.map (fun v => some v.number?) := hkeeps ▸ List.mem_map_of_mem hs
      obtain ⟨v, hv, hnumber⟩ := List.mem_map.mp hmem
      obtain ⟨q, hq⟩ := Option.isSome_iff_exists.mp (h v hv)
      exact ⟨q, by rw [← hnumber, hq]⟩
    have hjoin := congrArg (List.map Option.join) hkeeps
    rw [List.map_map, List.map_map] at hjoin
    rw [p.read_numbers _ hfinite]
    exact hjoin

/-! ### Columns of texts -/

theorem write_texts (texts : List String) : p.write (texts.map .str) = texts := by
  have hnone : (texts.map Value.str).any isFloat = false := by
    rw [List.any_map, List.any_eq_false]
    intro s _
    exact Bool.false_ne_true
  unfold write
  rw [hnone, Bool.and_false, if_neg Bool.false_ne_true, List.map_map]
  exact List.map_id texts

/-- The texts of a column are read as texts. -/
structure KeepsTexts (texts : List String) : Prop where
  present : ∀ s ∈ texts, p.missing s = false
  noNumbers : ∃ s ∈ texts, p.number s = none
  noBooleans : ∃ s ∈ texts, p.boolean s = none

theorem read_texts {texts : List String} (h : p.KeepsTexts texts) : p.read texts = texts.map .str := by
  obtain ⟨hpresent, ⟨s, hs, hnumber⟩, ⟨t, ht, hboolean⟩⟩ := h
  have hkept : texts.filter (fun s => ¬ p.missing s) = texts := by
    rw [List.filter_eq_self]
    intro s hs
    simp [hpresent s hs]
  have hints : ¬ texts.all (fun s => ¬ p.missing s && (p.integer s).isSome) = true := by
    rw [List.all_eq_true]
    intro hall
    have hint := hall s hs
    rw [Bool.and_eq_true] at hint
    obtain ⟨n, hn⟩ := Option.isSome_iff_exists.mp hint.2
    rw [p.integer_number s n hn] at hnumber
    cases hnumber
  have hnumbers : ¬ texts.all (fun s => (p.number s).isSome) = true := by
    rw [List.all_eq_true]
    intro hall
    have hsome := hall s hs
    rw [hnumber] at hsome
    cases hsome
  have hbooleans : ¬ texts.all (fun s => (p.boolean s).isSome) = true := by
    rw [List.all_eq_true]
    intro hall
    have hsome := hall t ht
    rw [hboolean] at hsome
    cases hsome
  unfold read
  dsimp only
  rw [hkept, if_neg hints, if_neg hnumbers, if_neg hbooleans, cells]
  apply List.map_congr_left
  intro s hs
  rw [hpresent s hs]
  rfl

/-- What is read of one cell as a text was one, and the column was read as texts. -/
theorem keeps_of_read {texts : List String} (hne : texts ≠ []) (h : p.read texts = texts.map .str) :
    p.KeepsTexts texts := by
  have hkept {value : String → Value} (hcells : p.cells texts value = texts.map .str) (s : String)
      (hs : s ∈ texts) : p.missing s = false ∧ value s = .str s := by
    have hcell := List.map_inj_left.mp hcells s hs
    split at hcell
    · cases hcell
    · rename_i hpresent
      exact ⟨Bool.not_eq_true _ ▸ hpresent, hcell⟩
  obtain ⟨first, hfirst⟩ := List.exists_mem_of_ne_nil texts hne
  unfold read at h
  dsimp only at h
  split at h
  · cases (hkept h first hfirst).2
  · split at h
    · cases (hkept h first hfirst).2
    · rename_i hnumbers
      split at h
      · cases (hkept h first hfirst).2
      · rename_i hbooleans
        refine ⟨fun s hs => (hkept h s hs).1, ?_, ?_⟩
        · by_contra hnone
          apply hnumbers
          rw [List.all_eq_true]
          intro s hs
          apply Option.isSome_iff_ne_none.mpr
          intro hnumber
          exact hnone ⟨s, (List.mem_filter.mp hs).1, hnumber⟩
        · by_contra hnone
          apply hbooleans
          rw [List.all_eq_true]
          intro s hs
          apply Option.isSome_iff_ne_none.mpr
          intro hboolean
          exact hnone ⟨s, (List.mem_filter.mp hs).1, hboolean⟩

/-! ### Exact numbers -/

/-- Numbers are read as they are written, as rationals are. -/
structure Exact : Prop where
  int_read : ∀ n : Int, p.number (p.integerText n) = some (some (n : Rat))
  float_read : ∀ q, p.number (p.floatText (some q)) = some (some q)

/-- The number that a cell stands for. -/
def cellNumber (v : Value) : Option Rat := (p.number (p.text v)).join

theorem cell_number (h : p.Exact) (v : Value) (hv : v.number?.isSome) : p.cellNumber v = v.number? := by
  cases v with
  | int n => exact congrArg Option.join (h.int_read n)
  | float q =>
    obtain ⟨x, hx⟩ := Option.isSome_iff_exists.mp hv
    cases (show q = some x from hx)
    exact congrArg Option.join (h.float_read x)
  | _ => cases hv

/-- What is written of the first cells, where they stand for numbers. -/
theorem write_numbers (h : p.Exact) (column : List Value) (k : Nat)
    (hcells : ∀ v ∈ column.take k, (p.cellNumber v).isSome) :
    ((p.write column).take k).map p.number = (column.take k).map (fun v => some (p.cellNumber v)) := by
  unfold write
  split
  · rename_i hfloats
    rw [Bool.and_eq_true, List.all_eq_true] at hfloats
    rw [← List.map_take, List.map_map]
    apply List.map_congr_left
    intro v hv
    have hnumber := hfloats.1 v (List.mem_of_mem_take hv)
    obtain ⟨x, hx⟩ := Option.isSome_iff_exists.mp hnumber
    rw [p.cell_number h v hnumber, hx, Function.comp, hx]
    exact h.float_read x
  · rw [← List.map_take, List.map_map]
    apply List.map_congr_left
    intro v hv
    obtain ⟨x, hx⟩ := Option.isSome_iff_exists.mp (hcells v hv)
    rw [hx]
    exact Option.join_eq_some_iff.mp hx

theorem read_write_numbers (h : p.Exact) (column : List Value) (k : Nat)
    (hcells : ∀ v ∈ column.take k, (p.cellNumber v).isSome) :
    (p.read ((p.write column).take k)).map Value.number? = (column.take k).map p.cellNumber := by
  have hwritten := p.write_numbers h column k hcells
  have hfinite : ∀ s ∈ (p.write column).take k, ∃ q, p.number s = some (some q) := by
    intro s hs
    have hmem : p.number s ∈ (column.take k).map (fun v => some (p.cellNumber v)) :=
      hwritten ▸ List.mem_map_of_mem hs
    obtain ⟨v, hv, hnumber⟩ := List.mem_map.mp hmem
    obtain ⟨q, hq⟩ := Option.isSome_iff_exists.mp (hcells v hv)
    exact ⟨q, by rw [← hnumber, hq]⟩
  have hjoin := congrArg (List.map Option.join) hwritten
  rw [List.map_map, List.map_map] at hjoin
  rw [p.read_numbers _ hfinite]
  exact hjoin

/-- A cell that is a text is written as it is, whatever the column holds. -/
theorem write_prefix (column : List Value) (k : Nat) (h : ∀ v ∈ column.take k, ∃ s, v = .str s)
    (hk : column.take k ≠ []) : (p.write column).take k = (column.take k).map p.text := by
  have hmixed : ¬ column.all (fun v => v.number?.isSome) = true := by
    intro hall
    obtain ⟨v, hv⟩ := List.exists_mem_of_ne_nil _ hk
    obtain ⟨s, rfl⟩ := h v hv
    cases List.all_eq_true.mp hall _ (List.mem_of_mem_take hv)
  rw [write, Bool.eq_false_of_not_eq_true hmixed, Bool.false_and, if_neg Bool.false_ne_true,
    List.map_take]

theorem read_encodes (texts : List String) : ∀ v ∈ p.read texts, v.encodes = true := by
  intro v hv
  have hcell {value : String → Value} (hvalue : ∀ s, (value s).encodes = true)
      (hv : v ∈ p.cells texts value) : v.encodes = true := by
    obtain ⟨s, _, rfl⟩ := List.mem_map.mp hv
    split
    · rfl
    · exact hvalue s
  unfold read at hv
  dsimp only at hv
  split at hv
  · exact hcell (fun _ => rfl) hv
  · split at hv
    · exact hcell (fun _ => rfl) hv
    · split at hv
      · exact hcell (fun _ => rfl) hv
      · exact hcell (fun _ => rfl) hv

/-- With exact numbers pandas has the properties of a table that is written and read again. -/
def csv (h : p.Exact) : Csv where
  reread column k := p.read ((p.write column).take k)
  isText s := ¬ p.missing s && (p.number s).isNone && (p.boolean s).isNone
  number := p.cellNumber
  length_reread column k hk := by
    rw [p.length_read, List.length_take, p.length_write, Nat.min_eq_left hk]
  number_float q := p.cell_number h (.float (some q)) rfl
  reread_texts column k hcells := by
    by_cases hk : column.take k = []
    · have hlength : (p.read ((p.write column).take k)).length = (column.take k).length := by
        rw [p.length_read, List.length_take, List.length_take, p.length_write]
      rw [hk] at hlength ⊢
      exact List.length_eq_zero_iff.mp hlength
    · have htexts : ((column.take k).map p.text).map .str = column.take k := by
        rw [List.map_map]
        refine (List.map_congr_left ?_).trans (List.map_id _)
        intro v hv
        obtain ⟨s, rfl, _⟩ := hcells v hv
        rfl
      have hwritten := p.write_prefix column k (fun v hv => by
        obtain ⟨s, rfl, _⟩ := hcells v hv
        exact ⟨s, rfl⟩) hk
      have htext : ∀ s ∈ (column.take k).map p.text,
          p.missing s = false ∧ p.number s = none ∧ p.boolean s = none := by
        intro s hs
        obtain ⟨v, hv, rfl⟩ := List.mem_map.mp hs
        obtain ⟨s, rfl, htext⟩ := hcells v hv
        rw [Bool.and_eq_true, Bool.and_eq_true] at htext
        have hpresent : p.missing s = false := by simpa using htext.1.1
        exact ⟨hpresent, Option.isNone_iff_eq_none.mp htext.1.2,
          Option.isNone_iff_eq_none.mp htext.2⟩
      obtain ⟨v, hv⟩ := List.exists_mem_of_ne_nil _ hk
      have hmem := List.mem_map_of_mem (f := p.text) hv
      rw [hwritten, p.read_texts ⟨fun s hs => (htext s hs).1, ⟨_, hmem, (htext _ hmem).2.1⟩,
        ⟨_, hmem, (htext _ hmem).2.2⟩⟩, htexts]
  reread_numbers column k := p.read_write_numbers h column k
  number_reread _ _ v _ hv := p.cell_number h v hv
  reread_encodes _ _ := p.read_encodes _

end Pandas

/-! ### The file -/

/-- `todo.csv`: its columns of texts. -/
structure TodoFile where
  ids : List String
  columns : Column → List String

/-- A row as `read_csv` gives it. -/
structure TodoRecord where
  id : Value
  cells : Column → Value

/-- Without rows the file is removed. Where a row cannot be encoded, the file has the rows before it. -/
def saveTodos (p : Pandas) (todos : List Row) : Option TodoFile :=
  if todos = [] then none
  else some {
    ids := (p.write (todos.map (fun row => .int row.id))).take (encoded todos).length
    columns := fun c => (p.write (todos.map (fun row => row.cells c))).take (encoded todos).length }

def getTodos (p : Pandas) : Option TodoFile → List TodoRecord
  | none => []
  | some file => (p.read file.ids).mapIdx
      (fun i id => ⟨id, fun c => (p.read (file.columns c))[i]?.getD .null⟩)

/-- Equal in Python, where an integer equals the float of its number. -/
def Value.Same (v w : Value) : Prop := v = w ∨ (v.number?.isSome ∧ v.number? = w.number?)

structure TodoRecord.Same (r : TodoRecord) (row : Row) : Prop where
  id : r.id.number? = some (row.id : Rat)
  cells : ∀ c, (r.cells c).Same (row.cells c)

/-- The columns that `add_component` fills with strings. -/
def Column.isText : Column → Bool
  | .user | .nomeProgetto | .codiceComponente | .descrizione | .nota => true
  | .created | .costoUnitario | .quantita | .costoTotale => false

/-- The fields have the types that `add_component` writes. -/
structure Row.Typed (row : Row) : Prop where
  text : ∀ c, c.isText = true → ∃ s, row.cells c = .str s ∨ row.cells c = .half s
  number : ∀ c, c.isText = false → (row.cells c).number?.isSome

/-- The texts of a column of strings. -/
def textsOf (p : Pandas) (rows : List Row) (c : Column) : List String :=
  rows.map (fun row => p.text (row.cells c))

section Reload

variable {p : Pandas} {rows : List Row}

theorem same_text_iff (v : Value) (s : String) : v.Same (.str s) ↔ v = .str s := by
  constructor
  · rintro (h | ⟨hsome, hsame⟩)
    · exact h
    · rw [hsame] at hsome
      cases hsome
  · exact Or.inl

theorem get_todos_length (hne : rows ≠ []) :
    (getTodos p (saveTodos p rows)).length = (encoded rows).length := by
  rw [saveTodos, if_neg hne, getTodos, List.length_mapIdx, p.length_read, List.length_take,
    p.length_write, List.length_map]
  exact Nat.min_eq_left (encoded_sublist rows).length_le

/-- With exact numbers, what is read of the file are the rows that a call leaves. -/
theorem get_todos_rows (h : p.Exact) (hne : rows ≠ []) :
    (getTodos p (saveTodos p rows)).map TodoRecord.cells = ((p.csv h).rows rows).map Row.cells := by
  have hlength := get_todos_length (p := p) hne
  apply List.ext_getElem
  · rw [List.length_map, List.length_map, hlength, Csv.rows, List.length_mapIdx]
  · intro i _ _
    rw [List.getElem_map, List.getElem_map]
    simp only [saveTodos, if_neg hne, getTodos, List.getElem_mapIdx, Csv.rows]
    rfl

/-- The columns of the rows that are read, cell by cell, where all are written. -/
theorem get_todos_saved (hne : rows ≠ []) (hencodes : ∀ row ∈ rows, row.encodes = true) :
    List.Forall₂ TodoRecord.Same (getTodos p (saveTodos p rows)) rows ↔
      List.Forall₂ (fun v (row : Row) => v.number? = some (row.id : Rat))
        (p.read (p.write (rows.map (fun row => .int row.id)))) rows ∧
      ∀ c, List.Forall₂ (fun v (row : Row) => v.Same (row.cells c))
        (p.read (p.write (rows.map (fun row => row.cells c)))) rows := by
  have hlength (f : Row → Value) : (p.read (p.write (rows.map f))).length = rows.length := by
    rw [p.length_read, p.length_write, List.length_map]
  have hall (f : Row → Value) : (p.write (rows.map f)).take (encoded rows).length = p.write (rows.map f) := by
    rw [encoded_all hencodes]
    exact List.take_of_length_le (by rw [p.length_write, List.length_map])
  have hcell (f : Row → Value) (i : Nat) (hi : i < rows.length) :
      (p.read (p.write (rows.map f)))[i]?.getD .null =
        (p.read (p.write (rows.map f))).get ⟨i, by rw [hlength]; exact hi⟩ := by
    rw [List.getElem?_eq_getElem (by rw [hlength]; exact hi), Option.getD_some]
    rfl
  rw [saveTodos, if_neg hne, getTodos]
  simp only [hall, List.forall₂_iff_get, List.length_mapIdx, hlength, List.get_eq_getElem,
    List.getElem_mapIdx, true_and]
  constructor
  · intro h
    refine ⟨fun i hi hi' => (h i hi hi').id, ?_⟩
    intro c i hi hi'
    have hsame := (h i hi hi').cells c
    change Value.Same ((p.read (p.write (rows.map (fun row => row.cells c))))[i]?.getD .null) _ at hsame
    rw [hcell _ i hi] at hsame
    exact hsame
  · rintro ⟨hids, hcells⟩ i hi hi'
    refine ⟨hids i hi hi', ?_⟩
    intro c
    change Value.Same ((p.read (p.write (rows.map (fun row => row.cells c))))[i]?.getD .null) _
    rw [hcell _ i hi]
    exact hcells c i hi hi'

theorem forall₂_map_iff {α β γ : Type} {f : α → γ} {g : β → γ} {l : List α} {l' : List β} :
    List.Forall₂ (fun a b => f a = g b) l l' ↔ l.map f = l'.map g := by
  rw [← List.forall₂_map_left_iff (R := fun c b => c = g b), ← List.forall₂_map_right_iff]
  exact List.forall₂_eq_eq_eq ▸ Iff.rfl

/-- A column of numbers is read as it was exactly where each number is read from its text. -/
theorem numbers_reloaded_iff (f : Row → Value) (h : ∀ row ∈ rows, (f row).number?.isSome) :
    List.Forall₂ (fun v row => v.number? = (f row).number?) (p.read (p.write (rows.map f))) rows ↔
      p.KeepsNumbers (rows.map f) := by
  have hcolumn : ∀ v ∈ rows.map f, v.number?.isSome := by
    intro v hv
    obtain ⟨row, hrow, rfl⟩ := List.mem_map.mp hv
    exact h row hrow
  rw [← p.numbers_read_iff hcolumn, List.map_map]
  exact forall₂_map_iff (f := Value.number?) (g := fun row => (f row).number?)

/-- A column of strings is read as it was exactly where its texts are. -/
theorem texts_reloaded_iff (hne : rows ≠ []) (htyped : ∀ row ∈ rows, row.Typed)
    (hencodes : ∀ row ∈ rows, row.encodes = true) {c : Column} (hc : c.isText = true) :
    List.Forall₂ (fun v (row : Row) => v.Same (row.cells c))
        (p.read (p.write (rows.map (fun row => row.cells c)))) rows ↔
      p.KeepsTexts (textsOf p rows c) := by
  have htexts : rows.map (fun row => row.cells c) = (textsOf p rows c).map .str := by
    rw [textsOf, List.map_map]
    apply List.map_congr_left
    intro row hrow
    obtain ⟨s, hs | hs⟩ := (htyped row hrow).text c hc
    · rw [Function.comp, hs]
      rfl
    · have hno := (row_encodes_iff row).mp (hencodes row hrow) c
      rw [hs] at hno
      cases hno
  rw [← List.forall₂_map_right_iff (R := Value.Same), htexts, p.write_texts, List.forall₂_map_right_iff]
  simp only [same_text_iff]
  rw [← List.forall₂_map_right_iff (R := Eq), List.forall₂_eq_eq_eq]
  exact ⟨p.keeps_of_read (fun hnil => hne (List.map_eq_nil_iff.mp hnil)), p.read_texts⟩

end Reload

/-- The texts that `read_csv` takes for a missing value. -/
def naTexts : List String :=
  ["", "#N/A", "#N/A N/A", "#NA", "-1.#IND", "-1.#QNAN", "-NaN", "-nan", "1.#IND", "1.#QNAN", "<NA>",
    "N/A", "NA", "NULL", "NaN", "n/a", "nan", "null"]

def readNumber (s : String) : Option (Option Rat) :=
  if '.' ∈ s.toList ∨ '/' ∈ s.toList then (readRat? s.toList).map some
  else (readInt? s.toList).map (fun n => some (n : Rat))

def readInteger (s : String) : Option Int :=
  if '.' ∈ s.toList ∨ '/' ∈ s.toList then none else readInt? s.toList

theorem int_text_point (n : Int) : ¬ ('.' ∈ intText n ∨ '/' ∈ intText n) := by
  rintro (h | h)
  · exact int_text_without (by decide) (by decide) n h
  · exact int_text_without (by decide) (by decide) n h

theorem rat_text_point (q : Rat) : '.' ∈ ratText q ∨ '/' ∈ ratText q := by
  unfold ratText
  split
  · exact Or.inl (by simp)
  · exact Or.inr (by simp)

theorem na_no_numbers : ∀ s ∈ naTexts, readNumber s = none := by decide +kernel

/-- pandas on plain decimals. -/
def Pandas.plain : Pandas where
  integerText n := String.ofList (intText n)
  floatText q := (q.map (fun q => String.ofList (ratText q))).getD "inf"
  missing s := s ∈ naTexts
  integer := readInteger
  number := readNumber
  boolean s := if s ∈ ["True", "TRUE", "true"] then some true
    else if s ∈ ["False", "FALSE", "false"] then some false else none
  empty_missing := by decide
  integer_number s n h := by
    unfold readInteger at h
    unfold readNumber
    split at h
    · cases h
    · rename_i hpoint
      rw [if_neg hpoint, h]
      rfl
  number_present s q h := by
    rw [decide_eq_false_iff_not]
    intro hna
    rw [na_no_numbers s hna] at h
    cases h

theorem plain_exact : Pandas.plain.Exact where
  int_read n := by
    change readNumber (String.ofList (intText n)) = _
    rw [readNumber, String.toList_ofList, if_neg (int_text_point n), read_int_text]
    rfl
  float_read q := by
    change readNumber (String.ofList (ratText q)) = _
    rw [readNumber, String.toList_ofList, if_pos (rat_text_point q), read_rat_text]
    rfl

def todo (code note : String) : Row where
  id := 1
  cells
    | .created => .float (some 1700000000)
    | .user => .str "alice"
    | .nomeProgetto => .str "streamair"
    | .codiceComponente => .str code
    | .descrizione => .str "Guarnizione EE-1010"
    | .costoUnitario => .float (some 2)
    | .quantita => .float (some 25)
    | .costoTotale => .float (some 50)
    | .nota => .str note

theorem todo_typed (code note : String) : (todo code note).Typed := by
  constructor <;> intro c hc <;> cases c <;> first | exact ⟨_, Or.inl rfl⟩ | rfl | cases hc

end CheshireCat.Components
