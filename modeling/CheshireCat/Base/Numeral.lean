import Mathlib.Data.Rat.Defs

namespace CheshireCat.Base

/-! ### Numbers as text -/

def intText : Int → List Char
  | .ofNat n => Nat.toDigits 10 n
  | .negSucc n => '-' :: Nat.toDigits 10 (n + 1)

def readNat? (l : List Char) : Option Nat :=
  if l ≠ [] ∧ l.all Char.isDigit then some (Nat.ofDigitChars 10 l 0) else none

def readInt? : List Char → Option Int
  | '-' :: l => (readNat? l).map (fun n : Nat => -(n : Int))
  | l => (readNat? l).map (fun n : Nat => (n : Int))

/-- A rational number that is no integer is written as a fraction. -/
def ratText (q : Rat) : List Char :=
  if q.den = 1 then intText q.num ++ ['.', '0'] else intText q.num ++ '/' :: Nat.toDigits 10 q.den

def readRat? (l : List Char) : Option Rat :=
  match l.splitOn '/' with
  | [whole] =>
    match whole.splitOn '.' with
    | [n, ['0']] => (readInt? n).map (fun n : Int => (n : Rat))
    | _ => none
  | [num, den] => (readInt? num).bind (fun n => (readNat? den).map (fun d => mkRat n d))
  | _ => none

/-- The characters of the numbers. -/
def isNumeral (c : Char) : Bool := c.isDigit || c = '-' || c = '.' || c = '/'

theorem digits_are_digits {n : Nat} {c : Char} (h : c ∈ Nat.toDigits 10 n) : c.isDigit = true :=
  Nat.isDigit_of_mem_toDigits (by decide) (by decide) h

theorem read_nat_digits (n : Nat) : readNat? (Nat.toDigits 10 n) = some n := by
  have hdigits : (Nat.toDigits 10 n).all Char.isDigit = true :=
    List.all_eq_true.mpr (fun c hc => digits_are_digits hc)
  rw [readNat?, if_pos ⟨Nat.toDigits_ne_nil, hdigits⟩, Nat.ofDigitChars_toDigits (by decide) (by decide)]

theorem read_int_chars {w : List Char} {n : Int} (h : readInt? w = some n) {c : Char} (hc : c ∈ w) :
    c.isDigit = true ∨ c = '-' := by
  have hdigits {l : List Char} {k : Nat} (hl : readNat? l = some k) (hmem : c ∈ l) : c.isDigit = true := by
    unfold readNat? at hl
    split at hl
    · rename_i hall
      exact List.all_eq_true.mp hall.2 c hmem
    · cases hl
  unfold readInt? at h
  split at h
  · obtain ⟨k, hk, _⟩ := Option.map_eq_some_iff.mp h
    rcases List.mem_cons.mp hc with rfl | hc
    · exact Or.inr rfl
    · exact Or.inl (hdigits hk hc)
  · obtain ⟨k, hk, _⟩ := Option.map_eq_some_iff.mp h
    exact Or.inl (hdigits hk hc)

theorem int_text_chars {n : Int} {c : Char} (h : c ∈ intText n) : c.isDigit = true ∨ c = '-' := by
  cases n with
  | ofNat n => exact Or.inl (digits_are_digits h)
  | negSucc n =>
    rcases List.mem_cons.mp h with rfl | h
    · exact Or.inr rfl
    · exact Or.inl (digits_are_digits h)

theorem int_text_ne_nil (n : Int) : intText n ≠ [] := by
  cases n with
  | ofNat n => exact Nat.toDigits_ne_nil
  | negSucc n => exact List.cons_ne_nil _ _

theorem read_int_text (n : Int) : readInt? (intText n) = some n := by
  cases n with
  | ofNat n =>
    have hhead : ∀ l, Nat.toDigits 10 n ≠ '-' :: l := by
      intro l hl
      have hdigit := digits_are_digits (n := n) (c := '-') (hl ▸ List.mem_cons_self)
      cases hdigit
    rw [intText, readInt?]
    · rw [read_nat_digits]
      rfl
    · exact hhead
  | negSucc n =>
    rw [intText, readInt?, read_nat_digits]
    rfl

theorem int_text_without {c : Char} (hdigit : c.isDigit = false) (hminus : c ≠ '-') (n : Int) :
    c ∉ intText n := by
  intro h
  rcases int_text_chars h with hc | hc
  · rw [hdigit] at hc
    cases hc
  · exact hminus hc

theorem read_rat_text (q : Rat) : readRat? (ratText q) = some q := by
  unfold readRat?
  by_cases hden : q.den = 1
  · rw [ratText, if_pos hden]
    have hslash : '/' ∉ intText q.num ++ ['.', '0'] := by
      simp [int_text_without (c := '/') (by decide) (by decide)]
    have hdot : (intText q.num ++ ['.', '0']).splitOn '.' = [intText q.num, ['0']] := by
      rw [List.splitOn_append_cons_self,
        List.splitOn_eq_singleton (int_text_without (by decide) (by decide) _)]
      rfl
    rw [List.splitOn_eq_singleton hslash]
    simp only [hdot, read_int_text, Option.map_some, Option.some.injEq]
    exact Rat.ext rfl hden.symm
  · rw [ratText, if_neg hden]
    have hslash : '/' ∉ Nat.toDigits 10 q.den := by
      intro h
      cases digits_are_digits h
    rw [List.splitOn_append_cons_self,
      List.splitOn_eq_singleton (int_text_without (by decide) (by decide) _),
      List.splitOn_eq_singleton hslash]
    simp only [List.cons_append, List.nil_append, read_int_text, read_nat_digits, Option.bind_some,
      Option.map_some, Rat.mkRat_self]

theorem int_text_numeral (n : Int) : (intText n).all isNumeral = true := by
  rw [List.all_eq_true]
  intro c hc
  rcases int_text_chars hc with hc | hc <;> simp [isNumeral, hc]

theorem rat_text_numeral (q : Rat) : (ratText q).all isNumeral = true := by
  unfold ratText
  split
  · rw [List.all_append, int_text_numeral]
    decide
  · rw [List.all_append, List.all_cons, int_text_numeral, List.all_eq_true.mpr]
    · decide
    · intro c hc
      simp [isNumeral, digits_are_digits hc]

theorem rat_text_ne_nil (q : Rat) : ratText q ≠ [] := by
  unfold ratText
  split
  · exact List.append_ne_nil_of_left_ne_nil (int_text_ne_nil _) _
  · exact List.append_ne_nil_of_left_ne_nil (int_text_ne_nil _) _

theorem digit_mem {c : Char} (h : c.isDigit = true) :
    c ∈ ['0', '1', '2', '3', '4', '5', '6', '7', '8', '9'] := by
  have hall : ∀ d < 10, Char.ofNat (48 + d) ∈ ['0', '1', '2', '3', '4', '5', '6', '7', '8', '9'] := by decide
  simp only [Char.isDigit, Bool.and_eq_true, decide_eq_true_eq, UInt32.le_iff_toNat_le] at h
  have hlow : 48 ≤ c.toNat := h.1
  have hhigh : c.toNat ≤ 57 := h.2
  have hc := hall (c.toNat - 48) (by omega)
  rw [Nat.add_sub_cancel' hlow, Char.ofNat_toNat] at hc
  exact hc

theorem numeral_mem {c : Char} (h : isNumeral c = true) :
    c ∈ ['0', '1', '2', '3', '4', '5', '6', '7', '8', '9', '-', '.', '/'] := by
  simp only [isNumeral, Bool.or_eq_true, decide_eq_true_eq] at h
  rcases h with ((h | rfl) | rfl) | rfl
  · exact List.mem_append_left ['-', '.', '/'] (digit_mem h)
  · decide
  · decide
  · decide

/-- A fraction is not read as an integer. -/
theorem read_int_rat (q : Rat) : readInt? (ratText q) = none := by
  have hmark : '.' ∈ ratText q ∨ '/' ∈ ratText q := by
    unfold ratText
    split
    · exact Or.inl (List.mem_append_right _ (by decide))
    · exact Or.inr (List.mem_append_right _ List.mem_cons_self)
  cases h : readInt? (ratText q) with
  | none => rfl
  | some n => rcases hmark with hc | hc <;> rcases read_int_chars h hc with hno | hno <;> cases hno

end CheshireCat.Base
