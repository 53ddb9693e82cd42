import CheshireCat.Base.Numeral

/-! The proleptic Gregorian calendar, and texts that end in numerals. -/

namespace CheshireCat.Base.Calendar

/-! ### Places in blocks -/

/-- The block that holds item `n`, counted from the start of block `k`, and its place there.
The last block, `k + fuel`, has no end. -/
def locate (len : Nat → Nat) : (fuel k n : Nat) → Nat × Nat
  | 0, k, n => (k, n)
  | fuel + 1, k, n => if n < len k then (k, n) else locate len fuel (k + 1) (n - len k)

theorem locate_le (len : Nat → Nat) (fuel k n : Nat) : k ≤ (locate len fuel k n).1 := by
  induction fuel generalizing k n with
  | zero => simp [locate]
  | succ fuel ih =>
    unfold locate
    split
    · simp
    · have := ih (k + 1) (n - len k)
      omega

/-- Different items have different places. -/
theorem locate_inj {len : Nat → Nat} {fuel k n m : Nat}
    (h : locate len fuel k n = locate len fuel k m) : n = m := by
  induction fuel generalizing k n m with
  | zero => simpa [locate] using h
  | succ fuel ih =>
    have hnext (i : Nat) : k < (locate len fuel (k + 1) i).1 := locate_le len fuel (k + 1) i
    unfold locate at h
    split at h <;> split at h
    · simpa using h
    · have := congrArg Prod.fst h ▸ hnext (m - len k)
      simp at this
    · have := congrArg Prod.fst h ▸ hnext (n - len k)
      simp at this
    · have := ih h
      omega

/-! ### Dates -/

structure Date where
  year : Nat
  month : Nat
  day : Nat
deriving DecidableEq

def isLeap (year : Nat) : Bool := year % 4 = 0 && (year % 100 ≠ 0 || year % 400 = 0)

def daysInYear (year : Nat) : Nat := if isLeap year then 366 else 365

/-- The months are counted from 1. -/
def daysInMonth (leap : Bool) (month : Nat) : Nat :=
  [31, if leap then 29 else 28, 31, 30, 31, 30, 31, 31, 30, 31, 30, 31].getD (month - 1) 0

/-- The years go from 1 to 9999. -/
def maxYear : Nat := 9999

/-- The date that is `n` days after January 1 of year 1. -/
def dateOf (n : Nat) : Date :=
  let year := locate daysInYear (maxYear - 1) 1 n
  let month := locate (daysInMonth (isLeap year.1)) 11 1 year.2
  ⟨year.1, month.1, month.2 + 1⟩

theorem dateOf_inj {n m : Nat} (h : dateOf n = dateOf m) : n = m := by
  simp only [dateOf, Date.mk.injEq, Nat.add_right_cancel_iff] at h
  obtain ⟨hyear, hmonth, hday⟩ := h
  rw [hyear] at hmonth hday
  exact locate_inj (Prod.ext hyear (locate_inj (Prod.ext hmonth hday)))

example : dateOf 738885 = ⟨2024, 1, 1⟩ := by decide +kernel

/-! ### Numerals at the end of a text -/

/-- The numeral with zeros in front, of at least the given width. -/
def padded (width n : Nat) : List Char := (Nat.toDigits 10 n).leftpad width '0'

theorem padded_digits {width n : Nat} {c : Char} (h : c ∈ padded width n) : c.isDigit = true := by
  rcases List.mem_append.mp h with hzero | hdigit
  · exact (List.eq_of_mem_replicate hzero) ▸ rfl
  · exact digits_are_digits hdigit

theorem padded_inj {width n m : Nat} (h : padded width n = padded width m) : n = m := by
  have hread (k : Nat) : Nat.ofDigitChars 10 (padded width k) 0 = k := by
    simp [padded, List.leftpad, Nat.ofDigitChars_append, Nat.ofDigitChars_replicate_zero,
      Nat.ofDigitChars_ten_toDigits]
  rw [← hread n, h, hread m]

section Tails
variable {α : Type} {p : α → Bool} {l l' a a' : List α} {s s' : α}

/-- What stands behind the last mark of a list is told from the rest. -/
theorem tail_unique (ha : ∀ c ∈ a, p c = true) (ha' : ∀ c ∈ a', p c = true)
    (hs : p s = false) (hs' : p s' = false) (h : l ++ s :: a = l' ++ s' :: a') :
    l = l' ∧ s = s' ∧ a = a' := by
  rcases List.append_eq_append_iff.mp h with ⟨m, hm, htail⟩ | ⟨m, hm, htail⟩
  · cases m with
    | nil => simp_all
    | cons x m =>
      have hmem : s' ∈ a := by simp [List.cons.inj htail]
      simp [ha s' hmem] at hs'
  · cases m with
    | nil => simp_all
    | cons x m =>
      have hmem : s ∈ a' := by simp [List.cons.inj htail]
      simp [ha' s hmem] at hs

end Tails

theorem padded_unique {l l' : List Char} {mark : Char} {width n m : Nat}
    (hmark : mark.isDigit = false) (h : l ++ mark :: padded width n = l' ++ mark :: padded width m) :
    l = l' ∧ n = m := by
  obtain ⟨hl, _, hpadded⟩ :=
    tail_unique (p := Char.isDigit) (fun _ => padded_digits) (fun _ => padded_digits) hmark hmark h
  exact ⟨hl, padded_inj hpadded⟩

/-- Integers behind a dash are told from texts that do not end in one. -/
theorem int_unique {l l' : List Char} {n m : Int} (hl : l.getLast? ≠ some '-')
    (hl' : l'.getLast? ≠ some '-') (h : l ++ '-' :: intText n = l' ++ '-' :: intText m) :
    l = l' ∧ n = m := by
  have hdigits {k : Nat} : ∀ c ∈ Nat.toDigits 10 k, c.isDigit = true := fun _ => digits_are_digits
  have hread {k j : Nat} (hkj : Nat.toDigits 10 k = Nat.toDigits 10 j) : k = j := by
    rw [← Nat.ofDigitChars_ten_toDigits (n := k), hkj, Nat.ofDigitChars_ten_toDigits]
  cases n with
  | ofNat n =>
    cases m with
    | ofNat m =>
      obtain ⟨hll, _, hnm⟩ := tail_unique (p := Char.isDigit) hdigits hdigits rfl rfl h
      exact ⟨hll, by rw [hread hnm]⟩
    | negSucc m =>
      have h' : l ++ '-' :: Nat.toDigits 10 n = (l' ++ ['-']) ++ '-' :: Nat.toDigits 10 (m + 1) := by
        simpa [intText] using h
      obtain ⟨hll, _⟩ := tail_unique (p := Char.isDigit) hdigits hdigits rfl rfl h'
      simp [hll] at hl
  | negSucc n =>
    cases m with
    | ofNat m =>
      have h' : (l ++ ['-']) ++ '-' :: Nat.toDigits 10 (n + 1) = l' ++ '-' :: Nat.toDigits 10 m := by
        simpa [intText] using h
      obtain ⟨hll, _⟩ := tail_unique (p := Char.isDigit) hdigits hdigits rfl rfl h'
      simp [← hll] at hl'
    | negSucc m =>
      have h' : (l ++ ['-']) ++ '-' :: Nat.toDigits 10 (n + 1) =
          (l' ++ ['-']) ++ '-' :: Nat.toDigits 10 (m + 1) := by
        simpa [intText] using h
      obtain ⟨hll, _, hnm⟩ := tail_unique (p := Char.isDigit) hdigits hdigits rfl rfl h'
      have := hread hnm
      exact ⟨by simpa using hll, by rw [Nat.succ.inj this]⟩

/-! ### Points in time -/

/-- A point in time by its microseconds since the start of year 1. -/
structure DateTime where
  microseconds : Nat
deriving DecidableEq

def DateTime.second (t : DateTime) : Nat := t.microseconds / 1000000

/-- `text` and behind it the time, as `-%m/%d/%Y-%H:%M:%S`, with the year as it is. -/
def DateTime.behind (text : List Char) (t : DateTime) : List Char :=
  let date := dateOf (t.second / 86400)
  let seconds := t.second % 86400
  let day := ((text ++ '-' :: padded 2 date.month) ++ '/' :: padded 2 date.day) ++ '/' :: padded 1 date.year
  ((day ++ '-' :: padded 2 (seconds / 3600)) ++ ':' :: padded 2 (seconds / 60 % 60)) ++
    ':' :: padded 2 (seconds % 60)

theorem DateTime.behind_inj {text text' : List Char} {t t' : DateTime}
    (h : t.behind text = t'.behind text') : text = text' ∧ t.second = t'.second := by
  obtain ⟨h, hsecond⟩ := padded_unique rfl h
  obtain ⟨h, hminute⟩ := padded_unique rfl h
  obtain ⟨h, hhour⟩ := padded_unique rfl h
  obtain ⟨h, hyear⟩ := padded_unique rfl h
  obtain ⟨h, hday⟩ := padded_unique rfl h
  obtain ⟨h, hmonth⟩ := padded_unique rfl h
  have hdate := dateOf_inj (show dateOf (t.second / 86400) = dateOf (t'.second / 86400) by
    cases hd : dateOf (t.second / 86400)
    cases hd' : dateOf (t'.second / 86400)
    simp_all)
  exact ⟨h, by omega⟩

end CheshireCat.Base.Calendar
