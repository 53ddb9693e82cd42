import CheshireCat.Base.Numeral

namespace CheshireCat.Utils
open Base

/-- A duration, in microseconds. Days are rounded down, also before the epoch. -/
structure Timedelta where
  microseconds : Int
deriving DecidableEq

def Timedelta.days (td : Timedelta) : Int := td.microseconds / 86400000000

/-- The seconds that are left of the last day. -/
def Timedelta.seconds (td : Timedelta) : Int := td.microseconds % 86400000000 / 1000000

/-- The variable of that name. -/
def Timedelta.absDelta (td : Timedelta) : List Char :=
  if td.days ≠ 0 then
    if td.days.natAbs > 7 then intText (td.days / 7) ++ " weeks".toList
    else intText td.days ++ " days".toList
  else
    let absMinutes := td.seconds.natAbs / 60
    if absMinutes > 60 then intText (absMinutes / 60 : Nat) ++ " hours".toList
    else intText absMinutes ++ " minutes".toList

def verbalTimedelta (td : Timedelta) : List Char :=
  if td.microseconds < 0 then td.absDelta ++ " ago".toList
  else td.absDelta ++ " ago".toList

/-! ### What it tells -/

inductive TimeUnit where
  | minutes
  | hours
  | days
  | weeks
deriving DecidableEq

def TimeUnit.name : TimeUnit → List Char
  | .minutes => "minutes".toList
  | .hours => "hours".toList
  | .days => "days".toList
  | .weeks => "weeks".toList

def TimeUnit.microseconds : TimeUnit → Int
  | .minutes => 60000000
  | .hours => 3600000000
  | .days => 86400000000
  | .weeks => 604800000000

def TimeUnit.named (name : List Char) : Option TimeUnit :=
  [minutes, hours, days, weeks].find? (fun unit => unit.name = name)

structure Age where
  amount : Int
  unit : TimeUnit
deriving DecidableEq

def Age.text (age : Age) : List Char := intText age.amount ++ ' ' :: age.unit.name ++ " ago".toList

/-- The duration is the age, and less than one more unit. -/
def Age.Tells (age : Age) (td : Timedelta) : Prop :=
  age.amount * age.unit.microseconds ≤ td.microseconds ∧
  td.microseconds < (age.amount + 1) * age.unit.microseconds

def readAge (text : List Char) : Option Age :=
  match text.splitOn ' ' with
  | [amount, unit, _] => (readInt? amount).bind (fun n => (TimeUnit.named unit).map (⟨n, ·⟩))
  | _ => none

@[simp] theorem named_name (unit : TimeUnit) : TimeUnit.named unit.name = some unit := by
  cases unit <;> rfl

theorem name_without_space (unit : TimeUnit) : ' ' ∉ unit.name := by
  cases unit <;> decide

/-- An age is read as it was written. -/
theorem read_age_text (age : Age) : readAge age.text = some age := by
  have hamount : ' ' ∉ intText age.amount := int_text_without (by decide) (by decide) _
  have hago : " ago".toList = ' ' :: "ago".toList := rfl
  have hsplit : age.text.splitOn ' ' = [intText age.amount, age.unit.name, "ago".toList] := by
    rw [Age.text, List.append_assoc, List.cons_append, List.splitOn_append_cons_self, hago,
      List.splitOn_append_cons_self, List.splitOn_eq_singleton hamount,
      List.splitOn_eq_singleton (name_without_space age.unit), List.splitOn_eq_singleton (by decide)]
    rfl
  simp [readAge, hsplit, read_int_text]

/-- No age has a bracket or a line break. -/
theorem age_text_without {c : Char} (hdigit : c.isDigit = false) (hminus : c ≠ '-')
    (hspace : c ≠ ' ') (halpha : c.isAlpha = false) (age : Age) : c ∉ age.text := by
  have hname : c ∉ age.unit.name ++ " ago".toList := by
    intro h
    have hall : ∀ d ∈ age.unit.name ++ " ago".toList, d = ' ' ∨ d.isAlpha = true := by
      cases age.unit <;> decide
    rcases hall c h with h | h
    · exact hspace h
    · rw [halpha] at h
      cases h
  rw [Age.text, List.append_assoc, List.mem_append, List.cons_append, List.mem_cons, not_or, not_or]
  exact ⟨int_text_without hdigit hminus _, hspace, hname⟩

/-- The unit is chosen by the size of the duration, which is rounded down to it. -/
theorem abs_delta_tells (td : Timedelta) :
    ∃ age : Age, td.absDelta = intText age.amount ++ ' ' :: age.unit.name ∧ age.Tells td := by
  rw [Timedelta.absDelta]
  by_cases hdays : td.days ≠ 0
  · rw [if_pos hdays]
    by_cases hweeks : td.days.natAbs > 7
    · refine ⟨⟨td.days / 7, .weeks⟩, if_pos hweeks, ?_⟩
      simp only [Age.Tells, TimeUnit.microseconds, Timedelta.days]
      omega
    · refine ⟨⟨td.days, .days⟩, if_neg hweeks, ?_⟩
      simp only [Age.Tells, TimeUnit.microseconds, Timedelta.days]
      omega
  · rw [if_neg hdays]
    by_cases hhours : td.seconds.natAbs / 60 > 60
    · refine ⟨⟨(td.seconds.natAbs / 60 / 60 : Nat), .hours⟩, if_pos hhours, ?_⟩
      simp only [Age.Tells, TimeUnit.microseconds, Timedelta.seconds, Timedelta.days] at *
      omega
    · refine ⟨⟨(td.seconds.natAbs / 60 : Nat), .minutes⟩, if_neg hhours, ?_⟩
      simp only [Age.Tells, TimeUnit.microseconds, Timedelta.seconds, Timedelta.days] at *
      omega

theorem verbal_tells (td : Timedelta) : ∃ age : Age, verbalTimedelta td = age.text ∧ age.Tells td := by
  obtain ⟨age, htext, htells⟩ := abs_delta_tells td
  refine ⟨age, ?_, htells⟩
  have hago : verbalTimedelta td = td.absDelta ++ " ago".toList := by
    unfold verbalTimedelta
    split <;> rfl
  rw [hago, htext]
  rfl

/-- A second before, and a week and a day after. -/
example : verbalTimedelta ⟨-1000000⟩ = "-1 days ago".toList ∧
    verbalTimedelta ⟨8 * 86400000000⟩ = "1 weeks ago".toList := by decide

end CheshireCat.Utils
