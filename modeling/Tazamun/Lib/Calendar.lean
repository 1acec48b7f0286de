import Mathlib.Data.Prod.Lex
import Mathlib.Algebra.Order.Group.Nat
import Mathlib.Tactic.IntervalCases

set_option autoImplicit false

/-! # The proleptic Gregorian calendar

The calendar by its definition: every fourth year is a leap year, except for the centuries that
400 does not divide, and the months have their lengths. A date's day number counts the days
since the first of January of the year 0, year by year and month by month. The calendar is also
reckoned back, before it was introduced.

Day numbers order the dates (`dayNumber_lt`), so a day has one date only (`dayNumber_injective`).
For arithmetic there are the closed forms `daysBeforeYear_eq` and `daysBeforeMonth_eq`.
-/

namespace Lib

namespace Calendar

/-! ## Years and months -/

def IsLeap (year : Nat) : Prop := year % 4 = 0 ∧ (year % 100 ≠ 0 ∨ year % 400 = 0)

instance (year : Nat) : Decidable (IsLeap year) := inferInstanceAs (Decidable (_ ∧ _))

def yearLength (year : Nat) : Nat := if IsLeap year then 366 else 365

def monthLength (year month : Nat) : Nat :=
  if month = 2 then if IsLeap year then 29 else 28
  else if month = 4 ∨ month = 6 ∨ month = 9 ∨ month = 11 then 30
  else 31

structure Date where
  year : Nat
  month : Nat
  day : Nat
deriving DecidableEq

/-- There is such a day. -/
structure Date.Valid (d : Date) : Prop where
  month_pos : 1 ≤ d.month
  month_le : d.month ≤ 12
  day_pos : 1 ≤ d.day
  day_le : d.day ≤ monthLength d.year d.month

/-! ## Counting days -/

/-- The days of the years before. -/
def daysBeforeYear : Nat → Nat
  | 0 => 0
  | year + 1 => daysBeforeYear year + yearLength year

/-- The days of the months `1, …, month - 1`. -/
def daysBeforeMonth (year : Nat) : Nat → Nat
  | 0 => 0
  | 1 => 0
  | month + 2 => daysBeforeMonth year (month + 1) + monthLength year (month + 1)

def dayNumber (d : Date) : Nat :=
  daysBeforeYear d.year + daysBeforeMonth d.year d.month + (d.day - 1)

/-- The earlier date, by year, month and day. -/
def Date.Before (a b : Date) : Prop :=
  a.year < b.year ∨
    a.year = b.year ∧ (a.month < b.month ∨ a.month = b.month ∧ a.day < b.day)

theorem Date.before_trichotomy (a b : Date) : a.Before b ∨ a = b ∨ b.Before a := by
  rcases lt_trichotomy a.year b.year with hy | hy | hy
  · exact .inl (.inl hy)
  · rcases lt_trichotomy a.month b.month with hm | hm | hm
    · exact .inl (.inr ⟨hy, .inl hm⟩)
    · rcases lt_trichotomy a.day b.day with hd | hd | hd
      · exact .inl (.inr ⟨hy, .inr ⟨hm, hd⟩⟩)
      · refine .inr (.inl ?_)
        cases a
        cases b
        cases hy
        cases hm
        cases hd
        rfl
      · exact .inr (.inr (.inr ⟨hy.symm, .inr ⟨hm.symm, hd⟩⟩))
    · exact .inr (.inr (.inr ⟨hy.symm, .inl hm⟩))
  · exact .inr (.inr (.inl hy))

/-! ## Closed forms -/

theorem daysBeforeYear_eq (year : Nat) :
    daysBeforeYear year = 365 * year + (year + 3) / 4 - (year + 99) / 100 + (year + 399) / 400 := by
  induction year with
  | zero => rfl
  | succ year ih =>
      rw [daysBeforeYear, ih, yearLength]
      by_cases hleap : IsLeap year
      · rw [if_pos hleap]
        unfold IsLeap at hleap
        omega
      · rw [if_neg hleap]
        unfold IsLeap at hleap
        omega

/-- From March on, the months before take a multiple of 153 fifths. -/
theorem daysBeforeMonth_eq (year : Nat) {month : Nat} (h₁ : 3 ≤ month) (h₂ : month ≤ 13) :
    daysBeforeMonth year month =
      (if IsLeap year then 60 else 59) + (153 * (month - 3) + 2) / 5 := by
  interval_cases month <;> simp [daysBeforeMonth, monthLength] <;> split_ifs <;> rfl

theorem daysBeforeMonth_mono (year : Nat) {m m' : Nat} (h : m ≤ m') :
    daysBeforeMonth year m ≤ daysBeforeMonth year m' := by
  induction h with
  | refl => exact le_rfl
  | step h ih =>
      rename_i k
      refine ih.trans ?_
      cases k with
      | zero => exact le_rfl
      | succ k => exact Nat.le_add_right _ _

/-- The twelve months make a year. -/
theorem daysBeforeMonth_thirteen (year : Nat) : daysBeforeMonth year 13 = yearLength year := by
  rw [daysBeforeMonth_eq year (by decide) (by decide), yearLength]
  split_ifs <;> rfl

theorem daysBeforeYear_mono {y y' : Nat} (h : y ≤ y') : daysBeforeYear y ≤ daysBeforeYear y' := by
  induction h with
  | refl => exact le_rfl
  | step h ih => exact ih.trans (Nat.le_add_right _ _)

/-! ## Years that begin with March

Counted from March, the leap day is the last of its year, and the number of days before a year
is a sum of three quotients. -/

/-- The day number of the first of March. -/
def marchFirst (year : Nat) : Nat := 365 * year + year / 4 - year / 100 + year / 400 + 60

theorem daysBeforeYear_march (year : Nat) :
    daysBeforeYear year + (if IsLeap year then 60 else 59) = marchFirst year := by
  -- what rounding up adds to the three quotients
  have hfour : (year + 3) / 4 = year / 4 + if year % 4 = 0 then 0 else 1 := by
    split_ifs <;> omega
  have hhundred : (year + 99) / 100 = year / 100 + if year % 100 = 0 then 0 else 1 := by
    split_ifs <;> omega
  have hfourHundred : (year + 399) / 400 = year / 400 + if year % 400 = 0 then 0 else 1 := by
    split_ifs <;> omega
  have hle : year / 100 ≤ year / 4 := Nat.div_le_div_left (by decide) (by decide)
  rw [daysBeforeYear_eq, marchFirst, hfour, hhundred, hfourHundred]
  generalize year / 4 = fours at hle ⊢
  generalize year / 100 = hundreds at hle ⊢
  generalize year / 400 = fourHundreds
  by_cases hleap : IsLeap year
  · rw [if_pos hleap, if_pos hleap.1]
    rcases hleap.2 with h | h
    · rw [if_neg h, if_neg (by omega)]
      omega
    · rw [if_pos (by omega), if_pos h]
      omega
  · rw [if_neg hleap]
    unfold IsLeap at hleap
    by_cases h4 : year % 4 = 0
    · rw [if_pos h4, if_pos (by omega), if_neg (by omega)]
      omega
    · rw [if_neg h4, if_neg (by omega), if_neg (by omega)]
      omega

theorem dayNumber_of_march {d : Date} (h₁ : 3 ≤ d.month) (h₂ : d.month ≤ 12) :
    dayNumber d = marchFirst d.year + (153 * (d.month - 3) + 2) / 5 + (d.day - 1) := by
  rw [dayNumber, daysBeforeMonth_eq _ h₁ (h₂.trans (by decide)), ← daysBeforeYear_march]
  omega

/-- January and February are the last two months, after 306 days. -/
theorem dayNumber_before_march {year month day : Nat} (h₁ : 1 ≤ month) (h₂ : month ≤ 2) :
    dayNumber ⟨year + 1, month, day⟩ =
      marchFirst year + 306 + 31 * (month - 1) + (day - 1) := by
  have hyear : yearLength year = (if IsLeap year then 60 else 59) + 306 := by
    rw [yearLength]
    split_ifs <;> rfl
  have hmonth : daysBeforeMonth (year + 1) month = 31 * (month - 1) := by
    interval_cases month
    · rfl
    · rfl
  rw [dayNumber, hmonth, daysBeforeYear, ← daysBeforeYear_march, hyear, Nat.add_assoc _ _ 306]

/-! ## Day numbers order the dates -/

/-- A date comes before the month that follows its own. -/
theorem daysBeforeMonth_add_day {d : Date} (h : d.Valid) :
    daysBeforeMonth d.year d.month + (d.day - 1) < daysBeforeMonth d.year (d.month + 1) := by
  obtain ⟨m, hm⟩ : ∃ m, d.month = m + 1 := ⟨d.month - 1, by have := h.month_pos; omega⟩
  have hle := h.day_le
  have hpos := h.day_pos
  rw [hm] at hle ⊢
  show _ < daysBeforeMonth d.year (m + 1) + monthLength d.year (m + 1)
  omega

/-- **Day numbers order the dates.** -/
theorem dayNumber_lt {a b : Date} (ha : a.Valid) (h : a.Before b) :
    dayNumber a < dayNumber b := by
  have hday := daysBeforeMonth_add_day ha
  unfold dayNumber
  rcases h with hy | ⟨hy, hm | ⟨hm, hd⟩⟩
  · have hyear : daysBeforeYear a.year + yearLength a.year ≤ daysBeforeYear b.year :=
      daysBeforeYear_mono hy
    have hmonth : daysBeforeMonth a.year (a.month + 1) ≤ yearLength a.year := by
      rw [← daysBeforeMonth_thirteen]
      exact daysBeforeMonth_mono _ (by have := ha.month_le; omega)
    omega
  · have hmonth : daysBeforeMonth a.year (a.month + 1) ≤ daysBeforeMonth b.year b.month := by
      rw [hy]
      exact daysBeforeMonth_mono _ hm
    rw [hy] at hmonth hday ⊢
    omega
  · rw [hy, hm]
    have hpos := ha.day_pos
    omega

theorem before_of_dayNumber_lt {a b : Date} (hb : b.Valid)
    (h : dayNumber a < dayNumber b) : a.Before b := by
  rcases a.before_trichotomy b with hab | rfl | hba
  · exact hab
  · exact absurd h (lt_irrefl _)
  · exact absurd h (not_lt.mpr (dayNumber_lt hb hba).le)

/-- **A day has one date.** -/
theorem dayNumber_injective {a b : Date} (ha : a.Valid) (hb : b.Valid)
    (h : dayNumber a = dayNumber b) : a = b := by
  rcases a.before_trichotomy b with hab | heq | hba
  · exact absurd h (dayNumber_lt ha hab).ne
  · exact heq
  · exact absurd h (dayNumber_lt hb hba).ne'

end Calendar

end Lib
