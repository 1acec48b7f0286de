import Tazamun.Lib.Calendar
import Tazamun.Conflicts.Stamp

set_option autoImplicit false

/-! # Stamps and the calendar

A stamp shows the date and the time of its instant. The date is compared with the calendar's
own count of days: what `civil_from_days` computes is a date of the calendar, and its day
number is that of the day (`dateOfDay_valid`, `dayNumber_dateOfDay`).

Up to the year 9999 all fields have a fixed width, so that the order of the stamps as texts is
the order of the instants (`utcTimestamp_correct`); the listing of the quarantine sorts by name.
-/

namespace Tazamun

open Lib.Calendar

/-! ## The date -/

/-- The date that `civil_from_days` gives to a day. -/
def dateOfDay (day : Nat) : Date :=
  let date := civilFromDays day
  ⟨date.1.toNat, date.2.1, date.2.2⟩

/-- The first of January 1970. -/
def epochDate : Date := ⟨1970, 1, 1⟩

theorem dayNumber_epochDate : dayNumber epochDate = 719528 := by
  rw [dayNumber, daysBeforeYear_eq]
  rfl

/-- **`civil_from_days` inverts the calendar's count of days.** -/
theorem dateOfDay_spec (day : Nat) :
    (dateOfDay day).Valid ∧ dayNumber (dateOfDay day) = day + dayNumber epochDate ∧
      civilFromDays day =
        (((dateOfDay day).year : Int), (dateOfDay day).month, (dateOfDay day).day) := by
  obtain ⟨era, yoe, doy, mp, hd, hlast⟩ := civilFromDays_dateOf_leap (Int.natCast_nonneg day)
  obtain ⟨y, m, d, hdate⟩ : ∃ (y : Int) (m d : Nat), civilFromDays day = (y, m, d) := ⟨_, _, _, rfl⟩
  have hdateOf : dateOfDay day = ⟨y.toNat, m, d⟩ := by
    rw [dateOfDay]
    simp only [hdate]
  rw [hdate] at hd
  have hera := hd.eraRange
  have hyoe := hd.yoeRange
  have hdoy := hd.doyRange
  have hmp := hd.mpOf
  have hday := hd.dayOf
  have hyear := hd.year
  have hmonth := hd.month
  have hdom := hd.dayOfMonth
  dsimp only at hyear hmonth hdom
  -- the year that begins with March
  obtain ⟨march, hmarch⟩ : ∃ n : Nat, (n : Int) = yoe + era * 400 :=
    ⟨(yoe + era * 400).toNat, Int.toNat_of_nonneg (by omega)⟩
  have hfirst : (marchFirst march : Int) =
      era * 146097 + (365 * yoe + yoe / 4 - yoe / 100) + 60 := by
    rw [marchFirst]
    omega
  rw [hdateOf, dayNumber_epochDate, hdate]
  by_cases hspring : mp < 10
  · rw [if_pos hspring] at hmonth
    rw [if_neg (by omega)] at hyear
    obtain rfl : y = march := by omega
    refine ⟨⟨?_, ?_, ?_, ?_⟩, ?_, rfl⟩
    · show 1 ≤ m
      omega
    · show m ≤ 12
      omega
    · show 1 ≤ d
      omega
    · show d ≤ monthLength march m
      have hm : 3 ≤ m ∧ m ≤ 12 := by omega
      obtain ⟨hm3, hm12⟩ := hm
      interval_cases m <;> simp [monthLength] <;> omega
    · rw [dayNumber_of_march (d := ⟨_, m, d⟩) (by show 3 ≤ m; omega) (by show m ≤ 12; omega)]
      show marchFirst march + (153 * (m - 3) + 2) / 5 + (d - 1) = day + 719528
      omega
  · rw [if_neg hspring] at hmonth
    rw [if_pos (by omega)] at hyear
    obtain rfl : y = ((march + 1 : Nat) : Int) := by omega
    refine ⟨⟨?_, ?_, ?_, ?_⟩, ?_, rfl⟩
    · show 1 ≤ m
      omega
    · show m ≤ 12
      omega
    · show 1 ≤ d
      omega
    · show d ≤ monthLength (march + 1) m
      have hm : m = 1 ∨ m = 2 := by omega
      rcases hm with rfl | rfl
      · show d ≤ 31
        omega
      · rw [monthLength, if_pos rfl]
        by_cases hleap : IsLeap (march + 1)
        · rw [if_pos hleap]
          omega
        · rw [if_neg hleap]
          unfold IsLeap at hleap
          omega
    · show dayNumber ⟨march + 1, m, d⟩ = day + 719528
      rw [dayNumber_before_march (by omega) (by omega)]
      omega

/-! ## Instants -/

/-- A date with a time of day. -/
structure Instant where
  date : Date
  hour : Nat
  minute : Nat
  second : Nat
  milli : Nat

structure Instant.Valid (i : Instant) : Prop where
  date : i.date.Valid
  hour : i.hour < 24
  minute : i.minute < 60
  second : i.second < 60
  milli : i.milli < 1000

/-- The milliseconds since the beginning of the year 0. -/
def Instant.millis (i : Instant) : Nat :=
  (((dayNumber i.date * 24 + i.hour) * 60 + i.minute) * 60 + i.second) * 1000 + i.milli

def Instant.stamp (i : Instant) : List UInt8 :=
  stampOf i.date.year i.date.month i.date.day i.hour i.minute i.second i.milli

/-- Midnight at the beginning of a date. -/
def midnight (date : Date) : Instant := ⟨date, 0, 0, 0, 0⟩

theorem millis_midnight (date : Date) : (midnight date).millis = dayNumber date * 86400000 := by
  show (((dayNumber date * 24 + 0) * 60 + 0) * 60 + 0) * 1000 + 0 = _
  omega

/-- The instant lies before the year 10000. -/
def Before10000 (epochMs : Nat) : Prop :=
  epochMs + (midnight epochDate).millis < (midnight ⟨10000, 1, 1⟩).millis

theorem before10000_iff {epochMs : Nat} : Before10000 epochMs ↔ epochMs < 253402300800000 := by
  have hlast : dayNumber ⟨10000, 1, 1⟩ = 3652425 := by
    rw [dayNumber, daysBeforeYear_eq]
    rfl
  rw [Before10000, millis_midnight, millis_midnight, dayNumber_epochDate, hlast]
  omega

/-- The date and the time of a number of milliseconds. -/
def instantOf (epochMs : Nat) : Instant where
  date := dateOfDay (epochMs / 1000 / 86400)
  hour := epochMs / 1000 % 86400 / 3600
  minute := epochMs / 1000 % 86400 % 3600 / 60
  second := epochMs / 1000 % 86400 % 60
  milli := epochMs % 1000

theorem instantOf_valid (epochMs : Nat) : (instantOf epochMs).Valid where
  date := (dateOfDay_spec _).1
  hour := by
    show epochMs / 1000 % 86400 / 3600 < 24
    omega
  minute := by
    show epochMs / 1000 % 86400 % 3600 / 60 < 60
    omega
  second := Nat.mod_lt _ (by decide)
  milli := Nat.mod_lt _ (by decide)

theorem millis_instantOf (epochMs : Nat) :
    (instantOf epochMs).millis = epochMs + (midnight epochDate).millis := by
  have hday := (dateOfDay_spec (epochMs / 1000 / 86400)).2.1
  rw [millis_midnight, Instant.millis, instantOf]
  dsimp only
  rw [hday]
  omega

/-- The stamp shows the date and the time. -/
theorem utcTimestamp_eq (epochMs : Nat) : utcTimestamp epochMs = (instantOf epochMs).stamp := rfl

theorem instantOf_year {epochMs : Nat} (h : Before10000 epochMs) :
    (instantOf epochMs).date.year < 10000 := by
  have hvalid := (instantOf_valid epochMs).date
  have hmillis := millis_instantOf epochMs
  rw [Before10000, ← hmillis] at h
  have hday : dayNumber (instantOf epochMs).date < dayNumber ⟨10000, 1, 1⟩ := by
    rw [millis_midnight, Instant.millis] at h
    omega
  have hjanuary : (Date.mk 10000 1 1).Valid := ⟨by decide, by decide, by decide, by decide⟩
  rcases before_of_dayNumber_lt hjanuary hday with hy | ⟨-, hm | ⟨-, hd⟩⟩
  · exact hy
  · have hpos := hvalid.month_pos
    exact absurd hm (not_lt.mpr hpos)
  · have hpos := hvalid.day_pos
    exact absurd hd (not_lt.mpr hpos)

/-! ## The order of the stamps -/

theorem lt_of_prefix_lt {p q : List UInt8} (hlen : p.length = q.length) (h : p < q)
    (x y : List UInt8) : p ++ x < q ++ y := by
  induction p generalizing q with
  | nil =>
      obtain rfl : q = [] := List.length_eq_zero_iff.mp hlen.symm
      exact absurd h (List.not_lt_nil _)
  | cons a p ih =>
      cases q with
      | nil => exact absurd h (List.not_lt_nil _)
      | cons b q =>
          rw [List.cons_append, List.cons_append, List.cons_lt_cons_iff]
          rcases List.cons_lt_cons_iff.mp h with hab | ⟨hab, hrest⟩
          · exact .inl hab
          · exact .inr ⟨hab, ih (Nat.succ.inj hlen) hrest⟩

/-- One digit more on the right. -/
theorem zeroPadded_succ (width n : Nat) :
    zeroPadded (width + 1) n = zeroPadded width (n / 10) ++ [digitByte (n % 10)] := by
  rw [zeroPadded, zeroPadded, ← List.map_singleton, ← List.map_append]
  refine congrArg (List.map digitByte) ?_
  cases n with
  | zero => simp [List.replicate_succ']
  | succ n =>
      have hdigits : Nat.digits 10 (n + 1) = (n + 1) % 10 :: Nat.digits 10 ((n + 1) / 10) :=
        Nat.digits_def' (by decide) (Nat.succ_pos n)
      rw [hdigits, List.length_cons, List.reverse_cons, Nat.add_sub_add_right, List.append_assoc]

/-- **Padded numbers are ordered like numbers.** -/
theorem zeroPadded_lt {width a b : Nat} (h : a < b) (hb : b < 10 ^ width) :
    zeroPadded width a < zeroPadded width b := by
  induction width generalizing a b with
  | zero => omega
  | succ width ih =>
      have hb' : b / 10 < 10 ^ width := by
        rw [pow_succ] at hb
        omega
      have hdiv : a / 10 ≤ b / 10 := Nat.div_le_div_right h.le
      rw [zeroPadded_succ, zeroPadded_succ]
      rcases hdiv.lt_or_eq with hlt | heq
      · refine lt_of_prefix_lt ?_ (ih hlt hb') _ _
        rw [length_zeroPadded_of_lt (hlt.trans hb'), length_zeroPadded_of_lt hb']
      · rw [heq]
        refine List.append_left_lt (List.cons_lt_cons_iff.mpr (.inl ?_))
        rw [UInt8.lt_iff_toNat_lt, digitByte_toNat (Nat.mod_lt _ (by decide)),
          digitByte_toNat (Nat.mod_lt _ (by decide))]
        omega

/-- A field of a fixed width decides the order, or leaves it to the next ones. -/
theorem field_lt {width n n' : Nat} {x y : List UInt8} (hn : n < 10 ^ width)
    (hn' : n' < 10 ^ width) (h : n < n' ∨ n = n' ∧ x < y) :
    zeroPadded width n ++ x < zeroPadded width n' ++ y := by
  rcases h with hlt | ⟨rfl, hrest⟩
  · refine lt_of_prefix_lt ?_ (zeroPadded_lt hlt hn') _ _
    rw [length_zeroPadded_of_lt hn, length_zeroPadded_of_lt hn']
  · exact List.append_left_lt hrest

theorem monthLength_le (year month : Nat) : monthLength year month ≤ 31 := by
  unfold monthLength
  split_ifs <;> decide

/-- The earlier of two instants, field by field. -/
def Instant.Earlier (i j : Instant) : Prop :=
  i.date.Before j.date ∨ i.date = j.date ∧ (i.hour < j.hour ∨ i.hour = j.hour ∧
    (i.minute < j.minute ∨ i.minute = j.minute ∧
      (i.second < j.second ∨ i.second = j.second ∧ i.milli < j.milli)))

theorem instantOf_earlier {t t' : Nat} (h : t < t') : (instantOf t).Earlier (instantOf t') := by
  obtain ⟨hvalid, hday, -⟩ := dateOfDay_spec (t / 1000 / 86400)
  obtain ⟨hvalid', hday', -⟩ := dateOfDay_spec (t' / 1000 / 86400)
  have hdays : t / 1000 / 86400 < t' / 1000 / 86400 ∨ t / 1000 / 86400 = t' / 1000 / 86400 := by
    omega
  rcases hdays with hlt | heq
  · refine .inl (before_of_dayNumber_lt hvalid' ?_)
    show dayNumber (dateOfDay _) < dayNumber (dateOfDay _)
    omega
  · refine .inr ⟨congrArg dateOfDay heq, ?_⟩
    show t / 1000 % 86400 / 3600 < t' / 1000 % 86400 / 3600 ∨ _ = _ ∧ (_ < _ ∨ _ = _ ∧
      (_ < _ ∨ _ = _ ∧ _ < _))
    dsimp only [instantOf]
    omega

/-- **Stamps of years of four digits are in the order of the instants.** -/
theorem stamp_lt {i j : Instant} (hi : i.Valid) (hj : j.Valid) (hyi : i.date.year < 10000)
    (hyj : j.date.year < 10000) (h : i.Earlier j) : i.stamp < j.stamp := by
  have hmi : i.date.month < 10 ^ 2 := lt_of_le_of_lt hi.date.month_le (by decide)
  have hmj : j.date.month < 10 ^ 2 := lt_of_le_of_lt hj.date.month_le (by decide)
  have hdi : i.date.day < 10 ^ 2 :=
    lt_of_le_of_lt (hi.date.day_le.trans (monthLength_le _ _)) (by decide)
  have hdj : j.date.day < 10 ^ 2 :=
    lt_of_le_of_lt (hj.date.day_le.trans (monthLength_le _ _)) (by decide)
  unfold Instant.stamp stampOf
  simp only [List.append_assoc]
  refine field_lt hyi hyj ?_
  rcases h with hdate | ⟨hdate, htime⟩
  · rcases hdate with hy | ⟨hy, hmonth⟩
    · exact .inl hy
    · refine .inr ⟨hy, field_lt hmi hmj ?_⟩
      rcases hmonth with hm | ⟨hm, hd⟩
      · exact .inl hm
      · exact .inr ⟨hm, field_lt hdi hdj (.inl hd)⟩
  · rw [hdate]
    refine .inr ⟨rfl, List.append_left_lt (List.append_left_lt (List.append_left_lt ?_))⟩
    refine field_lt (hi.hour.trans (by decide)) (hj.hour.trans (by decide))
      (htime.imp_right (And.imp_right fun htime => ?_))
    refine field_lt (hi.minute.trans (by decide)) (hj.minute.trans (by decide))
      (htime.imp_right (And.imp_right fun htime => ?_))
    refine field_lt (hi.second.trans (by decide)) (hj.second.trans (by decide))
      (htime.imp_right (And.imp_right fun htime => ?_))
    exact field_lt hi.milli hj.milli (.inl htime)

/-- **Stamps are correct and in order**: before the year 10000 a stamp shows the date and the
time of its instant in the calendar, and of two instants the earlier has the smaller stamp. -/
theorem utcTimestamp_correct {t : Nat} (ht : Before10000 t) :
    (∃ i : Instant, i.Valid ∧ i.millis = t + (midnight epochDate).millis ∧
      civilFromDays (t / 1000 / 86400 : Nat) =
        ((i.date.year : Int), i.date.month, i.date.day) ∧
      i.date.year < 10000 ∧ utcTimestamp t = i.stamp) ∧
    ∀ t', Before10000 t' → t < t' → utcTimestamp t < utcTimestamp t' := by
  constructor
  · exact ⟨instantOf t, instantOf_valid t, millis_instantOf t, (dateOfDay_spec _).2.2,
      instantOf_year ht, utcTimestamp_eq t⟩
  · intro t' ht' hlt
    rw [utcTimestamp_eq, utcTimestamp_eq]
    exact stamp_lt (instantOf_valid t) (instantOf_valid t') (instantOf_year ht)
      (instantOf_year ht') (instantOf_earlier hlt)

theorem utcTimestamp_correct_epoch :
    (∃ i : Instant, i.Valid ∧ i.millis = 0 + (midnight epochDate).millis ∧
      civilFromDays (0 / 1000 / 86400 : Nat) =
        ((i.date.year : Int), i.date.month, i.date.day) ∧
      i.date.year < 10000 ∧ utcTimestamp 0 = i.stamp) ∧
    utcTimestamp 0 < utcTimestamp 1783514096789 :=
  ⟨(utcTimestamp_correct (before10000_iff.mpr (by decide))).1,
    (utcTimestamp_correct (before10000_iff.mpr (by decide))).2 _
      (before10000_iff.mpr (by decide)) (by decide)⟩

end Tazamun
