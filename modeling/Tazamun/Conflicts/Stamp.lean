import Mathlib

set_option autoImplicit false

/-! # Time stamps of quarantined copies

`utc_timestamp` (`guard.rs`) writes an instant in milliseconds as `YYYYMMDDTHHMMSSmmmZ`, with
the date computed by `civil_from_days`. Every quarantined copy's name begins with it, so what
matters is that it is a name: two instants never share one (`utcTimestamp_injective`), and it
holds nothing but digits, a `T` and a `Z`.

The date is injective because it can be undone: year, month and day determine the day of the
era, and with it the day. That needs the ranges of the intermediate values, of which only the
day of the year (`dayOfYear_range`) takes some care, since it is a difference of roundings.
-/

namespace Tazamun

/-! ## Numbers -/

def digitByte (d : Nat) : UInt8 := UInt8.ofNat (48 + d)

/-- `{n:0width}`. -/
def zeroPadded (width n : Nat) : List UInt8 :=
  (List.replicate (width - (Nat.digits 10 n).length) 0 ++ (Nat.digits 10 n).reverse).map digitByte

/-- The number that a string of digits shows. -/
def readNumber (bytes : List UInt8) : Nat :=
  Nat.ofDigits 10 (bytes.map fun b => b.toNat - 48).reverse

theorem digitByte_toNat {d : Nat} (hd : d < 10) : (digitByte d).toNat = 48 + d := by
  simp only [digitByte, UInt8.toNat_ofNat']
  omega

/-- The digits of a padded number. -/
theorem padded_lt {width n d : Nat}
    (hd : d ∈ List.replicate (width - (Nat.digits 10 n).length) 0 ++ (Nat.digits 10 n).reverse) :
    d < 10 := by
  rcases List.mem_append.mp hd with h | h
  · rw [List.eq_of_mem_replicate h]
    norm_num
  · exact Nat.digits_lt_base (by norm_num) (List.mem_reverse.mp h)

theorem readNumber_zeroPadded (width n : Nat) : readNumber (zeroPadded width n) = n := by
  have hdigits : (zeroPadded width n).map (fun b => b.toNat - 48) =
      List.replicate (width - (Nat.digits 10 n).length) 0 ++ (Nat.digits 10 n).reverse := by
    rw [zeroPadded, List.map_map]
    conv_rhs => rw [← List.map_id (List.replicate _ 0 ++ _)]
    refine List.map_congr_left fun d hd => ?_
    rw [Function.comp_apply, digitByte_toNat (padded_lt hd)]
    simp
  rw [readNumber, hdigits, List.reverse_append, List.reverse_reverse, List.reverse_replicate,
    Nat.ofDigits_append_replicate_zero, Nat.ofDigits_digits]

theorem length_zeroPadded (width n : Nat) :
    (zeroPadded width n).length = max width (Nat.digits 10 n).length := by
  rw [zeroPadded, List.length_map, List.length_append, List.length_replicate,
    List.length_reverse]
  omega

/-- A number that fits its width fills it exactly. -/
theorem length_zeroPadded_of_lt {width n : Nat} (h : n < 10 ^ width) :
    (zeroPadded width n).length = width := by
  have hdigits : (Nat.digits 10 n).length ≤ width :=
    (Nat.digits_length_le_iff (by norm_num) n).mpr h
  rw [length_zeroPadded]
  omega

theorem zeroPadded_range {width n : Nat} {b : UInt8} (hb : b ∈ zeroPadded width n) :
    48 ≤ b.toNat ∧ b.toNat ≤ 57 := by
  obtain ⟨d, hd, rfl⟩ := List.mem_map.mp hb
  have hlt := padded_lt hd
  rw [digitByte_toNat hlt]
  omega

/-! ## The date -/

/-- Year, month and day of a day number (`civil_from_days`). From 1970 on every quotient here
is one of natural numbers, so truncating and rounding down agree. -/
def civilFromDays (z : Int) : Int × Nat × Nat :=
  let z := z + 719468
  let era := (if 0 ≤ z then z else z - 146096).tdiv 146097
  let doe := z - era * 146097
  let yoe := (doe - doe / 1460 + doe / 36524 - doe / 146096) / 365
  let y := yoe + era * 400
  let doy := doe - (365 * yoe + yoe / 4 - yoe / 100)
  let mp := (5 * doy + 2) / 153
  let d := (doy - (153 * mp + 2) / 5 + 1).toNat
  let m := (if mp < 10 then mp + 3 else mp - 9).toNat
  (if m ≤ 2 then y + 1 else y, m, d)

def byteT : UInt8 := 'T'.toUInt8
def byteZ : UInt8 := 'Z'.toUInt8

/-- `{y:04}{mo:02}{d:02}T{h:02}{m:02}{s:02}{ms:03}Z`. -/
def stampOf (y mo d h m s ms : Nat) : List UInt8 :=
  zeroPadded 4 y ++ zeroPadded 2 mo ++ zeroPadded 2 d ++ [byteT] ++ zeroPadded 2 h ++
    zeroPadded 2 m ++ zeroPadded 2 s ++ zeroPadded 3 ms ++ [byteZ]

/-- An instant as a date and a time. -/
def utcTimestamp (epochMs : Nat) : List UInt8 :=
  let secs := epochMs / 1000
  let ms := epochMs % 1000
  let days := secs / 86400
  let rem := secs % 86400
  let date := civilFromDays days
  stampOf date.1.toNat date.2.1 date.2.2 (rem / 3600) (rem % 3600 / 60) (rem % 60) ms

/-- The day of the year lies between 0 and 365. -/
theorem dayOfYear_range {doe yoe : Int} (h0 : 0 ≤ doe) (h1 : doe ≤ 146096)
    (hy : yoe = (doe - doe / 1460 + doe / 36524 - doe / 146096) / 365) :
    0 ≤ doe - (365 * yoe + yoe / 4 - yoe / 100) ∧
      doe - (365 * yoe + yoe / 4 - yoe / 100) ≤ 365 := by
  have hyoe : 0 ≤ yoe ∧ yoe ≤ 399 := by omega
  obtain ⟨centuries, hcenturies⟩ : ∃ d, d = doe / 36524 := ⟨_, rfl⟩
  obtain ⟨last, hlast⟩ : ∃ e, e = doe / 146096 := ⟨_, rfl⟩
  obtain ⟨blocks, hblocks⟩ : ∃ c, c = doe / 1460 := ⟨_, rfl⟩
  obtain ⟨hundreds, hhundreds⟩ : ∃ g, g = yoe / 100 := ⟨_, rfl⟩
  obtain ⟨leaps, hleaps⟩ : ∃ f, f = yoe / 4 := ⟨_, rfl⟩
  have hhundreds' : hundreds = 0 ∨ hundreds = 1 ∨ hundreds = 2 ∨ hundreds = 3 := by omega
  have hcenturies' : centuries = 0 ∨ centuries = 1 ∨ centuries = 2 ∨ centuries = 3 ∨
      centuries = 4 := by omega
  have hlast' : last = 0 ∨ last = 1 := by omega
  have hblocks' : blocks = leaps ∨ blocks = leaps + 1 := by omega
  rw [← hcenturies, ← hlast, ← hblocks] at hy
  rw [← hleaps, ← hhundreds]
  rcases hlast' with rfl | rfl
  · -- in each century the bound is linear
    rcases hblocks' with rfl | rfl
    · rcases hhundreds' with rfl | rfl | rfl | rfl <;>
        rcases hcenturies' with rfl | rfl | rfl | rfl | rfl <;> omega
    · rcases hhundreds' with rfl | rfl | rfl | rfl <;>
        rcases hcenturies' with rfl | rfl | rfl | rfl | rfl <;> omega
  · -- the last day of the era
    obtain rfl : doe = 146096 := by omega
    omega

/-- Only a leap year has a day 365, counted from March. -/
theorem dayOfYear_last {doe yoe : Int} (h0 : 0 ≤ doe) (h1 : doe ≤ 146096)
    (hy : yoe = (doe - doe / 1460 + doe / 36524 - doe / 146096) / 365)
    (hlast : doe - (365 * yoe + yoe / 4 - yoe / 100) = 365) :
    (yoe + 1) % 4 = 0 ∧ ((yoe + 1) % 100 ≠ 0 ∨ (yoe + 1) % 400 = 0) := by
  have hyoe : 0 ≤ yoe ∧ yoe ≤ 399 := by omega
  obtain ⟨hundreds, hhundreds⟩ : ∃ g, g = yoe / 100 := ⟨_, rfl⟩
  obtain ⟨leaps, hleaps⟩ : ∃ f, f = yoe / 4 := ⟨_, rfl⟩
  rw [← hhundreds, ← hleaps] at hlast
  by_contra hno
  have hyear : yoe ≤ 398 := by omega
  have hera : doe / 146096 = 0 := by omega
  rw [hera] at hy
  -- otherwise the formula makes this day the first of the next year
  by_cases hfour : yoe - 4 * leaps = 3
  · have hcent : yoe = 100 * hundreds + 99 ∧ hundreds ≤ 2 := by omega
    have hcenturies : doe / 36524 = hundreds + 1 := by omega
    have hblocks : doe / 1460 = leaps + 1 := by omega
    rw [hcenturies, hblocks] at hy
    omega
  · have hblocks : doe / 1460 = leaps := by omega
    have hcenturies : doe / 36524 = hundreds := by omega
    rw [hcenturies, hblocks] at hy
    omega

/-- What a date says about its day: every intermediate value of the computation. -/
structure DateOf (day : Int) (date : Int × Nat × Nat) (era yoe doy mp : Int) : Prop where
  eraRange : 0 ≤ era
  yoeRange : 0 ≤ yoe ∧ yoe ≤ 399
  doyRange : 0 ≤ doy ∧ doy ≤ 365
  mpOf : mp = (5 * doy + 2) / 153
  dayOf : day + 719468 = era * 146097 + (365 * yoe + yoe / 4 - yoe / 100 + doy)
  year : date.1 = if date.2.1 ≤ 2 then yoe + era * 400 + 1 else yoe + era * 400
  month : (date.2.1 : Int) = if mp < 10 then mp + 3 else mp - 9
  dayOfMonth : (date.2.2 : Int) = doy - (153 * mp + 2) / 5 + 1

/-- The date of a day, with what holds of a year of 366 days. -/
theorem civilFromDays_dateOf_leap {day : Int} (h : 0 ≤ day) :
    ∃ era yoe doy mp, DateOf day (civilFromDays day) era yoe doy mp ∧
      (doy = 365 → (yoe + 1) % 4 = 0 ∧ ((yoe + 1) % 100 ≠ 0 ∨ (yoe + 1) % 400 = 0)) := by
  have htdiv : (if 0 ≤ day + 719468 then day + 719468 else day + 719468 - 146096).tdiv 146097 =
      (day + 719468) / 146097 := by
    rw [if_pos (by omega), Int.tdiv_eq_ediv_of_nonneg (by omega)]
  obtain ⟨era, hera⟩ : ∃ e, e = (day + 719468) / 146097 := ⟨_, rfl⟩
  obtain ⟨doe, hdoe⟩ : ∃ e, e = day + 719468 - era * 146097 := ⟨_, rfl⟩
  obtain ⟨yoe, hyoe⟩ :
    ∃ y, y = (doe - doe / 1460 + doe / 36524 - doe / 146096) / 365 := ⟨_, rfl⟩
  have hdoeRange : 0 ≤ doe ∧ doe ≤ 146096 := by omega
  have hyoeRange : 0 ≤ yoe ∧ yoe ≤ 399 := by omega
  have hdoyRange := dayOfYear_range hdoeRange.1 hdoeRange.2 hyoe
  obtain ⟨doy, hdoy⟩ : ∃ d, d = doe - (365 * yoe + yoe / 4 - yoe / 100) := ⟨_, rfl⟩
  have hlast := dayOfYear_last hdoeRange.1 hdoeRange.2 hyoe
  rw [← hdoy] at hdoyRange hlast
  obtain ⟨mp, hmp⟩ : ∃ m, m = (5 * doy + 2) / 153 := ⟨_, rfl⟩
  refine ⟨era, yoe, doy, mp, ?_⟩
  have hdate : civilFromDays day =
      (if (if mp < 10 then mp + 3 else mp - 9).toNat ≤ 2 then yoe + era * 400 + 1
        else yoe + era * 400,
        (if mp < 10 then mp + 3 else mp - 9).toNat, (doy - (153 * mp + 2) / 5 + 1).toNat) := by
    simp only [civilFromDays, htdiv, ← hera, ← hdoe, ← hyoe, ← hdoy, ← hmp]
  rw [hdate]
  refine ⟨⟨by omega, hyoeRange, hdoyRange, hmp, by omega, rfl, ?_, ?_⟩, hlast⟩
  · show (((if mp < 10 then mp + 3 else mp - 9).toNat : Nat) : Int) = _
    split_ifs <;> omega
  · show (((doy - (153 * mp + 2) / 5 + 1).toNat : Nat) : Int) = _
    omega

theorem civilFromDays_dateOf {day : Int} (h : 0 ≤ day) :
    ∃ era yoe doy mp, DateOf day (civilFromDays day) era yoe doy mp := by
  obtain ⟨era, yoe, doy, mp, hd, -⟩ := civilFromDays_dateOf_leap h
  exact ⟨era, yoe, doy, mp, hd⟩

/-- The day at which a `u64` of milliseconds ends is in a year of nine digits. -/
theorem DateOf.year_lt {day : Int} {date : Int × Nat × Nat} {era yoe doy mp : Int}
    (h : DateOf day date era yoe doy mp) (hday : day < 2 ^ 38) : date.1.toNat < 10 ^ 9 := by
  have h1 := h.yoeRange
  have h2 := h.doyRange
  have h3 := h.dayOf
  have h4 := h.year
  split_ifs at h4 <;> omega

/-- **No two days have the same date.** -/
theorem civilFromDays_injective {day day' : Int} (h : 0 ≤ day) (h' : 0 ≤ day')
    (hdate : civilFromDays day = civilFromDays day') : day = day' := by
  obtain ⟨era, yoe, doy, mp, hd⟩ := civilFromDays_dateOf h
  obtain ⟨era', yoe', doy', mp', hd'⟩ := civilFromDays_dateOf h'
  rw [← hdate] at hd'
  have hmp : mp = mp' := by
    have h1 := hd.month
    have h2 := hd'.month
    have h3 := hd.mpOf
    have h4 := hd'.mpOf
    have h5 := hd.doyRange
    have h6 := hd'.doyRange
    split_ifs at h1 h2 <;> omega
  have hdoy : doy = doy' := by
    have h1 := hd.dayOfMonth
    have h2 := hd'.dayOfMonth
    rw [hmp] at h1
    omega
  have hyear : yoe + era * 400 = yoe' + era' * 400 := by
    have h1 := hd.year
    have h2 := hd'.year
    split_ifs at h1 h2 <;> omega
  have hyoe : yoe = yoe' ∧ era = era' := by
    have h1 := hd.yoeRange
    have h2 := hd'.yoeRange
    omega
  have h1 := hd.dayOf
  have h2 := hd'.dayOf
  rw [hyoe.1, hyoe.2, hdoy] at h1
  omega

/-- Month and day have two digits, and the year is not before 1970. -/
theorem civilFromDays_range {day : Int} (h : 0 ≤ day) :
    0 ≤ (civilFromDays day).1 ∧ (civilFromDays day).2.1 < 100 ∧
      (civilFromDays day).2.2 < 100 := by
  obtain ⟨era, yoe, doy, mp, hd⟩ := civilFromDays_dateOf h
  have h1 := hd.eraRange
  have h2 := hd.yoeRange
  have h3 := hd.doyRange
  have h4 := hd.mpOf
  have h5 := hd.month
  have h6 := hd.dayOfMonth
  have h7 := hd.year
  refine ⟨?_, ?_, ?_⟩
  · split_ifs at h7 <;> omega
  · split_ifs at h5 <;> omega
  · omega

/-! ## The stamp -/

theorem digits_same {width n n' : Nat} (h : zeroPadded width n = zeroPadded width n') : n = n' := by
  rw [← readNumber_zeroPadded width n, h, readNumber_zeroPadded]

/-- Two numbers of the same width, with whatever stands before them. -/
theorem fields_same {width n n' : Nat} {before before' : List UInt8} (hn : n < 10 ^ width)
    (hn' : n' < 10 ^ width) (h : before ++ zeroPadded width n = before' ++ zeroPadded width n') :
    before = before' ∧ n = n' := by
  have hlen : (zeroPadded width n).length = (zeroPadded width n').length := by
    rw [length_zeroPadded_of_lt hn, length_zeroPadded_of_lt hn']
  obtain ⟨hbefore, hsame⟩ := List.append_inj' h hlen
  exact ⟨hbefore, digits_same hsame⟩

/-- A stamp shows its seven numbers. -/
theorem stampOf_injective {y mo d h m s ms y' mo' d' h' m' s' ms' : Nat}
    (hmo : mo < 100 ∧ mo' < 100) (hd : d < 100 ∧ d' < 100) (hh : h < 100 ∧ h' < 100)
    (hm : m < 100 ∧ m' < 100) (hs : s < 100 ∧ s' < 100) (hms : ms < 1000 ∧ ms' < 1000)
    (heq : stampOf y mo d h m s ms = stampOf y' mo' d' h' m' s' ms') :
    (y = y' ∧ mo = mo' ∧ d = d') ∧ h = h' ∧ m = m' ∧ s = s' ∧ ms = ms' := by
  unfold stampOf at heq
  -- take the fields off from the right
  obtain ⟨heq, -⟩ := List.append_inj' heq rfl
  obtain ⟨heq, hms⟩ := fields_same hms.1 hms.2 heq
  obtain ⟨heq, hs⟩ := fields_same hs.1 hs.2 heq
  obtain ⟨heq, hm⟩ := fields_same hm.1 hm.2 heq
  obtain ⟨heq, hh⟩ := fields_same hh.1 hh.2 heq
  obtain ⟨heq, -⟩ := List.append_inj' heq rfl
  obtain ⟨heq, hd⟩ := fields_same hd.1 hd.2 heq
  obtain ⟨heq, hmo⟩ := fields_same hmo.1 hmo.2 heq
  exact ⟨⟨digits_same heq, hmo, hd⟩, hh, hm, hs, hms⟩

/-- **Different instants have different stamps.** -/
theorem utcTimestamp_injective {t t' : Nat} (h : utcTimestamp t = utcTimestamp t') : t = t' := by
  obtain ⟨days, hdays⟩ : ∃ n, n = t / 1000 / 86400 := ⟨_, rfl⟩
  obtain ⟨days', hdays'⟩ : ∃ n, n = t' / 1000 / 86400 := ⟨_, rfl⟩
  obtain ⟨hy, hmo, hd⟩ := civilFromDays_range (Int.natCast_nonneg days)
  obtain ⟨hy', hmo', hd'⟩ := civilFromDays_range (Int.natCast_nonneg days')
  simp only [utcTimestamp, ← hdays, ← hdays'] at h
  obtain ⟨⟨hyear, hmonth, hday⟩, hh, hm, hs, hms⟩ := stampOf_injective ⟨hmo, hmo'⟩ ⟨hd, hd'⟩
    (by omega) (by omega) (by omega) (by omega) h
  have hyear' : (civilFromDays days).1 = (civilFromDays days').1 := by
    rw [← Int.toNat_of_nonneg hy, hyear, Int.toNat_of_nonneg hy']
  have hdate : civilFromDays days = civilFromDays days' :=
    Prod.ext hyear' (Prod.ext hmonth hday)
  have hsame := civilFromDays_injective (Int.natCast_nonneg days) (Int.natCast_nonneg days') hdate
  omega

/-- A stamp consists of digits, `T` and `Z`. -/
theorem stampOf_bytes {y mo d h m s ms : Nat} {b : UInt8} (hb : b ∈ stampOf y mo d h m s ms) :
    (48 ≤ b.toNat ∧ b.toNat ≤ 57) ∨ b = byteT ∨ b = byteZ := by
  simp only [stampOf, List.mem_append, List.mem_singleton] at hb
  rcases hb with (((((((hb | hb) | hb) | hb) | hb) | hb) | hb) | hb) | hb
  all_goals first
    | exact .inl (zeroPadded_range hb)
    | exact .inr (.inl hb)
    | exact .inr (.inr hb)

/-- The first byte of a stamp is a digit. -/
theorem stampOf_head (y mo d h m s ms : Nat) :
    ∃ b rest, stampOf y mo d h m s ms = b :: rest ∧ 48 ≤ b.toNat ∧ b.toNat ≤ 57 := by
  have hlen : 4 ≤ (zeroPadded 4 y).length := by
    rw [length_zeroPadded]
    omega
  cases hcons : zeroPadded 4 y with
  | nil =>
      rw [hcons] at hlen
      exact absurd hlen (by decide)
  | cons b rest =>
      have hb : b ∈ zeroPadded 4 y := by
        rw [hcons]
        exact List.mem_cons_self
      simp only [stampOf, hcons, List.cons_append]
      exact ⟨b, _, rfl, zeroPadded_range hb⟩

/-- While the clock is a `u64`, the stamp is at most 24 bytes long. -/
theorem utcTimestamp_length {t : Nat} (ht : t < 2 ^ 64) : (utcTimestamp t).length ≤ 24 := by
  obtain ⟨days, hdays⟩ : ∃ n, n = t / 1000 / 86400 := ⟨_, rfl⟩
  obtain ⟨hy, hmo, hd⟩ := civilFromDays_range (Int.natCast_nonneg days)
  have hyear : (civilFromDays days).1.toNat < 10 ^ 9 := by
    obtain ⟨era, yoe, doy, mp, h⟩ := civilFromDays_dateOf (Int.natCast_nonneg days)
    have hlast : (days : Int) < 2 ^ 38 := by
      rw [hdays]
      omega
    exact h.year_lt hlast
  have hlen : (zeroPadded 4 (civilFromDays days).1.toNat).length ≤ 9 := by
    have hdigits := (Nat.digits_length_le_iff (by norm_num : 1 < 10) _).mpr hyear
    rw [length_zeroPadded]
    omega
  have two {n : Nat} (hn : n < 100) : (zeroPadded 2 n).length = 2 := length_zeroPadded_of_lt hn
  have three {n : Nat} (hn : n < 1000) : (zeroPadded 3 n).length = 3 := length_zeroPadded_of_lt hn
  simp only [utcTimestamp, stampOf, ← hdays, List.length_append, List.length_singleton, two hmo,
    two hd]
  rw [two (by omega), two (by omega), two (by omega), three (by omega)]
  omega

example : utcTimestamp 0 = "19700101T000000000Z".toUTF8.data.toList := by decide +kernel

end Tazamun
