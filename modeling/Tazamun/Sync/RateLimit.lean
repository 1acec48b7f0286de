import Tazamun.Lib.Amortized
import Tazamun.Lib.Run
import Tazamun.Sync.Manifest
import Mathlib.Data.Rat.Cast.Order
import Mathlib.Algebra.Order.Ring.Rat
import Mathlib.Tactic.FieldSimp
import Mathlib.Tactic.NormNum

set_option autoImplicit false

/-! # The download limit

`ratelimit.rs` limits the rate at which all chunk fetches of a folder together take bytes. A
bucket holds tokens, one for each byte; it fills at the configured rate, up to one second of
rate or the largest chunk of our own chunker, whichever is more. A fetch takes as many tokens
as its chunk has bytes before it asks a peer for the chunk, and when there are too few it
sleeps for as long as the missing ones need and tries again.

The floats of the source are rationals here and its instants and durations are rational
numbers of seconds, so that the arithmetic is exact. A poisoned lock is left out.

A bucket never hands out more in an interval than its capacity and the rate times the length
of the interval (`admitted_le`). It hands out no request above its capacity, however long the
fetch waits, and the length of a chunk is what a peer's manifest says it is
(`acquire_returns_iff`).
-/

namespace Tazamun

open Lib (Reaches anyStep Meter within)

/-! ## The bucket -/

/-- Bucket state behind the lock; a rate of 0 is no limit. -/
structure Bucket where
  rate : ℚ
  cap : ℚ
  tokens : ℚ
  last : ℚ
deriving DecidableEq

namespace Bucket

/-- Refills tokens for the time since `last`, up to `cap`. -/
def refill (b : Bucket) (now : ℚ) : Bucket :=
  if b.rate ≤ 0 then b
  else { b with tokens := min (b.tokens + max (now - b.last) 0 * b.rate) b.cap, last := now }

/-- Takes `n` tokens, or says how long it takes until there are enough. -/
def tryTake (b : Bucket) (n now : ℚ) : Except ℚ Unit × Bucket :=
  if b.rate ≤ 0 then (.ok (), b)
  else
    let b := b.refill now
    if n ≤ b.tokens then (.ok (), { b with tokens := b.tokens - n })
    else (.error ((n - b.tokens) / b.rate), b)

end Bucket

/-! ## The limiter -/

structure RateLimiter where
  inner : Bucket
deriving DecidableEq

namespace RateLimiter

/-- The bucket of a rate: full, and with room for a second of rate or for the longest chunk
that our chunker makes. -/
def bucket (bytesPerSec : U64) (now : ℚ) : Bucket :=
  let rate : ℚ := bytesPerSec.val
  let cap := max rate cdcMax
  { rate, cap, tokens := cap, last := now }

def new (bytesPerSec : U64) (now : ℚ) : RateLimiter := { inner := bucket bytesPerSec now }

/-- The rate is changed live, and the burst allowance starts anew. -/
def setRate (_ : RateLimiter) (bytesPerSec : U64) (now : ℚ) : RateLimiter :=
  { inner := bucket bytesPerSec now }

/-- The loop of a caller that is alone: the clock moves by what the caller sleeps. It gives
the time at which the bytes are admitted, or nothing when the attempts run out. -/
def acquire (n : U64) : Nat → RateLimiter → ℚ → Option (RateLimiter × ℚ)
  | 0, _, _ => none
  | fuel + 1, l, now =>
      match l.inner.tryTake n.val now with
      | (.ok (), b) => some ({ inner := b }, now)
      | (.error wait, b) => acquire n fuel { inner := b } (now + wait)

end RateLimiter

/-! ## Any number of callers -/

/-- A limiter, the clock, and an observer that logs what was admitted. -/
structure Limited where
  limiter : RateLimiter
  now : ℚ
  admitted : List (ℚ × ℚ)
deriving DecidableEq

/-- Time passes, some caller tries to take bytes, or the user sets the rate. The lock makes
the attempts of the callers follow each other, in any order. -/
inductive Limited.Act where
  | wait (dt : ℚ)
  | take (n : U64)
  | setRate (bytesPerSec : U64)
deriving DecidableEq

namespace Limited

def new (bytesPerSec : U64) (start : ℚ) : Limited :=
  { limiter := .new bytesPerSec start, now := start, admitted := [] }

/-- The clock does not go back. -/
def step (s : Limited) : Act → Option Limited
  | .wait dt => if 0 ≤ dt then some { s with now := s.now + dt } else none
  | .take n =>
      match s.limiter.inner.tryTake n.val s.now with
      | (.ok (), b) =>
          some { s with limiter := { inner := b }, admitted := s.admitted ++ [(s.now, (n.val : ℚ))] }
      | (.error _, b) => some { s with limiter := { inner := b } }
  | .setRate bytesPerSec => some { s with limiter := s.limiter.setRate bytesPerSec s.now }

/-- The rate stays as it is. -/
def KeepsRate (_ : Limited) : Act → Prop
  | .setRate _ => False
  | _ => True

end Limited

/-! ## What the bucket does -/

namespace Bucket

/-- The tokens there are at a time. -/
def level (b : Bucket) (now : ℚ) : ℚ := (b.refill now).tokens

/-- The tokens of a bucket are within its bounds, and it was refilled in the past. -/
structure Sound (b : Bucket) (now : ℚ) : Prop where
  nonneg : 0 ≤ b.tokens
  le_cap : b.tokens ≤ b.cap
  last_le : b.last ≤ now

theorem refill_rate (b : Bucket) (now : ℚ) : (b.refill now).rate = b.rate := by
  unfold refill
  split <;> rfl

theorem refill_cap (b : Bucket) (now : ℚ) : (b.refill now).cap = b.cap := by
  unfold refill
  split <;> rfl

variable {b : Bucket} {now : ℚ}

theorem refill_last (hrate : 0 < b.rate) : (b.refill now).last = now := by
  rw [refill, if_neg (not_le.mpr hrate)]

/-- In the order of time, what the refill adds is the rate times the time. -/
theorem level_eq (hrate : 0 < b.rate) (hlast : b.last ≤ now) :
    b.level now = min (b.tokens + (now - b.last) * b.rate) b.cap := by
  have htime : max (now - b.last) 0 = now - b.last := max_eq_left (sub_nonneg.mpr hlast)
  rw [level, refill, if_neg (not_le.mpr hrate), htime]

theorem Sound.refill (hs : b.Sound now) (hrate : 0 < b.rate) : (b.refill now).Sound now := by
  have htime : 0 ≤ (now - b.last) * b.rate :=
    mul_nonneg (sub_nonneg.mpr hs.last_le) hrate.le
  have hlevel : (b.refill now).tokens = min (b.tokens + (now - b.last) * b.rate) b.cap :=
    level_eq hrate hs.last_le
  refine ⟨?_, ?_, ?_⟩
  · rw [hlevel]
    exact le_min (add_nonneg hs.nonneg htime) (hs.nonneg.trans hs.le_cap)
  · rw [hlevel, refill_cap]
    exact min_le_right _ _
  · rw [refill_last hrate]

/-- Waiting raises the level by the rate times the time, at most. -/
theorem level_add (hs : b.Sound now) (hrate : 0 < b.rate) {dt : ℚ} (hdt : 0 ≤ dt) :
    b.level (now + dt) ≤ b.level now + b.rate * dt := by
  have hpaid : 0 ≤ b.rate * dt := mul_nonneg hrate.le hdt
  rw [level_eq hrate hs.last_le, level_eq hrate (hs.last_le.trans (le_add_of_nonneg_right hdt)),
    ← min_add_add_right]
  refine min_le_min ?_ (le_add_of_nonneg_right hpaid)
  apply le_of_eq
  ring

/-- Right after a refill the level is the tokens. -/
theorem level_of_last (hs : b.Sound now) (hrate : 0 < b.rate) (hlast : b.last = now) :
    b.level now = b.tokens := by
  rw [level_eq hrate hs.last_le, hlast, sub_self, zero_mul, add_zero, min_eq_left hs.le_cap]

/-- The bucket is refilled in the past at any later time too. -/
theorem Sound.later (hs : b.Sound now) {dt : ℚ} (hdt : 0 ≤ dt) : b.Sound (now + dt) :=
  ⟨hs.nonneg, hs.le_cap, hs.last_le.trans (le_add_of_nonneg_right hdt)⟩

theorem Sound.level_nonneg (hs : b.Sound now) (hrate : 0 < b.rate) : 0 ≤ b.level now :=
  (hs.refill hrate).nonneg

theorem Sound.level_le (hs : b.Sound now) (hrate : 0 < b.rate) : b.level now ≤ b.cap :=
  refill_cap b now ▸ (hs.refill hrate).le_cap

/-- The bucket after `n` tokens were taken. -/
def spent (b : Bucket) (n now : ℚ) : Bucket :=
  { b.refill now with tokens := b.level now - n }

theorem spent_rate (b : Bucket) (n now : ℚ) : (b.spent n now).rate = b.rate := refill_rate b now

theorem spent_cap (b : Bucket) (n now : ℚ) : (b.spent n now).cap = b.cap := refill_cap b now

theorem Sound.spent (hs : b.Sound now) (hrate : 0 < b.rate) {n : ℚ} (hn : 0 ≤ n)
    (hle : n ≤ b.level now) : (b.spent n now).Sound now where
  nonneg := sub_nonneg.mpr hle
  le_cap := (sub_le_self _ hn).trans (hs.refill hrate).le_cap
  last_le := (hs.refill hrate).last_le

/-- An attempt admits the bytes, and the tokens are taken; or it only refills. -/
theorem tryTake_cases (hrate : 0 < b.rate) (n now : ℚ) :
    (n ≤ b.level now ∧ b.tryTake n now = (.ok (), b.spent n now)) ∨
    (b.level now < n ∧
      b.tryTake n now = (.error ((n - b.level now) / b.rate), b.refill now)) := by
  rw [tryTake, if_neg (not_le.mpr hrate)]
  dsimp only
  by_cases hn : n ≤ (b.refill now).tokens
  · exact .inl ⟨hn, if_pos hn⟩
  · refine .inr ⟨not_le.mp hn, ?_⟩
    rw [if_neg hn, refill_rate]
    rfl

/-- Taking tokens lowers the level by as many. -/
theorem level_spent (hs : b.Sound now) (hrate : 0 < b.rate) {n : ℚ} (hn : 0 ≤ n)
    (hle : n ≤ b.level now) : (b.spent n now).level now = b.level now - n :=
  level_of_last (hs.spent hrate hn hle) ((spent_rate b n now).symm ▸ hrate) (refill_last hrate)

/-- A refill does not change the level. -/
theorem level_refill (hs : b.Sound now) (hrate : 0 < b.rate) :
    (b.refill now).level now = b.level now :=
  level_of_last (hs.refill hrate) ((refill_rate b now).symm ▸ hrate) (refill_last hrate)

end Bucket

/-! ## The bound on the rate -/

namespace Limited

/-- The limiter as a meter. -/
def meter (s : Limited) : Meter ℚ :=
  { now := s.now, level := s.limiter.inner.level s.now, log := s.admitted }

/-- What holds in a run in which the rate stays as it is. -/
structure Metered (bytesPerSec : U64) (s : Limited) : Prop where
  rate : s.limiter.inner.rate = bytesPerSec.val
  cap : s.limiter.inner.cap = max (bytesPerSec.val : ℚ) cdcMax
  sound : s.limiter.inner.Sound s.now
  bounded : s.meter.Bounded s.limiter.inner.cap s.limiter.inner.rate

theorem bucket_sound (bytesPerSec : U64) (now : ℚ) :
    (RateLimiter.bucket bytesPerSec now).Sound now where
  nonneg := le_max_of_le_right (Nat.cast_nonneg _)
  le_cap := le_refl _
  last_le := le_refl _

theorem Metered.start {bytesPerSec : U64} (hrate : 0 < bytesPerSec.val) (start : ℚ) :
    Metered bytesPerSec (new bytesPerSec start) where
  rate := rfl
  cap := rfl
  sound := bucket_sound bytesPerSec start
  bounded := by
    have hsound := bucket_sound bytesPerSec start
    have hpos : 0 < (RateLimiter.bucket bytesPerSec start).rate := Nat.cast_pos.mpr hrate
    have hlevel : (RateLimiter.bucket bytesPerSec start).level start =
        (RateLimiter.bucket bytesPerSec start).tokens := Bucket.level_of_last hsound hpos rfl
    refine Meter.Bounded.start hpos.le ?_ ?_
    · exact hlevel ▸ hsound.nonneg
    · exact hlevel ▸ hsound.le_cap

theorem Metered.wait {bytesPerSec : U64} {s : Limited} (hm : Metered bytesPerSec s)
    (hrate : 0 < s.limiter.inner.rate) {dt : ℚ} (hdt : 0 ≤ dt) :
    Metered bytesPerSec { s with now := s.now + dt } where
  rate := hm.rate
  cap := hm.cap
  sound := hm.sound.later hdt
  bounded := by
    have hlater := hm.sound.later hdt
    refine hm.bounded.wait hrate.le (le_add_of_nonneg_right hdt) (hlater.level_nonneg hrate)
      (hlater.level_le hrate) ?_
    show _ ≤ s.limiter.inner.level s.now + s.limiter.inner.rate * (s.now + dt - s.now)
    rw [add_sub_cancel_left]
    exact Bucket.level_add hm.sound hrate hdt

/-- An attempt that succeeds hands out its bytes, and one that fails changes nothing. -/
theorem Metered.take {bytesPerSec : U64} {s s' : Limited} (hm : Metered bytesPerSec s)
    (hrate : 0 < s.limiter.inner.rate) {n : U64} (hs : s.step (.take n) = some s') :
    Metered bytesPerSec s' := by
  have hn : (0 : ℚ) ≤ n.val := Nat.cast_nonneg _
  rcases Bucket.tryTake_cases hrate n.val s.now with ⟨hle, htake⟩ | ⟨-, htake⟩
  · simp only [Limited.step, htake] at hs
    cases hs
    refine ⟨?_, ?_, hm.sound.spent hrate hn hle, ?_⟩
    · exact (Bucket.spent_rate _ _ _).trans hm.rate
    · exact (Bucket.spent_cap _ _ _).trans hm.cap
    · show Meter.Bounded (s.limiter.inner.spent n.val s.now).cap
        (s.limiter.inner.spent n.val s.now).rate
        ⟨s.now, (s.limiter.inner.spent n.val s.now).level s.now,
          s.admitted ++ [(s.now, (n.val : ℚ))]⟩
      rw [Bucket.level_spent hm.sound hrate hn hle, Bucket.spent_cap, Bucket.spent_rate]
      exact hm.bounded.hand hrate.le hn (sub_nonneg.mpr hle) (sub_add_cancel _ _).le
  · simp only [Limited.step, htake] at hs
    cases hs
    refine ⟨?_, ?_, hm.sound.refill hrate, ?_⟩
    · exact (Bucket.refill_rate _ _).trans hm.rate
    · exact (Bucket.refill_cap _ _).trans hm.cap
    · show Meter.Bounded (s.limiter.inner.refill s.now).cap (s.limiter.inner.refill s.now).rate
        ⟨s.now, (s.limiter.inner.refill s.now).level s.now, s.admitted⟩
      rw [Bucket.level_refill hm.sound hrate, Bucket.refill_cap, Bucket.refill_rate]
      exact hm.bounded

theorem Metered.step {bytesPerSec : U64} (hpos : 0 < bytesPerSec.val) {s s' : Limited} {act : Act}
    (hm : Metered bytesPerSec s) (hok : s.KeepsRate act) (hs : s.step act = some s') :
    Metered bytesPerSec s' := by
  have hrate : 0 < s.limiter.inner.rate := hm.rate ▸ Nat.cast_pos.mpr hpos
  cases act with
  | wait dt =>
      simp only [Limited.step] at hs
      split at hs
      · rename_i hdt
        cases hs
        exact hm.wait hrate hdt
      · cases hs
  | take n => exact hm.take hrate hs
  | setRate bytesPerSec => exact absurd hok id

/-- **The limiter bounds the rate.** As long as the rate is not changed, the tokens stay
within the bounds of the bucket, and what all callers together are admitted in an interval is
at most the capacity and the rate times the length of the interval. -/
theorem admitted_le {bytesPerSec : U64} (hrate : 0 < bytesPerSec.val) {start : ℚ} {s : Limited}
    (hrun : Reaches step KeepsRate (new bytesPerSec start) s) :
    (0 ≤ s.limiter.inner.tokens ∧
      s.limiter.inner.tokens ≤ (RateLimiter.bucket bytesPerSec start).cap) ∧
    ∀ t length : ℚ, 0 ≤ length → within s.admitted t (t + length) ≤
      (RateLimiter.bucket bytesPerSec start).cap + bytesPerSec.val * length := by
  have hm : Metered bytesPerSec s := hrun.invariant (Metered.start hrate start)
    fun _ _ _ hv hok hstep => hv.step hrate hok hstep
  have hcap : s.limiter.inner.cap = (RateLimiter.bucket bytesPerSec start).cap := hm.cap
  refine ⟨⟨hm.sound.nonneg, hcap ▸ hm.sound.le_cap⟩, fun t length hlength => ?_⟩
  have hle := hm.bounded.within_le t (t + length) (le_add_of_nonneg_right hlength)
  rw [add_sub_cancel_left, hcap, hm.rate] at hle
  exact hle

/-- One second passes, and a fetch is admitted. -/
theorem admitted_le_second : ∃ s : Limited, Reaches step KeepsRate (new 1000 0) s ∧
    s.admitted = [(1, 500)] ∧ within s.admitted 0 (0 + 1) ≤
      (RateLimiter.bucket 1000 0).cap + (1000 : U64).val * 1 := by
  have hexec : (Lib.execute step [.wait 1, .take 500] (new 1000 0)).any
      (fun s => decide (s.admitted = [(1, 500)])) = true := by
    decide +kernel
  have hkeeps : ∀ act ∈ [Act.wait 1, .take 500], ∀ s : Limited, s.KeepsRate act := by
    simp [KeepsRate]
  obtain ⟨s, hrun, hs⟩ := Lib.exists_reaches_of_execute KeepsRate hkeeps hexec
  exact ⟨s, hrun, of_decide_eq_true hs, (admitted_le (by decide) hrun).2 0 1 zero_le_one⟩

end Limited

/-! ## Which requests are ever admitted -/

namespace Limited

/-- What holds in every run. -/
structure Intact (s : Limited) : Prop where
  cap : s.limiter.inner.cap = max s.limiter.inner.rate cdcMax
  sound : s.limiter.inner.Sound s.now

theorem Intact.step {s s' : Limited} {act : Act} (hi : s.Intact) (hs : s.step act = some s') :
    s'.Intact := by
  cases act with
  | wait dt =>
      simp only [Limited.step] at hs
      split at hs
      · rename_i hdt
        cases hs
        exact ⟨hi.cap, hi.sound.later hdt⟩
      · cases hs
  | take n =>
      by_cases hrate : 0 < s.limiter.inner.rate
      · rcases Bucket.tryTake_cases hrate n.val s.now with ⟨hle, htake⟩ | ⟨-, htake⟩
        · simp only [Limited.step, htake] at hs
          cases hs
          refine ⟨?_, hi.sound.spent hrate (Nat.cast_nonneg _) hle⟩
          show (s.limiter.inner.spent n.val s.now).cap =
            max (s.limiter.inner.spent n.val s.now).rate cdcMax
          rw [Bucket.spent_cap, Bucket.spent_rate]
          exact hi.cap
        · simp only [Limited.step, htake] at hs
          cases hs
          refine ⟨?_, hi.sound.refill hrate⟩
          show (s.limiter.inner.refill s.now).cap = max (s.limiter.inner.refill s.now).rate cdcMax
          rw [Bucket.refill_cap, Bucket.refill_rate]
          exact hi.cap
      · -- without a rate the bucket stays as it is
        have htake : s.limiter.inner.tryTake n.val s.now = (.ok (), s.limiter.inner) :=
          if_pos (not_lt.mp hrate)
        simp only [Limited.step, htake] at hs
        cases hs
        exact ⟨hi.cap, hi.sound⟩
  | setRate bytesPerSec =>
      cases hs
      exact ⟨rfl, bucket_sound bytesPerSec s.now⟩

end Limited

namespace RateLimiter

variable {b : Bucket} {now : ℚ}

/-- A request that fits into the bucket is admitted at the second attempt at the latest. -/
theorem acquire_of_le (hs : b.Sound now) (hrate : 0 < b.rate) {n : U64}
    (hn : (n.val : ℚ) ≤ b.cap) : (acquire n 2 { inner := b } now).isSome = true := by
  rcases Bucket.tryTake_cases hrate n.val now with ⟨-, htake⟩ | ⟨hlt, htake⟩
  · simp [acquire, htake]
  · have hrefilled := hs.refill hrate
    have hrate' : 0 < (b.refill now).rate := (b.refill_rate now).symm ▸ hrate
    have hwait : 0 ≤ ((n.val : ℚ) - b.level now) / b.rate :=
      div_nonneg (sub_nonneg.mpr hlt.le) hrate.le
    have hfull : (b.refill now).level (now + ((n.val : ℚ) - b.level now) / b.rate) = n.val := by
      have htokens : (b.refill now).tokens = b.level now := rfl
      have hgain : (now + ((n.val : ℚ) - b.level now) / b.rate - now) * b.rate =
          n.val - b.level now := by
        rw [add_sub_cancel_left, div_mul_cancel₀ _ hrate.ne']
      rw [Bucket.level_eq hrate' (hrefilled.later hwait).last_le, Bucket.refill_last hrate,
        Bucket.refill_rate, Bucket.refill_cap, htokens, hgain, add_sub_cancel]
      exact min_eq_left hn
    rcases Bucket.tryTake_cases hrate' n.val (now + ((n.val : ℚ) - b.level now) / b.rate)
      with ⟨-, hagain⟩ | ⟨hstill, -⟩
    · simp [acquire, htake, hagain]
    · exact absurd hstill (not_lt.mpr hfull.ge)

/-- A request above the capacity is never admitted. -/
theorem acquire_of_lt (hs : b.Sound now) (hrate : 0 < b.rate) {n : U64}
    (hn : b.cap < n.val) (fuel : Nat) : acquire n fuel { inner := b } now = none := by
  induction fuel generalizing b now with
  | zero => rfl
  | succ fuel ih =>
      have hlt : b.level now < n.val := (hs.level_le hrate).trans_lt hn
      rcases Bucket.tryTake_cases hrate n.val now with ⟨hle, -⟩ | ⟨-, htake⟩
      · exact absurd hle (not_le.mpr hlt)
      · have hwait : 0 ≤ ((n.val : ℚ) - b.level now) / b.rate :=
          div_nonneg (sub_nonneg.mpr hlt.le) hrate.le
        simp only [acquire, htake]
        exact ih ((hs.refill hrate).later hwait) ((b.refill_rate now).symm ▸ hrate)
          ((b.refill_cap now).symm ▸ hn)

/-- **A fetch is admitted exactly when its chunk fits into the bucket.** In every state of the
limiter with a rate, the loop of a caller that is alone ends exactly when it asks for no more
than a second of rate or our own longest chunk. -/
theorem acquire_returns_iff {bytesPerSec : U64} {start : ℚ} {s : Limited}
    (hrun : Reaches Limited.step anyStep (Limited.new bytesPerSec start) s)
    (hrate : 0 < s.limiter.inner.rate) (n : U64) :
    (∃ fuel, (acquire n fuel s.limiter s.now).isSome = true) ↔
      (n.val : ℚ) ≤ max s.limiter.inner.rate cdcMax := by
  have hi : s.Intact := hrun.invariant ⟨rfl, Limited.bucket_sound bytesPerSec start⟩
    fun _ _ _ hv _ hstep => hv.step hstep
  rw [← hi.cap]
  constructor
  · rintro ⟨fuel, hfuel⟩
    by_contra hn
    rw [acquire_of_lt hi.sound hrate (not_le.mp hn) fuel] at hfuel
    cases hfuel
  · intro hn
    exact ⟨2, acquire_of_le hi.sound hrate hn⟩

/-- The longest chunk of our own is admitted at one byte a second. -/
theorem acquire_returns_own : 0 < (Limited.new 1 0).limiter.inner.rate ∧
    ∃ fuel, (acquire 262144 fuel (Limited.new 1 0).limiter 0).isSome = true := by
  have hrate : 0 < (Limited.new 1 0).limiter.inner.rate := by
    show (0 : ℚ) < ((1 : Nat) : ℚ)
    norm_num
  refine ⟨hrate, (acquire_returns_iff (s := Limited.new 1 0) .refl hrate 262144).mpr ?_⟩
  exact le_max_right _ _

/-- **A pull can wait forever.** A manifest with one chunk of 262145 bytes is accepted, and at
one byte a second its fetch is never admitted. -/
theorem acquire_never_returns : ∃ (refs : List ChunkRef) (size : Nat) (r : ChunkRef) (n : U64),
    checkManifest refs size = .ok () ∧ r ∈ refs ∧ r.len < 2 ^ 32 ∧ n.val = r.len ∧
    ∃ s : Limited, Reaches Limited.step anyStep (Limited.new 1 0) s ∧
      0 < s.limiter.inner.rate ∧ ∀ fuel, acquire n fuel s.limiter s.now = none := by
  have hrate : 0 < (Limited.new 1 0).limiter.inner.rate := by
    show (0 : ℚ) < ((1 : Nat) : ℚ)
    norm_num
  refine ⟨[⟨0, 262145⟩], 262145, ⟨0, 262145⟩, 262145, rfl, List.mem_singleton_self _,
    by decide, rfl, Limited.new 1 0, .refl, hrate, fun fuel => ?_⟩
  refine acquire_of_lt (Limited.bucket_sound 1 0) hrate ?_ fuel
  show max (((1 : Nat) : ℚ)) ((262144 : Nat) : ℚ) < ((262145 : Nat) : ℚ)
  norm_num

end RateLimiter

end Tazamun
