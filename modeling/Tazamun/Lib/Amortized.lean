import Mathlib.Algebra.Order.Field.Basic
import Mathlib.Algebra.BigOperators.Group.List.Basic
import Mathlib.Tactic.Linarith
import Mathlib.Tactic.Ring

set_option autoImplicit false

/-! # What a metered resource hands out in an interval

A meter hands out amounts over time. It has a level, which is never negative and never above
`cap`; waiting raises the level by at most `rate` for each unit of time, and handing out an
amount lowers it by that amount. The clock never goes back.

What the meter hands out between two moments is then at most `cap` and `rate` times the time
between them (`Meter.Bounded.within_le`). The invariant is the usual one of an amortised
argument: what was handed out since a moment, together with what is still left, has been paid
for by the full level at that moment and by the time since then.
-/

namespace Lib

variable {K : Type} [Field K] [LinearOrder K]

/-- The sum of the amounts of a log that were handed out from `t` up to `u`. -/
def within (log : List (K × K)) (t u : K) : K :=
  ((log.filter fun e => decide (t ≤ e.1 ∧ e.1 ≤ u)).map Prod.snd).sum

/-- A meter: the clock, the level, and what was handed out, with the time. -/
structure Meter (K : Type) where
  now : K
  level : K
  log : List (K × K)

@[simp]
theorem within_nil (t u : K) : within [] t u = 0 := rfl

/-- An entry counts when its time is in the interval. -/
theorem within_snoc (log : List (K × K)) (e : K × K) (t u : K) :
    within (log ++ [e]) t u = within log t u + if t ≤ e.1 ∧ e.1 ≤ u then e.2 else 0 := by
  unfold within
  rw [List.filter_append, List.map_append, List.sum_append]
  by_cases he : t ≤ e.1 ∧ e.1 ≤ u
  · simp [he]
  · simp [he]

/-- What lies before the interval does not count. -/
theorem within_of_past {log : List (K × K)} {now t : K} (hpast : ∀ e ∈ log, e.1 ≤ now)
    (ht : now < t) (u : K) : within log t u = 0 := by
  have hnone : log.filter (fun e => decide (t ≤ e.1 ∧ e.1 ≤ u)) = [] := by
    rw [List.filter_eq_nil_iff]
    intro e he hin
    have hle : t ≤ e.1 := (of_decide_eq_true hin).1
    exact absurd (hle.trans (hpast e he)) (not_le.mpr ht)
  rw [within, hnone]
  rfl

namespace Meter

/-- One step of a meter. -/
inductive Pays (cap rate : K) (m : Meter K) : Meter K → Prop
  | wait {now level : K} (hnow : m.now ≤ now) (h0 : 0 ≤ level) (hcap : level ≤ cap)
      (hlevel : level ≤ m.level + rate * (now - m.now)) : Pays cap rate m ⟨now, level, m.log⟩
  | hand {n level : K} (hn : 0 ≤ n) (h0 : 0 ≤ level) (hlevel : level + n ≤ m.level) :
      Pays cap rate m ⟨m.now, level, m.log ++ [(m.now, n)]⟩

/-- What holds of a meter at any time. -/
structure Bounded (cap rate : K) (m : Meter K) : Prop where
  level_nonneg : 0 ≤ m.level
  level_le : m.level ≤ cap
  past : ∀ e ∈ m.log, e.1 ≤ m.now
  /-- What is left was paid for too, as long as the interval is not over. -/
  reserve : ∀ t u, t ≤ m.now → m.now ≤ u →
    within m.log t u + m.level ≤ cap + rate * (m.now - t)
  within_le : ∀ t u, t ≤ u → within m.log t u ≤ cap + rate * (u - t)

variable [IsStrictOrderedRing K]

/-- A meter that has handed out nothing. -/
theorem Bounded.start {cap rate now level : K} (hrate : 0 ≤ rate) (h0 : 0 ≤ level)
    (hcap : level ≤ cap) : Bounded cap rate ⟨now, level, []⟩ where
  level_nonneg := h0
  level_le := hcap
  past := fun e he => by cases he
  reserve := fun t u ht _ => by
    have hpaid : 0 ≤ rate * (now - t) := mul_nonneg hrate (sub_nonneg.mpr ht)
    rw [within_nil]
    show 0 + level ≤ cap + rate * (now - t)
    linarith
  within_le := fun t u htu => by
    have hpaid : 0 ≤ rate * (u - t) := mul_nonneg hrate (sub_nonneg.mpr htu)
    rw [within_nil]
    linarith

/-- Waiting pays for what may be handed out afterwards. -/
theorem Bounded.wait {cap rate : K} {m : Meter K} (hm : Bounded cap rate m) {now level : K}
    (hrate : 0 ≤ rate) (hnow : m.now ≤ now) (h0 : 0 ≤ level) (hcap : level ≤ cap)
    (hlevel : level ≤ m.level + rate * (now - m.now)) :
    Bounded cap rate ⟨now, level, m.log⟩ where
  level_nonneg := h0
  level_le := hcap
  past := fun e he => (hm.past e he).trans hnow
  reserve := by
    intro t u ht hu
    show within m.log t u + level ≤ cap + rate * (now - t)
    by_cases hstarted : t ≤ m.now
    · have hold := hm.reserve t u hstarted (hnow.trans hu)
      calc within m.log t u + level
          ≤ within m.log t u + m.level + rate * (now - m.now) := by linarith
        _ ≤ cap + rate * (m.now - t) + rate * (now - m.now) := by linarith
        _ = cap + rate * (now - t) := by ring
    · -- the interval begins while the meter waits: nothing of it is handed out yet
      have hpaid : 0 ≤ rate * (now - t) := mul_nonneg hrate (sub_nonneg.mpr ht)
      rw [within_of_past hm.past (not_le.mp hstarted)]
      linarith
  within_le := hm.within_le

/-- What is handed out comes from the level. -/
theorem Bounded.hand {cap rate : K} {m : Meter K} (hm : Bounded cap rate m) {n level : K}
    (hrate : 0 ≤ rate) (hn : 0 ≤ n) (h0 : 0 ≤ level) (hlevel : level + n ≤ m.level) :
    Bounded cap rate ⟨m.now, level, m.log ++ [(m.now, n)]⟩ where
  level_nonneg := h0
  level_le := by
    show level ≤ cap
    linarith [hm.level_le]
  past := by
    intro e he
    rcases List.mem_append.mp he with he | he
    · exact hm.past e he
    · rw [List.mem_singleton.mp he]
  reserve := by
    intro t u ht hu
    show within (m.log ++ [(m.now, n)]) t u + level ≤ cap + rate * (m.now - t)
    rw [within_snoc, if_pos ⟨ht, hu⟩]
    linarith [hm.reserve t u ht hu]
  within_le := by
    intro t u htu
    show within (m.log ++ [(m.now, n)]) t u ≤ cap + rate * (u - t)
    rw [within_snoc]
    split
    · rename_i hin
      have hpaid : rate * (m.now - t) ≤ rate * (u - t) :=
        mul_le_mul_of_nonneg_left (sub_le_sub_right hin.2 t) hrate
      linarith [hm.reserve t u hin.1 hin.2]
    · rw [add_zero]
      exact hm.within_le t u htu

/-- **Every step keeps the bound.** -/
theorem Pays.bounded {cap rate : K} {m m' : Meter K} (hs : Pays cap rate m m')
    (hrate : 0 ≤ rate) (hm : Bounded cap rate m) : Bounded cap rate m' := by
  cases hs with
  | wait hnow h0 hcap hlevel => exact hm.wait hrate hnow h0 hcap hlevel
  | hand hn h0 hlevel => exact hm.hand hrate hn h0 hlevel

end Meter

end Lib
