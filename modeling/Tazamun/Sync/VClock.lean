import Tazamun.Basic.Types

set_option autoImplicit false

/-! # Version vectors

`sync/vclock.rs`: a version vector maps endpoint ids to counters, and an absent counter
counts as zero. `inc` saturates, `merge` takes the larger counter of each id, and `compare`
walks the ids of both vectors, stopping as soon as each side has been ahead once.

What the rest of the development uses is that `compare` decides the pointwise order
`VClock.Le`, and that `merge` is its least upper bound. In the terms of `compare` alone these
are the laws of `compare_merge_laws`.
-/

namespace Tazamun

abbrev VClock (Id : Type) [Ord Id] : Type := Map Id U64

/-- Causal relation of one clock to another, from the first argument's view. -/
inductive Causality where
  | equal
  | after
  | before
  | concurrent
deriving DecidableEq

/-- The same relation from the second argument's view. -/
def Causality.mirror : Causality → Causality
  | .equal => .equal
  | .after => .before
  | .before => .after
  | .concurrent => .concurrent

variable {Id : Type} [LinearOrder Id]

namespace VClock

/-- The counter of `id`, zero if there is none. -/
def count (vv : VClock Id) (id : Id) : U64 := vv[id]?.getD 0

/-- Increments the component of `id`. -/
def inc (vv : VClock Id) (id : Id) : VClock Id := vv.insert id (saturatingSucc (vv.count id))

/-- Component-wise maximum. -/
def merge (a b : VClock Id) : VClock Id :=
  b.toList.foldl
    (fun out e => out.insert e.1 (if out.count e.1 < e.2 then e.2 else out.count e.1)) a

/-- The outcome for the two flags of the loop. -/
def outcome : Bool → Bool → Causality
  | false, false => .equal
  | true, false => .after
  | false, true => .before
  | true, true => .concurrent

/-- The loop of `compare` over the ids still to come. -/
def compareLoop (a b : VClock Id) : List Id → Bool → Bool → Causality
  | [], aGt, bGt => outcome aGt bGt
  | k :: ks, aGt, bGt =>
      let aGt := aGt || decide (b.count k < a.count k)
      let bGt := bGt || decide (a.count k < b.count k)
      if aGt && bGt then .concurrent else compareLoop a b ks aGt bGt

/-- Compares `a` against `b`. -/
def compare (a b : VClock Id) : Causality := compareLoop a b (a.keys ++ b.keys) false false

/-! ## The pointwise order -/

/-- Every counter of `a` is at most that of `b`. -/
def Le (a b : VClock Id) : Prop := ∀ k, a.count k ≤ b.count k

theorem Le.refl (a : VClock Id) : Le a a := fun _ => le_rfl

theorem Le.trans {a b c : VClock Id} (h : Le a b) (h' : Le b c) : Le a c :=
  fun k => (h k).trans (h' k)

theorem count_inc (vv : VClock Id) (id k : Id) :
    (inc vv id).count k = if id = k then saturatingSucc (vv.count k) else vv.count k := by
  unfold inc count
  rw [Map.get_insert]
  split
  · rename_i h
    rw [h]
    rfl
  · rfl

theorem le_inc (vv : VClock Id) (id : Id) : Le vv (inc vv id) := by
  intro k
  rw [count_inc]
  split
  · exact le_saturatingSucc _
  · exact le_rfl

/-- An increment is visible unless the counter is saturated. -/
theorem not_inc_le {vv w : VClock Id} {id : Id} (h : w.count id ≤ vv.count id)
    (hmax : vv.count id ≠ U64.max) : ¬ Le (inc vv id) w := by
  intro hle
  have := hle id
  rw [count_inc, if_pos rfl] at this
  exact absurd (this.trans h) (not_le.mpr (lt_saturatingSucc hmax))

theorem count_empty (k : Id) : count (∅ : VClock Id) k = 0 := by
  simp [count]

/-- The loop of `merge`, from any starting point. -/
theorem count_mergeLoop (l : List (Id × U64)) (a : VClock Id) (k : Id) {bound : U64}
    (hbound : ∀ e ∈ l, e.1 = k → e.2 ≤ bound) :
    let out := l.foldl
      (fun out e => out.insert e.1 (if out.count e.1 < e.2 then e.2 else out.count e.1)) a
    a.count k ≤ out.count k ∧ (∀ e ∈ l, e.1 = k → e.2 ≤ out.count k) ∧
      out.count k ≤ max (a.count k) bound := by
  induction l generalizing a with
  | nil => exact ⟨le_rfl, by simp, le_max_left _ _⟩
  | cons e l ih =>
      obtain ⟨hle, hmem, hub⟩ := ih
        (a.insert e.1 (if a.count e.1 < e.2 then e.2 else a.count e.1))
        fun e' he' => hbound e' (List.mem_cons_of_mem _ he')
      have hstep : count (a.insert e.1 (if a.count e.1 < e.2 then e.2 else a.count e.1)) k =
          if e.1 = k then max (a.count k) e.2 else a.count k := by
        unfold count
        rw [Map.get_insert]
        split
        · rename_i hk
          subst hk
          rw [Option.getD_some, max_def_lt]
        · rfl
      rw [hstep] at hle hub
      by_cases hk : e.1 = k
      · rw [if_pos hk] at hle hub
        refine ⟨(le_max_left _ _).trans hle, ?_, hub.trans ?_⟩
        · simp only [List.mem_cons, forall_eq_or_imp]
          exact ⟨fun _ => (le_max_right _ _).trans hle, hmem⟩
        · have := hbound e (List.mem_cons_self ..) hk
          exact max_le (max_le (le_max_left _ _) (this.trans (le_max_right _ _)))
            (le_max_right _ _)
      · rw [if_neg hk] at hle hub
        refine ⟨hle, ?_, hub⟩
        simp only [List.mem_cons, forall_eq_or_imp]
        exact ⟨fun h => absurd h hk, hmem⟩

theorem count_merge (a b : VClock Id) (k : Id) :
    (merge a b).count k = max (a.count k) (b.count k) := by
  have hbound : ∀ e ∈ b.toList, e.1 = k → e.2 ≤ b.count k := by
    rintro ⟨k', v⟩ he rfl
    rw [Std.ExtTreeMap.mem_toList_iff_getElem?_eq_some] at he
    simp [count, he]
  obtain ⟨hle, hmem, hub⟩ := count_mergeLoop b.toList a k hbound
  refine le_antisymm hub (max_le hle ?_)
  cases hk : b[k]? with
  | none => simp [count, hk]
  | some v =>
      have := hmem (k, v) (Std.ExtTreeMap.mem_toList_iff_getElem?_eq_some.mpr hk) rfl
      rw [show b.count k = v by simp [count, hk]]
      exact this

theorem le_merge_left (a b : VClock Id) : Le a (merge a b) := fun k => by
  rw [count_merge]
  exact le_max_left _ _

theorem le_merge_right (a b : VClock Id) : Le b (merge a b) := fun k => by
  rw [count_merge]
  exact le_max_right _ _

theorem merge_le {a b c : VClock Id} (ha : Le a c) (hb : Le b c) : Le (merge a b) c := fun k => by
  rw [count_merge]
  exact max_le (ha k) (hb k)

/-! ## What `compare` decides -/

theorem compareLoop_eq (a b : VClock Id) (ks : List Id) (x y : Bool) :
    compareLoop a b ks x y = outcome
      (x || ks.any fun k => decide (b.count k < a.count k))
      (y || ks.any fun k => decide (a.count k < b.count k)) := by
  induction ks generalizing x y with
  | nil => simp [compareLoop]
  | cons k ks ih =>
      simp only [compareLoop, List.any_cons]
      split
      · rename_i hboth
        rw [Bool.and_eq_true] at hboth
        rw [← Bool.or_assoc, ← Bool.or_assoc, hboth.1, hboth.2]
        rfl
      · rw [ih, Bool.or_assoc, Bool.or_assoc]

/-- No id outside the keys of both vectors can make a difference. -/
theorem any_lt_iff (a b : VClock Id) :
    ((a.keys ++ b.keys).any fun k => decide (b.count k < a.count k)) = true ↔ ¬ Le a b := by
  simp only [List.any_eq_true, decide_eq_true_eq, Le, not_forall, not_le]
  constructor
  · rintro ⟨k, -, hk⟩
    exact ⟨k, hk⟩
  · rintro ⟨k, hk⟩
    refine ⟨k, List.mem_append_left _ ?_, hk⟩
    rw [Std.ExtTreeMap.mem_keys]
    by_contra hmem
    have : a.count k = 0 := by simp [count, Std.ExtTreeMap.getElem?_eq_none hmem]
    rw [this] at hk
    exact absurd hk (Fin.not_lt_zero _)

theorem any_lt_iff' (a b : VClock Id) :
    ((a.keys ++ b.keys).any fun k => decide (a.count k < b.count k)) = true ↔ ¬ Le b a := by
  rw [← any_lt_iff b a, List.any_append, List.any_append, Bool.or_comm]

/-- **`compare` decides the pointwise order.** -/
theorem compare_spec (a b : VClock Id) :
    (compare a b = .equal ↔ Le a b ∧ Le b a) ∧ (compare a b = .before ↔ Le a b ∧ ¬ Le b a) ∧
      (compare a b = .after ↔ ¬ Le a b ∧ Le b a) ∧
      (compare a b = .concurrent ↔ ¬ Le a b ∧ ¬ Le b a) := by
  have ha := any_lt_iff a b
  have hb := any_lt_iff' a b
  unfold compare
  rw [compareLoop_eq, Bool.false_or, Bool.false_or]
  cases hx : (a.keys ++ b.keys).any fun k => decide (b.count k < a.count k) <;>
    cases hy : (a.keys ++ b.keys).any fun k => decide (a.count k < b.count k) <;>
    rw [hx] at ha <;> rw [hy] at hb <;>
    simp only [Bool.false_eq_true, false_iff, not_not, true_iff] at ha hb <;>
    simp [outcome, ha, hb]

theorem compare_eq_equal {a b : VClock Id} : compare a b = .equal ↔ Le a b ∧ Le b a :=
  (compare_spec a b).1

theorem compare_eq_before {a b : VClock Id} : compare a b = .before ↔ Le a b ∧ ¬ Le b a :=
  (compare_spec a b).2.1

theorem compare_eq_after {a b : VClock Id} : compare a b = .after ↔ ¬ Le a b ∧ Le b a :=
  (compare_spec a b).2.2.1

theorem compare_eq_concurrent {a b : VClock Id} :
    compare a b = .concurrent ↔ ¬ Le a b ∧ ¬ Le b a :=
  (compare_spec a b).2.2.2

/-! ## The laws of `compare` and `merge` -/

/-- `a` has seen everything that `b` has. -/
def Covers (a b : VClock Id) : Prop := compare a b = .equal ∨ compare a b = .after

theorem covers_iff {a b : VClock Id} : Covers a b ↔ Le b a := by
  rw [Covers, compare_eq_equal, compare_eq_after]
  constructor
  · rintro (⟨-, h⟩ | ⟨-, h⟩)
    · exact h
    · exact h
  · intro h
    by_cases hle : Le a b
    · exact .inl ⟨hle, h⟩
    · exact .inr ⟨hle, h⟩

theorem compare_mirror (a b : VClock Id) : compare b a = (compare a b).mirror := by
  cases h : compare a b with
  | equal => exact compare_eq_equal.mpr (compare_eq_equal.mp h).symm
  | after => exact compare_eq_before.mpr (compare_eq_after.mp h).symm
  | before => exact compare_eq_after.mpr (compare_eq_before.mp h).symm
  | concurrent => exact compare_eq_concurrent.mpr (compare_eq_concurrent.mp h).symm

theorem after_trans {a b c : VClock Id} (hab : compare a b = .after) (hbc : compare b c = .after) :
    compare a c = .after := by
  rw [compare_eq_after] at hab hbc ⊢
  exact ⟨fun hac => hab.1 (hac.trans hbc.2), hbc.2.trans hab.2⟩

/-- Vectors with the same counters are equal to `compare`, whatever their keys. -/
theorem compare_eq_equal_of_count {a b : VClock Id} (h : ∀ k, a.count k = b.count k) :
    compare a b = .equal :=
  compare_eq_equal.mpr ⟨fun k => (h k).le, fun k => (h k).ge⟩

/-- **The algebra of version vectors**: `compare` is the pointwise order, seen from either side;
`merge` is the least upper bound. -/
theorem compare_merge_laws (a b c : VClock Id) :
    ((compare a b = .equal ↔ ∀ k, a.count k = b.count k) ∧
      (compare a b = .after ↔ (∀ k, b.count k ≤ a.count k) ∧ ∃ k, b.count k < a.count k) ∧
      (compare a b = .before ↔ (∀ k, a.count k ≤ b.count k) ∧ ∃ k, a.count k < b.count k) ∧
      (compare a b = .concurrent ↔ (∃ k, b.count k < a.count k) ∧ ∃ k, a.count k < b.count k)) ∧
    compare b a = (compare a b).mirror ∧
    (compare a b = .after → compare b c = .after → compare a c = .after) ∧
    (Covers (merge a b) a ∧ Covers (merge a b) b ∧
      (Covers c a → Covers c b → Covers c (merge a b))) ∧
    compare (merge a b) (merge b a) = .equal ∧
    compare (merge (merge a b) c) (merge a (merge b c)) = .equal ∧
    compare (merge a a) a = .equal := by
  have hlt : ∀ x y : VClock Id, ¬ Le x y ↔ ∃ k, y.count k < x.count k := by
    intro x y
    simp only [Le, not_forall, not_le]
  refine ⟨⟨?_, ?_, ?_, ?_⟩, compare_mirror a b, after_trans, ⟨?_, ?_, ?_⟩, ?_, ?_, ?_⟩
  · rw [compare_eq_equal]
    exact ⟨fun h k => le_antisymm (h.1 k) (h.2 k), fun h => ⟨fun k => (h k).le, fun k => (h k).ge⟩⟩
  · rw [compare_eq_after, hlt, and_comm]
    rfl
  · rw [compare_eq_before, hlt]
    rfl
  · rw [compare_eq_concurrent, hlt, hlt]
  · exact covers_iff.mpr (le_merge_left a b)
  · exact covers_iff.mpr (le_merge_right a b)
  · intro ha hb
    exact covers_iff.mpr (merge_le (covers_iff.mp ha) (covers_iff.mp hb))
  · refine compare_eq_equal_of_count fun k => ?_
    rw [count_merge, count_merge, max_comm]
  · refine compare_eq_equal_of_count fun k => ?_
    simp only [count_merge]
    exact max_assoc _ _ _
  · refine compare_eq_equal_of_count fun k => ?_
    rw [count_merge, max_self]

end VClock

end Tazamun
