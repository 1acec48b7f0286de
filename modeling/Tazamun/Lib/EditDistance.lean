import Mathlib.Tactic

set_option autoImplicit false

/-! # Edits

`Align a b k` says that the word `a` becomes `b` by `k` edits, where an edit changes a letter,
drops one, adds one, or swaps two neighbours, and no letter is edited twice. The least number of
such edits is computed by a recursion over the two words (`distance`), which takes the best of the
last edits that are possible: **`distance_isLeast`**.

Read backwards, an alignment is one of the words read backwards (`Align.reverse`), so the
recursion may as well begin at the other end (`distance_reverse`). This is what a table needs that
is filled from the beginnings of the words on (`table_succ`).
-/

namespace Lib

variable {α : Type}

/-- Each edit is made at the beginning of what is left. -/
inductive Align : List α → List α → Nat → Prop
  | nil : Align [] [] 0
  | keep (x : α) {a b : List α} {k : Nat} : Align a b k → Align (x :: a) (x :: b) k
  | change (x y : α) {a b : List α} {k : Nat} : Align a b k → Align (x :: a) (y :: b) (k + 1)
  | drop (x : α) {a b : List α} {k : Nat} : Align a b k → Align (x :: a) b (k + 1)
  | add (y : α) {a b : List α} {k : Nat} : Align a b k → Align a (y :: b) (k + 1)
  | swap (x y : α) {a b : List α} {k : Nat} :
      Align a b k → Align (x :: y :: a) (y :: x :: b) (k + 1)

variable [DecidableEq α]

/-- The edits of one letter, or none. -/
def cost (x y : α) : Nat := if x = y then 0 else 1

/-- The best of the last edits of one letter on either side. -/
def best (kept dropped added c : Nat) : Nat := min (min (kept + c) (dropped + 1)) (added + 1)

/-- The least number of edits. -/
def distance : List α → List α → Nat
  | [], b => b.length
  | _ :: a, [] => a.length + 1
  | x :: a, y :: b =>
      let one := best (distance a b) (distance a (y :: b)) (distance (x :: a) b) (cost x y)
      match a, b with
      | x' :: a', y' :: b' => if x = y' ∧ x' = y then min one (distance a' b' + 1) else one
      | _, _ => one
termination_by a b => a.length + b.length

/-! ## The recursion -/

@[simp] theorem distance_nil_left (b : List α) : distance [] b = b.length := by
  rw [distance]

@[simp] theorem distance_nil_right (a : List α) : distance a [] = a.length := by
  cases a with
  | nil => rw [distance_nil_left]
  | cons x a => rw [distance, List.length_cons]

/-- The edits of one letter at the beginning. -/
def oneEdit (x : α) (a : List α) (y : α) (b : List α) : Nat :=
  best (distance a b) (distance a (y :: b)) (distance (x :: a) b) (cost x y)

theorem distance_swap (x y : α) (a b : List α) :
    distance (x :: y :: a) (y :: x :: b) =
      min (oneEdit x (y :: a) y (x :: b)) (distance a b + 1) := by
  rw [distance, if_pos ⟨rfl, rfl⟩]
  rfl

/-- The words do not begin with the same two letters, swapped. -/
def Unswapped (x : α) (a : List α) (y : α) (b : List α) : Prop :=
  ∀ a' b', a = y :: a' → b ≠ x :: b'

theorem distance_unswapped {x y : α} {a b : List α} (h : Unswapped x a y b) :
    distance (x :: a) (y :: b) = oneEdit x a y b := by
  cases a with
  | nil =>
      rw [distance]
      · rfl
      · rintro x' a' y' b' ⟨⟩
  | cons x' a =>
      cases b with
      | nil =>
          rw [distance]
          · rfl
          · rintro x' a' y' b' - ⟨⟩
      | cons y' b =>
          have hnot : ¬ (x = y' ∧ x' = y) := by
            rintro ⟨rfl, rfl⟩
            exact h a b rfl rfl
          rw [distance, if_neg hnot]
          rfl

/-- Either way. -/
theorem distance_cases (x : α) (a : List α) (y : α) (b : List α) :
    Unswapped x a y b ∧ distance (x :: a) (y :: b) = oneEdit x a y b ∨
      ∃ a' b', a = y :: a' ∧ b = x :: b' ∧
        distance (x :: a) (y :: b) = min (oneEdit x a y b) (distance a' b' + 1) := by
  by_cases h : Unswapped x a y b
  · exact .inl ⟨h, distance_unswapped h⟩
  · unfold Unswapped at h
    push Not at h
    obtain ⟨a', b', rfl, rfl⟩ := h
    exact .inr ⟨a', b', rfl, rfl, distance_swap x y a' b'⟩

theorem distance_le_oneEdit (x : α) (a : List α) (y : α) (b : List α) :
    distance (x :: a) (y :: b) ≤ oneEdit x a y b := by
  rcases distance_cases x a y b with ⟨-, h⟩ | ⟨a', b', -, -, h⟩
  · exact h.le
  · rw [h]
    exact min_le_left _ _

theorem oneEdit_le (x : α) (a : List α) (y : α) (b : List α) :
    oneEdit x a y b ≤ distance a b + cost x y ∧ oneEdit x a y b ≤ distance a (y :: b) + 1 ∧
      oneEdit x a y b ≤ distance (x :: a) b + 1 := by
  unfold oneEdit best
  refine ⟨?_, ?_, ?_⟩ <;> omega

/-! ## The least number -/

/-- No alignment has fewer edits. -/
theorem distance_le {a b : List α} {k : Nat} (h : Align a b k) : distance a b ≤ k := by
  induction h with
  | nil => simp
  | @keep x a b k _ ih =>
      have hle := (distance_le_oneEdit x a x b).trans (oneEdit_le x a x b).1
      rw [cost, if_pos rfl] at hle
      omega
  | @change x y a b k _ ih =>
      have hle := (distance_le_oneEdit x a y b).trans (oneEdit_le x a y b).1
      have hcost : cost x y ≤ 1 := by
        unfold cost
        split <;> omega
      omega
  | @drop x a b k _ ih =>
      cases b with
      | nil =>
          rw [distance_nil_right] at ih ⊢
          rw [List.length_cons]
          omega
      | cons y b =>
          have hle := (distance_le_oneEdit x a y b).trans (oneEdit_le x a y b).2.1
          omega
  | @add y a b k _ ih =>
      cases a with
      | nil =>
          rw [distance_nil_left] at ih ⊢
          rw [List.length_cons]
          omega
      | cons x a =>
          have hle := (distance_le_oneEdit x a y b).trans (oneEdit_le x a y b).2.2
          omega
  | @swap x y a b k _ ih =>
      have hle : distance (x :: y :: a) (y :: x :: b) ≤ distance a b + 1 := by
        rw [distance_swap]
        exact min_le_right _ _
      omega

omit [DecidableEq α] in
theorem align_left (a : List α) : Align a [] a.length := by
  induction a with
  | nil => exact .nil
  | cons x a ih => exact .drop x ih

omit [DecidableEq α] in
theorem align_right (b : List α) : Align [] b b.length := by
  induction b with
  | nil => exact .nil
  | cons y b ih => exact .add y ih

/-- There is an alignment with so many edits. -/
theorem align_distance (a b : List α) : Align a b (distance a b) := by
  induction hn : a.length + b.length using Nat.strongRecOn generalizing a b with
  | _ n ih =>
      subst hn
      cases a with
      | nil =>
          rw [distance_nil_left]
          exact align_right b
      | cons x a =>
          cases b with
          | nil =>
              rw [distance_nil_right]
              exact align_left (x :: a)
          | cons y b =>
              have hkept : Align (x :: a) (y :: b) (distance a b + cost x y) := by
                have h := ih _ (by simp only [List.length_cons]; omega) a b rfl
                unfold cost
                by_cases hxy : x = y
                · subst hxy
                  rw [if_pos rfl]
                  exact .keep x h
                · rw [if_neg hxy]
                  exact .change x y h
              have hdropped : Align (x :: a) (y :: b) (distance a (y :: b) + 1) :=
                .drop x (ih _ (by simp only [List.length_cons]; omega) a (y :: b) rfl)
              have hadded : Align (x :: a) (y :: b) (distance (x :: a) b + 1) :=
                .add y (ih _ (by simp only [List.length_cons]; omega) (x :: a) b rfl)
              have hone : Align (x :: a) (y :: b) (oneEdit x a y b) := by
                unfold oneEdit best
                rcases min_choice (min (distance a b + cost x y) (distance a (y :: b) + 1))
                  (distance (x :: a) b + 1) with h | h
                · rw [h]
                  rcases min_choice (distance a b + cost x y) (distance a (y :: b) + 1) with h | h
                  · rw [h]
                    exact hkept
                  · rw [h]
                    exact hdropped
                · rw [h]
                  exact hadded
              rcases distance_cases x a y b with ⟨-, h⟩ | ⟨a', b', rfl, rfl, h⟩
              · rw [h]
                exact hone
              · rw [h]
                rcases min_choice (oneEdit x (y :: a') y (x :: b')) (distance a' b' + 1) with h | h
                · rw [h]
                  exact hone
                · rw [h]
                  exact .swap x y (ih _ (by simp only [List.length_cons]; omega) a' b' rfl)

/-- **The recursion finds the least number of edits.** -/
theorem distance_isLeast (a b : List α) : IsLeast {k | Align a b k} (distance a b) :=
  ⟨align_distance a b, fun _ h => distance_le h⟩

/-! ## Backwards -/

omit [DecidableEq α] in
theorem Align.append {a b a' b' : List α} {k k' : Nat} (h : Align a b k) (h' : Align a' b' k') :
    Align (a ++ a') (b ++ b') (k + k') := by
  induction h with
  | nil => simpa using h'
  | keep x _ ih => exact .keep x ih
  | change x y _ ih =>
      rw [Nat.add_right_comm]
      exact .change x y ih
  | drop x _ ih =>
      rw [Nat.add_right_comm]
      exact .drop x ih
  | add y _ ih =>
      rw [Nat.add_right_comm]
      exact .add y ih
  | swap x y _ ih =>
      rw [Nat.add_right_comm]
      exact .swap x y ih

omit [DecidableEq α] in
theorem Align.reverse {a b : List α} {k : Nat} (h : Align a b k) :
    Align a.reverse b.reverse k := by
  induction h with
  | nil => exact .nil
  | keep x _ ih =>
      rw [List.reverse_cons, List.reverse_cons]
      exact ih.append (.keep x .nil)
  | change x y _ ih =>
      rw [List.reverse_cons, List.reverse_cons]
      exact ih.append (.change x y .nil)
  | drop x _ ih =>
      rw [List.reverse_cons]
      have h := ih.append (.drop x .nil)
      rwa [List.append_nil] at h
  | add y _ ih =>
      rw [List.reverse_cons]
      have h := ih.append (.add y .nil)
      rwa [List.append_nil] at h
  | swap x y _ ih =>
      simp only [List.reverse_cons, List.append_assoc, List.singleton_append]
      exact ih.append (.swap y x .nil)

theorem distance_reverse (a b : List α) : distance a.reverse b.reverse = distance a b := by
  refine le_antisymm (distance_le (align_distance a b).reverse) ?_
  have h := (align_distance a.reverse b.reverse).reverse
  rw [List.reverse_reverse, List.reverse_reverse] at h
  exact distance_le h

/-! ## A table -/

/-- The distances of the beginnings of two words. -/
def table (a b : List α) (i j : Nat) : Nat := distance (a.take i).reverse (b.take j).reverse

theorem table_zero_left {a b : List α} {j : Nat} (hj : j ≤ b.length) : table a b 0 j = j := by
  unfold table
  rw [List.take_zero, List.reverse_nil, distance_nil_left, List.length_reverse,
    List.length_take_of_le hj]

theorem table_zero_right {a b : List α} {i : Nat} (hi : i ≤ a.length) : table a b i 0 = i := by
  unfold table
  rw [List.take_zero, List.reverse_nil, distance_nil_right, List.length_reverse,
    List.length_take_of_le hi]

/-- The whole table ends with the distance of the words. -/
theorem table_length (a b : List α) : table a b a.length b.length = distance a b := by
  unfold table
  rw [List.take_length, List.take_length, distance_reverse]

omit [DecidableEq α] in
theorem reverse_take_succ {a : List α} {i : Nat} (hi : i < a.length) :
    (a.take (i + 1)).reverse = a[i] :: (a.take i).reverse := by
  rw [List.take_succ_eq_append_getElem hi, List.reverse_append]
  rfl

/-- **An entry from those before it**: the letters at `i` and `j` come to the words. -/
theorem table_succ {a b : List α} {i j : Nat} (hi : i < a.length) (hj : j < b.length) :
    table a b (i + 1) (j + 1) =
      let one := best (table a b i j) (table a b i (j + 1)) (table a b (i + 1) j) (cost a[i] b[j])
      if 0 < i ∧ 0 < j ∧ a[i]? = b[j - 1]? ∧ a[i - 1]? = b[j]? then
        min one (table a b (i - 1) (j - 1) + 1)
      else one := by
  have hone : oneEdit a[i] (a.take i).reverse b[j] (b.take j).reverse =
      best (table a b i j) (table a b i (j + 1)) (table a b (i + 1) j) (cost a[i] b[j]) := by
    unfold oneEdit table
    rw [reverse_take_succ hi, reverse_take_succ hj]
  dsimp only
  rw [← hone]
  unfold table
  rw [reverse_take_succ hi, reverse_take_succ hj]
  by_cases hswap : 0 < i ∧ 0 < j ∧ a[i]? = b[j - 1]? ∧ a[i - 1]? = b[j]?
  · rw [if_pos hswap]
    obtain ⟨hi', hj', hfirst, hsecond⟩ := hswap
    obtain ⟨i, rfl⟩ := Nat.exists_eq_succ_of_ne_zero (Nat.ne_of_gt hi')
    obtain ⟨j, rfl⟩ := Nat.exists_eq_succ_of_ne_zero (Nat.ne_of_gt hj')
    simp only [Nat.succ_eq_add_one, Nat.add_sub_cancel] at hfirst hsecond ⊢
    rw [List.getElem?_eq_getElem hi, List.getElem?_eq_getElem (by omega), Option.some.injEq]
      at hfirst
    rw [List.getElem?_eq_getElem hj, List.getElem?_eq_getElem (by omega), Option.some.injEq]
      at hsecond
    rw [reverse_take_succ (show i < a.length by omega),
      reverse_take_succ (show j < b.length by omega), ← hfirst, hsecond]
    exact distance_swap _ _ _ _
  · rw [if_neg hswap]
    refine distance_unswapped fun a' b' ha hb => hswap ?_
    cases i with
    | zero => cases ha
    | succ i =>
        cases j with
        | zero => cases hb
        | succ j =>
            rw [reverse_take_succ (show i < a.length by omega)] at ha
            rw [reverse_take_succ (show j < b.length by omega)] at hb
            have hsecond := (List.cons.inj ha).1
            have hfirst := (List.cons.inj hb).1
            refine ⟨Nat.succ_pos i, Nat.succ_pos j, ?_, ?_⟩
            · rw [Nat.add_sub_cancel, List.getElem?_eq_getElem hi,
                List.getElem?_eq_getElem (by omega), hfirst]
            · rw [Nat.add_sub_cancel, List.getElem?_eq_getElem hj,
                List.getElem?_eq_getElem (by omega), hsecond]

end Lib
