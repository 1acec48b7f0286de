import Mathlib.Data.List.Infix
import Mathlib.Data.List.Basic

set_option autoImplicit false

/-! # Splitting and encoding strings

Strings are lists here, of bytes or of characters. `splitOnce` cuts a string at the first
occurrence of a pattern. A `code` writes every symbol as a string of its own; where no code
word begins another one, a code text begins another one exactly when its source does
(`flatMap_prefix_iff`), and a run of a symbol that stands for itself is found in the text
exactly when it is found in the source (`replicate_infix_flatMap_iff`).
-/

namespace Lib

variable {α β : Type*}

/-! ## Cutting at a pattern -/

/-- The text before and after the first occurrence of `pat`. -/
def splitOnce [DecidableEq α] (pat : List α) : List α → Option (List α × List α)
  | [] => if pat = [] then some ([], []) else none
  | c :: rest =>
      if pat <+: c :: rest then some ([], (c :: rest).drop pat.length)
      else (splitOnce pat rest).map fun cut => (c :: cut.1, cut.2)

/-- A text in which the pattern's first symbol does not occur is cut off whole. -/
theorem splitOnce_append [DecidableEq α] (p : α) (pat : List α) {before : List α} (after : List α)
    (h : p ∉ before) : splitOnce (p :: pat) (before ++ (p :: pat ++ after)) =
      some (before, after) := by
  induction before with
  | nil =>
      have hprefix : p :: pat <+: p :: (pat ++ after) := List.prefix_append (p :: pat) after
      simp [splitOnce, hprefix]
  | cons c before ih =>
      have hc : p ≠ c := fun heq => h (heq ▸ List.mem_cons_self)
      have hrest := ih fun hmem => h (List.mem_cons_of_mem c hmem)
      have hprefix : ¬ p :: pat <+: c :: (before ++ (p :: pat ++ after)) := by
        rw [List.cons_prefix_cons]
        exact fun heq => hc heq.1
      rw [List.cons_append, splitOnce, if_neg hprefix, hrest]
      rfl

/-! ## Codes -/

variable {code : α → List β}

/-- No code word is empty or begins another one. -/
structure PrefixFree (code : α → List β) : Prop where
  nonempty : ∀ a, code a ≠ []
  free : ∀ a b, code a <+: code b → a = b

theorem flatMap_prefix_iff (h : PrefixFree code) {xs ys : List α} :
    xs.flatMap code <+: ys.flatMap code ↔ xs <+: ys := by
  induction xs generalizing ys with
  | nil => simp
  | cons x xs ih =>
      cases ys with
      | nil =>
          have hne := h.nonempty x
          simp [hne]
      | cons y ys =>
          rw [List.flatMap_cons, List.flatMap_cons, List.cons_prefix_cons]
          constructor
          · intro hpre
            -- the two first code words begin the same text
            have hx : code x <+: code y ++ ys.flatMap code :=
              (List.prefix_append _ _).trans hpre
            have hxy : x = y := by
              rcases List.prefix_or_prefix_of_prefix hx (List.prefix_append _ _) with hle | hle
              · exact h.free x y hle
              · exact (h.free y x hle).symm
            subst hxy
            exact ⟨rfl, ih.mp ((List.prefix_append_right_inj _).mp hpre)⟩
          · rintro ⟨rfl, hpre⟩
            exact (List.prefix_append_right_inj _).mpr (ih.mpr hpre)

/-- A code is injective. -/
theorem flatMap_injective (h : PrefixFree code) {xs ys : List α}
    (heq : xs.flatMap code = ys.flatMap code) : xs = ys := by
  have hxy := (flatMap_prefix_iff h).mp (heq ▸ List.prefix_rfl : xs.flatMap code <+: ys.flatMap code)
  have hyx := (flatMap_prefix_iff h).mp (heq ▸ List.prefix_rfl : ys.flatMap code <+: xs.flatMap code)
  exact List.IsPrefix.eq_of_length hxy (le_antisymm hxy.length_le hyx.length_le)

/-! ## Runs of one symbol -/

/-- A text without the symbol adds no run in front of another text. -/
theorem replicate_infix_append_iff {k : Nat} {c : β} {l r : List β} (h : c ∉ l) :
    List.replicate (k + 1) c <:+: l ++ r ↔ List.replicate (k + 1) c <:+: r := by
  induction l with
  | nil => rfl
  | cons b l ih =>
      have hb : c ≠ b := fun heq => h (heq ▸ List.mem_cons_self)
      have hrest := ih fun hmem => h (List.mem_cons_of_mem b hmem)
      have hprefix : ¬ List.replicate (k + 1) c <+: b :: (l ++ r) := by
        rw [List.replicate_succ, List.cons_prefix_cons]
        exact fun heq => hb heq.1
      rw [List.cons_append, List.infix_cons_iff, hrest]
      exact or_iff_right hprefix

/-- Nor does it add one behind. -/
theorem replicate_infix_append_iff_left {k : Nat} {c : β} {l r : List β} (h : c ∉ r) :
    List.replicate (k + 1) c <:+: l ++ r ↔ List.replicate (k + 1) c <:+: l := by
  have hreverse : c ∉ r.reverse := fun hmem => h (List.mem_reverse.mp hmem)
  rw [← List.reverse_infix, List.reverse_append, List.reverse_replicate,
    replicate_infix_append_iff hreverse, ← List.reverse_infix, List.reverse_reverse,
    List.reverse_replicate]

/-- A symbol that stands for itself and occurs in no other code word. -/
structure StandsFor (code : α → List β) (a : α) (c : β) : Prop where
  self : code a = [c]
  other : ∀ b, b ≠ a → code b ≠ [] ∧ c ∉ code b

theorem replicate_prefix_flatMap_iff {a : α} {c : β} (h : StandsFor code a c) (k : Nat)
    {xs : List α} : List.replicate k c <+: xs.flatMap code ↔ List.replicate k a <+: xs := by
  induction k generalizing xs with
  | zero => simp
  | succ k ih =>
      cases xs with
      | nil => simp
      | cons b xs =>
          rw [List.flatMap_cons, List.replicate_succ, List.replicate_succ, List.cons_prefix_cons]
          by_cases hb : b = a
          · subst hb
            rw [h.self, List.singleton_append, List.cons_prefix_cons, ih]
            simp
          · obtain ⟨hne, hmem⟩ := h.other b hb
            constructor
            · intro hpre
              cases hcode : code b with
              | nil => exact absurd hcode hne
              | cons c' rest =>
                  rw [hcode, List.cons_append, List.cons_prefix_cons] at hpre
                  exact absurd (hcode ▸ hpre.1 ▸ List.mem_cons_self) hmem
            · rintro ⟨heq, -⟩
              exact absurd heq.symm hb

/-- **A run of the symbol is in the text exactly when it is in the source.** -/
theorem replicate_infix_flatMap_iff {a : α} {c : β} (h : StandsFor code a c) (k : Nat)
    {xs : List α} : List.replicate k c <:+: xs.flatMap code ↔ List.replicate k a <:+: xs := by
  cases k with
  | zero => simp
  | succ k =>
      induction xs with
      | nil => simp
      | cons b xs ih =>
          by_cases hb : b = a
          · subst hb
            have hpre : List.replicate (k + 1) c <+: (b :: xs).flatMap code ↔
                List.replicate (k + 1) b <+: b :: xs := replicate_prefix_flatMap_iff h (k + 1)
            rw [List.flatMap_cons, h.self, List.singleton_append] at hpre ⊢
            rw [List.infix_cons_iff, List.infix_cons_iff, hpre, ih]
          · have hnot : ¬ List.replicate (k + 1) a <+: b :: xs := by
              rw [List.replicate_succ, List.cons_prefix_cons]
              exact fun heq => hb heq.1.symm
            rw [List.flatMap_cons, replicate_infix_append_iff (h.other b hb).2,
              List.infix_cons_iff, ih]
            exact (or_iff_right hnot).symm

end Lib
