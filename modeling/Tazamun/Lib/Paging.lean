import Mathlib.Data.List.Infix

set_option autoImplicit false

/-! # Walking through a list page by page

A list is read in pages. A page is asked for by its offset, and holds some of what follows
there, from the offset on and without gaps; how many is up to the server, but it is at least
one as long as there is something (`Serves`). Whoever walks through the pages goes on with the
offset after what the page holds, until that is the end of the list. The pages together are
then the whole list (`walk_eq`).
-/

namespace Lib

variable {τ : Type}

/-- The pages are cut out of the list `l`. -/
structure Serves (page : Nat → List τ) (l : List τ) : Prop where
  cut : ∀ offset, page offset <+: l.drop offset
  progress : ∀ offset, offset < l.length → page offset ≠ []

/-- Where the walk goes on after `returned` elements of a list of `total`. -/
def next (offset returned total : Nat) : Option Nat :=
  if 0 < returned ∧ offset + returned < total then some (offset + returned) else none

/-- The pages from `offset` on, one after the other; `none` when `fuel` pages are too few. -/
def walk (page : Nat → List τ) (total : Nat) : Nat → Nat → Option (List τ)
  | 0, _ => none
  | fuel + 1, offset =>
      match next offset (page offset).length total with
      | none => some (page offset)
      | some offset' => (walk page total fuel offset').map fun rest => page offset ++ rest

/-- What a page leaves out of the rest of the list. -/
theorem append_drop_page {p l : List τ} {offset : Nat} (h : p <+: l.drop offset) :
    p ++ l.drop (offset + p.length) = l.drop offset := by
  obtain ⟨rest, hrest⟩ := h
  rw [← List.drop_drop, ← hrest, List.drop_left]

/-- **The pages are the list.** -/
theorem walk_eq {page : Nat → List τ} {l : List τ} (hs : Serves page l) (fuel : Nat)
    {offset : Nat} (hfuel : l.length < offset + fuel) (hoffset : offset ≤ l.length) :
    walk page l.length fuel offset = some (l.drop offset) := by
  induction fuel generalizing offset with
  | zero => exact absurd hfuel (not_lt.mpr hoffset)
  | succ fuel ih =>
      have hrest := append_drop_page (hs.cut offset)
      have hlen := (hs.cut offset).length_le
      rw [List.length_drop] at hlen
      rw [walk, next]
      by_cases hmore : 0 < (page offset).length ∧ offset + (page offset).length < l.length
      · rw [if_pos hmore]
        dsimp only
        rw [ih (by omega) hmore.2.le, Option.map_some, hrest]
      · rw [if_neg hmore]
        dsimp only
        -- the page is empty, or it reaches the end of the list
        have hend : l.drop (offset + (page offset).length) = [] := by
          refine List.drop_eq_nil_of_le ?_
          by_contra hlt
          have hpos : 0 < (page offset).length :=
            List.length_pos_of_ne_nil (hs.progress offset (by omega))
          exact hmore ⟨hpos, by omega⟩
        rw [hend, List.append_nil] at hrest
        rw [hrest]

end Lib
