import Mathlib.Data.List.Basic
import Mathlib.Tactic

set_option autoImplicit false

/-! # Cutting a sequence by looking ahead a bounded distance

A `Cutter` splits a sequence from its front: `next xs` is the length of the first piece of
`xs`, and it depends on the first `max` elements only. `pieces` repeats the cut to the end.

A reader that sees the sequence through windows cannot wait for the end. It may cut where a
piece begins at least `max` elements before the edge of what it has seen (`final`): nothing
that arrives later can move such a cut. What it has not cut is kept and put in front of the
next window.

The main result is `pieces_append`: cutting a window at its final cuts, and what is left
together with everything that follows, gives the pieces of the whole. Two further facts say
that the method makes progress and that it does not accumulate: a window of `max` elements
has a final cut (`final_ne_nil`), and fewer than `max` elements are ever kept
(`length_kept_lt`).
-/

namespace Lib

variable {α : Type*}

/-- A rule for the first cut of a nonempty sequence that looks at `max` elements. -/
structure Cutter (α : Type*) (max : Nat) where
  next : List α → Nat
  next_pos : ∀ xs, xs ≠ [] → 1 ≤ next xs
  next_le : ∀ xs, xs ≠ [] → next xs ≤ xs.length
  /-- The cut depends on the next `max` elements only. -/
  next_take : ∀ xs, next (xs.take max) = next xs

/-- The elements of `xs` from `span.1` on, `span.2` of them. -/
def slice (xs : List α) (span : Nat × Nat) : List α := (xs.drop span.1).take span.2

theorem slice_append_right (front xs : List α) (o n : Nat) :
    slice (front ++ xs) (front.length + o, n) = slice xs (o, n) := by
  simp only [slice, List.drop_length_add_append]

namespace Cutter

variable {max : Nat} (c : Cutter α max)

theorem next_le_max {xs : List α} (hmax : 0 < max) (h : xs ≠ []) : c.next xs ≤ max := by
  have hne : xs.take max ≠ [] := by
    intro hnil
    rcases List.take_eq_nil_iff.mp hnil with hzero | hxs
    · omega
    · exact h hxs
  have hle := c.next_le _ hne
  rw [c.next_take, List.length_take] at hle
  omega

/-- A window of at least `max` elements shows the first cut of everything it begins. -/
theorem next_append {xs ys : List α} (h : max ≤ xs.length) : c.next (xs ++ ys) = c.next xs := by
  rw [← c.next_take (xs ++ ys), List.take_append_of_le_length h, c.next_take]

/-- The cuts of a sequence, each with where it begins and how long it is; the first begins
at `offset`. -/
def spans (offset : Nat) (xs : List α) : List (Nat × Nat) :=
  if _ : xs = [] then []
  else (offset, c.next xs) :: spans (offset + c.next xs) (xs.drop (c.next xs))
termination_by xs.length
decreasing_by
  have hpos := c.next_pos xs ‹_›
  have hle := c.next_le xs ‹_›
  rw [List.length_drop]
  omega

/-- The pieces of a sequence. -/
def pieces (xs : List α) : List (List α) :=
  if _ : xs = [] then []
  else xs.take (c.next xs) :: pieces (xs.drop (c.next xs))
termination_by xs.length
decreasing_by
  have hpos := c.next_pos xs ‹_›
  have hle := c.next_le xs ‹_›
  rw [List.length_drop]
  omega

@[simp] theorem spans_nil (offset : Nat) : c.spans offset [] = [] := by
  rw [spans, dif_pos rfl]

@[simp] theorem pieces_nil : c.pieces [] = [] := by
  rw [pieces, dif_pos rfl]

theorem spans_of_ne_nil {xs : List α} (h : xs ≠ []) (offset : Nat) :
    c.spans offset xs
      = (offset, c.next xs) :: c.spans (offset + c.next xs) (xs.drop (c.next xs)) := by
  rw [spans, dif_neg h]

theorem pieces_of_ne_nil {xs : List α} (h : xs ≠ []) :
    c.pieces xs = xs.take (c.next xs) :: c.pieces (xs.drop (c.next xs)) := by
  rw [pieces, dif_neg h]

/-- What is left after the first piece is shorter. -/
theorem length_drop_next_lt {xs : List α} (h : xs ≠ []) :
    (xs.drop (c.next xs)).length < xs.length := by
  have hpos := c.next_pos xs h
  have hle := c.next_le xs h
  rw [List.length_drop]
  omega

/-- Induction along the cuts. -/
theorem cut_induction {P : List α → Prop} (hnil : P [])
    (hcut : ∀ xs, xs ≠ [] → P (xs.drop (c.next xs)) → P xs) (xs : List α) : P xs := by
  induction hn : xs.length using Nat.strong_induction_on generalizing xs with
  | _ n ih =>
      by_cases h : xs = []
      · rw [h]
        exact hnil
      · refine hcut xs h (ih _ ?_ _ rfl)
        rw [← hn]
        exact c.length_drop_next_lt h

/-- The pieces put together are the sequence. -/
theorem flatten_pieces (xs : List α) : (c.pieces xs).flatten = xs := by
  induction xs using c.cut_induction with
  | hnil => rw [pieces_nil, List.flatten_nil]
  | hcut xs h ih =>
      rw [c.pieces_of_ne_nil h, List.flatten_cons, ih, List.take_append_drop]

theorem length_le_of_mem_pieces {xs p : List α} (hmax : 0 < max) (h : p ∈ c.pieces xs) :
    p.length ≤ max := by
  induction xs using c.cut_induction with
  | hnil =>
      rw [pieces_nil] at h
      cases h
  | hcut xs hne ih =>
      rw [c.pieces_of_ne_nil hne] at h
      rcases List.mem_cons.mp h with rfl | h
      · have hle := c.next_le_max hmax hne
        rw [List.length_take]
        omega
      · exact ih h

/-- Cutting out the spans of a sequence gives its pieces, also where it is the end of a
longer buffer. -/
theorem map_slice_spans (front xs : List α) :
    (c.spans front.length xs).map (slice (front ++ xs)) = c.pieces xs := by
  induction xs using c.cut_induction generalizing front with
  | hnil => rw [spans_nil, pieces_nil, List.map_nil]
  | hcut xs h ih =>
      have hlen : (xs.take (c.next xs)).length = c.next xs := by
        have hle := c.next_le xs h
        rw [List.length_take]
        omega
      have hrest := ih (front ++ xs.take (c.next xs))
      rw [List.append_assoc, List.take_append_drop, List.length_append, hlen] at hrest
      rw [c.spans_of_ne_nil h, c.pieces_of_ne_nil h, List.map_cons, hrest]
      congr 1
      have hfirst := slice_append_right front xs 0 (c.next xs)
      rw [Nat.add_zero] at hfirst
      rw [hfirst, slice, List.drop_zero]

/-! ## Windows -/

/-- Where the last of the spans ends; `offset` without any. -/
def stop (offset : Nat) (spans : List (Nat × Nat)) : Nat :=
  (spans.getLast?.map (fun s => s.1 + s.2)).getD offset

@[simp] theorem stop_nil (offset : Nat) : stop offset [] = offset := rfl

theorem stop_cons (offset : Nat) (s : Nat × Nat) (spans : List (Nat × Nat)) :
    stop offset (s :: spans) = stop (s.1 + s.2) spans := by
  cases spans with
  | nil => rfl
  | cons t spans => simp [stop, List.getLast?_cons]

/-- The spans of a window that are final: all of them at the end of the sequence, otherwise
those that begin at least `max` elements before the edge. -/
def final (eof : Bool) (xs : List α) : List (Nat × Nat) :=
  (c.spans 0 xs).takeWhile (fun s => eof || decide (s.1 + max ≤ xs.length))

/-- What is left of a window after its final cuts. -/
def kept (eof : Bool) (xs : List α) : List α := xs.drop (stop 0 (c.final eof xs))

/-- The final spans of the rest `xs` of a window of which `front` is already cut. -/
private def finalFrom (eof : Bool) (front xs : List α) : List (Nat × Nat) :=
  (c.spans front.length xs).takeWhile
    (fun s => eof || decide (s.1 + max ≤ front.length + xs.length))

private theorem final_eq_finalFrom (eof : Bool) (xs : List α) :
    c.final eof xs = c.finalFrom eof [] xs := by
  simp only [final, finalFrom, List.length_nil, Nat.zero_add]

private theorem finalFrom_nil (eof : Bool) (front : List α) : c.finalFrom eof front [] = [] := by
  rw [finalFrom, spans_nil, List.takeWhile_nil]

/-- One cut: either the window shows it, and the rest of the window is treated the same way,
or fewer than `max` elements are left. -/
private theorem finalFrom_cons (eof : Bool) (front : List α) {xs : List α} (h : xs ≠ []) :
    ((eof = true ∨ max ≤ xs.length) ∧
      c.finalFrom eof front xs = (front.length, c.next xs)
        :: c.finalFrom eof (front ++ xs.take (c.next xs)) (xs.drop (c.next xs))) ∨
    (eof = false ∧ xs.length < max ∧ c.finalFrom eof front xs = []) := by
  have hle := c.next_le xs h
  have hlen : (front ++ xs.take (c.next xs)).length = front.length + c.next xs := by
    rw [List.length_append, List.length_take]
    omega
  have htotal : front.length + c.next xs + (xs.drop (c.next xs)).length
      = front.length + xs.length := by
    rw [List.length_drop]
    omega
  by_cases hshown : eof = true ∨ max ≤ xs.length
  · refine .inl ⟨hshown, ?_⟩
    have hhead : (eof || decide (front.length + max ≤ front.length + xs.length)) = true := by
      rcases hshown with heof | hmax
      · rw [heof, Bool.true_or]
      · rw [decide_eq_true (by omega), Bool.or_true]
    rw [finalFrom, finalFrom, c.spans_of_ne_nil h, List.takeWhile_cons, if_pos hhead, hlen,
      htotal]
  · have hshort : xs.length < max := by omega
    have heof : eof = false := by
      by_contra hne
      exact hshown (.inl (by simpa using hne))
    refine .inr ⟨heof, hshort, ?_⟩
    have hhead : ¬ (eof || decide (front.length + max ≤ front.length + xs.length)) = true := by
      rw [heof, Bool.false_or, decide_eq_true_eq]
      omega
    rw [finalFrom, c.spans_of_ne_nil h, List.takeWhile_cons, if_neg hhead]

private theorem pieces_finalFrom {eof : Bool} {ys : List α} (heof : eof = true → ys = [])
    (front xs : List α) :
    (c.finalFrom eof front xs).map (slice (front ++ xs))
        ++ c.pieces ((front ++ xs).drop (stop front.length (c.finalFrom eof front xs)) ++ ys)
      = c.pieces (xs ++ ys) := by
  induction xs using c.cut_induction generalizing front with
  | hnil => rw [finalFrom_nil, stop_nil, List.map_nil, List.nil_append, List.drop_left]
  | hcut xs h ih =>
      rcases c.finalFrom_cons eof front h with ⟨hshown, heq⟩ | ⟨-, -, heq⟩
      · have hle := c.next_le xs h
        have hnext : c.next (xs ++ ys) = c.next xs := by
          rcases hshown with htrue | hmax
          · rw [heof htrue, List.append_nil]
          · exact c.next_append hmax
        have hne : xs ++ ys ≠ [] := fun hnil => h (List.append_eq_nil_iff.mp hnil).1
        have hlen : (front ++ xs.take (c.next xs)).length = front.length + c.next xs := by
          rw [List.length_append, List.length_take]
          omega
        have hfirst : slice (front ++ xs) (front.length, c.next xs) = xs.take (c.next xs) := by
          rw [slice, List.drop_left]
        have hrest := ih (front ++ xs.take (c.next xs))
        rw [List.append_assoc, List.take_append_drop, hlen] at hrest
        rw [heq, List.map_cons, hfirst, stop_cons, List.cons_append, hrest,
          c.pieces_of_ne_nil hne, hnext, List.take_append_of_le_length hle,
          List.drop_append_of_le_length hle]
      · rw [heq, stop_nil, List.map_nil, List.nil_append, List.drop_left]

/-- **Final cuts stay.** The final cuts of a window, and the pieces of what is left together
with everything that follows, are the pieces of the whole. -/
theorem pieces_append {eof : Bool} {xs ys : List α} (heof : eof = true → ys = []) :
    (c.final eof xs).map (slice xs) ++ c.pieces (c.kept eof xs ++ ys) = c.pieces (xs ++ ys) := by
  rw [kept, c.final_eq_finalFrom]
  exact c.pieces_finalFrom heof [] xs

private theorem length_drop_stop {eof : Bool} (hmax : 0 < max) (front xs : List α) :
    (eof = true → ((front ++ xs).drop (stop front.length (c.finalFrom eof front xs))) = []) ∧
    ((front ++ xs).drop (stop front.length (c.finalFrom eof front xs))).length < max := by
  induction xs using c.cut_induction generalizing front with
  | hnil =>
      rw [finalFrom_nil, stop_nil, List.drop_left]
      exact ⟨fun _ => rfl, hmax⟩
  | hcut xs h ih =>
      rcases c.finalFrom_cons eof front h with ⟨-, heq⟩ | ⟨heof, hlt, heq⟩
      · have hlen : (front ++ xs.take (c.next xs)).length = front.length + c.next xs := by
          have hle := c.next_le xs h
          rw [List.length_append, List.length_take]
          omega
        have hrest := ih (front ++ xs.take (c.next xs))
        rw [List.append_assoc, List.take_append_drop, hlen] at hrest
        rw [heq, stop_cons]
        exact hrest
      · rw [heq, stop_nil, List.drop_left]
        refine ⟨fun htrue => ?_, hlt⟩
        rw [heof] at htrue
        cases htrue

/-- Fewer than `max` elements are kept. -/
theorem length_kept_lt (hmax : 0 < max) (eof : Bool) (xs : List α) :
    (c.kept eof xs).length < max := by
  rw [kept, c.final_eq_finalFrom]
  exact (c.length_drop_stop hmax [] xs).2

/-- At the end nothing is kept. -/
theorem kept_eof (hmax : 0 < max) (xs : List α) : c.kept true xs = [] := by
  rw [kept, c.final_eq_finalFrom]
  exact (c.length_drop_stop hmax [] xs).1 rfl

/-- A window that is `max` elements long, or the last one, has a final cut. -/
theorem final_ne_nil {eof : Bool} {xs : List α} (h : xs ≠ []) (hlen : eof = true ∨ max ≤ xs.length) :
    c.final eof xs ≠ [] := by
  rw [c.final_eq_finalFrom]
  rcases c.finalFrom_cons eof [] h with ⟨-, heq⟩ | ⟨heof, hlt, -⟩
  · rw [heq]
    exact List.cons_ne_nil _ _
  · rcases hlen with htrue | hmax
    · rw [heof] at htrue
      cases htrue
    · omega

private theorem le_stop_finalFrom (eof : Bool) (front xs : List α) :
    front.length ≤ stop front.length (c.finalFrom eof front xs) := by
  induction xs using c.cut_induction generalizing front with
  | hnil => rw [finalFrom_nil, stop_nil]
  | hcut xs h ih =>
      rcases c.finalFrom_cons eof front h with ⟨-, heq⟩ | ⟨-, -, heq⟩
      · have hlen : (front ++ xs.take (c.next xs)).length = front.length + c.next xs := by
          have hle := c.next_le xs h
          rw [List.length_append, List.length_take]
          omega
        have hrest := ih (front ++ xs.take (c.next xs))
        rw [hlen] at hrest
        rw [heq, stop_cons]
        calc front.length
            ≤ front.length + c.next xs := Nat.le_add_right _ _
          _ ≤ _ := hrest
      · rw [heq, stop_nil]

/-- A final cut makes progress. -/
theorem length_kept_lt_of_final {eof : Bool} {xs : List α} (h : c.final eof xs ≠ []) :
    (c.kept eof xs).length < xs.length := by
  rw [c.final_eq_finalFrom] at h
  have hne : xs ≠ [] := by
    rintro rfl
    exact h (c.finalFrom_nil eof [])
  have hlt : 0 < stop 0 (c.final eof xs) := by
    rw [c.final_eq_finalFrom]
    rcases c.finalFrom_cons eof [] hne with ⟨-, heq⟩ | ⟨-, -, heq⟩
    · have hpos := c.next_pos xs hne
      have hle := c.next_le xs hne
      have hstop := c.le_stop_finalFrom eof ([] ++ xs.take (c.next xs)) (xs.drop (c.next xs))
      rw [heq, stop_cons]
      simp only [List.nil_append, List.length_take, List.length_nil, Nat.zero_add] at hstop ⊢
      rw [min_eq_left hle] at hstop
      omega
    · exact absurd heq h
  have hpos : 0 < xs.length := List.length_pos_iff.mpr hne
  rw [kept, List.length_drop]
  omega

end Cutter

end Lib
