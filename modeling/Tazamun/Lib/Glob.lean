import Mathlib.Data.List.Forall2
import Mathlib.Data.List.Infix

set_option autoImplicit false

/-! # Glob patterns

A glob pattern is a list in which two elements are special: `question` stands for any one
element, and `star` for any stretch of elements, the empty one included. Everything else stands
for itself (`Glob`).

Which stretches a star may take is a parameter: with `Anything` the relation is what is usually
meant by a glob, and with `Itself` a star that stands at a `star` of the text takes just that
one. The second is what is left of the first when a matcher compares the pattern with the text
before it asks whether the pattern has a star there. The lemmas are one for each kind of
element that a pattern can begin with, and the one that makes it enough to look for the
leftmost place at which the next stretch of a pattern fits (`Glob.later`).
-/

namespace Lib

variable {α : Type} {star question : α} {may : List α → List α → Prop}

/-- The pattern matches the text. A star may take `taken` off a text that ends in `rest` when
`may taken rest`. -/
inductive Glob (star question : α) (may : List α → List α → Prop) : List α → List α → Prop
  | nil : Glob star question may [] []
  | star {taken rest pat : List α} (hmay : may taken rest)
      (h : Glob star question may pat rest) :
      Glob star question may (star :: pat) (taken ++ rest)
  | question {c : α} {s pat : List α} (h : Glob star question may pat s) :
      Glob star question may (question :: pat) (c :: s)
  | one {c : α} {s pat : List α} (hstar : c ≠ star) (hquestion : c ≠ question)
      (h : Glob star question may pat s) : Glob star question may (c :: pat) (c :: s)

/-- A star takes anything. -/
def Anything (_ _ : List α) : Prop := True

/-- A star that stands at a `star` takes just that one. -/
def Itself (star : α) (taken rest : List α) : Prop :=
  (taken ++ rest).head? = some star → taken = [star]

/-- The element of the pattern agrees with the one of the text. -/
def Agrees (question : α) (x c : α) : Prop := x = question ∨ x = c

namespace Glob

theorem mono {may' : List α → List α → Prop} (hle : ∀ taken rest, may taken rest → may' taken rest)
    {pat s : List α} (h : Glob star question may pat s) : Glob star question may' pat s := by
  induction h with
  | nil => exact .nil
  | star hmay _ ih => exact .star (hle _ _ hmay) ih
  | question _ ih => exact .question ih
  | one hstar hquestion _ ih => exact .one hstar hquestion ih

/-- An empty pattern matches the empty text only. -/
theorem nil_iff {s : List α} : Glob star question may [] s ↔ s = [] := by
  constructor
  · rintro ⟨⟩
    rfl
  · rintro rfl
    exact .nil

theorem star_iff (hne : star ≠ question) {pat s : List α} :
    Glob star question may (star :: pat) s ↔
      ∃ taken rest, s = taken ++ rest ∧ may taken rest ∧ Glob star question may pat rest := by
  constructor
  · intro h
    cases h with
    | star hmay h => exact ⟨_, _, rfl, hmay, h⟩
    | question h => exact absurd rfl hne
    | one hstar _ _ => exact absurd rfl hstar
  · rintro ⟨taken, rest, rfl, hmay, h⟩
    exact .star hmay h

/-- Any other element of a pattern takes one element that it agrees with. -/
theorem cons_iff {x : α} (hx : x ≠ star) {pat s : List α} :
    Glob star question may (x :: pat) s ↔
      ∃ c rest, s = c :: rest ∧ Agrees question x c ∧ Glob star question may pat rest := by
  constructor
  · intro h
    cases h with
    | star _ _ => exact absurd rfl hx
    | question h => exact ⟨_, _, rfl, .inl rfl, h⟩
    | one _ _ h => exact ⟨_, _, rfl, .inr rfl, h⟩
  · rintro ⟨c, rest, rfl, hagrees, h⟩
    by_cases hquestion : x = question
    · subst hquestion
      exact .question h
    · obtain rfl := hagrees.resolve_left hquestion
      exact .one hx hquestion h

/-- The empty text is matched by stars only. -/
theorem nil_right_iff (hne : star ≠ question) (hmay : may [] []) {pat : List α} :
    Glob star question may pat [] ↔ ∀ x ∈ pat, x = star := by
  induction pat with
  | nil => exact iff_of_true .nil (fun _ hx => absurd hx List.not_mem_nil)
  | cons x pat ih =>
      by_cases hx : x = star
      · subst hx
        rw [star_iff hne, List.forall_mem_cons]
        constructor
        · rintro ⟨taken, rest, hs, -, h⟩
          obtain ⟨-, rfl⟩ := List.append_eq_nil_iff.mp hs.symm
          exact ⟨rfl, ih.mp h⟩
        · rintro ⟨-, hall⟩
          exact ⟨[], [], rfl, hmay, ih.mpr hall⟩
      · rw [cons_iff hx, List.forall_mem_cons]
        constructor
        · rintro ⟨c, rest, hs, -⟩
          cases hs
        · rintro ⟨heq, -⟩
          exact absurd heq hx

/-- What an element of a pattern leaves of the text is an end of the text. -/
theorem exists_suffix (hne : star ≠ question) {x : α} {pat s : List α}
    (h : Glob star question may (x :: pat) s) :
    ∃ rest, rest <:+ s ∧ Glob star question may pat rest := by
  by_cases hx : x = star
  · subst hx
    obtain ⟨taken, rest, rfl, -, hrest⟩ := (star_iff hne).mp h
    exact ⟨rest, List.suffix_append taken rest, hrest⟩
  · obtain ⟨c, rest, rfl, -, hrest⟩ := (cons_iff hx).mp h
    exact ⟨rest, List.suffix_cons c rest, hrest⟩

/-- A star that stands at something else takes anything. -/
theorem star_cons_iff (hne : star ≠ question) {c : α} (hc : c ≠ star) {pat s : List α} :
    Glob star question (Itself star) (star :: pat) (c :: s) ↔
      ∃ rest, rest <:+ c :: s ∧ Glob star question (Itself star) pat rest := by
  rw [star_iff hne]
  constructor
  · rintro ⟨taken, rest, hs, -, h⟩
    exact ⟨rest, ⟨taken, hs.symm⟩, h⟩
  · rintro ⟨rest, ⟨taken, hs⟩, h⟩
    refine ⟨taken, rest, hs.symm, fun hhead => ?_, h⟩
    rw [hs, List.head?_cons, Option.some.injEq] at hhead
    exact absurd hhead hc

/-- A star that stands at a `star` takes that one. -/
theorem star_star_iff (hne : star ≠ question) {pat s : List α} :
    Glob star question (Itself star) (star :: pat) (star :: s) ↔
      Glob star question (Itself star) pat s := by
  rw [star_iff hne]
  constructor
  · rintro ⟨taken, rest, hs, hmay, h⟩
    have htaken : taken = [star] := hmay (by rw [← hs]; rfl)
    rw [htaken, List.singleton_append, List.cons.injEq] at hs
    rwa [hs.2]
  · intro h
    exact ⟨[star], s, rfl, fun _ => rfl, h⟩

/-- Where pattern and text agree, one element is taken off both. -/
theorem agree_iff (hne : star ≠ question) {x c : α} (hagrees : Agrees question x c)
    {pat s : List α} :
    Glob star question (Itself star) (x :: pat) (c :: s) ↔
      Glob star question (Itself star) pat s := by
  by_cases hx : x = star
  · subst hx
    obtain rfl := hagrees.resolve_left hne
    exact star_star_iff hne
  · rw [cons_iff hx]
    constructor
    · rintro ⟨c', rest, hs, -, h⟩
      obtain ⟨-, rfl⟩ := List.cons.inj hs
      exact h
    · intro h
      exact ⟨c, s, rfl, hagrees, h⟩

/-- **The leftmost place is the best.** The beginning of a pattern agrees with the text,
element by element. If the pattern matches from somewhere at or after the place where they
begin to agree, then what follows in the pattern matches from somewhere at or after the place
where they end to. -/
theorem later (hne : star ≠ question) {begins agreed pat s rest : List α}
    (hagree : List.Forall₂ (Agrees question) begins agreed)
    (h : Glob star question (Itself star) (begins ++ pat) s) (hs : s <:+ agreed ++ rest) :
    ∃ s', s' <:+ rest ∧ Glob star question (Itself star) pat s' := by
  induction hagree generalizing s with
  | nil => exact ⟨s, hs, h⟩
  | @cons x c begins agreed hagrees _ ih =>
      rcases List.suffix_cons_iff.mp hs with rfl | hlater
      · -- at the place where they begin to agree, one element is taken off both
        exact ih ((agree_iff hne hagrees).mp h) List.suffix_rfl
      · obtain ⟨s', hsuffix, h'⟩ := exists_suffix hne h
        exact ih h' (hsuffix.trans hlater)

/-- In a text without a `star` there is no difference. -/
theorem itself_of_notMem {pat s : List α} (h : Glob star question Anything pat s)
    (hs : star ∉ s) : Glob star question (Itself star) pat s := by
  induction h with
  | nil => exact .nil
  | @star taken rest pat _ _ ih =>
      refine .star (fun hhead => ?_) (ih fun hmem => hs (List.mem_append.mpr (.inr hmem)))
      exact absurd (List.mem_of_mem_head? hhead) hs
  | question _ ih => exact .question (ih fun hmem => hs (List.mem_cons_of_mem _ hmem))
  | one hstar hquestion _ ih =>
      exact .one hstar hquestion (ih fun hmem => hs (List.mem_cons_of_mem _ hmem))

/-- Renaming the elements, one to one, of pattern and text. -/
theorem map_iff {β : Type} {f : α → β} (hf : Function.Injective f)
    {may' : List β → List β → Prop}
    (hmay : ∀ taken rest, may' (taken.map f) (rest.map f) ↔ may taken rest)
    (hne : star ≠ question) {pat s : List α} :
    Glob (f star) (f question) may' (pat.map f) (s.map f) ↔ Glob star question may pat s := by
  have hne' : f star ≠ f question := fun h => hne (hf h)
  induction pat generalizing s with
  | nil => rw [List.map_nil, nil_iff, nil_iff, List.map_eq_nil_iff]
  | cons x pat ih =>
      rw [List.map_cons]
      by_cases hx : x = star
      · subst hx
        rw [star_iff hne', star_iff hne]
        constructor
        · rintro ⟨taken, rest, hs, hallowed, h⟩
          obtain ⟨taken, rest, rfl, rfl, rfl⟩ := List.map_eq_append_iff.mp hs
          exact ⟨taken, rest, rfl, (hmay taken rest).mp hallowed, ih.mp h⟩
        · rintro ⟨taken, rest, rfl, hallowed, h⟩
          exact ⟨_, _, List.map_append, (hmay taken rest).mpr hallowed, ih.mpr h⟩
      · rw [cons_iff (fun h => hx (hf h)), cons_iff hx]
        constructor
        · rintro ⟨c, rest, hs, hagrees, h⟩
          obtain ⟨c, rest, rfl, rfl, rfl⟩ := List.map_eq_cons_iff.mp hs
          exact ⟨c, rest, rfl, hagrees.imp (fun h => hf h) (fun h => hf h), ih.mp h⟩
        · rintro ⟨c, rest, rfl, hagrees, h⟩
          exact ⟨f c, _, List.map_cons, hagrees.imp (congrArg f) (congrArg f), ih.mpr h⟩

theorem itself_map {β : Type} {f : α → β} (hf : Function.Injective f) (taken rest : List α) :
    Itself (f star) (taken.map f) (rest.map f) ↔ Itself star taken rest := by
  have hhead : ((taken.map f ++ rest.map f).head? = some (f star)) ↔
      (taken ++ rest).head? = some star := by
    rw [← List.map_append, List.head?_map, Option.map_eq_some_iff]
    constructor
    · rintro ⟨c, hc, heq⟩
      rw [hc, hf heq]
    · intro h
      exact ⟨star, h, rfl⟩
  have htaken : taken.map f = [f star] ↔ taken = [star] := by
    rw [← List.map_singleton, (List.map_injective_iff.mpr hf).eq_iff]
  rw [Itself, Itself, hhead, htaken]

end Glob

end Lib
