import Mathlib.Data.List.Infix

set_option autoImplicit false

/-! # Ordered rules

A list of rules of which the last one that answers decides (`last`), as in the files of
ignore rules that version control systems read. Rules put in front of others decide only where
these are silent (`last_append`).

A place in a tree is the list of the names on the way to it. `nearest` asks the place itself, then
what contains it, and so on up to the root, and takes the first answer (`nearest_eq_some_iff`).
Rules that are added behind the others and always give the same answer change no answer but to
this one (`nearest_or`), and where the answer was this one it stays (`nearest_or_of_eq`).
-/

namespace Lib.Rules

variable {ρ π α δ : Type}

/-! ## The last rule -/

def last (answer : ρ → π → Option δ) (rules : List ρ) (p : π) : Option δ :=
  rules.reverse.findSome? fun rule => answer rule p

theorem last_append (answer : ρ → π → Option δ) (front rules : List ρ) (p : π) :
    last answer (front ++ rules) p = (last answer rules p).or (last answer front p) := by
  unfold last
  rw [List.reverse_append, List.findSome?_append]

/-- What is answered, one of the rules answers. -/
theorem exists_of_last {answer : ρ → π → Option δ} {rules : List ρ} {p : π} {d : δ}
    (h : last answer rules p = some d) : ∃ rule ∈ rules, answer rule p = some d := by
  obtain ⟨rule, hmem, hrule⟩ := List.exists_of_findSome?_eq_some h
  exact ⟨rule, List.mem_reverse.mp hmem, hrule⟩

/-! ## The nearest place -/

/-- The place itself, and what contains it. -/
def levels (place : List α) : List (List α) := place.inits.reverse

def nearest (decide : List α → Option δ) (place : List α) : Option δ :=
  (levels place).findSome? decide

theorem nearest_nil (decide : List α → Option δ) : nearest decide [] = decide [] := by
  unfold nearest levels
  cases h : decide [] <;> simp [h]

theorem nearest_concat (decide : List α → Option δ) (place : List α) (name : α) :
    nearest decide (place ++ [name]) = (decide (place ++ [name])).or (nearest decide place) := by
  have hlevels : levels (place ++ [name]) = (place ++ [name]) :: levels place := by
    unfold levels
    rw [List.inits_append]
    simp
  unfold nearest
  rw [hlevels, List.findSome?_cons]
  cases decide (place ++ [name]) <;> rfl

/-- **The answer is that of the nearest place that has one.** -/
theorem nearest_eq_some_iff {decide : List α → Option δ} {place : List α} {d : δ} :
    nearest decide place = some d ↔
      ∃ q, q <+: place ∧ decide q = some d ∧
        ∀ q', q <+: q' → q' <+: place → q' ≠ q → decide q' = none := by
  induction place using List.reverseRecOn with
  | nil =>
      rw [nearest_nil]
      constructor
      · intro h
        refine ⟨[], List.prefix_rfl, h, fun q' _ hq' hne => ?_⟩
        exact absurd (List.prefix_nil.mp hq') hne
      · rintro ⟨q, hq, h, -⟩
        rwa [List.prefix_nil.mp hq] at h
  | append_singleton place name ih =>
      rw [nearest_concat]
      cases hself : decide (place ++ [name]) with
      | some d' =>
          rw [Option.some_or]
          constructor
          · intro h
            refine ⟨_, List.prefix_rfl, hself.trans h, fun q' hle hge hne => ?_⟩
            exact absurd (hge.eq_of_length_le hle.length_le) hne
          · rintro ⟨q, hq, h, hnone⟩
            by_cases heq : place ++ [name] = q
            · rw [← hself, heq, h]
            · rw [hnone _ hq List.prefix_rfl heq] at hself
              cases hself
      | none =>
          rw [Option.none_or, ih]
          constructor
          · rintro ⟨q, hq, h, hnone⟩
            refine ⟨q, hq.trans (List.prefix_append _ _), h, fun q' hle hge hne => ?_⟩
            rcases List.prefix_concat_iff.mp hge with rfl | hge
            · exact hself
            · exact hnone q' hle hge hne
          · rintro ⟨q, hq, h, hnone⟩
            rcases List.prefix_concat_iff.mp hq with rfl | hq
            · rw [hself] at h
              cases h
            · refine ⟨q, hq, h, fun q' hle hge hne => ?_⟩
              exact hnone q' hle (hge.trans (List.prefix_append _ _)) hne

variable {f g : List α → Option δ} {d₀ : δ}

/-- Where the others give this answer already, it stays. -/
theorem nearest_or_of_eq (hg : ∀ q d, g q = some d → d = d₀) {place : List α}
    (h : nearest f place = some d₀) : nearest (fun q => (f q).or (g q)) place = some d₀ := by
  induction place using List.reverseRecOn with
  | nil =>
      rw [nearest_nil] at h ⊢
      rw [h, Option.some_or]
  | append_singleton place name ih =>
      rw [nearest_concat] at h ⊢
      cases hf : f (place ++ [name]) with
      | some d =>
          rw [hf, Option.some_or] at h
          rw [Option.some_or, Option.some_or, h]
      | none =>
          rw [hf, Option.none_or] at h
          cases hgq : g (place ++ [name]) with
          | some d => rw [Option.none_or, Option.some_or, hg _ _ hgq]
          | none => rw [Option.or_self, Option.none_or, ih h]

/-- **Rules with one answer, behind the others**, change an answer to theirs or not at all. -/
theorem nearest_or (hg : ∀ q d, g q = some d → d = d₀) (place : List α) :
    nearest (fun q => (f q).or (g q)) place = some d₀ ∨
      nearest (fun q => (f q).or (g q)) place = nearest f place := by
  induction place using List.reverseRecOn with
  | nil =>
      rw [nearest_nil, nearest_nil]
      cases hf : f [] with
      | some d => exact .inr rfl
      | none =>
          cases hgq : g [] with
          | some d => exact .inl (congrArg some (hg _ _ hgq))
          | none => exact .inr rfl
  | append_singleton place name ih =>
      rw [nearest_concat, nearest_concat]
      cases hf : f (place ++ [name]) with
      | some d =>
          rw [Option.some_or, Option.some_or]
          exact .inr rfl
      | none =>
          cases hgq : g (place ++ [name]) with
          | some d => exact .inl (by rw [Option.none_or, Option.some_or, hg _ _ hgq])
          | none =>
              rw [Option.or_self, Option.none_or, Option.none_or]
              exact ih

end Lib.Rules
