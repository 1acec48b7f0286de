import Mathlib.Data.List.Basic

set_option autoImplicit false

/-! # Lines

A text is cut after each of its newlines (`splitInclusive`). The pieces are the complete lines,
each with its newline, and what comes after the last newline, if anything does
(`splitInclusive_eq`). There are as many complete lines as newlines (`length_complete`).

A text that stands at the beginning of a line (`AtLine`) is cut independently of what follows
(`splitInclusive_append`). And an encoding that keeps newlines apart from everything else
commutes with cutting (`splitInclusive_flatMap`). `firstLine` is as far as a reader goes that stops
at a newline.
-/

namespace Lib

variable {α β : Type*} [DecidableEq α] [DecidableEq β]

/-- The pieces of a text, cut after each newline. -/
def splitInclusive (nl : α) : List α → List (List α)
  | [] => []
  | c :: cs =>
      if c = nl then [c] :: splitInclusive nl cs
      else
        match splitInclusive nl cs with
        | [] => [[c]]
        | l :: ls => (c :: l) :: ls

/-- The line has its newline. -/
def isEnded (nl : α) (line : List α) : Bool := line.getLast? == some nl

/-- The complete lines. -/
def complete (nl : α) (text : List α) : List (List α) :=
  (splitInclusive nl text).filter (isEnded nl)

/-- What follows the text begins a new line. -/
def AtLine (nl : α) (text : List α) : Prop := text = [] ∨ isEnded nl text = true

variable {nl : α}

/-! ## Cutting -/

@[simp] theorem splitInclusive_nil : splitInclusive nl [] = [] := rfl

theorem splitInclusive_newline (text : List α) :
    splitInclusive nl (nl :: text) = [nl] :: splitInclusive nl text := by
  rw [splitInclusive, if_pos rfl]

theorem flatten_splitInclusive (nl : α) (text : List α) :
    (splitInclusive nl text).flatten = text := by
  induction text with
  | nil => rfl
  | cons c text ih =>
      rw [splitInclusive]
      split
      · rw [List.flatten_cons, ih, List.singleton_append]
      · split
        · rename_i h
          rw [h] at ih
          rw [← ih]
          rfl
        · rename_i h
          rw [h] at ih
          rw [← ih]
          rfl

/-- A text without a newline is one piece. -/
theorem splitInclusive_of_notMem {text : List α} (hne : text ≠ []) (h : nl ∉ text) :
    splitInclusive nl text = [text] := by
  induction text with
  | nil => exact absurd rfl hne
  | cons c text ih =>
      rw [List.mem_cons, not_or] at h
      rw [splitInclusive, if_neg (Ne.symm h.1)]
      cases text with
      | nil => rfl
      | cons d text => rw [ih (List.cons_ne_nil _ _) h.2]

/-- The first line of a text that has one. -/
theorem splitInclusive_line {line : List α} (h : nl ∉ line) (text : List α) :
    splitInclusive nl (line ++ nl :: text) = (line ++ [nl]) :: splitInclusive nl text := by
  induction line with
  | nil => exact splitInclusive_newline text
  | cons c line ih =>
      rw [List.mem_cons, not_or] at h
      rw [List.cons_append, splitInclusive, if_neg (Ne.symm h.1), ih h.2]
      rfl

/-- **Induction on the lines** of a text. -/
@[elab_as_elim] theorem lineInduction (nl : α) {P : List α → Prop}
    (torn : ∀ text, nl ∉ text → P text)
    (line : ∀ line rest, nl ∉ line → P rest → P (line ++ nl :: rest)) (text : List α) : P text := by
  induction hlen : text.length using Nat.strongRecOn generalizing text with
  | _ n ih =>
      subst hlen
      by_cases h : nl ∈ text
      · obtain ⟨before, rest, rfl, hbefore⟩ := List.eq_append_cons_of_mem h
        refine line before rest hbefore (ih rest.length ?_ rest rfl)
        rw [List.length_append, List.length_cons]
        omega
      · exact torn text h

theorem isEnded_append_newline (line : List α) : isEnded nl (line ++ [nl]) = true := by
  rw [isEnded, List.getLast?_concat]
  exact beq_self_eq_true _

theorem isEnded_of_notMem {line : List α} (h : nl ∉ line) : isEnded nl line = false := by
  rw [isEnded, beq_eq_false_iff_ne]
  exact fun hlast => h (List.mem_of_getLast? hlast)

theorem complete_line {line : List α} (h : nl ∉ line) (text : List α) :
    complete nl (line ++ nl :: text) = (line ++ [nl]) :: complete nl text := by
  rw [complete, splitInclusive_line h, List.filter_cons_of_pos (isEnded_append_newline line),
    complete]

theorem isEnded_iff {text : List α} : isEnded nl text = true ↔ ∃ line, text = line ++ [nl] := by
  rw [isEnded, beq_iff_eq, List.getLast?_eq_some_iff]

theorem complete_of_notMem {text : List α} (h : nl ∉ text) : complete nl text = [] := by
  by_cases hne : text = []
  · subst hne
    rfl
  · rw [complete, splitInclusive_of_notMem hne h, List.filter_cons_of_neg]
    · rfl
    · rw [isEnded_of_notMem h]
      decide

/-- **The pieces are the complete lines and a rest without a newline.** -/
theorem splitInclusive_eq (nl : α) (text : List α) :
    ∃ torn, nl ∉ torn ∧ text = (complete nl text).flatten ++ torn ∧
      splitInclusive nl text = complete nl text ++ (if torn = [] then [] else [torn]) := by
  induction text using lineInduction nl with
  | torn text hnone =>
      refine ⟨text, hnone, ?_⟩
      rw [complete_of_notMem hnone]
      by_cases hne : text = []
      · subst hne
        exact ⟨rfl, rfl⟩
      · rw [splitInclusive_of_notMem hne hnone, if_neg hne]
        exact ⟨rfl, rfl⟩
  | line line rest hline ih =>
      obtain ⟨torn, htorn, htext, hpieces⟩ := ih
      have hcomplete := complete_line hline rest
      refine ⟨torn, htorn, ?_, ?_⟩
      · rw [hcomplete, List.flatten_cons, List.append_assoc, ← htext, List.append_assoc,
          List.singleton_append]
      · rw [hcomplete, splitInclusive_line hline, hpieces, List.cons_append]

/-! ## Appending -/

/-- **A text at a line's beginning is cut independently of what follows.** -/
theorem splitInclusive_append {text : List α} (h : AtLine nl text) (rest : List α) :
    splitInclusive nl (text ++ rest) = splitInclusive nl text ++ splitInclusive nl rest := by
  induction text using lineInduction nl with
  | torn text hnone =>
      rcases h with rfl | h
      · rfl
      · rw [isEnded_of_notMem hnone] at h
        cases h
  | line line after hline ih =>
      have hafter : AtLine nl after := by
        by_cases hne : after = []
        · exact .inl hne
        · obtain ⟨before, hbefore⟩ := isEnded_iff.mp
            (h.resolve_left (List.append_ne_nil_of_right_ne_nil _ (List.cons_ne_nil _ _)))
          have hlast := congrArg List.getLast? hbefore
          rw [List.getLast?_concat, List.append_cons, List.getLast?_append_of_ne_nil _ hne] at hlast
          exact .inr (by rw [isEnded, hlast]; exact beq_self_eq_true _)
      rw [List.append_assoc, List.cons_append, splitInclusive_line hline,
        splitInclusive_line hline, ih hafter, List.cons_append]

theorem complete_append {text : List α} (h : AtLine nl text) (rest : List α) :
    complete nl (text ++ rest) = complete nl text ++ complete nl rest := by
  rw [complete, splitInclusive_append h, List.filter_append, complete, complete]

/-- Text and newline of a complete line. -/
theorem exists_of_mem_complete {text line : List α} (h : line ∈ complete nl text) :
    ∃ body, nl ∉ body ∧ line = body ++ [nl] := by
  induction text using lineInduction nl with
  | torn text hnone =>
      rw [complete_of_notMem hnone] at h
      cases h
  | line body rest hbody ih =>
      rw [complete_line hbody] at h
      rcases List.mem_cons.mp h with rfl | h
      · exact ⟨body, hbody, rfl⟩
      · exact ih h

/-- Complete lines are the lines of the text that they make. -/
theorem complete_flatten {lines : List (List α)}
    (h : ∀ line ∈ lines, ∃ body, nl ∉ body ∧ line = body ++ [nl]) :
    complete nl lines.flatten = lines := by
  induction lines with
  | nil => rfl
  | cons line lines ih =>
      obtain ⟨body, hbody, rfl⟩ := h line List.mem_cons_self
      rw [List.flatten_cons, List.append_assoc, List.singleton_append, complete_line hbody,
        ih fun l hl => h l (List.mem_cons_of_mem _ hl)]

theorem atLine_flatten {lines : List (List α)} (h : ∀ line ∈ lines, isEnded nl line = true) :
    AtLine nl lines.flatten := by
  rcases List.eq_nil_or_concat' lines with rfl | ⟨before, last, rfl⟩
  · exact .inl rfl
  · obtain ⟨line, rfl⟩ := isEnded_iff.mp (h last (List.mem_append_right _ List.mem_cons_self))
    refine .inr ?_
    rw [List.flatten_append, List.flatten_cons, List.flatten_nil, List.append_nil,
      ← List.append_assoc]
    exact isEnded_append_newline _

/-- The complete lines end where a line begins. -/
theorem atLine_flatten_complete (nl : α) (text : List α) :
    AtLine nl (complete nl text).flatten :=
  atLine_flatten fun _ hline => (List.mem_filter.mp hline).2

theorem AtLine.append {a b : List α} (ha : AtLine nl a) (hb : AtLine nl b) :
    AtLine nl (a ++ b) := by
  rcases hb with rfl | hb
  · rwa [List.append_nil]
  · obtain ⟨line, rfl⟩ := isEnded_iff.mp hb
    rw [← List.append_assoc]
    exact .inr (isEnded_append_newline _)

/-- A text at a line's beginning consists of complete lines. -/
theorem complete_of_atLine {text : List α} (h : AtLine nl text) :
    complete nl text = splitInclusive nl text := by
  obtain ⟨torn, htorn, htext, hpieces⟩ := splitInclusive_eq nl text
  have hnil : torn = [] := by
    rcases h with rfl | h
    · exact (List.append_eq_nil_iff.mp htext.symm).2
    · by_contra hne
      obtain ⟨line, hline⟩ := isEnded_iff.mp h
      have hmem : nl ∈ torn := by
        have hlast := congrArg List.getLast? htext
        rw [List.getLast?_append_of_ne_nil _ hne, hline, List.getLast?_concat] at hlast
        exact List.mem_of_getLast? hlast.symm
      exact htorn hmem
  rw [hpieces, hnil, if_pos rfl, List.append_nil]

/-- Without its torn rest a text has the same complete lines. -/
theorem complete_flatten_complete (nl : α) (text : List α) :
    complete nl (complete nl text).flatten = complete nl text :=
  complete_flatten fun _ hline => exists_of_mem_complete hline

theorem flatten_complete_prefix (nl : α) (text : List α) :
    (complete nl text).flatten <+: text := by
  obtain ⟨torn, -, htext, -⟩ := splitInclusive_eq nl text
  exact ⟨torn, htext.symm⟩

/-- What is appended only adds lines. -/
theorem complete_prefix (nl : α) (text rest : List α) :
    complete nl text <+: complete nl (text ++ rest) := by
  obtain ⟨torn, -, htext, -⟩ := splitInclusive_eq nl text
  have h := complete_append (atLine_flatten_complete nl text) (torn ++ rest)
  rw [← List.append_assoc, ← htext, complete_flatten_complete] at h
  exact ⟨_, h.symm⟩

theorem flatten_complete {text : List α} (h : AtLine nl text) :
    (complete nl text).flatten = text := by
  rw [complete_of_atLine h, flatten_splitInclusive]

/-- **There are as many complete lines as newlines.** -/
theorem length_complete (nl : α) (text : List α) : (complete nl text).length = text.count nl := by
  induction text using lineInduction nl with
  | torn text hnone =>
      rw [List.count_eq_zero_of_not_mem hnone, complete_of_notMem hnone]
      rfl
  | line line rest hline ih =>
      rw [complete_line hline, List.length_cons, ih, List.count_append, List.count_cons_self,
        List.count_eq_zero_of_not_mem hline]
      omega

/-- The torn rest is one piece more. -/
theorem length_splitInclusive (nl : α) (text : List α) :
    text.count nl ≤ (splitInclusive nl text).length ∧
      (splitInclusive nl text).length ≤ text.count nl + 1 := by
  obtain ⟨torn, -, -, hpieces⟩ := splitInclusive_eq nl text
  rw [hpieces, List.length_append, length_complete]
  split_ifs
  · exact ⟨Nat.le_refl _, Nat.le_succ _⟩
  · exact ⟨Nat.le_add_right _ _, Nat.le_refl _⟩

/-! ## Encodings -/

/-- **Cutting commutes with an encoding** that keeps newlines apart. -/
theorem splitInclusive_flatMap {nl' : β} {code : α → List β} (hnl : code nl = [nl'])
    (hother : ∀ c, c ≠ nl → nl' ∉ code c ∧ code c ≠ []) (text : List α) :
    splitInclusive nl' (text.flatMap code) = (splitInclusive nl text).map (·.flatMap code) := by
  have hline : ∀ line : List α, nl ∉ line → nl' ∉ line.flatMap code := by
    intro line hline hmem
    obtain ⟨c, hc, hin⟩ := List.mem_flatMap.mp hmem
    exact (hother c fun h => hline (h ▸ hc)).1 hin
  induction text using lineInduction nl with
  | torn text hnone =>
      cases text with
      | nil => rfl
      | cons c text =>
          have hne : (c :: text).flatMap code ≠ [] := by
            rw [List.flatMap_cons]
            have hc := (hother c fun h => hnone (h ▸ List.mem_cons_self)).2
            exact List.append_ne_nil_of_left_ne_nil hc _
          rw [splitInclusive_of_notMem hne (hline _ hnone),
            splitInclusive_of_notMem (List.cons_ne_nil _ _) hnone, List.map_singleton]
  | line line rest hnot ih =>
      rw [List.flatMap_append, List.flatMap_cons, hnl, List.singleton_append,
        splitInclusive_line (hline _ hnot), splitInclusive_line hnot, List.map_cons, ih,
        List.flatMap_append, List.flatMap_singleton, hnl]

/-! ## The first line -/

/-- The text up to its first newline, or all of it. -/
def firstLine (nl : α) : List α → List α
  | [] => []
  | c :: cs => if c = nl then [c] else c :: firstLine nl cs

theorem firstLine_initial (nl : α) (text : List α) : firstLine nl text <+: text := by
  induction text with
  | nil => exact List.prefix_rfl
  | cons c cs ih =>
      rw [firstLine]
      by_cases hc : c = nl
      · rw [if_pos hc]
        exact List.prefix_append [c] cs
      · rw [if_neg hc]
        exact (List.prefix_cons_inj c).mpr ih

theorem firstLine_ne_nil {text : List α} (h : text ≠ []) : firstLine nl text ≠ [] := by
  cases text with
  | nil => exact absurd rfl h
  | cons c cs =>
      rw [firstLine]
      split <;> exact List.cons_ne_nil _ _

/-- What follows a complete line does not change it. -/
theorem firstLine_append {text : List α} (h : isEnded nl (firstLine nl text) = true)
    (rest : List α) : firstLine nl (text ++ rest) = firstLine nl text := by
  induction text with
  | nil => cases h
  | cons c cs ih =>
      rw [firstLine] at h
      rw [List.cons_append, firstLine, firstLine]
      by_cases hc : c = nl
      · rw [if_pos hc, if_pos hc]
      · rw [if_neg hc] at h
        rw [if_neg hc, if_neg hc, ih ?_]
        cases hcs : firstLine nl cs with
        | nil =>
            rw [hcs] at h
            exact absurd (Option.some.inj (beq_iff_eq.mp h)) hc
        | cons d ds =>
            rw [hcs] at h
            simpa [isEnded] using h

/-- Without a newline the text is all there is. -/
theorem firstLine_of_not_ended {text : List α} (h : isEnded nl (firstLine nl text) = false) :
    firstLine nl text = text := by
  induction text with
  | nil => rfl
  | cons c cs ih =>
      rw [firstLine] at h ⊢
      by_cases hc : c = nl
      · rw [if_pos hc, hc] at h
        simp [isEnded] at h
      · rw [if_neg hc] at h ⊢
        congr 1
        cases hcs : cs with
        | nil => rfl
        | cons d ds =>
            rw [← hcs]
            refine ih ?_
            have hne : firstLine nl cs ≠ [] := firstLine_ne_nil (hcs ▸ List.cons_ne_nil d ds)
            obtain ⟨e, es, hes⟩ := List.exists_cons_of_ne_nil hne
            rw [hes] at h ⊢
            simpa [isEnded] using h

theorem firstLine_line {line : List α} (h : nl ∉ line) (rest : List α) :
    firstLine nl (line ++ nl :: rest) = line ++ [nl] := by
  induction line with
  | nil => rw [List.nil_append, firstLine, if_pos rfl, List.nil_append]
  | cons c cs ih =>
      rw [List.mem_cons, not_or] at h
      rw [List.cons_append, firstLine, if_neg (Ne.symm h.1), ih h.2, List.cons_append]

end Lib
