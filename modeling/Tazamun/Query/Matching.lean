import Tazamun.Query.Pattern

set_option autoImplicit false

/-! # What a pattern matches

The substring scan finds exactly the infixes (`containsFolded_iff`). The glob loop always ends,
and decides whether the pattern matches under the reading that a star at a `*` of the path
takes just that one (`globMatch_eq`): its invariant is that the pattern matches from the
current positions, or from some later place of the last star (`GlobState.Answer`), and moving
the last star forward loses nothing because the leftmost place is the best (`Glob.later`).

The byte forms agree with the scalar forms, as the folded scalars of ASCII text are the folded
bytes (`foldChars_ascii`).
-/

namespace Tazamun

open Lib (Glob Anything Itself Agrees)

section Matchers

variable {α : Type}

/-! ## Where the glob loop stands -/

variable {pat s : List α} {star question : α}

namespace GlobState

/-- The positions are within the lists, and since the last star pattern and text agree. -/
structure Inv (pat s : List α) (question : α) (st : GlobState) : Prop where
  p_le : st.p ≤ pat.length
  i_le : st.i ≤ s.length
  mark_le : st.mark ≤ st.i
  back : ∀ l, st.lastStar = some l → l < pat.length ∧ ∃ begins agreed,
    List.Forall₂ (Agrees question) begins agreed ∧
      pat.drop (l + 1) = begins ++ pat.drop st.p ∧
      s.drop st.mark = agreed ++ s.drop st.i

/-- The pattern matches from here, or from a later place of the last star. -/
def Answer (pat s : List α) (star question : α) (st : GlobState) : Prop :=
  Glob star question (Itself star) (pat.drop st.p) (s.drop st.i) ∨
    ∃ l, st.lastStar = some l ∧ ∃ rest, rest <:+ s.drop (st.mark + 1) ∧
      Glob star question (Itself star) (pat.drop (l + 1)) rest

/-- What is left to do: the places of the last star, and then the pattern. -/
def remaining (pat s : List α) (st : GlobState) : Nat :=
  (s.length - st.mark) * (pat.length + 1) + (pat.length - st.p)

theorem Inv.start : Inv pat s question start where
  p_le := Nat.zero_le _
  i_le := Nat.zero_le _
  mark_le := le_refl _
  back := fun l hl => by cases hl

theorem drop_eq_cons {l : List α} {i : Nat} {x : α} (hx : l[i]? = some x) :
    l.drop i = x :: l.drop (i + 1) := by
  obtain ⟨hlt, hget⟩ := List.getElem?_eq_some_iff.mp hx
  rw [List.drop_eq_getElem_cons hlt, hget]

variable {st : GlobState} {c : α}

/-- Pattern and text agree at the current positions. -/
theorem step_agree (hne : star ≠ question) (hi : Inv pat s question st) (hc : s[st.i]? = some c)
    {x : α} (hx : pat[st.p]? = some x) (hagrees : Agrees question x c) :
    Inv pat s question { st with p := st.p + 1, i := st.i + 1 } ∧
      (Answer pat s star question st ↔
        Answer pat s star question { st with p := st.p + 1, i := st.i + 1 }) := by
  have hpat := drop_eq_cons hx
  have htext := drop_eq_cons hc
  refine ⟨⟨(List.getElem?_eq_some_iff.mp hx).1, (List.getElem?_eq_some_iff.mp hc).1,
    hi.mark_le.trans (Nat.le_succ _), fun l hl => ?_⟩, ?_⟩
  · obtain ⟨hlt, begins, agreed, hagree, hbegins, hagreed⟩ := hi.back l hl
    refine ⟨hlt, begins ++ [x], agreed ++ [c], ?_, ?_, ?_⟩
    · exact List.rel_append hagree (.cons hagrees .nil)
    · rw [hbegins, hpat, List.append_assoc, List.singleton_append]
    · rw [hagreed, htext, List.append_assoc, List.singleton_append]
  · unfold Answer
    rw [hpat, htext, Glob.agree_iff hne hagrees]

/-- The pattern has a star at its position, and the text something else. -/
theorem step_star (hne : star ≠ question) (hi : Inv pat s question st) (hc : s[st.i]? = some c)
    (hx : pat[st.p]? = some star) (hcs : c ≠ star) :
    Inv pat s question { p := st.p + 1, i := st.i, lastStar := some st.p, mark := st.i } ∧
      (Answer pat s star question st ↔ Answer pat s star question
        { p := st.p + 1, i := st.i, lastStar := some st.p, mark := st.i }) := by
  have hpat := drop_eq_cons hx
  have htext := drop_eq_cons hc
  refine ⟨⟨(List.getElem?_eq_some_iff.mp hx).1, hi.i_le, le_refl _, fun l hl => ?_⟩, ?_⟩
  · obtain rfl := Option.some.inj hl
    exact ⟨(List.getElem?_eq_some_iff.mp hx).1, [], [], .nil, rfl, rfl⟩
  -- the star may take anything from here on
  have hhere : Glob star question (Itself star) (pat.drop st.p) (s.drop st.i) ↔
      ∃ rest, rest <:+ s.drop st.i ∧
        Glob star question (Itself star) (pat.drop (st.p + 1)) rest := by
    rw [hpat, htext]
    exact Glob.star_cons_iff hne hcs
  constructor
  · intro hanswer
    have hsome : ∃ rest, rest <:+ s.drop st.i ∧
        Glob star question (Itself star) (pat.drop (st.p + 1)) rest := by
      rcases hanswer with h | ⟨l, hl, rest, hrest, h⟩
      · exact hhere.mp h
      · -- a later place of the star before is no better
        obtain ⟨-, begins, agreed, hagree, hbegins, hagreed⟩ := hi.back l hl
        have hsuffix : rest <:+ agreed ++ s.drop st.i := by
          rw [← hagreed]
          refine hrest.trans ?_
          rw [← List.drop_drop]
          exact List.drop_suffix _ _
        rw [hbegins] at h
        obtain ⟨rest', hrest', h'⟩ := Glob.later hne hagree h hsuffix
        rw [hpat] at h'
        obtain ⟨rest'', hrest'', h''⟩ := Glob.exists_suffix hne h'
        exact ⟨rest'', hrest''.trans hrest', h''⟩
    obtain ⟨rest, hrest, h⟩ := hsome
    rw [htext] at hrest
    rcases List.suffix_cons_iff.mp hrest with rfl | hlater
    · refine .inl ?_
      show Glob star question (Itself star) (pat.drop (st.p + 1)) (s.drop st.i)
      rwa [htext]
    · exact .inr ⟨st.p, rfl, rest, hlater, h⟩
  · rintro (h | ⟨l, hl, rest, hrest, h⟩)
    · exact .inl (hhere.mpr ⟨_, List.suffix_rfl, h⟩)
    · obtain rfl := Option.some.inj hl
      refine .inl (hhere.mpr ⟨rest, ?_, h⟩)
      rw [htext]
      exact hrest.trans (List.suffix_cons _ _)

/-- They do not agree, so nothing matches from here. -/
theorem not_here (hstar : pat[st.p]? ≠ some star) (hc : s[st.i]? = some c)
    (hno : ∀ x, pat[st.p]? = some x → ¬ Agrees question x c) :
    ¬ Glob star question (Itself star) (pat.drop st.p) (s.drop st.i) := by
  rw [drop_eq_cons hc]
  cases hx : pat[st.p]? with
  | none =>
      rw [List.drop_eq_nil_of_le (List.getElem?_eq_none_iff.mp hx), Glob.nil_iff]
      intro h
      cases h
  | some x =>
      have hne : x ≠ star := fun heq => hstar (heq ▸ hx)
      rw [drop_eq_cons hx, Glob.cons_iff hne]
      rintro ⟨c', rest, hs, hagrees, -⟩
      obtain ⟨rfl, -⟩ := List.cons.inj hs
      exact hno x hx hagrees

/-- An end of the text from a place on begins there or later. -/
theorem suffix_drop_cases {rest : List α} {k : Nat} (h : rest <:+ s.drop k) :
    rest = s.drop k ∨ rest <:+ s.drop (k + 1) := by
  by_cases hk : k < s.length
  · rw [List.drop_eq_getElem_cons hk] at h ⊢
    exact List.suffix_cons_iff.mp h
  · have hnil : s.drop k = [] := List.drop_eq_nil_of_le (not_lt.mp hk)
    rw [hnil] at h ⊢
    exact .inl (List.suffix_nil.mp h)

/-- The loop goes back to the last star, which takes one element more. -/
theorem step_back (hi : Inv pat s question st) (hc : s[st.i]? = some c)
    (hnot : ¬ Glob star question (Itself star) (pat.drop st.p) (s.drop st.i)) {l : Nat}
    (hl : st.lastStar = some l) :
    Inv pat s question
        { p := l + 1, i := st.mark + 1, lastStar := some l, mark := st.mark + 1 } ∧
      (Answer pat s star question st ↔ Answer pat s star question
        { p := l + 1, i := st.mark + 1, lastStar := some l, mark := st.mark + 1 }) := by
  have hlt := (List.getElem?_eq_some_iff.mp hc).1
  have hmark : st.mark + 1 ≤ s.length := Nat.succ_le_of_lt (hi.mark_le.trans_lt hlt)
  refine ⟨⟨(hi.back l hl).1, hmark, le_refl _, fun l' hl' => ?_⟩, ?_⟩
  · obtain rfl := Option.some.inj hl'
    exact ⟨(hi.back l hl).1, [], [], .nil, rfl, rfl⟩
  constructor
  · rintro (h | ⟨l', hl', rest, hrest, h⟩)
    · exact absurd h hnot
    · obtain rfl : l = l' := Option.some.inj (hl.symm.trans hl')
      rcases suffix_drop_cases hrest with rfl | hlater
      · exact .inl h
      · exact .inr ⟨l, rfl, rest, hlater, h⟩
  · rintro (h | ⟨l', hl', rest, hrest, h⟩)
    · exact .inr ⟨l, hl, _, List.suffix_rfl, h⟩
    · obtain rfl := Option.some.inj hl'
      refine .inr ⟨l, hl, rest, hrest.trans ?_, h⟩
      show s.drop (st.mark + 1 + 1) <:+ s.drop (st.mark + 1)
      rw [← List.drop_drop]
      exact List.drop_suffix _ _

end GlobState

/-! ## Substrings -/

variable [DecidableEq α]

theorem containsFrom_iff {hay needle : List α} (hne : needle ≠ []) (fuel start : Nat) :
    containsFrom hay needle fuel start = true ↔
      ∃ k, k < fuel ∧ needle <+: hay.drop (start + k) := by
  have hfits : ∀ i, (hay[i]? = needle.head? ∧ (hay.drop i).take needle.length = needle) ↔
      needle <+: hay.drop i := by
    intro i
    rw [List.prefix_iff_eq_take]
    constructor
    · rintro ⟨-, htake⟩
      exact htake.symm
    · intro htake
      refine ⟨?_, htake.symm⟩
      cases needle with
      | nil => exact absurd rfl hne
      | cons x needle =>
          have hhead := congrArg List.head? htake
          rw [List.head?_take, if_neg (by simp), List.head?_drop] at hhead
          exact hhead.symm
  induction fuel generalizing start with
  | zero =>
      constructor
      · intro h
        cases h
      · rintro ⟨k, hk, -⟩
        omega
  | succ fuel ih =>
      rw [containsFrom]
      split
      · rename_i hhere
        exact iff_of_true rfl ⟨0, Nat.succ_pos _, (hfits start).mp hhere⟩
      · rename_i hnot
        refine (ih (start + 1)).trans ?_
        constructor
        · rintro ⟨k, hk, hpre⟩
          refine ⟨k + 1, by omega, ?_⟩
          rwa [show start + (k + 1) = start + 1 + k by omega]
        · rintro ⟨k, hk, hpre⟩
          cases k with
          | zero => exact absurd ((hfits start).mpr hpre) hnot
          | succ k =>
              refine ⟨k, by omega, ?_⟩
              rwa [show start + 1 + k = start + (k + 1) by omega]

/-- **The scan finds the infixes.** -/
theorem containsFolded_iff {hay needle : List α} :
    containsFolded hay needle = true ↔ needle <:+: hay := by
  unfold containsFolded
  split
  · rename_i hempty
    rw [List.isEmpty_iff.mp hempty]
    exact iff_of_true rfl List.nil_infix
  · rename_i hempty
    have hne : needle ≠ [] := fun h => hempty (List.isEmpty_iff.mpr h)
    split
    · rename_i hshort
      constructor
      · intro h
        cases h
      · intro hin
        exact absurd hin.length_le (not_le.mpr hshort)
    · rename_i hlong
      rw [containsFrom_iff hne]
      constructor
      · rintro ⟨k, -, hpre⟩
        rw [Nat.zero_add] at hpre
        exact hpre.isInfix.trans (List.drop_suffix k hay).isInfix
      · rintro ⟨before, after, hhay⟩
        have hlen := congrArg List.length hhay
        rw [List.length_append, List.length_append] at hlen
        refine ⟨before.length, by omega, ⟨after, ?_⟩⟩
        rw [Nat.zero_add, ← hhay, List.append_assoc, List.drop_left]

/-! ## The glob loop -/

/-- The stars at the end are skipped, and nothing but stars. -/
theorem skipStars_eq_length {p : Nat} (hp : p ≤ pat.length) :
    skipStars pat star p = pat.length ↔ ∀ x ∈ pat.drop p, x = star := by
  have hlen : (pat.drop p).length = pat.length - p := List.length_drop
  rw [skipStars]
  constructor
  · intro heq
    have hall : (pat.drop p).takeWhile (fun x => decide (x = star)) = pat.drop p := by
      refine List.Sublist.eq_of_length (List.takeWhile_sublist _) ?_
      omega
    intro x hx
    rw [← hall] at hx
    simpa using List.mem_takeWhile_imp hx
  · intro hall
    have htake : (pat.drop p).takeWhile (fun x => decide (x = star)) = pat.drop p :=
      List.takeWhile_eq_self_iff.mpr fun x hx => decide_eq_true (hall x hx)
    rw [htake]
    omega

namespace GlobState

variable {st : GlobState} {c : α}

/-- **One round.** It keeps the invariant and the answer, and there is less left to do; or
nothing matches. -/
theorem globStep_spec (hne : star ≠ question) (hi : Inv pat s question st)
    (hc : s[st.i]? = some c) :
    match globStep pat star question c st with
    | some st' => Inv pat s question st' ∧ remaining pat s st' < remaining pat s st ∧
        (Answer pat s star question st ↔ Answer pat s star question st')
    | none => ¬ Answer pat s star question st := by
  have hi_lt : st.i < s.length := (List.getElem?_eq_some_iff.mp hc).1
  have hmark : st.mark < s.length := hi.mark_le.trans_lt hi_lt
  unfold globStep
  by_cases hagree : pat[st.p]?.any (fun x => decide (x = question ∨ x = c)) = true
  · rw [if_pos hagree]
    obtain ⟨x, hx, hxc⟩ := (Option.any_eq_true _ _).mp hagree
    have hagrees : Agrees question x c := of_decide_eq_true (p := x = question ∨ x = c) hxc
    have hp : st.p < pat.length := (List.getElem?_eq_some_iff.mp hx).1
    obtain ⟨hi', hanswer⟩ := step_agree hne hi hc hx hagrees
    refine ⟨hi', ?_, hanswer⟩
    simp only [remaining]
    omega
  · rw [if_neg hagree]
    have hno : ∀ x, pat[st.p]? = some x → ¬ Agrees question x c := by
      intro x hx hagrees
      rw [hx] at hagree
      exact hagree (decide_eq_true (p := x = question ∨ x = c) hagrees)
    by_cases hstar : pat[st.p]? = some star
    · rw [if_pos hstar]
      have hp : st.p < pat.length := (List.getElem?_eq_some_iff.mp hstar).1
      have hcs : c ≠ star := fun heq => hno star hstar (.inr heq.symm)
      obtain ⟨hi', hanswer⟩ := step_star hne hi hc hstar hcs
      refine ⟨hi', ?_, hanswer⟩
      have hless : (s.length - st.i) * (pat.length + 1) ≤
          (s.length - st.mark) * (pat.length + 1) :=
        Nat.mul_le_mul_right _ (Nat.sub_le_sub_left hi.mark_le _)
      simp only [remaining]
      omega
    · rw [if_neg hstar]
      have hnot := not_here hstar hc hno
      cases hl : st.lastStar with
      | none =>
          rintro (h | ⟨l, hl', -⟩)
          · exact hnot h
          · rw [hl] at hl'
            cases hl'
      | some l =>
          obtain ⟨hi', hanswer⟩ := step_back hi hc hnot hl
          refine ⟨hi', ?_, hanswer⟩
          have hplaces : s.length - st.mark = s.length - (st.mark + 1) + 1 := by omega
          simp only [remaining]
          rw [hplaces, Nat.add_mul, Nat.one_mul]
          omega

/-- At the end of the text only stars may be left. -/
theorem answer_end (hne : star ≠ question) (hi : Inv pat s question st)
    (hend : s[st.i]? = none) :
    Answer pat s star question st ↔ skipStars pat star st.p = pat.length := by
  have hempty : s.drop st.i = [] := List.drop_eq_nil_of_le (List.getElem?_eq_none_iff.mp hend)
  have hmay : Itself star ([] : List α) [] := by
    intro h
    cases h
  rw [skipStars_eq_length hi.p_le, ← Glob.nil_right_iff hne hmay]
  constructor
  · rintro (h | ⟨l, hl, rest, hrest, h⟩)
    · rwa [hempty] at h
    · obtain ⟨-, begins, agreed, hagree, hbegins, hagreed⟩ := hi.back l hl
      have hsuffix : rest <:+ agreed ++ [] := by
        rw [← hempty, ← hagreed]
        refine hrest.trans ?_
        rw [← List.drop_drop]
        exact List.drop_suffix _ _
      rw [hbegins] at h
      obtain ⟨rest', hrest', h'⟩ := Glob.later hne hagree h hsuffix
      rwa [List.suffix_nil.mp hrest'] at h'
  · intro h
    refine .inl ?_
    rwa [hempty]

/-- **The loop ends**, with the answer of the state it is in. -/
theorem globLoop_spec (hne : star ≠ question) (fuel : Nat) (hi : Inv pat s question st)
    (hfuel : remaining pat s st < fuel) :
    ∃ b, globLoop pat s star question fuel st = some b ∧
      (b = true ↔ Answer pat s star question st) := by
  induction fuel generalizing st with
  | zero => exact absurd hfuel (Nat.not_lt_zero _)
  | succ fuel ih =>
      rw [globLoop]
      cases hc : s[st.i]? with
      | none =>
          refine ⟨_, rfl, ?_⟩
          rw [answer_end hne hi hc, decide_eq_true_iff]
      | some c =>
          have hspec := globStep_spec hne hi hc
          cases hs : globStep pat star question c st with
          | none =>
              rw [hs] at hspec
              simp only [hs]
              exact ⟨false, rfl, iff_of_false Bool.false_ne_true hspec⟩
          | some st' =>
              rw [hs] at hspec
              obtain ⟨hi', hless, hanswer⟩ := hspec
              obtain ⟨b, hb, hiff⟩ := ih hi' (by omega)
              simp only [hs]
              exact ⟨b, hb, hiff.trans hanswer.symm⟩

end GlobState

/-- **What the glob matcher decides**: whether the pattern matches when a star at a `star` of
the text takes just that one. -/
theorem globMatch_eq (star question : α) (hne : star ≠ question) (pat s : List α) :
    ∃ b, globMatch pat s star question = some b ∧
      (b = true ↔ Glob star question (Itself star) pat s) := by
  have hfuel : GlobState.remaining pat s .start < (s.length + 1) * (pat.length + 1) := by
    simp only [GlobState.remaining, GlobState.start, Nat.sub_zero]
    rw [Nat.add_mul, Nat.one_mul]
    omega
  obtain ⟨b, hb, hiff⟩ := GlobState.globLoop_spec hne _ .start hfuel
  refine ⟨b, hb, hiff.trans ?_⟩
  constructor
  · rintro (h | ⟨l, hl, -⟩)
    · exact h
    · cases hl
  · exact .inl

end Matchers

/-! ## Bytes and scalars -/

/-- The scalar of an ASCII byte. -/
def ofByte (b : UInt8) : Char := Char.ofNat b.toNat

theorem toNat_ofNat {n : Nat} (hn : n < 256) : (Char.ofNat n).toNat = n := by
  have hvalid : n.isValidChar := .inl (by omega)
  rw [Char.ofNat, dif_pos hvalid]
  rfl

theorem ofByte_injective : Function.Injective ofByte := by
  intro a b hab
  have hvalid : ∀ b : UInt8, (ofByte b).toNat = b.toNat := fun b => toNat_ofNat b.toNat_lt
  have hnat := congrArg Char.toNat hab
  rw [hvalid, hvalid] at hnat
  exact UInt8.toNat.inj hnat

theorem toLower_ofNat : ∀ n < 128, (Char.ofNat n).toLower =
    ofByte (toAsciiLowercase (UInt8.ofNat n)) := by
  decide

/-- The folded scalars of ASCII text are its folded bytes. -/
theorem foldChars_ascii (lower : Char → List Char) {s : List Char} (hs : isAscii s = true) :
    foldChars lower s = (foldBytes s).map ofByte := by
  induction s with
  | nil => rfl
  | cons c s ih =>
      obtain ⟨hc, hrest⟩ := Bool.and_eq_true_iff.mp hs
      have hlt : c.toNat < 128 := of_decide_eq_true hc
      have hencode : String.utf8EncodeChar c = [UInt8.ofNat c.toNat] := by
        have hle : c.val.toNat ≤ 127 := Nat.le_of_lt_succ hlt
        rw [String.utf8EncodeChar]
        exact if_pos hle
      have hfold : fold lower c = ofByte (toAsciiLowercase (UInt8.ofNat c.toNat)) := by
        rw [fold, if_pos hlt, ← toLower_ofNat c.toNat hlt, Char.ofNat_toNat]
      have hcons : foldChars lower (c :: s) = fold lower c :: foldChars lower s := rfl
      rw [hcons, hfold, ih hrest, foldBytes, foldBytes, bytes, bytes, List.flatMap_cons, hencode]
      rfl

/-- `matches_with` without the byte form. -/
def PathMatcher.matchesScalars (lower : Char → List Char) (m : PathMatcher) (path : List Char) :
    Option Bool :=
  match m with
  | .all => some true
  | .substring pat => some (containsFolded (foldChars lower path) pat.chars)
  | .glob pat => globMatch pat.chars (foldChars lower path) '*' '?'

theorem infix_map_injective {β γ : Type} {f : β → γ} (hf : Function.Injective f)
    {needle hay : List β} : needle.map f <:+: hay.map f ↔ needle <:+: hay := by
  rw [List.infix_map_iff]
  constructor
  · rintro ⟨l, hl, heq⟩
    rwa [List.map_injective_iff.mpr hf heq]
  · intro h
    exact ⟨needle, h, rfl⟩

/-- **The two forms of a pattern agree** on an ASCII path. -/
theorem containsFolded_bytes (lower : Char → List Char) {pattern path : List Char}
    (hpattern : isAscii pattern = true) (hpath : isAscii path = true) :
    containsFolded (foldBytes path) (foldBytes pattern) =
      containsFolded (foldChars lower path) (foldChars lower pattern) := by
  rw [Bool.eq_iff_iff, containsFolded_iff, containsFolded_iff, foldChars_ascii lower hpattern,
    foldChars_ascii lower hpath, infix_map_injective ofByte_injective]

theorem globMatch_bytes (lower : Char → List Char) {pattern path : List Char}
    (hpattern : isAscii pattern = true) (hpath : isAscii path = true) :
    globMatch (foldBytes pattern) (foldBytes path) 42 63 =
      globMatch (foldChars lower pattern) (foldChars lower path) '*' '?' := by
  obtain ⟨b, hb, hbytes⟩ := globMatch_eq 42 63 (by decide) (foldBytes pattern) (foldBytes path)
  obtain ⟨b', hb', hchars⟩ := globMatch_eq '*' '?' (by decide) (foldChars lower pattern)
    (foldChars lower path)
  have hmap : Glob (ofByte 42) (ofByte 63) (Itself (ofByte 42)) ((foldBytes pattern).map ofByte)
      ((foldBytes path).map ofByte) ↔ Glob 42 63 (Itself 42) (foldBytes pattern) (foldBytes path) :=
    Glob.map_iff ofByte_injective (Glob.itself_map ofByte_injective) (by decide)
  rw [← foldChars_ascii lower hpattern, ← foldChars_ascii lower hpath] at hmap
  have hsame : b' = b := by
    rw [Bool.eq_iff_iff, hbytes, hchars]
    exact hmap
  rw [hb, hb', hsame]

/-! ## Compiled patterns -/

/-- The matchers that a pattern compiles to. -/
theorem compilePattern_ok {lower : Char → List Char} {raw : List Char} {m : PathMatcher}
    (hm : compilePattern lower raw = .ok m) :
    (trim raw = [] ∧ m = .all) ∨
      (wildcards (trim raw) = 0 ∧ m = .substring (Folded.new lower (trim raw))) ∨
      (wildcards (trim raw) ≠ 0 ∧ m = .glob (Folded.new lower (trim raw))) := by
  simp only [compilePattern] at hm
  split at hm
  · rename_i hempty
    cases hm
    exact .inl ⟨List.isEmpty_iff.mp hempty, rfl⟩
  · split at hm
    · cases hm
    split at hm
    · cases hm
    split at hm
    · cases hm
    split at hm
    · cases hm
    split at hm
    · cases hm
    split at hm
    · cases hm
    split at hm
    · cases hm
    split at hm
    · rename_i hnone
      cases hm
      exact .inr (.inl ⟨hnone, rfl⟩)
    · rename_i hsome
      cases hm
      exact .inr (.inr ⟨hsome, rfl⟩)

theorem matchesWith_substring (lower : Char → List Char) (pattern path : List Char) :
    (PathMatcher.substring (Folded.new lower pattern)).matchesWith lower path =
      (PathMatcher.substring (Folded.new lower pattern)).matchesScalars lower path := by
  simp only [PathMatcher.matchesWith, PathMatcher.matchesScalars, Folded.new]
  by_cases hpattern : isAscii pattern = true
  · rw [if_pos hpattern]
    cases hpath : isAscii path with
    | false => rfl
    | true => exact congrArg some (containsFolded_bytes lower hpattern hpath)
  · rw [if_neg hpattern]

theorem matchesWith_glob (lower : Char → List Char) (pattern path : List Char) :
    (PathMatcher.glob (Folded.new lower pattern)).matchesWith lower path =
      (PathMatcher.glob (Folded.new lower pattern)).matchesScalars lower path := by
  simp only [PathMatcher.matchesWith, PathMatcher.matchesScalars, Folded.new]
  by_cases hpattern : isAscii pattern = true
  · rw [if_pos hpattern]
    cases hpath : isAscii path with
    | false => rfl
    | true => exact globMatch_bytes lower hpattern hpath
  · rw [if_neg hpattern]

/-- **The byte form makes no difference.** -/
theorem matchesWith_eq_matchesScalars {lower : Char → List Char} {raw : List Char}
    {m : PathMatcher} (hm : compilePattern lower raw = .ok m) (path : List Char) :
    m.matchesWith lower path = m.matchesScalars lower path := by
  rcases compilePattern_ok hm with ⟨-, rfl⟩ | ⟨-, rfl⟩ | ⟨-, rfl⟩
  · rfl
  · exact matchesWith_substring lower _ path
  · exact matchesWith_glob lower _ path

/-- What a query asks for: the paths that contain the pattern, or match it as a whole. -/
def Matched (lower : Char → List Char) (pattern path : List Char) : Prop :=
  if wildcards pattern = 0 then foldChars lower pattern <:+: foldChars lower path
  else Glob '*' '?' Anything (foldChars lower pattern) (foldChars lower path)

/-- If the path matches the glob at all, then in a way in which every `*` of the pattern that
stands at a `*` of the path takes just that one. -/
def Tame (lower : Char → List Char) (pattern path : List Char) : Prop :=
  wildcards pattern ≠ 0 →
    Glob '*' '?' Anything (foldChars lower pattern) (foldChars lower path) →
    Glob '*' '?' (Itself '*') (foldChars lower pattern) (foldChars lower path)

/-- The matcher answers, it answers right, and its two forms answer the same. -/
def MatchesExactly (lower : Char → List Char) (m : PathMatcher) (pattern path : List Char) :
    Prop :=
  (∃ b, m.matchesWith lower path = some b ∧ (b = true ↔ Matched lower pattern path)) ∧
    m.matchesWith lower path = m.matchesScalars lower path

/-- **When matching is exact**: for every pattern that compiles and every path, exactly when
the glob is not misled by a `*` of the path. -/
theorem matches_exact_iff {lower : Char → List Char} {raw : List Char} {m : PathMatcher}
    (hm : compilePattern lower raw = .ok m) (path : List Char) :
    MatchesExactly lower m (trim raw) path ↔ Tame lower (trim raw) path := by
  have hagree := matchesWith_eq_matchesScalars hm path
  unfold MatchesExactly
  rw [and_iff_left hagree, hagree]
  rcases compilePattern_ok hm with ⟨hempty, rfl⟩ | ⟨hnone, rfl⟩ | ⟨hsome, rfl⟩
  · rw [hempty]
    refine iff_of_true ⟨true, rfl, iff_of_true rfl ?_⟩ (fun hw => absurd rfl hw)
    exact List.nil_infix
  · refine iff_of_true ⟨_, rfl, ?_⟩ (fun hw => absurd hnone hw)
    rw [Matched, if_pos hnone]
    exact containsFolded_iff
  · obtain ⟨b, hb, hiff⟩ := globMatch_eq '*' '?' (by decide) (foldChars lower (trim raw))
      (foldChars lower path)
    have hmatches : (PathMatcher.glob (Folded.new lower (trim raw))).matchesScalars lower path =
        some b := hb
    rw [Matched, if_neg hsome, Tame, hmatches]
    constructor
    · rintro ⟨b', hb', hexact⟩ - hglob
      obtain rfl := Option.some.inj hb'
      exact hiff.mp (hexact.mpr hglob)
    · intro htame
      refine ⟨b, rfl, hiff.trans ⟨fun h => h.mono fun _ _ _ => trivial, htame hsome⟩⟩

/-- **A path without a `*` is matched exactly.** -/
theorem tame_of_notMem {lower : Char → List Char} {pattern path : List Char}
    (hpath : '*' ∉ foldChars lower path) : Tame lower pattern path :=
  fun _ h => h.itself_of_notMem hpath

/-- The lowercase mapping of ASCII, and of scripts without case. -/
def plainLower (c : Char) : List Char := [c.toLower]

/-- A glob is matched exactly in an Arabic path. -/
theorem matches_exact_unicode : ∃ m, compilePattern plainLower "*.MD".toList = .ok m ∧
    MatchesExactly plainLower m (trim "*.MD".toList) "ملف.md".toList ∧
    m.matchesWith plainLower "ملف.md".toList = some true := by
  have hm : compilePattern plainLower "*.MD".toList =
      .ok (.glob (Folded.new plainLower "*.MD".toList)) := by decide
  exact ⟨_, hm, (matches_exact_iff hm _).mpr (tame_of_notMem (by decide)), by decide⟩

/-- **A `*` in a path misleads the matcher**: `*b` does not match `*ab`. -/
theorem star_misleads : ∃ m, compilePattern plainLower "*b".toList = .ok m ∧
    sanitizeRelPath "*ab" = .ok "*ab" ∧
    m.matchesWith plainLower "*ab".toList = some false ∧
    Matched plainLower (trim "*b".toList) "*ab".toList ∧
    ¬ MatchesExactly plainLower m (trim "*b".toList) "*ab".toList := by
  have hmatched : Matched plainLower (trim "*b".toList) "*ab".toList :=
    @Glob.star _ _ _ _ ['*', 'a'] ['b'] ['b'] trivial (.one (by decide) (by decide) .nil)
  have hfalse : (PathMatcher.glob (Folded.new plainLower "*b".toList)).matchesWith plainLower
      "*ab".toList = some false := by decide
  refine ⟨.glob (Folded.new plainLower "*b".toList), by decide, by decide, hfalse, hmatched, ?_⟩
  rintro ⟨⟨b, hb, hiff⟩, -⟩
  rw [hfalse] at hb
  obtain rfl := Option.some.inj hb
  exact Bool.false_ne_true (hiff.mpr hmatched)

end Tazamun
