import Mathlib.Data.List.Sort
import Mathlib.Data.List.TakeWhile
import Mathlib.Data.String.Basic
import Tazamun.Lib.EditDistance

set_option autoImplicit false

/-! # Did you mean

For a command that does not exist, `suggest.rs` offers the ones that are close to what was typed:
those that it begins, and those that are a few slips of the fingers away. `damerau` counts the
slips. It fills a table row by row, and keeps three of the rows, which take turns.

What it counts is the least number of edits (**`damerau_isLeast`**). What is offered are the best
of the candidates, in their order, and none that is left out is better (**`closest_offers`**). And
it depends on the candidates alone, not on the order in which they come (**`closest_perm`**): the
sort is by the score, and by the name where the scores are equal.
-/

namespace Tazamun.Cli

open Lib

variable {α : Type} [DecidableEq α]

/-! ## The rows -/

/-- The rows that take turns. -/
structure Rows where
  prev2 : Nat → Nat
  prev : Nat → Nat
  cur : Nat → Nat

/-- The inner loop's body. -/
def fillEntry (a b : List α) (prev2 prev : Nat → Nat) (i : Nat) (cur : Nat → Nat) (j : Nat) :
    Nat → Nat :=
  let cost := if a[i - 1]? ≠ b[j - 1]? then 1 else 0
  let best := min (min (prev (j - 1) + cost) (prev j + 1)) (cur (j - 1) + 1)
  let best :=
    if 1 < i ∧ 1 < j ∧ a[i - 1]? = b[j - 2]? ∧ a[i - 2]? = b[j - 1]? then
      min best (prev2 (j - 2) + 1)
    else best
  Function.update cur j best

/-- The outer loop's body: fills a row, and swaps the rows twice. -/
def fillRow (a b : List α) (rows : Rows) (i : Nat) : Rows :=
  let cur := Function.update rows.cur 0 i
  let cur := (List.range' 1 b.length).foldl (fillEntry a b rows.prev2 rows.prev i) cur
  { prev2 := rows.prev, prev := cur, cur := rows.prev2 }

def damerau (a b : List α) : Nat :=
  if a = [] then b.length
  else if b = [] then a.length
  else
    let rows : Rows := { prev2 := fun _ => 0, prev := fun j => j, cur := fun _ => 0 }
    ((List.range' 1 a.length).foldl (fillRow a b) rows).prev b.length

/-! ## The table -/

/-- So many entries of the row are filled. -/
def Filled (a b : List α) (i : Nat) (row : Nat → Nat) (n : Nat) : Prop :=
  ∀ j ≤ n, row j = table a b i j

theorem Filled.entry {a b : List α} {i j : Nat} {prev2 prev cur : Nat → Nat}
    (hi : i < a.length) (hj : j < b.length) (hprev : Filled a b i prev b.length)
    (hprev2 : 0 < i → Filled a b (i - 1) prev2 b.length) (hcur : Filled a b (i + 1) cur j) :
    Filled a b (i + 1) (fillEntry a b prev2 prev (i + 1) cur (j + 1)) (j + 1) := by
  intro j' hj'
  by_cases hlast : j' = j + 1
  · subst hlast
    have hcost : (if a[i]? ≠ b[j]? then 1 else 0) = cost a[i] b[j] := by
      rw [List.getElem?_eq_getElem hi, List.getElem?_eq_getElem hj, cost]
      by_cases hsame : a[i] = b[j]
      · rw [if_pos hsame, if_neg (not_not.mpr (congrArg some hsame))]
      · rw [if_neg hsame, if_pos fun h => hsame (Option.some.inj h)]
    unfold fillEntry
    rw [Function.update_self, table_succ hi hj]
    dsimp only
    rw [show j + 1 - 2 = j - 1 by omega, show i + 1 - 2 = i - 1 by omega, Nat.add_sub_cancel,
      Nat.add_sub_cancel, hprev j (by omega), hprev (j + 1) (by omega), hcur j (le_refl j), hcost]
    by_cases hswap : 0 < i ∧ 0 < j ∧ a[i]? = b[j - 1]? ∧ a[i - 1]? = b[j]?
    · have hswap' : 1 < i + 1 ∧ 1 < j + 1 ∧ a[i]? = b[j - 1]? ∧ a[i - 1]? = b[j]? :=
        ⟨by omega, by omega, hswap.2.2⟩
      rw [if_pos hswap, if_pos hswap', hprev2 hswap.1 (j - 1) (by omega)]
      rfl
    · have hswap' : ¬ (1 < i + 1 ∧ 1 < j + 1 ∧ a[i]? = b[j - 1]? ∧ a[i - 1]? = b[j]?) :=
        fun h => hswap ⟨by omega, by omega, h.2.2⟩
      rw [if_neg hswap, if_neg hswap']
      rfl
  · have hle : j' ≤ j := by omega
    unfold fillEntry
    rw [Function.update_of_ne hlast]
    exact hcur j' hle

theorem Filled.row {a b : List α} {i n : Nat} {prev2 prev cur : Nat → Nat} (hi : i < a.length)
    (hn : n ≤ b.length) (hprev : Filled a b i prev b.length)
    (hprev2 : 0 < i → Filled a b (i - 1) prev2 b.length) (hcur : Filled a b (i + 1) cur 0) :
    Filled a b (i + 1) ((List.range' 1 n).foldl (fillEntry a b prev2 prev (i + 1)) cur) n := by
  induction n with
  | zero => exact hcur
  | succ n ih =>
      rw [List.range'_1_concat, List.foldl_append, List.foldl_cons, List.foldl_nil,
        Nat.add_comm 1 n]
      exact Filled.entry hi (by omega) hprev hprev2 (ih (by omega))

/-- **The rows after the first `m`**: the last of them, and the one before it. -/
theorem filled_rows {a b : List α} {rows : Rows} (hrows : Filled a b 0 rows.prev b.length) {m : Nat}
    (hm : m ≤ a.length) :
    Filled a b m ((List.range' 1 m).foldl (fillRow a b) rows).prev b.length ∧
      (0 < m →
        Filled a b (m - 1) ((List.range' 1 m).foldl (fillRow a b) rows).prev2 b.length) := by
  induction m with
  | zero => exact ⟨hrows, fun h => absurd h (lt_irrefl 0)⟩
  | succ m ih =>
      obtain ⟨hprev, hprev2⟩ := ih (by omega)
      rw [List.range'_1_concat, List.foldl_append, List.foldl_cons, List.foldl_nil,
        Nat.add_comm 1 m]
      refine ⟨?_, fun _ => hprev⟩
      refine Filled.row (by omega) (le_refl _) hprev hprev2 fun j hj => ?_
      obtain rfl := Nat.le_zero.mp hj
      rw [Function.update_self, table_zero_right hm]

theorem damerau_eq_distance (a b : List α) : damerau a b = distance a b := by
  unfold damerau
  by_cases ha : a = []
  · rw [if_pos ha, ha, distance_nil_left]
  · rw [if_neg ha]
    by_cases hb : b = []
    · rw [if_pos hb, hb, distance_nil_right]
    · rw [if_neg hb]
      have hstart : Filled a b 0 (fun j => j) b.length := fun j hj => (table_zero_left hj).symm
      have hrows : Filled a b 0 (Rows.mk (fun _ => 0) (fun j => j) fun _ => 0).prev b.length :=
        hstart
      rw [(filled_rows hrows (le_refl a.length)).1 b.length (le_refl _), table_length]

/-- **What is counted is the least number of slips**: changed, dropped and added letters, and
swapped neighbours, no letter twice. -/
theorem damerau_isLeast (a b : List α) : IsLeast {k | Align a b k} (damerau a b) := by
  rw [damerau_eq_distance]
  exact distance_isLeast a b

example : damerau "lcok".toList "lock".toList = 1 := by decide

/-! ## Scores -/

/-- `max_distance`. -/
def maxDistance (typed : Nat) : Nat :=
  if typed ≤ 1 then 0 else if typed ≤ 4 then 1 else if typed ≤ 7 then 2 else 3

/-- What is left of an iterator after it found the letter. -/
def consume (x : α) : List α → Option (List α)
  | [] => none
  | y :: rest => if y = x then some rest else consume x rest

/-- `is_subsequence`. -/
def isSubsequence : List α → List α → Bool
  | [], _ => true
  | x :: t, c =>
      match consume x c with
      | none => false
      | some rest => isSubsequence t rest

theorem consume_sublist {x : α} {c rest t : List α} (h : consume x c = some rest) :
    (x :: t).Sublist c ↔ t.Sublist rest := by
  induction c with
  | nil => cases h
  | cons y c ih =>
      unfold consume at h
      by_cases hy : y = x
      · rw [if_pos hy] at h
        obtain rfl := Option.some.inj h
        subst hy
        exact List.cons_sublist_cons
      · rw [if_neg hy] at h
        rw [← ih h]
        constructor
        · intro hsub
          cases hsub with
          | cons _ hsub => exact hsub
          | cons_cons _ _ => exact absurd rfl hy
        · intro hsub
          exact hsub.cons y

theorem isSubsequence_iff {t c : List α} : isSubsequence t c = true ↔ t.Sublist c := by
  induction t generalizing c with
  | nil => simp [isSubsequence]
  | cons x t ih =>
      unfold isSubsequence
      cases h : consume x c with
      | none =>
          have hnot : x ∉ c := by
            intro hx
            induction c with
            | nil => cases hx
            | cons y c ihc =>
                unfold consume at h
                by_cases hy : y = x
                · rw [if_pos hy] at h
                  cases h
                · rw [if_neg hy] at h
                  rcases List.mem_cons.mp hx with heq | hx
                  · exact hy heq.symm
                  · exact ihc h hx
          constructor
          · intro hfalse
            cases hfalse
          · intro hsub
            exact absurd (hsub.subset List.mem_cons_self) hnot
      | some rest =>
          dsimp only
          rw [ih, consume_sublist h]

/-- `as u32`. -/
def asU32 (n : Nat) : Nat := n % 2 ^ 32

variable (lower : Char → List Char)

def score (typed candidate : String) : Option Nat :=
  if typed = "" ∨ candidate = "" then none
  else
    let t := typed.toList.flatMap lower
    let c := candidate.toList.flatMap lower
    if t = c then some 1000
    else if t.isPrefixOf c then some (900 - asU32 (c.length - t.length))
    else
      let dist := damerau t c
      let subseq := isSubsequence t c
      let budget := maxDistance t.length + if subseq then 1 else 0
      if dist ≤ budget ∧ 0 < budget then
        some (800 - min (asU32 dist * 100) (2 ^ 32 - 1) + if subseq then 60 else 0)
      else none

def margin : Nat := 50

/-- The comparison of `sort_by`: the higher score, then the name. -/
def ranksBefore (a b : Nat × String) : Bool := b.1 < a.1 || (a.1 == b.1 && a.2 ≤ b.2)

/-- The candidates with their scores, best first. -/
def ranking (typed : String) (candidates : List String) : List (Nat × String) :=
  (candidates.filterMap fun c => (score lower typed c).map fun s => (s, c)).mergeSort ranksBefore

def closest (typed : String) (candidates : List String) (limit : Nat) : List String :=
  match ranking lower typed candidates with
  | [] => []
  | best :: rest =>
      let cut := best.1 - margin
      (((best :: rest).takeWhile fun c => cut ≤ c.1).take limit).map Prod.snd

/-! ## The ranking -/

theorem ranksBefore_iff {a b : Nat × String} :
    ranksBefore a b = true ↔ b.1 < a.1 ∨ a.1 = b.1 ∧ a.2 ≤ b.2 := by
  simp [ranksBefore]

theorem ranksBefore_trans (a b c : Nat × String) (hab : ranksBefore a b = true)
    (hbc : ranksBefore b c = true) : ranksBefore a c = true := by
  rw [ranksBefore_iff] at hab hbc ⊢
  rcases hab with hab | ⟨hab, hname⟩
  · refine .inl ?_
    rcases hbc with hbc | ⟨hbc, -⟩ <;> omega
  · rcases hbc with hbc | ⟨hbc, hname'⟩
    · exact .inl (by omega)
    · exact .inr ⟨hab.trans hbc, le_trans hname hname'⟩

theorem ranksBefore_total (a b : Nat × String) :
    (ranksBefore a b || ranksBefore b a) = true := by
  rw [Bool.or_eq_true, ranksBefore_iff, ranksBefore_iff]
  rcases lt_trichotomy a.1 b.1 with h | h | h
  · exact .inr (.inl h)
  · rcases le_total a.2 b.2 with hname | hname
    · exact .inl (.inr ⟨h, hname⟩)
    · exact .inr (.inr ⟨h.symm, hname⟩)
  · exact .inl (.inl h)

theorem ranksBefore_antisymm {a b : Nat × String} (hab : ranksBefore a b = true)
    (hba : ranksBefore b a = true) : a = b := by
  rw [ranksBefore_iff] at hab hba
  have hscore : a.1 = b.1 := by
    rcases hab with hab | ⟨hab, -⟩
    · rcases hba with hba | ⟨hba, -⟩ <;> omega
    · exact hab
  have hnames : a.2 ≤ b.2 ∧ b.2 ≤ a.2 := by
    constructor
    · rcases hab with hab | ⟨-, hname⟩
      · omega
      · exact hname
    · rcases hba with hba | ⟨-, hname⟩
      · omega
      · exact hname
  exact Prod.ext hscore (le_antisymm hnames.1 hnames.2)

theorem mem_ranking {typed : String} {candidates : List String} {x : Nat × String} :
    x ∈ ranking lower typed candidates ↔
      x.2 ∈ candidates ∧ score lower typed x.2 = some x.1 := by
  unfold ranking
  rw [List.mem_mergeSort, List.mem_filterMap]
  constructor
  · rintro ⟨c, hc, h⟩
    obtain ⟨s, hs, rfl⟩ := Option.map_eq_some_iff.mp h
    exact ⟨hc, hs⟩
  · rintro ⟨hc, hs⟩
    exact ⟨x.2, hc, by rw [hs]; rfl⟩

theorem ranking_sorted (typed : String) (candidates : List String) :
    (ranking lower typed candidates).Pairwise fun a b => ranksBefore a b = true :=
  List.pairwise_mergeSort ranksBefore_trans ranksBefore_total _

theorem ranking_perm {typed : String} {candidates candidates' : List String}
    (h : candidates.Perm candidates') :
    ranking lower typed candidates = ranking lower typed candidates' := by
  have hperm : (ranking lower typed candidates).Perm (ranking lower typed candidates') :=
    ((List.mergeSort_perm _ _).trans (h.filterMap _)).trans (List.mergeSort_perm _ _).symm
  exact hperm.eq_of_pairwise (fun a b _ _ hab hba => ranksBefore_antisymm hab hba)
    (ranking_sorted lower typed candidates) (ranking_sorted lower typed candidates')

/-! ## What is offered -/

/-- **The order of the candidates does not matter.** -/
theorem closest_perm {typed : String} {candidates candidates' : List String} {limit : Nat}
    (h : candidates.Perm candidates') :
    closest lower typed candidates limit = closest lower typed candidates' limit := by
  unfold closest
  rw [ranking_perm lower h]

/-- The names that a typo is answered with. -/
structure Offered (typed : String) (candidates : List String) (limit : Nat)
    (names : List String) : Prop where
  fits : names.length ≤ limit
  near : ∀ c ∈ names, c ∈ candidates ∧ ∃ s, score lower typed c = some s ∧
    ∀ c' ∈ candidates, ∀ s', score lower typed c' = some s' → s' ≤ s + margin
  inOrder : names.Pairwise fun c c' => ∀ s s', score lower typed c = some s →
    score lower typed c' = some s' → ranksBefore (s, c) (s', c') = true
  /-- What is left out is far from the best, or comes after all that is offered. -/
  leftOut : ∀ c ∈ candidates, c ∉ names → ∀ s, score lower typed c = some s →
    (∃ c' ∈ candidates, ∃ s', score lower typed c' = some s' ∧ s + margin < s') ∨
      names.length = limit ∧ ∀ c' ∈ names, ∀ s', score lower typed c' = some s' →
        ranksBefore (s', c') (s, c) = true

/-- In a sorted list the elements above a bound come first. -/
theorem mem_takeWhile_of_sorted {ranked : List (Nat × String)} {cut : Nat} {x : Nat × String}
    (hsorted : ranked.Pairwise fun a b => ranksBefore a b = true) (hx : x ∈ ranked)
    (hcut : cut ≤ x.1) : x ∈ ranked.takeWhile fun c => cut ≤ c.1 := by
  induction ranked with
  | nil => cases hx
  | cons y ranked ih =>
      rw [List.pairwise_cons] at hsorted
      have hy : cut ≤ y.1 := by
        rcases List.mem_cons.mp hx with rfl | hx
        · exact hcut
        · rcases ranksBefore_iff.mp (hsorted.1 x hx) with h | ⟨h, -⟩ <;> omega
      rw [List.takeWhile_cons_of_pos (by simpa using hy)]
      rcases List.mem_cons.mp hx with rfl | hx
      · exact List.mem_cons_self
      · exact List.mem_cons_of_mem _ (ih hsorted.2 hx)

theorem closest_of_best {typed : String} {candidates : List String} {best : Nat × String}
    {rest : List (Nat × String)} (limit : Nat)
    (h : ranking lower typed candidates = best :: rest) :
    closest lower typed candidates limit =
      (((ranking lower typed candidates).takeWhile fun c => best.1 - margin ≤ c.1).take limit).map
        Prod.snd := by
  unfold closest
  rw [h]

/-- **The answer to a typo**: names near the best, best first, and none left out that is better. -/
theorem closest_offers (typed : String) (candidates : List String) (limit : Nat) :
    Offered lower typed candidates limit (closest lower typed candidates limit) := by
  have hsorted := ranking_sorted lower typed candidates
  have hmem : ∀ c s, c ∈ candidates → score lower typed c = some s →
      (s, c) ∈ ranking lower typed candidates :=
    fun c s hc hs => (mem_ranking lower).mpr ⟨hc, hs⟩
  have hback : ∀ x ∈ ranking lower typed candidates,
      x.2 ∈ candidates ∧ score lower typed x.2 = some x.1 := fun x => (mem_ranking lower).mp
  cases hrank : ranking lower typed candidates with
  | nil =>
      have hnone : closest lower typed candidates limit = [] := by
        unfold closest
        rw [hrank]
      rw [hrank] at hmem
      rw [hnone]
      refine ⟨Nat.zero_le _, fun c hc => ?_, List.Pairwise.nil, fun c hc _ s hs => ?_⟩
      · cases hc
      · cases hmem c s hc hs
  | cons best rest =>
      rw [closest_of_best lower limit hrank]
      -- the first of the ranking has the highest score
      have hbest : ∀ c s, c ∈ candidates → score lower typed c = some s → s ≤ best.1 := by
        intro c s hc hs
        have hx := hmem c s hc hs
        rw [hrank] at hx hsorted
        rcases List.mem_cons.mp hx with rfl | hx
        · exact le_refl _
        · rcases ranksBefore_iff.mp ((List.pairwise_cons.mp hsorted).1 _ hx) with h | ⟨h, -⟩
          · exact h.le
          · exact h.ge
      have hfirst : best ∈ ranking lower typed candidates := by
        rw [hrank]
        exact List.mem_cons_self
      set near := (ranking lower typed candidates).takeWhile fun c => best.1 - margin ≤ c.1
        with hnear
      have hnearSorted : near.Pairwise fun a b => ranksBefore a b = true :=
        hsorted.sublist (List.takeWhile_sublist _)
      refine ⟨?_, ?_, ?_, ?_⟩
      · rw [List.length_map]
        exact List.length_take_le _ _
      · intro c hc
        obtain ⟨x, hx, rfl⟩ := List.mem_map.mp hc
        have hx' := List.mem_of_mem_take hx
        obtain ⟨hc, hs⟩ := hback x (List.takeWhile_subset _ hx')
        refine ⟨hc, x.1, hs, fun c' hc' s' hs' => ?_⟩
        have hcut : best.1 - margin ≤ x.1 := by simpa using List.mem_takeWhile_imp hx'
        have := hbest c' s' hc' hs'
        omega
      · rw [List.pairwise_map]
        refine List.Pairwise.imp_of_mem ?_ (hnearSorted.sublist (List.take_sublist limit near))
        intro x y hx hy hxy s s' hs hs'
        have hx' := (hback x (List.takeWhile_subset _ (List.mem_of_mem_take hx))).2
        have hy' := (hback y (List.takeWhile_subset _ (List.mem_of_mem_take hy))).2
        obtain rfl := Option.some.inj (hs.symm.trans hx')
        obtain rfl := Option.some.inj (hs'.symm.trans hy')
        exact hxy
      · intro c hc hout s hs
        by_cases hfar : s + margin < best.1
        · obtain ⟨hc', hs'⟩ := hback best hfirst
          exact .inl ⟨best.2, hc', best.1, hs', hfar⟩
        · -- near the best, so it is cut off by the limit
          have hin : (s, c) ∈ near :=
            mem_takeWhile_of_sorted hsorted (hmem c s hc hs) (by dsimp only; omega)
          have hdrop : (s, c) ∈ near.drop limit := by
            rw [← List.take_append_drop limit near, List.mem_append] at hin
            rcases hin with hin | hin
            · exact absurd (List.mem_map_of_mem (f := Prod.snd) hin) hout
            · exact hin
          have hlong : limit < near.length := by
            by_contra hshort
            rw [List.drop_of_length_le (by omega)] at hdrop
            cases hdrop
          refine .inr ⟨by rw [List.length_map, List.length_take]; omega, ?_⟩
          intro c' hc' s' hs'
          obtain ⟨x, hx, rfl⟩ := List.mem_map.mp hc'
          have hx' := (hback x (List.takeWhile_subset _ (List.mem_of_mem_take hx))).2
          obtain rfl := Option.some.inj (hs'.symm.trans hx')
          rw [← List.take_append_drop limit near, List.pairwise_append] at hnearSorted
          exact hnearSorted.2.2 x hx _ hdrop

end Tazamun.Cli
