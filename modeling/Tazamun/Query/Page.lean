import Tazamun.Lib.Paging
import Tazamun.Query.Pattern
import Tazamun.Sync.Record
import Mathlib.Data.List.Sort

set_option autoImplicit false

/-! # Pages of a file query

A file query selects the records of the index that match, puts them in the requested order and
answers with a window of them (`select_files`). In path order the window is cut while the index
is walked through once; for the order by size the matches are collected and sorted. The rows
of the window are then serialised under a budget of bytes (`fill_budget`), which may cut the
page short, but never to nothing. The reply says at which offset the next page begins
(`next_offset`).

`walk_complete`: whatever the index, the matcher, the order and the limit, a client that
follows these offsets gets every matching row once, in the requested order.

What a row costs and what it looks like are parameters of the results; the daemon's own cost is
`fileRowCost`.
-/

namespace Tazamun

open Lib (Serves walk walk_eq)

/-! ## Sorting and windows -/

/-- `usize::MAX`. -/
def usizeMax : Nat := 2 ^ 64 - 1

inductive FileSort where
  | path
  | size
deriving DecidableEq

def parseFileSort (raw : Option String) : Except QueryError FileSort :=
  match (raw.map fun s => String.ofList (trim s.toList)).getD "path" with
  | "" => .ok .path
  | "path" => .ok .path
  | "name" => .ok .path
  | "size" => .ok .size
  | "bytes" => .ok .size
  | other => .error (.badSort other)

def clampLimit (requested : Option Nat) (default max : Nat) : Nat :=
  min (requested.getD default) max

/-- The offset of the next page, unless this one ended the result or is empty. -/
def nextOffset (offset returned matched : Nat) : Option Nat :=
  let next := min (offset + returned) usizeMax
  if 0 < returned ∧ next < matched then some next else none

section Pages

variable {Id Path : Type} [LinearOrder Id] [LinearOrder Path]

/-- A record with its path. -/
abbrev FileRow (Id Path : Type) [LinearOrder Id] : Type := Path × FileRecord Id

structure FilePage (Id Path : Type) [LinearOrder Id] where
  rows : List (FileRow Id Path)
  matched : Nat
  scanned : Nat

/-- The matcher as `select_files` uses it: paths are matched by their text. -/
def hits (lower : Char → List Char) (text : Path → List Char) (m : PathMatcher)
    (e : FileRow Id Path) : Bool :=
  m.matchesWith lower (text e.1) == some true

/-- The record takes part in the query. -/
def takesPart (includeDeleted : Bool) (e : FileRow Id Path) : Bool :=
  !e.2.deleted || includeDeleted

/-- The loop over the index in path order: the matches with numbers from `offset` up to `end`
are collected. -/
def pathScan (hit : FileRow Id Path → Bool) (includeDeleted : Bool) (offset stop : Nat) :
    List (FileRow Id Path) → FilePage Id Path → FilePage Id Path
  | [], page => page
  | e :: files, page =>
      if !takesPart includeDeleted e then pathScan hit includeDeleted offset stop files page
      else
        let page := { page with scanned := page.scanned + 1 }
        if !hit e then pathScan hit includeDeleted offset stop files page
        else
          let page :=
            if offset ≤ page.matched ∧ page.matched < stop then
              { page with rows := page.rows ++ [e] }
            else page
          pathScan hit includeDeleted offset stop files { page with matched := page.matched + 1 }

/-- The comparison of the order by size: ties are broken by path. -/
def sizeLe (desc : Bool) (a b : FileRow Id Path) : Bool :=
  let le (a b : FileRow Id Path) := decide (a.2.size < b.2.size ∨ a.2.size = b.2.size ∧ a.1 ≤ b.1)
  if desc then le b a else le a b

/-- Matches, orders and windows the index. -/
def selectFiles (files : Map Path (FileRecord Id)) (hit : FileRow Id Path → Bool)
    (includeDeleted : Bool) (sort : FileSort) (desc : Bool) (offset limit : Nat) :
    FilePage Id Path :=
  match sort with
  | .path =>
      let stop := min (offset + limit) usizeMax
      let entries := if desc then files.toList.reverse else files.toList
      pathScan hit includeDeleted offset stop entries { rows := [], matched := 0, scanned := 0 }
  | .size =>
      let scanned := files.toList.filter (takesPart includeDeleted)
      let found := scanned.filter hit
      let sorted := found.mergeSort (sizeLe desc)
      { rows := (sorted.drop offset).take limit, matched := found.length
        scanned := scanned.length }

/-! ## The byte budget -/

def queryPageBudget : Nat := 700 * 1024

/-- The loop of `fill_budget`. -/
def fillBudgetFrom {τ ρ : Type} (cost : τ → Nat) (row : τ → ρ) :
    List τ → Nat → List ρ → List ρ × Bool
  | [], _, out => (out, false)
  | item :: items, budget, out =>
      let budget := budget - cost item
      if budget = 0 ∧ out ≠ [] then (out, true)
      else fillBudgetFrom cost row items budget (out ++ [row item])

def fillBudget {τ ρ : Type} (cost : τ → Nat) (row : τ → ρ) (items : List τ) : List ρ × Bool :=
  fillBudgetFrom cost row items queryPageBudget []

/-- Every byte can expand to a six-byte escape. -/
def jsonCost (s : List Char) : Nat := (bytes s).length * 6

def fileRowCost (text : Path → List Char) (e : FileRow Id Path) : Nat := jsonCost (text e.1) + 224

/-! ## The reply -/

/-- The fields of the reply that the rows decide. -/
structure FilesReply (ρ : Type) where
  files : List ρ
  matched : Nat
  scanned : Nat
  returned : Nat
  offset : Nat
  limit : Nat
  nextOffset : Option Nat
  pageTruncated : Bool

/-- `handle_file_query` for a pattern and a sort key that were accepted. -/
def filesReply {ρ : Type} (cost : FileRow Id Path → Nat) (row : FileRow Id Path → ρ)
    (files : Map Path (FileRecord Id)) (hit : FileRow Id Path → Bool) (includeDeleted : Bool)
    (sort : FileSort) (desc : Bool) (limit offset : Nat) : FilesReply ρ :=
  let page := selectFiles files hit includeDeleted sort desc offset limit
  let (rows, pageTruncated) := fillBudget cost row page.rows
  { files := rows, matched := page.matched, scanned := page.scanned, returned := rows.length
    offset, limit, nextOffset := nextOffset offset rows.length page.matched, pageTruncated }

structure FilesQuery where
  pattern : Option String
  sort : Option String
  desc : Bool
  includeDeleted : Bool
  offset : Nat
  limit : Option Nat

def fileQueryLimitDefault : Nat := 100
def fileQueryLimitMax : Nat := 500

/-- `handle_file_query`; a refusal has the code of the error. -/
def handleFileQuery {ρ : Type} (lower : Char → List Char) (text : Path → List Char)
    (row : FileRow Id Path → ρ) (files : Map Path (FileRecord Id)) (q : FilesQuery) :
    Except String (FilesReply ρ) :=
  match compilePattern lower (q.pattern.getD "").toList with
  | .error e => .error e.code
  | .ok m =>
      match parseFileSort q.sort with
      | .error e => .error e.code
      | .ok sort =>
          let limit := clampLimit q.limit fileQueryLimitDefault fileQueryLimitMax
          .ok (filesReply (fileRowCost text) row files (hits lower text m) q.includeDeleted sort
            q.desc limit q.offset)

/-- The client: it asks for the next page until there is none. `none`: `fuel` pages were too
few. -/
def walkPages {ρ : Type} (page : Nat → FilesReply ρ) : Nat → Nat → Option (List ρ)
  | 0, _ => none
  | fuel + 1, offset =>
      match (page offset).nextOffset with
      | none => some (page offset).files
      | some next => (walkPages page fuel next).map fun rest => (page offset).files ++ rest

/-! ## What a page holds -/

variable {hit : FileRow Id Path → Bool} {includeDeleted : Bool}

/-- The records that take part and match. -/
def found (hit : FileRow Id Path → Bool) (includeDeleted : Bool) (files : List (FileRow Id Path)) :
    List (FileRow Id Path) :=
  (files.filter (takesPart includeDeleted)).filter hit

omit [LinearOrder Path] in
theorem mem_found {files : List (FileRow Id Path)} {e : FileRow Id Path} :
    e ∈ found hit includeDeleted files ↔
      e ∈ files ∧ takesPart includeDeleted e = true ∧ hit e = true := by
  rw [found, List.mem_filter, List.mem_filter, and_assoc]

omit [LinearOrder Path] in
theorem found_sublist (files : List (FileRow Id Path)) :
    (found hit includeDeleted files).Sublist files :=
  List.filter_sublist.trans List.filter_sublist

omit [LinearOrder Path] in
/-- **The scan counts every match, and collects those of the window.** -/
theorem pathScan_eq (offset stop : Nat) (files : List (FileRow Id Path))
    (page : FilePage Id Path) :
    pathScan hit includeDeleted offset stop files page =
      { rows := page.rows ++
          ((found hit includeDeleted files).take (stop - page.matched)).drop
            (offset - page.matched)
        matched := page.matched + (found hit includeDeleted files).length
        scanned := page.scanned + (files.filter (takesPart includeDeleted)).length } := by
  induction files generalizing page with
  | nil => simp [pathScan, found]
  | cons e files ih =>
      by_cases ht : takesPart includeDeleted e = true
      · by_cases hh : hit e = true
        · -- the match has number `page.matched`
          have hfound : found hit includeDeleted (e :: files) =
              e :: found hit includeDeleted files := by
            rw [found, List.filter_cons_of_pos ht, List.filter_cons_of_pos hh, found]
          rw [pathScan, hfound, List.filter_cons_of_pos ht, List.length_cons, List.length_cons]
          simp only [ht, hh, Bool.not_true, Bool.false_eq_true, if_false]
          rw [ih]
          by_cases hwin : offset ≤ page.matched ∧ page.matched < stop
          · rw [if_pos hwin]
            obtain ⟨n, hn⟩ : ∃ n, stop - page.matched = n + 1 := ⟨stop - page.matched - 1, by omega⟩
            have hn' : stop - (page.matched + 1) = n := by omega
            have ho : offset - page.matched = 0 := by omega
            have ho' : offset - (page.matched + 1) = 0 := by omega
            simp only [hn, hn', ho, ho', List.take_succ_cons, List.drop_zero,
              List.append_assoc, List.singleton_append, FilePage.mk.injEq, true_and]
            omega
          · rw [if_neg hwin]
            have hrows : ((e :: found hit includeDeleted files).take (stop - page.matched)).drop
                (offset - page.matched) =
                ((found hit includeDeleted files).take (stop - (page.matched + 1))).drop
                  (offset - (page.matched + 1)) := by
              by_cases hstop : page.matched < stop
              · obtain ⟨n, hn⟩ : ∃ n, stop - page.matched = n + 1 :=
                  ⟨stop - page.matched - 1, by omega⟩
                obtain ⟨k, hk⟩ : ∃ k, offset - page.matched = k + 1 :=
                  ⟨offset - page.matched - 1, by omega⟩
                have hn' : stop - (page.matched + 1) = n := by omega
                have hk' : offset - (page.matched + 1) = k := by omega
                rw [hn, hk, hn', hk', List.take_succ_cons, List.drop_succ_cons]
              · have h0 : stop - page.matched = 0 := by omega
                have h1 : stop - (page.matched + 1) = 0 := by omega
                rw [h0, h1, List.take_zero, List.take_zero, List.drop_nil, List.drop_nil]
            rw [hrows]
            simp only [FilePage.mk.injEq, true_and]
            omega
        · have hfound : found hit includeDeleted (e :: files) = found hit includeDeleted files := by
            rw [found, List.filter_cons_of_pos ht, List.filter_cons_of_neg hh, found]
          rw [pathScan, hfound, List.filter_cons_of_pos ht, List.length_cons]
          simp only [ht, hh, Bool.not_true, Bool.not_false, Bool.false_eq_true, if_false, if_true]
          rw [ih]
          simp only [FilePage.mk.injEq, true_and]
          omega
      · have hfound : found hit includeDeleted (e :: files) = found hit includeDeleted files := by
          rw [found, List.filter_cons_of_neg ht, found]
        rw [pathScan, hfound, List.filter_cons_of_neg ht]
        simp only [ht, Bool.not_false, if_true]
        rw [ih]

/-! ## The requested order -/

/-- All the matches, in the requested order. -/
def ordered (files : Map Path (FileRecord Id)) (hit : FileRow Id Path → Bool)
    (includeDeleted : Bool) (sort : FileSort) (desc : Bool) : List (FileRow Id Path) :=
  match sort with
  | .path =>
      found hit includeDeleted (if desc then files.toList.reverse else files.toList)
  | .size => (found hit includeDeleted files.toList).mergeSort (sizeLe desc)

/-- The ascending order of a sort key. It is strict, as no two rows have the same path. -/
def rowLt : FileSort → FileRow Id Path → FileRow Id Path → Prop
  | .path, a, b => a.1 < b.1
  | .size, a, b => a.2.size < b.2.size ∨ a.2.size = b.2.size ∧ a.1 < b.1

/-- `a` comes before `b` in the requested order. -/
def Precedes (sort : FileSort) (desc : Bool) (a b : FileRow Id Path) : Prop :=
  if desc then rowLt sort b a else rowLt sort a b

theorem rowLt_irrefl (sort : FileSort) (e : FileRow Id Path) : ¬ rowLt sort e e := by
  cases sort with
  | path => exact lt_irrefl e.1
  | size =>
      rintro (h | ⟨-, h⟩)
      · exact lt_irrefl _ h
      · exact lt_irrefl _ h

theorem toList_pairwise (files : Map Path (FileRecord Id)) :
    files.toList.Pairwise fun a b => a.1 < b.1 :=
  Std.ExtTreeMap.ordered_keys_toList.imp fun h => compare_lt_iff_lt.mp h

theorem sizeLe_total (desc : Bool) (a b : FileRow Id Path) :
    (sizeLe desc a b || sizeLe desc b a) = true := by
  have htotal : (a.2.size < b.2.size ∨ a.2.size = b.2.size ∧ a.1 ≤ b.1) ∨
      (b.2.size < a.2.size ∨ b.2.size = a.2.size ∧ b.1 ≤ a.1) := by
    rcases lt_trichotomy a.2.size b.2.size with h | h | h
    · exact .inl (.inl h)
    · rcases le_total a.1 b.1 with hle | hle
      · exact .inl (.inr ⟨h, hle⟩)
      · exact .inr (.inr ⟨h.symm, hle⟩)
    · exact .inr (.inl h)
  cases desc with
  | false => simpa [sizeLe] using htotal
  | true => simpa [sizeLe] using htotal.symm

theorem sizeLe_trans (desc : Bool) (a b c : FileRow Id Path) (hab : sizeLe desc a b = true)
    (hbc : sizeLe desc b c = true) : sizeLe desc a c = true := by
  have htrans : ∀ a b c : FileRow Id Path,
      (a.2.size < b.2.size ∨ a.2.size = b.2.size ∧ a.1 ≤ b.1) →
      (b.2.size < c.2.size ∨ b.2.size = c.2.size ∧ b.1 ≤ c.1) →
      a.2.size < c.2.size ∨ a.2.size = c.2.size ∧ a.1 ≤ c.1 := by
    rintro a b c (h | ⟨h, hle⟩) (h' | ⟨h', hle'⟩)
    · exact .inl (h.trans h')
    · exact .inl (h' ▸ h)
    · exact .inl (h ▸ h')
    · exact .inr ⟨h.trans h', hle.trans hle'⟩
  cases desc with
  | false =>
      simp only [sizeLe, Bool.false_eq_true, if_false, decide_eq_true_eq] at hab hbc ⊢
      exact htrans a b c hab hbc
  | true =>
      simp only [sizeLe, if_true, decide_eq_true_eq] at hab hbc ⊢
      exact htrans c b a hbc hab

/-- Where the paths differ, the comparison is strict. -/
theorem precedes_of_sizeLe {desc : Bool} {a b : FileRow Id Path} (h : sizeLe desc a b = true)
    (hne : a.1 ≠ b.1) : Precedes .size desc a b := by
  cases desc with
  | false =>
      simp only [sizeLe, Bool.false_eq_true, if_false, decide_eq_true_eq] at h
      exact h.imp_right fun h => ⟨h.1, lt_of_le_of_ne h.2 hne⟩
  | true =>
      simp only [sizeLe, if_true, decide_eq_true_eq] at h
      exact h.imp_right fun h => ⟨h.1, lt_of_le_of_ne h.2 hne.symm⟩

variable (hit includeDeleted)
variable (files : Map Path (FileRecord Id)) (sort : FileSort) (desc : Bool)

theorem ordered_pairwise :
    (ordered files hit includeDeleted sort desc).Pairwise (Precedes sort desc) := by
  cases sort with
  | path =>
      cases desc with
      | false => exact (toList_pairwise files).sublist (found_sublist _)
      | true =>
          exact (List.pairwise_reverse.mpr (toList_pairwise files)).sublist (found_sublist _)
  | size =>
      have hperm := List.mergeSort_perm (found hit includeDeleted files.toList) (sizeLe desc)
      have hne : (found hit includeDeleted files.toList).Pairwise fun a b => a.1 ≠ b.1 :=
        ((toList_pairwise files).sublist (found_sublist _)).imp fun h => h.ne
      have hne' : (ordered files hit includeDeleted .size desc).Pairwise fun a b => a.1 ≠ b.1 :=
        (hperm.pairwise_iff fun h => h.symm).mpr hne
      have hle : (ordered files hit includeDeleted .size desc).Pairwise
          fun a b => sizeLe desc a b = true :=
        List.pairwise_mergeSort (sizeLe_trans desc) (sizeLe_total desc) _
      exact (hle.and hne').imp fun h => precedes_of_sizeLe h.1 h.2

theorem mem_ordered {e : FileRow Id Path} :
    e ∈ ordered files hit includeDeleted sort desc ↔
      e ∈ files.toList ∧ takesPart includeDeleted e = true ∧ hit e = true := by
  cases sort with
  | path =>
      rw [ordered, mem_found]
      cases desc with
      | false => rfl
      | true => rw [if_pos rfl, List.mem_reverse]
  | size => rw [ordered, List.mem_mergeSort, mem_found]

theorem length_ordered :
    (ordered files hit includeDeleted sort desc).length =
      (found hit includeDeleted files.toList).length := by
  cases sort with
  | path =>
      cases desc with
      | false => rfl
      | true =>
          show (found hit includeDeleted files.toList.reverse).length = _
          rw [found, found, List.filter_reverse, List.filter_reverse, List.length_reverse]
  | size => exact List.length_mergeSort _

variable {files} in
theorem length_ordered_le (hsize : files.size ≤ usizeMax) :
    (ordered files hit includeDeleted sort desc).length ≤ usizeMax := by
  rw [length_ordered]
  have h : (found hit includeDeleted files.toList).length ≤ files.toList.length :=
    (found_sublist files.toList).length_le
  rw [Std.ExtTreeMap.length_toList] at h
  exact h.trans hsize

variable {files} in
/-- **A page is a window of the matches in the requested order**, and its counts are exact. -/
theorem selectFiles_eq (hsize : files.size ≤ usizeMax) (offset limit : Nat) :
    selectFiles files hit includeDeleted sort desc offset limit =
      { rows := ((ordered files hit includeDeleted sort desc).drop offset).take limit
        matched := (ordered files hit includeDeleted sort desc).length
        scanned := (files.toList.filter (takesPart includeDeleted)).length } := by
  have hlen := length_ordered_le hit includeDeleted sort desc hsize
  cases sort with
  | path =>
      have hscanned : ((if desc then files.toList.reverse else files.toList).filter
          (takesPart includeDeleted)).length =
          (files.toList.filter (takesPart includeDeleted)).length := by
        cases desc with
        | false => rfl
        | true => rw [if_pos rfl, List.filter_reverse, List.length_reverse]
      rw [selectFiles, pathScan_eq, hscanned]
      simp only [ordered] at hlen ⊢
      simp only [Nat.sub_zero, List.nil_append, Nat.zero_add, FilePage.mk.injEq, and_true]
      rw [List.drop_take, List.take_eq_take_iff, List.length_drop]
      -- saturation cuts nothing off, as there are no more rows than that
      omega
  | size =>
      rw [selectFiles]
      simp only [FilePage.mk.injEq, and_true]
      exact ⟨rfl, (List.length_mergeSort _).symm⟩

/-! ## What the budget leaves of a page -/

section Budget

variable {τ ρ : Type} (cost : τ → Nat) (row : τ → ρ)

theorem fillBudgetFrom_eq (items : List τ) (budget : Nat) (out : List ρ) :
    ∃ k, (fillBudgetFrom cost row items budget out).1 = out ++ (items.take k).map row ∧
      (out = [] → items ≠ [] → 0 < k) := by
  induction items generalizing budget out with
  | nil => exact ⟨0, by simp [fillBudgetFrom], fun _ h => absurd rfl h⟩
  | cons item items ih =>
      rw [fillBudgetFrom]
      by_cases hcut : budget - cost item = 0 ∧ out ≠ []
      · refine ⟨0, ?_, fun hout _ => absurd hout hcut.2⟩
        simp [hcut]
      · obtain ⟨k, hk, -⟩ := ih (budget - cost item) (out ++ [row item])
        refine ⟨k + 1, ?_, fun _ _ => Nat.succ_pos k⟩
        simp only [hcut, if_false]
        rw [hk, List.take_succ_cons, List.map_cons, List.append_assoc, List.singleton_append]

/-- **The budget keeps the first rows**, and never turns a page into an empty one. -/
theorem fillBudget_eq (items : List τ) :
    ∃ k, (fillBudget cost row items).1 = (items.take k).map row ∧ (items ≠ [] → 0 < k) := by
  obtain ⟨k, hk, hpos⟩ := fillBudgetFrom_eq cost row items queryPageBudget []
  exact ⟨k, hk, hpos rfl⟩

end Budget

/-! ## The walk -/

section Walk

variable {ρ : Type} (cost : FileRow Id Path → Nat) (row : FileRow Id Path → ρ)

variable {files} in
/-- The pages are cut out of the list of all rows. -/
theorem filesReply_serves (hsize : files.size ≤ usizeMax) {limit : Nat} (hlimit : 1 ≤ limit) :
    Serves
      (fun offset =>
        (filesReply cost row files hit includeDeleted sort desc limit offset).files)
      ((ordered files hit includeDeleted sort desc).map row) := by
  have hpage : ∀ offset, ∃ k,
      (filesReply cost row files hit includeDeleted sort desc limit offset).files =
        ((((ordered files hit includeDeleted sort desc).drop offset).take limit).take k).map row ∧
      (((ordered files hit includeDeleted sort desc).drop offset).take limit ≠ [] → 0 < k) := by
    intro offset
    rw [filesReply, selectFiles_eq hit includeDeleted sort desc hsize]
    exact fillBudget_eq cost row _
  constructor
  · intro offset
    obtain ⟨k, hk, -⟩ := hpage offset
    rw [hk, ← List.map_drop]
    exact ((List.take_prefix _ _).trans (List.take_prefix _ _)).map row
  · intro offset hlt hnil
    obtain ⟨k, hk, hpos⟩ := hpage offset
    rw [List.length_map] at hlt
    have hne : ((ordered files hit includeDeleted sort desc).drop offset).take limit ≠ [] := by
      rw [← List.length_pos_iff, List.length_take, List.length_drop]
      omega
    rw [hk, List.map_eq_nil_iff, ← List.length_eq_zero_iff, List.length_take] at hnil
    have hk0 := hpos hne
    have hlen := List.length_pos_iff.mpr hne
    omega

/-- Saturation does not matter to an offset within the result. -/
theorem nextOffset_eq {offset returned matched : Nat} (h : matched ≤ usizeMax) :
    nextOffset offset returned matched = Lib.next offset returned matched := by
  rw [nextOffset, Lib.next]
  by_cases hlt : offset + returned < usizeMax
  · rw [min_eq_left hlt.le]
  · rw [min_eq_right (not_lt.mp hlt), if_neg (by omega), if_neg (by omega)]

variable {files} in
theorem walkPages_eq_walk (hsize : files.size ≤ usizeMax) (limit fuel offset : Nat) :
    walkPages (filesReply cost row files hit includeDeleted sort desc limit) fuel offset =
      walk (fun offset =>
          (filesReply cost row files hit includeDeleted sort desc limit offset).files)
        (ordered files hit includeDeleted sort desc).length fuel offset := by
  have hnext : ∀ offset,
      (filesReply cost row files hit includeDeleted sort desc limit offset).nextOffset =
        Lib.next offset
          (filesReply cost row files hit includeDeleted sort desc limit offset).files.length
          (ordered files hit includeDeleted sort desc).length := by
    intro offset
    rw [filesReply, selectFiles_eq hit includeDeleted sort desc hsize]
    exact nextOffset_eq (length_ordered_le hit includeDeleted sort desc hsize)
  induction fuel generalizing offset with
  | zero => rfl
  | succ fuel ih =>
      rw [walkPages, walk, hnext]
      cases Lib.next offset
          (filesReply cost row files hit includeDeleted sort desc limit offset).files.length
          (ordered files hit includeDeleted sort desc).length with
      | none => rfl
      | some next =>
          dsimp only
          rw [ih]

variable {files} in
/-- **Paging loses and repeats nothing**: the walk ends, its rows are the matching records, each
once and in the requested order, and every page has the exact counts. -/
theorem walk_complete (hsize : files.size ≤ usizeMax) {limit : Nat} (hlimit : 1 ≤ limit) :
    (∃ rows : List (FileRow Id Path),
      walkPages (filesReply cost row files hit includeDeleted sort desc limit)
        (files.size + 1) 0 = some (rows.map row) ∧
      rows.Pairwise (Precedes sort desc) ∧ rows.Nodup ∧
      ∀ e, e ∈ rows ↔ e ∈ files.toList ∧ takesPart includeDeleted e = true ∧ hit e = true) ∧
    ∀ offset,
      let reply := filesReply cost row files hit includeDeleted sort desc limit offset
      reply.matched =
          (files.toList.filter fun e => takesPart includeDeleted e && hit e).length ∧
        reply.scanned = (files.toList.filter (takesPart includeDeleted)).length := by
  have hcount : (ordered files hit includeDeleted sort desc).length =
      (files.toList.filter fun e => takesPart includeDeleted e && hit e).length := by
    rw [length_ordered, found, List.filter_filter]
    simp only [Bool.and_comm]
  constructor
  · have hsorted := ordered_pairwise hit includeDeleted files sort desc
    refine ⟨ordered files hit includeDeleted sort desc, ?_, hsorted, ?_,
      fun e => mem_ordered hit includeDeleted files sort desc⟩
    · rw [walkPages_eq_walk hit includeDeleted sort desc cost row hsize limit]
      have hle : (ordered files hit includeDeleted sort desc).length ≤ files.size := by
        rw [length_ordered, ← Std.ExtTreeMap.length_toList]
        exact (found_sublist _).length_le
      have hfuel : ((ordered files hit includeDeleted sort desc).map row).length <
          0 + (files.size + 1) := by
        rw [List.length_map]
        omega
      have hwalk := walk_eq
        (filesReply_serves hit includeDeleted sort desc cost row hsize hlimit)
        (files.size + 1) hfuel (Nat.zero_le _)
      rwa [List.length_map, List.drop_zero] at hwalk
    · refine hsorted.imp fun {a b} h hab => ?_
      subst hab
      cases desc with
      | false => exact rowLt_irrefl sort a h
      | true => exact rowLt_irrefl sort a h
  · intro offset
    dsimp only
    rw [filesReply, selectFiles_eq hit includeDeleted sort desc hsize]
    exact ⟨hcount, rfl⟩

/-- An index of three deleted files. -/
def threeFiles : Map Nat (FileRecord Nat) :=
  (((∅ : Map Nat (FileRecord Nat)).insert 1 (FileRecord.tombstone ∅ 7)).insert 2
    (FileRecord.tombstone ∅ 8)).insert 3 (FileRecord.tombstone ∅ 9)

/-- With a limit of two rows the walk through them takes two pages. -/
theorem walk_complete_two_pages :
    (∃ rows : List (FileRow Nat Nat),
      walkPages (filesReply (fun _ => 1) Prod.fst threeFiles (fun _ => true) true .path true 2)
        (threeFiles.size + 1) 0 = some (rows.map Prod.fst) ∧
      rows.Pairwise (Precedes .path true) ∧ rows.Nodup ∧
      ∀ e, e ∈ rows ↔ e ∈ threeFiles.toList ∧ takesPart true e = true ∧ true = true) ∧
    ∀ offset,
      let reply :=
        filesReply (fun _ => 1) Prod.fst threeFiles (fun _ => true) true .path true 2 offset
      reply.matched = (threeFiles.toList.filter fun e => takesPart true e && true).length ∧
        reply.scanned = (threeFiles.toList.filter (takesPart true)).length :=
  walk_complete (fun _ => true) true .path true (fun _ => 1) Prod.fst (by decide) (by decide)

end Walk

end Pages

end Tazamun
