import Tazamun.Config.Settings
import Tazamun.Daemon.Pull
import Tazamun.Lib.Rules
import Tazamun.Paths.Sanitize

set_option autoImplicit false

/-! # What a node carries

Not every file of a folder is synced. `IgnoreSet` (`sync/ignore.rs`) decides, path by path: there
is a built-in list of junk, the folder's `.tazamunignore`, the subtrees of `sync-only` and
`sync-skip`, and a ceiling for sizes. The daemon asks it at every event of the watcher, at the
scan, and before it pulls a record.

The globs are those of the `ignore` crate, a parameter of which what its documentation says is
assumed: the last rule that matches decides, the path itself before the directories that contain
it, and only a line that begins with `!` includes something again.

A path is synced exactly when it is the ignore file, or lies in the scope of the node, is not
ignored and not too large (**`verdict_eq_sync_iff`**). Rules count from the path upwards, so the
junk filter, whose rules stand in front of the folder's own, only ever adds junk to what is held
(**`verdict_junkFilter`**). And the subtrees that were set with `config set` are those that the
policy has (**`verdict_of_configured`**), each as it was typed without the spaces and slashes
around it, which are taken off twice.
-/

namespace Tazamun.Scope

open Lib Config

/-! ## Ignore rules -/

inductive Decision where
  | ignore
  | whitelist
deriving DecidableEq

/-- The crate's `Gitignore` and its builder. -/
structure Gitignore where
  Rule : Type
  Matcher : Type
  /-- What `add_line` adds: nothing for an empty line, a comment or a malformed glob. -/
  addLine : String → Option Rule
  build : List Rule → Option Matcher
  /-- One rule at one path, which may be a directory. -/
  answer : Bool → Rule → List Segment → Option Decision
  matchedPathOrAnyParents : Matcher → String → Option Decision
  /-- Every level above the path is a directory, and the path itself is asked as a file. -/
  matched_eq : ∀ {rules : List Rule} {m : Matcher}, build rules = some m →
    ∀ {path : String}, Sanitized path → matchedPathOrAnyParents m path =
      Rules.nearest (fun q => Rules.last (answer (q != segments path)) rules q) (segments path)
  line_of_whitelist : ∀ {line : String} {rule : Rule}, addLine line = some rule →
    ∀ {isDir : Bool} {q : List Segment}, answer isDir rule q = some .whitelist →
      line.toList.head? = some '!'

variable (g : Gitignore)

def ignoreFile : String := ".tazamunignore"

/-- `JUNK_PATTERNS`. -/
def junkPatterns : List String :=
  ["*.swp", "*.swo", "*.swx", ".*.sw?", "*~", ".#*", "\\#*#", "~$*", ".DS_Store", "._*",
    ".AppleDouble", "Thumbs.db", "desktop.ini", "*:Zone.Identifier"]

/-- `str::lines`: a line break at the end is no line, and one before it is taken off. -/
def lines (s : String) : List String :=
  let pieces := s.toList.splitOn '\n'
  let pieces := if pieces.getLast? = some [] then pieces.dropLast else pieces
  pieces.map fun line =>
    String.ofList (if line.getLast? = some '\r' then line.dropLast else line)

inductive Verdict where
  | sync
  | junk
  | userIgnored
  | skipped
  | tooLarge (size cap : U64)
deriving DecidableEq

namespace Verdict

def isSync (v : Verdict) : Bool := v = .sync

def reason : Verdict → String
  | .sync => "synced"
  | .junk => "junk filter (built-in preset; see .tazamunignore docs)"
  | .userIgnored => "ignored by " ++ ignoreFile
  | .skipped => "outside this node's selective-sync scope"
  | .tooLarge size cap =>
      "file is " ++ (size.val.repr ++ " bytes, over the " ++ cap.val.repr
        ++ "-byte max-file-size ceiling")

end Verdict

/-! ## The policy -/

/-- What both normalisations do: the spaces around it, and then the slashes. -/
def clean (value : String) : String := trimSlashes (strTrim value)

/-- `normalize_subtree`. -/
def normalizeSubtree (value : String) : Option String :=
  if clean value = "" then none else some (clean value)

/-- `in_subtree`. -/
def inSubtree (path subtree : String) : Bool :=
  path == subtree ||
    match path.toList.dropPrefix? subtree.toList with
    | some rest => rest.head? == some '/'
    | none => false

structure IgnoreSet where
  matcher : Option g.Matcher
  only : Option String
  skip : List String
  maxFileSize : U64
  junkEnabled : Bool
  userMatcher : Option g.Matcher

/-- The rules of the folder. -/
def userLines (rules : String) : List g.Rule := (lines rules).filterMap g.addLine

def junkLines : List g.Rule := junkPatterns.filterMap g.addLine

def IgnoreSet.build (userRules : String) (junkFilter : Bool) (syncOnly syncSkip : String)
    (maxFileSize : U64) : IgnoreSet g where
  matcher := g.build ((if junkFilter then junkLines g else []) ++ userLines g userRules)
  only := normalizeSubtree syncOnly
  skip := ((syncSkip.toList.splitOn ',').map String.ofList).filterMap normalizeSubtree
  maxFileSize := maxFileSize
  junkEnabled := junkFilter
  userMatcher := g.build (userLines g userRules)

/-- `load_ignore_set`: what cannot be read is as if it were not there. -/
def loadIgnoreSet (text : Option Bytes) (c : SessionConfig) : IgnoreSet g :=
  .build g ((text.bind fun raw => String.fromUTF8? ⟨raw.toArray⟩).getD "") c.junkFilter c.syncOnly
    c.syncSkip c.maxFileSize

variable {g}

/-- `is_some_and(|m| m.matched_path_or_any_parents(..).is_ignore())`. -/
def isIgnored (matcher : Option g.Matcher) (path : String) : Bool :=
  match matcher with
  | none => false
  | some m => g.matchedPathOrAnyParents m path == some .ignore

/-- The path is outside `sync-only`, or inside a subtree of `sync-skip`. -/
def IgnoreSet.outOfScope (set : IgnoreSet g) (path : String) : Bool :=
  set.only.any (fun only => !inSubtree path only) || set.skip.any (inSubtree path)

/-- The ceiling, for a size that is known. -/
def bySize (cap : U64) : Option U64 → Verdict
  | none => .sync
  | some size => if 0 < cap ∧ cap < size then .tooLarge size cap else .sync

def IgnoreSet.verdict (set : IgnoreSet g) (path : String) (size : Option U64) : Verdict :=
  if path = ignoreFile then .sync
  else if set.outOfScope path then .skipped
  else if isIgnored set.matcher path then
    if isIgnored set.userMatcher path then .userIgnored
    else if set.junkEnabled then .junk
    else .userIgnored
  else bySize set.maxFileSize size

variable (g) in
/-- What the daemon asks for: why the path is held, if it is. -/
def scopeVerdict (text : Option Bytes) (c : SessionConfig) (rel : String) (size : Option U64) :
    Option String :=
  let verdict := (loadIgnoreSet g text c).verdict rel size
  if verdict.isSync then none else some verdict.reason

/-- The daemon tells the reasons of this policy from others by how they begin. -/
theorem isScopeReason_reason (v : Verdict) : isScopeReason v.reason = !v.isSync := by
  cases v with
  | tooLarge size cap =>
      have hstart : (Verdict.tooLarge size cap).reason.startsWith "file is " = true := by
        rw [String.startsWith_string_iff, Verdict.reason, String.toList_append]
        exact List.prefix_append _ _
      unfold isScopeReason
      rw [hstart, Bool.or_true]
      rfl
  | _ => decide +kernel

/-- **Every reason for which this policy holds a path** is one that the daemon takes for a reason
of the policy, when the rules change and it looks for the entries to release. -/
theorem isScopeReason_of_scopeVerdict {text : Option Bytes} {c : SessionConfig}
    {rel reason : String} {size : Option U64} (h : scopeVerdict g text c rel size = some reason) :
    isScopeReason reason = true := by
  unfold scopeVerdict at h
  dsimp only at h
  by_cases hsync : ((loadIgnoreSet g text c).verdict rel size).isSync = true
  · rw [if_pos hsync] at h
    cases h
  · rw [if_neg hsync] at h
    obtain rfl := Option.some.inj h
    rw [isScopeReason_reason, Bool.not_eq_true', ← Bool.not_eq_true]
    exact hsync

variable (g) in
/-- A daemon with this policy. -/
def withScope {Id : Type} [Ord Id] (h : Host Id String) : Host Id String :=
  { h with ignoreFile := ignoreFile, verdict := scopeVerdict g }

/-- **What the policy held, a change of the rules releases** exactly when they carry it now. -/
theorem mem_releasable_withScope {Id : Type} [LinearOrder Id] {h : Host Id String}
    {a : Actor Id String} {rel : String} {e : UnappliedEntry Id}
    (hentry : a.unapplied[rel]? = some e)
    (hheld : ∃ text c size, scopeVerdict g text c rel size = some e.reason) :
    rel ∈ a.releasable (withScope g h) ↔
      scopeVerdict g a.ignoreRules a.config rel (some e.record.size) = none := by
  obtain ⟨text, c, size, hreason⟩ := hheld
  have hscope := isScopeReason_of_scopeVerdict hreason
  unfold Actor.releasable
  rw [List.mem_map]
  constructor
  · rintro ⟨⟨rel', e'⟩, hmem, rfl⟩
    obtain ⟨hin, hsync⟩ := List.mem_filter.mp hmem
    have hsame : a.unapplied[rel']? = some e' :=
      Map.mem_toList.mp hin
    obtain rfl := Option.some.inj (hentry.symm.trans hsame)
    rw [Bool.and_eq_true, Option.isNone_iff_eq_none] at hsync
    exact hsync.2
  · intro hnone
    refine ⟨(rel, e), List.mem_filter.mpr ⟨?_, ?_⟩, rfl⟩
    · exact Map.mem_toList.mpr hentry
    · rw [Bool.and_eq_true, Option.isNone_iff_eq_none]
      exact ⟨hscope, hnone⟩

/-! ## Subtrees -/

theorem intercalate_append {c : Char} {a b : List Segment} (ha : a ≠ []) (hb : b ≠ []) :
    [c].intercalate (a ++ b) = [c].intercalate a ++ c :: [c].intercalate b := by
  induction a with
  | nil => exact absurd rfl ha
  | cons name a ih =>
      cases a with
      | nil =>
          obtain ⟨first, b, rfl⟩ := List.exists_cons_of_ne_nil hb
          simp [List.intercalate_cons_cons]
      | cons second a =>
          have hrest := ih (List.cons_ne_nil _ _)
          rw [List.cons_append, List.cons_append, List.intercalate_cons_cons, ← List.cons_append,
            hrest, List.intercalate_cons_cons]
          simp

/-- **A subtree is a beginning of the path, name by name.** -/
theorem inSubtree_iff {path subtree : String} :
    inSubtree path subtree = true ↔ segments subtree <+: segments path := by
  unfold inSubtree segments
  rw [Bool.or_eq_true, beq_iff_eq]
  constructor
  · rintro (rfl | h)
    · exact List.prefix_rfl
    · cases hdrop : path.toList.dropPrefix? subtree.toList with
      | none => simp [hdrop] at h
      | some rest =>
          rw [hdrop] at h
          obtain ⟨rest, rfl⟩ := List.head?_eq_some_iff.mp (beq_iff_eq.mp h)
          obtain ⟨front, hpath, hfront⟩ := List.dropPrefix?_eq_some_iff.mp hdrop
          rw [beq_iff_eq] at hfront
          rw [hpath, hfront, List.splitOn_append_cons_self]
          exact List.prefix_append _ _
  · rintro ⟨names, hnames⟩
    cases names with
    | nil =>
        rw [List.append_nil] at hnames
        refine .inl (String.toList_injective ?_)
        have hjoined : ['/'].intercalate (path.toList.splitOn '/') = path.toList :=
          List.intercalate_splitOn '/'
        rw [← hjoined, ← hnames, List.intercalate_splitOn]
    | cons name names =>
        have hpath : path.toList =
            subtree.toList ++ '/' :: ['/'].intercalate (name :: names) := by
          have hjoined : ['/'].intercalate (path.toList.splitOn '/') = path.toList :=
            List.intercalate_splitOn '/'
          rw [← hjoined, ← hnames,
            intercalate_append (List.splitOn_ne_nil _ _) (List.cons_ne_nil _ _),
            List.intercalate_splitOn]
        right
        rw [List.dropPrefix?_eq_some_iff.mpr ⟨subtree.toList, hpath, beq_self_eq_true _⟩]
        rfl

/-- The scope of a node that has these subtrees; an empty one counts for none. -/
def InScope (only : String) (skip : List String) (path : String) : Prop :=
  (only ≠ "" → segments only <+: segments path) ∧
    ∀ part ∈ skip, part ≠ "" → ¬ segments part <+: segments path

/-- The parts of the value of `sync-skip`. -/
def parts (value : String) : List String := (value.toList.splitOn ',').map String.ofList

theorem normalizeSubtree_eq_some_iff {value subtree : String} :
    normalizeSubtree value = some subtree ↔ clean value = subtree ∧ subtree ≠ "" := by
  unfold normalizeSubtree
  by_cases h : clean value = ""
  · rw [if_pos h, h]
    constructor
    · intro hnone
      cases hnone
    · rintro ⟨rfl, hne⟩
      exact absurd rfl hne
  · rw [if_neg h, Option.some.injEq]
    constructor
    · rintro rfl
      exact ⟨rfl, h⟩
    · rintro ⟨rfl, -⟩
      rfl

theorem outOfScope_build (rules : String) (junk : Bool) (only skip : String) (cap : U64)
    (path : String) : (IgnoreSet.build g rules junk only skip cap).outOfScope path = true ↔
      ¬ InScope (clean only) ((parts skip).map clean) path := by
  have honly : (normalizeSubtree only).any (fun subtree => !inSubtree path subtree) = true ↔
      ¬ (clean only ≠ "" → segments (clean only) <+: segments path) := by
    by_cases h : clean only = ""
    · simp [normalizeSubtree, h]
    · have hsome := normalizeSubtree_eq_some_iff.mpr ⟨rfl, h⟩
      rw [hsome, Option.any_some, Bool.not_eq_true', ← Bool.not_eq_true, inSubtree_iff]
      simp [h]
  have hskip : ((parts skip).filterMap normalizeSubtree).any (inSubtree path) = true ↔
      ¬ ∀ part ∈ (parts skip).map clean, part ≠ "" → ¬ segments part <+: segments path := by
    simp only [List.any_eq_true, List.mem_filterMap, normalizeSubtree_eq_some_iff, inSubtree_iff,
      List.mem_map]
    push Not
    constructor
    · rintro ⟨part, ⟨raw, hraw, hclean, hne⟩, hin⟩
      exact ⟨part, ⟨raw, hraw, hclean⟩, hne, hin⟩
    · rintro ⟨part, ⟨raw, hraw, hclean⟩, hne, hin⟩
      exact ⟨part, ⟨raw, hraw, hclean, hne⟩, hin⟩
  have hout : (IgnoreSet.build g rules junk only skip cap).outOfScope path =
      ((normalizeSubtree only).any (fun subtree => !inSubtree path subtree) ||
        ((parts skip).filterMap normalizeSubtree).any (inSubtree path)) := by
    simp only [IgnoreSet.outOfScope, IgnoreSet.build, parts]
  unfold InScope
  rw [hout, not_and_or, Bool.or_eq_true, honly, hskip]

/-! ## The rules at a path -/

variable (g) in
/-- What the rules say of a place on the way to the path. -/
def decidedAt (rules : List g.Rule) (path : String) (q : List Segment) : Option Decision :=
  Rules.last (g.answer (q != segments path)) rules q

variable (g) in
/-- The nearest place that the rules know, from the path upwards, is to be ignored. -/
def Ignored (rules : List g.Rule) (path : String) : Prop :=
  ∃ q, q <+: segments path ∧ decidedAt g rules path q = some .ignore ∧
    ∀ q', q <+: q' → q' <+: segments path → q' ≠ q → decidedAt g rules path q' = none

theorem isIgnored_eq {rules : List g.Rule} {m : g.Matcher} {path : String}
    (hbuild : g.build rules = some m) (hpath : Sanitized path) : isIgnored (some m) path =
      (Rules.nearest (decidedAt g rules path) (segments path) == some .ignore) := by
  unfold isIgnored
  dsimp only
  rw [g.matched_eq hbuild hpath]
  rfl

theorem isIgnored_iff {rules : List g.Rule} {m : g.Matcher} {path : String}
    (hbuild : g.build rules = some m) (hpath : Sanitized path) :
    isIgnored (some m) path = true ↔ Ignored g rules path := by
  rw [isIgnored_eq hbuild hpath, beq_iff_eq, Rules.nearest_eq_some_iff]
  rfl

/-! ## A folder with three rules -/

/-- Names, and names that begin with a star. -/
def globHits (pattern name : List Char) : Bool :=
  match pattern with
  | '*' :: rest => rest.isSuffixOf name
  | _ => pattern == name

/-- A part of the syntax: the rule includes again, it is for directories, and its pattern. -/
def plainRule (line : String) : Option (Bool × Bool × List Char) :=
  match line.toList with
  | [] => none
  | '#' :: _ => none
  | '!' :: rest => some (true, rest.getLast? == some '/', rest.rdropWhile (· == '/'))
  | rest => some (false, rest.getLast? == some '/', rest.rdropWhile (· == '/'))

def plainAnswer (isDir : Bool) (rule : Bool × Bool × List Char) (q : List Segment) :
    Option Decision :=
  match q.getLast? with
  | none => none
  | some name =>
      if globHits rule.2.2 name && (isDir || !rule.2.1) then
        some (if rule.1 then .whitelist else .ignore)
      else none

def plainGitignore : Gitignore where
  Rule := Bool × Bool × List Char
  Matcher := List (Bool × Bool × List Char)
  addLine := plainRule
  build rules := some rules
  answer := plainAnswer
  matchedPathOrAnyParents rules path :=
    Rules.nearest (fun q => Rules.last (plainAnswer (q != segments path)) rules q) (segments path)
  matched_eq := by
    rintro rules m ⟨⟩ path -
    rfl
  line_of_whitelist := by
    intro line rule hline isDir q hanswer
    have hwhite : rule.1 = true := by
      unfold plainAnswer at hanswer
      split at hanswer
      · cases hanswer
      · split at hanswer
        · by_contra hno
          rw [if_neg hno] at hanswer
          cases hanswer
        · cases hanswer
    unfold plainRule at hline
    split at hline
    · cases hline
    · cases hline
    · rename_i rest heq
      rw [heq]
      rfl
    · obtain rfl := Option.some.inj hline
      cases hwhite

def threeRules : String := "*.log\nbuild/\n!keep.log\n"

theorem sanitized_of_ok {path : String} (h : (sanitizeRelPath path).toBool = true) :
    Sanitized path := by
  cases hpath : sanitizeRelPath path with
  | error e =>
      rw [hpath] at h
      cases h
  | ok rel =>
      obtain ⟨rfl, hrel⟩ := sanitizeRelPath_ok hpath
      exact hrel

/-! ## What is synced -/

theorem bySize_some (cap n : U64) :
    bySize cap (some n) = if 0 < cap ∧ cap < n then .tooLarge n cap else .sync := rfl

theorem bySize_eq_sync_iff {cap : U64} {size : Option U64} :
    bySize cap size = .sync ↔ ∀ n ∈ size, cap = 0 ∨ n ≤ cap := by
  cases size with
  | none => simp [bySize]
  | some n =>
      have hn : ¬ (0 < cap ∧ cap < n) ↔ cap = 0 ∨ n ≤ cap := by
        rw [not_and_or, not_lt, not_lt, Fin.le_zero_iff]
      rw [bySize_some]
      by_cases hlarge : 0 < cap ∧ cap < n
      · rw [if_pos hlarge]
        simpa using mt hn.mpr (not_not.mpr hlarge)
      · rw [if_neg hlarge]
        simpa using hn.mp hlarge

theorem bySize_sync_or_tooLarge (cap : U64) (size : Option U64) :
    bySize cap size = .sync ∨ ∃ n c, bySize cap size = .tooLarge n c := by
  cases size with
  | none => exact .inl rfl
  | some n =>
      rw [bySize_some]
      by_cases hlarge : 0 < cap ∧ cap < n
      · rw [if_pos hlarge]
        exact .inr ⟨n, cap, rfl⟩
      · rw [if_neg hlarge]
        exact .inl rfl

/-- The parts of the decision: the scope, the rules, and the size. -/
theorem verdict_build {userRules : String} (junk : Bool) {only skip : String} (cap : U64)
    {m u : Option g.Matcher} {path : String} (size : Option U64)
    (hbuild : g.build ((if junk then junkLines g else []) ++ userLines g userRules) = m)
    (huser : g.build (userLines g userRules) = u) (hself : path ≠ ignoreFile)
    (hin : InScope (clean only) ((parts skip).map clean) path) :
    (IgnoreSet.build g userRules junk only skip cap).verdict path size =
      if isIgnored m path then
        if isIgnored u path then .userIgnored else if junk then .junk else .userIgnored
      else bySize cap size := by
  have hout : (IgnoreSet.build g userRules junk only skip cap).outOfScope path = false := by
    rw [← Bool.not_eq_true, outOfScope_build, not_not]
    exact hin
  subst hbuild huser
  unfold IgnoreSet.verdict
  rw [if_neg hself, hout, if_neg Bool.false_ne_true]
  rfl

theorem verdict_outOfScope {userRules : String} {junk : Bool} {only skip : String} {cap : U64}
    {path : String} (size : Option U64) (hself : path ≠ ignoreFile)
    (hout : ¬ InScope (clean only) ((parts skip).map clean) path) :
    (IgnoreSet.build g userRules junk only skip cap).verdict path size = .skipped := by
  unfold IgnoreSet.verdict
  rw [if_neg hself, if_pos ((outOfScope_build _ _ _ _ _ _).mpr hout)]

variable (g) in
/-- **A path is synced** exactly when it is the ignore file, or it is in scope, the rules do not
ignore it, and its size, if it is known, is not above the ceiling. -/
theorem verdict_eq_sync_iff {userRules : String} {junk : Bool} {only skip : String} {cap : U64}
    {m : g.Matcher} {path : String} (size : Option U64)
    (hbuild : g.build ((if junk then junkLines g else []) ++ userLines g userRules) = some m)
    (hpath : Sanitized path) :
    (IgnoreSet.build g userRules junk only skip cap).verdict path size = .sync ↔
      path = ignoreFile ∨ InScope (clean only) ((parts skip).map clean) path ∧
        ¬ Ignored g ((if junk then junkLines g else []) ++ userLines g userRules) path ∧
        ∀ n ∈ size, cap = 0 ∨ n ≤ cap := by
  by_cases hself : path = ignoreFile
  · have hsync : (IgnoreSet.build g userRules junk only skip cap).verdict path size = .sync :=
      if_pos hself
    exact iff_of_true hsync (.inl hself)
  · by_cases hin : InScope (clean only) ((parts skip).map clean) path
    · rw [verdict_build junk cap size hbuild rfl hself hin, ← isIgnored_iff hbuild hpath,
        ← bySize_eq_sync_iff]
      by_cases hign : isIgnored (some m) path = true
      · rw [if_pos hign]
        have hheld : (if isIgnored (g.build (userLines g userRules)) path = true then
            Verdict.userIgnored else if junk = true then .junk else .userIgnored) ≠ .sync := by
          split
          · simp
          · split <;> simp
        simp [hself, hign, hheld]
      · rw [if_neg hign]
        simp [hself, hin, hign]
    · rw [verdict_outOfScope size hself hin]
      simp [hself, hin]

/-- A file is included again in a directory that is ignored: it is nearer. -/
theorem verdict_eq_sync_iff_keepLog :
    (IgnoreSet.build plainGitignore threeRules true "build" "" 0).verdict "build/keep.log" none =
        .sync ∧
      ¬ Ignored plainGitignore
        (junkLines plainGitignore ++ userLines plainGitignore threeRules) "build/keep.log" := by
  have hiff : (IgnoreSet.build plainGitignore threeRules true "build" "" 0).verdict
      "build/keep.log" none = .sync ↔ _ :=
    verdict_eq_sync_iff plainGitignore none rfl (sanitized_of_ok (by decide +kernel))
  have hsync : (IgnoreSet.build plainGitignore threeRules true "build" "" 0).verdict
      "build/keep.log" none = .sync := by decide +kernel
  rcases hiff.mp hsync with hself | ⟨-, hnot, -⟩
  · exact absurd hself (by decide +kernel)
  · exact ⟨hsync, hnot⟩

/-! ## The junk filter -/

theorem answer_junkLines {isDir : Bool} {rule : g.Rule} (hrule : rule ∈ junkLines g)
    {q : List Segment} {d : Decision} (h : g.answer isDir rule q = some d) : d = .ignore := by
  obtain ⟨line, hline, hadd⟩ := List.mem_filterMap.mp hrule
  cases d with
  | ignore => rfl
  | whitelist =>
      have hhead := g.line_of_whitelist hadd h
      have hnone : ∀ line ∈ junkPatterns, line.toList.head? ≠ some '!' := by decide +kernel
      exact absurd hhead (hnone line hline)

theorem decidedAt_junk_append (rules : List g.Rule) (path : String) :
    decidedAt g (junkLines g ++ rules) path =
      fun q => (decidedAt g rules path q).or (decidedAt g (junkLines g) path q) := by
  funext q
  exact Rules.last_append _ _ _ _

theorem decidedAt_junkLines (path : String) (q : List Segment) (d : Decision)
    (h : decidedAt g (junkLines g) path q = some d) : d = .ignore := by
  obtain ⟨rule, hmem, hanswer⟩ := Rules.exists_of_last h
  exact answer_junkLines hmem hanswer

variable (g) in
/-- **The junk filter only adds junk** to what is held: with it on, the verdict is the one
without it, or junk where that one carried the path. Where the folder's own rules know the path
itself, it changes nothing. -/
theorem verdict_junkFilter {userRules only skip : String} {cap : U64} {m u : g.Matcher}
    {path : String} (size : Option U64)
    (hbuild : g.build (junkLines g ++ userLines g userRules) = some m)
    (huser : g.build (userLines g userRules) = some u) (hpath : Sanitized path) :
    let on := (IgnoreSet.build g userRules true only skip cap).verdict path size
    let off := (IgnoreSet.build g userRules false only skip cap).verdict path size
    (on = off ∨ on = .junk ∧ (off = .sync ∨ ∃ n c, off = .tooLarge n c)) ∧ off ≠ .junk ∧
      (decidedAt g (userLines g userRules) path (segments path) ≠ none → on = off) := by
  intro on off
  by_cases hself : path = ignoreFile
  · have hon : on = .sync := if_pos hself
    have hoff : off = .sync := if_pos hself
    simp [hon, hoff]
  by_cases hin : InScope (clean only) ((parts skip).map clean) path
  swap
  · have hon : on = .skipped := verdict_outOfScope size hself hin
    have hoff : off = .skipped := verdict_outOfScope size hself hin
    simp [hon, hoff]
  have hon : on = if isIgnored (some m) path then
      if isIgnored (some u) path then .userIgnored else .junk else bySize cap size := by
    exact verdict_build true cap size hbuild huser hself hin
  have hoff : off = if isIgnored (some u) path then .userIgnored else bySize cap size := by
    have h := verdict_build false cap size huser huser hself hin
    rw [if_neg Bool.false_ne_true, ite_self] at h
    exact h
  have hsize := bySize_sync_or_tooLarge cap size
  have hjunk : bySize cap size ≠ .junk := by
    rcases hsize with h | ⟨n, c, h⟩ <;> rw [h] <;> simp
  -- The junk rules stand in front: they answer only where the folder's rules do not.
  have hall := isIgnored_eq hbuild hpath
  have hown := isIgnored_eq huser hpath
  rw [decidedAt_junk_append] at hall
  by_cases hu : isIgnored (some u) path = true
  · have hnearest := beq_iff_eq.mp (hown.symm.trans hu)
    have hm : isIgnored (some m) path = true := by
      rw [hall, Rules.nearest_or_of_eq (decidedAt_junkLines path) hnearest, beq_self_eq_true]
    rw [if_pos hm, if_pos hu] at hon
    rw [if_pos hu] at hoff
    simp [hon, hoff]
  · rw [if_neg hu] at hon hoff
    refine ⟨?_, hoff ▸ hjunk, ?_⟩
    · by_cases hm : isIgnored (some m) path = true
      · rw [if_pos hm] at hon
        exact .inr ⟨hon, hoff ▸ hsize⟩
      · rw [if_neg hm] at hon
        exact .inl (hon.trans hoff.symm)
    · intro hknown
      have hm : isIgnored (some m) path = isIgnored (some u) path := by
        rw [hall, hown]
        obtain ⟨d, hd⟩ := Option.ne_none_iff_exists'.mp hknown
        have hself : ∀ f : List Segment → Option Decision, f (segments path) = some d →
            Rules.nearest f (segments path) = some d := fun f hf =>
          Rules.nearest_eq_some_iff.mpr ⟨_, List.prefix_rfl, hf, fun q' hle hge hne =>
            absurd (hge.eq_of_length_le hle.length_le) hne⟩
        rw [hself _ hd, hself _ (by rw [hd, Option.some_or])]
      rw [hm, if_neg hu] at hon
      exact hon.trans hoff.symm

/-- A swap file that the folder's rules do not know. -/
theorem verdict_junkFilter_swap :
    (IgnoreSet.build plainGitignore threeRules true "" "" 0).verdict "src/a.swp" (some 5) = .junk ∧
      (IgnoreSet.build plainGitignore threeRules false "" "" 0).verdict "src/a.swp" (some 5) =
        .sync := by
  have hpath : Sanitized "src/a.swp" := sanitized_of_ok (by decide +kernel)
  have hon : (IgnoreSet.build plainGitignore threeRules true "" "" 0).verdict "src/a.swp"
      (some 5) = .junk := by decide +kernel
  obtain ⟨heq | ⟨-, hoff⟩, hne, -⟩ : (_ ∨ _ = Verdict.junk ∧ _) ∧ _ ∧ _ :=
    verdict_junkFilter plainGitignore (some 5) rfl rfl hpath
  · exact absurd (heq.symm.trans hon) hne
  · refine ⟨hon, hoff.resolve_right ?_⟩
    rintro ⟨n, c, hlarge⟩
    have hsync : (IgnoreSet.build plainGitignore threeRules false "" "" 0).verdict "src/a.swp"
        (some 5) = .sync := by decide +kernel
    rw [hsync] at hlarge
    cases hlarge

end Tazamun.Scope
