import Tazamun.Paths.Sanitize

set_option autoImplicit false

/-! # Where a path leads

`RelPath::to_fs_path` (`state.rs`) pushes the names of a relative path one by one onto the
directory of the session, and `oneshot.rs` joins the destination with what `fs_rel` pushes
together. Both come to the same directory entry, and the question is whether it is below the
root, and not in the metadata directory of the root.

A path is a volume, if it names one, and a list of names (`PathBuf`); where it leads depends on
the current directories (`locate`). On Unix a pushed name is one more name, and the sanitizer
has seen to it that it means itself. On Windows a name that begins with a drive replaces the
path built so far, whatever its place, and the file system strips dots and spaces at the end
of each name.

So accepted paths are contained on Unix, and on Windows exactly if no name begins with a drive
and the first name that is left after stripping is there and is not the metadata directory
(`Confined`). The sanitizer looks for a drive at the beginning of the whole string only, and
compares names before they are stripped.
-/

namespace Tazamun

/-! ## Paths of the file system -/

/-- What a Windows path is relative to. -/
inductive Volume where
  | disk (letter : Char)
  | unc (server share : Segment)
deriving DecidableEq

/-- A path as it is built. On Unix there are no volumes. -/
structure PathBuf where
  volume : Option Volume
  rooted : Bool
  names : List Segment
deriving DecidableEq

def PathBuf.empty : PathBuf := ⟨none, false, []⟩

/-- The current directory, and on Windows one for each volume. -/
structure Cwd where
  volume : Volume
  dir : Volume → List Segment

/-- A name that begins with a drive, taken apart. -/
def drivePrefix : Segment → Option (Char × Segment)
  | letter :: ':' :: rest => if letter.isAlpha then some (letter, rest) else none
  | _ => none

namespace PathBuf

/-- `push` of a name without separators on Unix. -/
def pushUnix (p : PathBuf) (seg : Segment) : PathBuf := { p with names := p.names ++ [seg] }

/-- `push` on Windows: a drive replaces the path. -/
def pushWindows (p : PathBuf) (seg : Segment) : PathBuf :=
  match drivePrefix seg with
  | some (letter, rest) => ⟨some (.disk letter), false, if rest.isEmpty then [] else [rest]⟩
  | none => { p with names := p.names ++ [seg] }

/-- `join`: an absolute path, or one with a volume, replaces the first. -/
def join (p q : PathBuf) : PathBuf :=
  if q.volume.isSome then q
  else if q.rooted then { q with volume := p.volume }
  else { p with names := p.names ++ q.names }

end PathBuf

/-- `RelPath::to_fs_path`. The extended-length form names the same place. -/
def toFsPath (push : PathBuf → Segment → PathBuf) (root : PathBuf) (rel : String) : PathBuf :=
  (segments rel).foldl push root

/-- `fs_rel`. -/
def fsRel (push : PathBuf → Segment → PathBuf) (rel : String) : PathBuf :=
  (segments rel).foldl push .empty

/-! ## Where they lead -/

/-- One name, from the directory reached so far. -/
def enter (strip : Segment → Segment) (dir : List Segment) (seg : Segment) : List Segment :=
  if seg = ['.', '.'] then dir.dropLast
  else if seg = [] ∨ seg = ['.'] ∨ strip seg = [] then dir
  else dir ++ [strip seg]

/-- The file system of Windows ignores dots and spaces at the end of a name. -/
def stripTail (seg : Segment) : Segment := seg.rdropWhile fun c => c == '.' || c == ' '

/-- The entry that a path leads to, below the root of the file system. -/
def PathBuf.locateUnix (cwd : Cwd) (p : PathBuf) : List Segment :=
  ((if p.rooted then [] else cwd.dir cwd.volume) ++ p.names).foldl (enter id) []

/-- The volume, and the entry that a path leads to. -/
def PathBuf.locateWindows (cwd : Cwd) (p : PathBuf) : Volume × List Segment :=
  let volume := p.volume.getD cwd.volume
  (volume, ((if p.rooted then [] else cwd.dir volume) ++ p.names).foldl (enter stripTail) [])

/-- The path is strictly below the root, and not in its metadata directory. -/
def Contained (isMeta : Segment → Bool) (root path : List Segment) : Prop :=
  ∃ name rest, path = root ++ name :: rest ∧ isMeta name = false

def ContainedUnix (cwd : Cwd) (root path : PathBuf) : Prop :=
  Contained (· == metaDir) (root.locateUnix cwd) (path.locateUnix cwd)

/-- Windows does not tell upper and lower case apart. -/
def ContainedWindows (cwd : Cwd) (root path : PathBuf) : Prop :=
  (path.locateWindows cwd).1 = (root.locateWindows cwd).1 ∧
    Contained (eqIgnoreAsciiCase · metaDir) (root.locateWindows cwd).2 (path.locateWindows cwd).2

/-- The names that are left after stripping. -/
def strippedNames (segs : List Segment) : List Segment :=
  (segs.map stripTail).filter fun name => !name.isEmpty

/-- No name begins with a drive, and the first one that is left after stripping is there and
is not the metadata directory. -/
structure Confined (segs : List Segment) : Prop where
  noDrive : ∀ seg ∈ segs, startsWithDrive seg = false
  named : ∃ name rest, strippedNames segs = name :: rest ∧ eqIgnoreAsciiCase name metaDir = false

/-! ### Plain names -/

theorem enter_plain {strip : Segment → Segment} {seg : Segment} (hs : seg.Plain)
    (dir : List Segment) :
    enter strip dir seg = dir ++ if strip seg = [] then [] else [strip seg] := by
  unfold enter
  rw [if_neg hs.notParent]
  by_cases hempty : strip seg = []
  · rw [if_pos (.inr (.inr hempty)), if_pos hempty, List.append_nil]
  · rw [if_neg, if_neg hempty]
    rintro (h | h | h)
    · exact hs.nonempty h
    · exact hs.notDot h
    · exact hempty h

/-- Plain names lead further down, past those that are stripped to nothing. -/
theorem foldl_enter_plain {strip : Segment → Segment} {segs : List Segment}
    (hs : ∀ seg ∈ segs, seg.Plain) (dir : List Segment) :
    segs.foldl (enter strip) dir = dir ++ (segs.map strip).filter fun name => !name.isEmpty := by
  induction segs generalizing dir with
  | nil => simp
  | cons seg rest ih =>
      rw [List.foldl_cons, enter_plain (hs seg List.mem_cons_self),
        ih fun s h => hs s (List.mem_cons_of_mem _ h), List.map_cons]
      by_cases hempty : strip seg = []
      · rw [if_pos hempty, hempty, List.append_nil]
        rfl
      · rw [if_neg hempty, List.filter_cons_of_pos (by simp [hempty]), List.append_assoc]
        rfl

/-! ## Unix -/

theorem foldl_pushUnix (segs : List Segment) (p : PathBuf) :
    segs.foldl PathBuf.pushUnix p = { p with names := p.names ++ segs } := by
  induction segs generalizing p with
  | nil => simp
  | cons seg rest ih =>
      rw [List.foldl_cons, ih]
      simp [PathBuf.pushUnix]

/-- Pushing the names and joining come to the same. -/
theorem join_fsRel_unix (root : PathBuf) (rel : String) :
    root.join (fsRel PathBuf.pushUnix rel) = toFsPath PathBuf.pushUnix root rel := by
  rw [fsRel, toFsPath, foldl_pushUnix, foldl_pushUnix]
  rfl

/-- **On Unix accepted paths are contained.** -/
theorem containedUnix {rel : String} (hrel : Sanitized rel) (cwd : Cwd) (root : PathBuf) :
    ContainedUnix cwd root (toFsPath PathBuf.pushUnix root rel) := by
  have hkept : (segments rel).filter (fun name => !name.isEmpty) = segments rel := by
    refine List.filter_eq_self.mpr fun seg hseg => ?_
    simpa using (hrel.plain seg hseg).nonempty
  have hbelow : (toFsPath PathBuf.pushUnix root rel).locateUnix cwd =
      root.locateUnix cwd ++ segments rel := by
    rw [toFsPath, foldl_pushUnix, PathBuf.locateUnix, PathBuf.locateUnix]
    dsimp only
    rw [← List.append_assoc, List.foldl_append, foldl_enter_plain hrel.plain, List.map_id, hkept]
  unfold ContainedUnix Contained
  rw [hbelow]
  cases hsegs : segments rel with
  | nil => exact absurd hsegs (segments_ne_nil rel)
  | cons name rest =>
      refine ⟨name, rest, rfl, ?_⟩
      have hmeta := (hrel.plain name (by rw [hsegs]; exact List.mem_cons_self)).notMeta
      refine beq_eq_false_iff_ne.mpr ?_
      rintro rfl
      rw [eqIgnoreAsciiCase, beq_self_eq_true] at hmeta
      cases hmeta

/-! ## Windows -/

theorem drivePrefix_none {seg : Segment} : drivePrefix seg = none ↔ startsWithDrive seg = false := by
  unfold drivePrefix startsWithDrive
  split
  · split
    · rename_i halpha
      simp [halpha]
    · rename_i halpha
      simpa using halpha
  · simp

theorem foldl_pushWindows {segs : List Segment} (hs : ∀ seg ∈ segs, startsWithDrive seg = false)
    (p : PathBuf) : segs.foldl PathBuf.pushWindows p = { p with names := p.names ++ segs } := by
  induction segs generalizing p with
  | nil => simp
  | cons seg rest ih =>
      have hnone := drivePrefix_none.mpr (hs seg List.mem_cons_self)
      rw [List.foldl_cons, ih fun s h => hs s (List.mem_cons_of_mem _ h)]
      simp [PathBuf.pushWindows, hnone]

/-- The path has left for a drive of its own. -/
def PathBuf.OnDrive (p : PathBuf) : Prop := ∃ letter, p.volume = some (.disk letter)

/-- A drive anywhere among the names is what the path ends up on. -/
theorem onDrive_foldl {segs : List Segment} {p : PathBuf}
    (h : p.OnDrive ∨ ∃ seg ∈ segs, startsWithDrive seg = true) :
    (segs.foldl PathBuf.pushWindows p).OnDrive := by
  induction segs generalizing p with
  | nil =>
      rcases h with h | ⟨_, hin, _⟩
      · exact h
      · cases hin
  | cons seg rest ih =>
      refine ih ?_
      unfold PathBuf.pushWindows
      cases hpre : drivePrefix seg with
      | some e => exact .inl ⟨e.1, rfl⟩
      | none =>
          have hno := drivePrefix_none.mp hpre
          refine h.imp id ?_
          rintro ⟨s, hs, hdrive⟩
          rcases List.mem_cons.mp hs with rfl | hs
          · rw [hno] at hdrive
            cases hdrive
          · exact ⟨s, hs, hdrive⟩

theorem join_fsRel_windows {rel : String}
    (hs : ∀ seg ∈ segments rel, startsWithDrive seg = false) (root : PathBuf) :
    root.join (fsRel PathBuf.pushWindows rel) = toFsPath PathBuf.pushWindows root rel := by
  rw [fsRel, toFsPath, foldl_pushWindows hs, foldl_pushWindows hs]
  rfl

/-- Without drives the path leads to the stripped names below the root. -/
theorem locateWindows_toFsPath {rel : String} (hrel : Sanitized rel)
    (hs : ∀ seg ∈ segments rel, startsWithDrive seg = false) (cwd : Cwd) (root : PathBuf) :
    (toFsPath PathBuf.pushWindows root rel).locateWindows cwd =
      ((root.locateWindows cwd).1, (root.locateWindows cwd).2 ++ strippedNames (segments rel)) := by
  rw [toFsPath, foldl_pushWindows hs, PathBuf.locateWindows, PathBuf.locateWindows]
  dsimp only
  rw [← List.append_assoc, List.foldl_append, foldl_enter_plain hrel.plain]
  rfl

/-- A share, which no drive leads to. -/
def someShare : PathBuf := ⟨some (.unc ['s'] ['d']), true, []⟩

theorem confined_of_contained {rel : String} (hrel : Sanitized rel)
    (h : ∀ cwd root, ContainedWindows cwd root (toFsPath PathBuf.pushWindows root rel)) :
    Confined (segments rel) := by
  have hs : ∀ seg ∈ segments rel, startsWithDrive seg = false := by
    intro seg hseg
    by_contra hdrive
    rw [Bool.not_eq_false] at hdrive
    obtain ⟨letter, hletter⟩ := onDrive_foldl (p := someShare) (.inr ⟨seg, hseg, hdrive⟩)
    obtain ⟨hvolume, -⟩ := h ⟨.disk 'C', fun _ => []⟩ someShare
    rw [PathBuf.locateWindows, toFsPath, hletter] at hvolume
    cases hvolume
  refine ⟨hs, ?_⟩
  obtain ⟨-, name, rest, hbelow, hmeta⟩ := h ⟨.disk 'C', fun _ => []⟩ someShare
  rw [locateWindows_toFsPath hrel hs] at hbelow
  exact ⟨name, rest, List.append_cancel_left hbelow, hmeta⟩

theorem Confined.contained {rel : String} (hrel : Sanitized rel) (hc : Confined (segments rel))
    (cwd : Cwd) (root : PathBuf) :
    ContainedWindows cwd root (toFsPath PathBuf.pushWindows root rel) := by
  obtain ⟨name, rest, hnames, hmeta⟩ := hc.named
  unfold ContainedWindows
  rw [locateWindows_toFsPath hrel hc.noDrive]
  refine ⟨rfl, name, rest, ?_, hmeta⟩
  dsimp only
  rw [hnames]

/-- The path is contained wherever the root is, both as the daemon and as a one-shot receiver
builds it. -/
structure PathContained (rel : String) : Prop where
  unix : ∀ cwd root, ContainedUnix cwd root (toFsPath PathBuf.pushUnix root rel) ∧
    ContainedUnix cwd root (root.join (fsRel PathBuf.pushUnix rel))
  windows : ∀ cwd root, ContainedWindows cwd root (toFsPath PathBuf.pushWindows root rel) ∧
    ContainedWindows cwd root (root.join (fsRel PathBuf.pushWindows rel))

/-- **Path containment.** An accepted path is contained exactly if no name begins with a drive
and the stripped names do not lead to the root or its metadata directory. On Unix all are. -/
theorem pathContained_iff {input rel : String} (h : sanitizeRelPath input = .ok rel) :
    (∀ cwd root, ContainedUnix cwd root (toFsPath PathBuf.pushUnix root rel) ∧
      ContainedUnix cwd root (root.join (fsRel PathBuf.pushUnix rel))) ∧
    (PathContained rel ↔ Confined (segments rel)) := by
  obtain ⟨rfl, hrel⟩ := sanitizeRelPath_ok h
  have hunix : ∀ cwd root, ContainedUnix cwd root (toFsPath PathBuf.pushUnix root rel) ∧
      ContainedUnix cwd root (root.join (fsRel PathBuf.pushUnix rel)) := by
    intro cwd root
    rw [join_fsRel_unix]
    exact ⟨containedUnix hrel cwd root, containedUnix hrel cwd root⟩
  refine ⟨hunix, fun hall => ?_, fun hc => ⟨hunix, fun cwd root => ?_⟩⟩
  · exact confined_of_contained hrel fun cwd root => (hall.windows cwd root).1
  · rw [join_fsRel_windows hc.noDrive]
    exact ⟨hc.contained hrel cwd root, hc.contained hrel cwd root⟩

theorem pathContained_notes : PathContained "notes/a.txt" :=
  (pathContained_iff (show sanitizeRelPath "notes/a.txt" = .ok "notes/a.txt" from rfl)).2.mpr
    ⟨by decide, "notes".toList, ["a.txt".toList], by decide, by decide⟩

/-- On a share: a drive at the beginning of the second name leads out of the root, and a dot at
the end of the first one into the metadata directory. -/
theorem path_escapes :
    (sanitizeRelPath "a/C:x" = .ok "a/C:x" ∧ ¬ PathContained "a/C:x" ∧
      ((toFsPath PathBuf.pushWindows someShare "a/C:x").locateWindows ⟨.disk 'C', fun _ => []⟩) =
        (.disk 'C', ["x".toList])) ∧
    sanitizeRelPath ".tazamun./state.json" = .ok ".tazamun./state.json" ∧
      ¬ PathContained ".tazamun./state.json" ∧
      ((someShare.join (fsRel PathBuf.pushWindows ".tazamun./state.json")).locateWindows
        ⟨.disk 'C', fun _ => []⟩) =
          (.unc ['s'] ['d'], [".tazamun".toList, "state.json".toList]) := by
  refine ⟨⟨rfl, fun hall => ?_, by decide⟩, rfl, fun hall => ?_, by decide⟩
  · obtain ⟨⟨hvolume, -⟩, -⟩ := hall.windows ⟨.disk 'C', fun _ => []⟩ someShare
    exact absurd hvolume (by decide)
  · obtain ⟨⟨-, name, rest, hbelow, hmeta⟩, -⟩ := hall.windows ⟨.disk 'C', fun _ => []⟩ someShare
    have hplace : ((toFsPath PathBuf.pushWindows someShare ".tazamun./state.json").locateWindows
        ⟨.disk 'C', fun _ => []⟩).2 = [".tazamun".toList, "state.json".toList] := by decide
    rw [hplace] at hbelow
    cases hbelow
    exact absurd hmeta (by decide)

/-! ## The second check -/

/-- A name that Windows can hold has no drive, and nothing is stripped from it. -/
theorem segmentViolation_none {seg : Segment} (h : segmentViolation seg = none) :
    startsWithDrive seg = false ∧ stripTail seg = seg := by
  unfold segmentViolation at h
  split at h
  · cases h
  · rename_i hchars
    rw [List.find?_eq_none] at hchars
    split at h
    · cases h
    · rename_i htail
      simp only [Bool.or_eq_true, beq_iff_eq, not_or] at htail
      refine ⟨?_, ?_⟩
      · unfold startsWithDrive
        split
        · exact absurd rfl (hchars ':' (by simp))
        · rfl
      · unfold stripTail
        rw [List.rdropWhile_eq_self_iff]
        intro hne hlast
        have hget := List.getLast?_eq_getLast_of_ne_nil hne
        rcases Bool.or_eq_true_iff.mp hlast with hdot | hspace
        · exact htail.1 (hget.trans (congrArg some (by simpa using hdot)))
        · exact htail.2 (hget.trans (congrArg some (by simpa using hspace)))

/-- **What passes both checks is contained**: the daemon makes the second one on Windows, a
one-shot receiver does not. -/
theorem pathContained_of_portable {input rel : String} (h : sanitizeRelPath input = .ok rel)
    (hport : portabilityViolation rel = none) : PathContained rel := by
  obtain ⟨rfl, hrel⟩ := sanitizeRelPath_ok h
  have hsegs : ∀ seg ∈ segments rel, startsWithDrive seg = false ∧ stripTail seg = seg :=
    fun seg hseg => segmentViolation_none (List.findSome?_eq_none_iff.mp hport seg hseg)
  have hsame : strippedNames (segments rel) = segments rel := by
    have hstrip : (segments rel).map stripTail = segments rel :=
      (List.map_congr_left fun seg hseg => (hsegs seg hseg).2).trans (List.map_id _)
    rw [strippedNames, hstrip]
    exact List.filter_eq_self.mpr fun seg hseg => by simpa using (hrel.plain seg hseg).nonempty
  refine (pathContained_iff h).2.mpr ⟨fun seg hseg => (hsegs seg hseg).1, ?_⟩
  rw [hsame]
  cases hcut : segments rel with
  | nil => exact absurd hcut (segments_ne_nil rel)
  | cons name rest =>
      exact ⟨name, rest, rfl, (hrel.plain name (by rw [hcut]; exact List.mem_cons_self)).notMeta⟩

end Tazamun
