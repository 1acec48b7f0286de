import Mathlib.Data.List.DropRight

set_option autoImplicit false

/-! # Paths from elsewhere

`sanitize_rel_path` (`sync/index.rs`) is what every path of a peer or of a one-shot sender has
to pass. It looks at the whole string (length, NUL, backslash, a drive letter or a slash at its
beginning) and at each name between slashes (`.`, `..`, the empty name, our metadata directory
in any case). What passes is a list of names, none of which is special on Unix
(`Sanitized.plain`).

`portability_violation` is the second check, for nodes on Windows: names that Windows cannot
hold, or would change.
-/

namespace Tazamun

/-! ## Names -/

/-- What stands between two slashes. -/
abbrev Segment : Type := List Char

/-- `split('/')`. -/
def segments (path : String) : List Segment := path.toList.splitOn '/'

def eqIgnoreAsciiCase (a b : Segment) : Bool := a.map Char.toLower == b.map Char.toLower

def metaDir : Segment := ".tazamun".toList

/-- A letter and a colon. -/
def startsWithDrive : Segment → Bool
  | letter :: ':' :: _ => letter.isAlpha
  | _ => false

/-! ## The sanitizer -/

def maxPathLen : Nat := 4096

inductive PathError where
  | empty
  | tooLong
  | nul
  | backslash
  | absolute
  | driveLetter
  | badSegment
  | reserved
deriving DecidableEq

def PathError.text : PathError → String
  | .empty => "empty path"
  | .tooLong => "path longer than 4096 bytes"
  | .nul => "NUL byte in path"
  | .backslash => "backslash in path"
  | .absolute => "absolute path"
  | .driveLetter => "drive letter path"
  | .badSegment => "`.`, `..` or empty segment"
  | .reserved => "reserved `.tazamun` component"

/-- The loop over the names. -/
def checkSegments : List Segment → Except PathError Unit
  | [] => .ok ()
  | seg :: rest =>
      if seg.isEmpty || seg == ['.'] || seg == ['.', '.'] then .error .badSegment
      else if eqIgnoreAsciiCase seg metaDir then .error .reserved
      else checkSegments rest

def sanitizeRelPath (input : String) : Except PathError String :=
  if input.isEmpty then .error .empty
  else if maxPathLen < input.utf8ByteSize then .error .tooLong
  else if input.toList.contains (Char.ofNat 0) then .error .nul
  else if startsWithDrive input.toList then .error .driveLetter
  else if input.toList.contains '\\' then .error .backslash
  else if input.toList.head? == some '/' then .error .absolute
  else
    match checkSegments (segments input) with
    | .error e => .error e
    | .ok () => .ok input

/-- A name that means itself. -/
structure Segment.Plain (seg : Segment) : Prop where
  nonempty : seg ≠ []
  notDot : seg ≠ ['.']
  notParent : seg ≠ ['.', '.']
  notMeta : eqIgnoreAsciiCase seg metaDir = false

theorem checkSegments_ok {segs : List Segment} (h : checkSegments segs = .ok ()) :
    ∀ seg ∈ segs, seg.Plain := by
  induction segs with
  | nil => simp
  | cons seg rest ih =>
      unfold checkSegments at h
      split at h
      · cases h
      · rename_i hspecial
        split at h
        · cases h
        · rename_i hmeta
          simp only [Bool.or_eq_true, List.isEmpty_iff, beq_iff_eq, not_or] at hspecial
          obtain ⟨⟨hne, hdot⟩, hparent⟩ := hspecial
          intro s hs
          rcases List.mem_cons.mp hs with rfl | hs
          · exact ⟨hne, hdot, hparent, by simpa using hmeta⟩
          · exact ih h s hs

theorem checkSegments_of_plain {segs : List Segment} (h : ∀ seg ∈ segs, seg.Plain) :
    checkSegments segs = .ok () := by
  induction segs with
  | nil => rfl
  | cons seg rest ih =>
      have hseg := h seg List.mem_cons_self
      have hspecial : (seg.isEmpty || seg == ['.'] || seg == ['.', '.']) = false := by
        simp [hseg.nonempty, hseg.notDot, hseg.notParent]
      rw [checkSegments, hspecial, hseg.notMeta]
      exact ih fun s hs => h s (List.mem_cons_of_mem seg hs)

/-- What the sanitizer lets through. -/
structure Sanitized (rel : String) : Prop where
  nonempty : rel ≠ ""
  short : rel.utf8ByteSize ≤ maxPathLen
  noNul : Char.ofNat 0 ∉ rel.toList
  noBackslash : '\\' ∉ rel.toList
  relative : startsWithDrive rel.toList = false
  plain : ∀ seg ∈ segments rel, seg.Plain

/-- **The sanitizer returns its input**, and only if it is in order. -/
theorem sanitizeRelPath_ok {input rel : String} (h : sanitizeRelPath input = .ok rel) :
    rel = input ∧ Sanitized rel := by
  unfold sanitizeRelPath at h
  split at h
  · cases h
  · rename_i hempty
    split at h
    · cases h
    · rename_i hlen
      split at h
      · cases h
      · rename_i hnul
        split at h
        · cases h
        · rename_i hdrive
          split at h
          · cases h
          · rename_i hslash
            split at h
            · cases h
            · split at h
              · cases h
              · rename_i hsegs
                cases h
                refine ⟨rfl, ?_, Nat.le_of_not_lt hlen, by simpa using hnul, by simpa using hslash,
                  by simpa using hdrive, checkSegments_ok hsegs⟩
                rintro rfl
                exact hempty rfl

/-- **The sanitizer lets through what is in order.** -/
theorem sanitizeRelPath_of_sanitized {rel : String} (h : Sanitized rel) :
    sanitizeRelPath rel = .ok rel := by
  have hempty : rel.isEmpty = false := by simpa using h.nonempty
  have hlen : ¬ maxPathLen < rel.utf8ByteSize := not_lt.mpr h.short
  have hnul : rel.toList.contains (Char.ofNat 0) = false := by simpa using h.noNul
  have hslash : rel.toList.contains '\\' = false := by simpa using h.noBackslash
  -- before a slash at the beginning there is an empty name
  have hroot : (rel.toList.head? == some '/') = false := by
    rw [beq_eq_false_iff_ne]
    intro hhead
    obtain ⟨rest, hrest⟩ := List.head?_eq_some_iff.mp hhead
    refine (h.plain [] ?_).nonempty rfl
    rw [segments, hrest]
    exact List.mem_of_mem_head? rfl
  rw [sanitizeRelPath, hempty, if_neg (by decide), if_neg hlen, hnul, if_neg (by decide),
    h.relative, if_neg (by decide), hslash, if_neg (by decide), hroot, if_neg (by decide),
    checkSegments_of_plain h.plain]

theorem segments_ne_nil (rel : String) : segments rel ≠ [] := List.splitOnP_ne_nil _ _

/-! ## What Windows can hold -/

/-- Device names, with or without an extension. -/
def windowsReserved : List Segment :=
  ["CON", "PRN", "AUX", "NUL", "COM1", "COM2", "COM3", "COM4", "COM5", "COM6", "COM7", "COM8",
    "COM9", "LPT1", "LPT2", "LPT3", "LPT4", "LPT5", "LPT6", "LPT7", "LPT8", "LPT9"].map String.toList

/-- Why a name does not do on Windows. -/
inductive Violation where
  /-- ".. contains .., invalid in Windows file names" -/
  | character (seg : Segment) (ch : Char)
  /-- ".. ends with a dot or space, which Windows strips" -/
  | trimmed (seg : Segment)
  /-- ".. is a reserved Windows device name" -/
  | device (seg stem : Segment)

def invalidOnWindows (ch : Char) : Bool :=
  ['<', '>', ':', '"', '|', '?', '*'].contains ch || decide (ch.toNat < 32)

def segmentViolation (seg : Segment) : Option Violation :=
  match seg.find? invalidOnWindows with
  | some ch => some (.character seg ch)
  | none =>
      if seg.getLast? == some '.' || seg.getLast? == some ' ' then some (.trimmed seg)
      else
        let stem := seg.takeWhile (· != '.')
        if windowsReserved.any (eqIgnoreAsciiCase stem) then some (.device seg stem) else none

def portabilityViolation (rel : String) : Option Violation :=
  (segments rel).findSome? segmentViolation

end Tazamun
