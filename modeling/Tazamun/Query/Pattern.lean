import Tazamun.Lib.Glob
import Tazamun.Paths.Sanitize

set_option autoImplicit false

/-! # The patterns of a file query

A file query of the daemon has a pattern (`compile_pattern`). Without wildcards it asks for the
paths that contain it; with `*` or `?` it is a glob for the whole path. Pattern and path are
folded, so that case does not matter: scalar by scalar, or byte by byte when both are ASCII.
The lowercase mapping of Unicode is a parameter (`lower`).

`glob_match` keeps two positions, one in the pattern and one in the path, and goes back to the
last star when they disagree. It compares the pattern with the path before it asks whether the
pattern has a star there, so a `*` of the pattern that meets a `*` of the path is taken for
that character (`Lib.Itself`), and the matcher does not come back to it.
`matches_exact_iff` says when this makes a difference.
-/

namespace Tazamun

/-! ## Folding -/

def isAscii (s : List Char) : Bool := s.all fun c => decide (c.toNat < 128)

/-- `str::bytes`. -/
def bytes (s : List Char) : List UInt8 := s.flatMap String.utf8EncodeChar

/-- `u8::to_ascii_lowercase`. -/
def toAsciiLowercase (b : UInt8) : UInt8 := if 65 ≤ b ∧ b ≤ 90 then b + 32 else b

/-- Case-folds one scalar; a lowering to several scalars folds to the first. -/
def fold (lower : Char → List Char) (c : Char) : Char :=
  if c.toNat < 128 then c.toLower else (lower c).head?.getD c

def foldChars (lower : Char → List Char) (path : List Char) : List Char := path.map (fold lower)

def foldBytes (path : List Char) : List UInt8 := (bytes path).map toAsciiLowercase

/-- A folded pattern, in scalars and, when it is ASCII, in bytes. -/
structure Folded where
  chars : List Char
  ascii : Option (List UInt8)
deriving DecidableEq

def Folded.new (lower : Char → List Char) (pattern : List Char) : Folded :=
  { chars := foldChars lower pattern
    ascii := if isAscii pattern then some (foldBytes pattern) else none }

/-! ## Matching -/

section Matchers

variable {α : Type} [DecidableEq α]

/-- The scan of `contains_folded` from `start` on; `fuel` places are looked at. -/
def containsFrom (hay needle : List α) : Nat → Nat → Bool
  | 0, _ => false
  | fuel + 1, start =>
      if hay[start]? = needle.head? ∧ (hay.drop start).take needle.length = needle then true
      else containsFrom hay needle fuel (start + 1)

def containsFolded (hay needle : List α) : Bool :=
  if needle.isEmpty then true
  else if hay.length < needle.length then false
  else containsFrom hay needle (hay.length - needle.length + 1) 0

/-- The positions of the glob loop, and its backtrack mark: the last star, and how much of the
text it has taken. -/
structure GlobState where
  p : Nat
  i : Nat
  lastStar : Option Nat
  mark : Nat

/-- One round of the glob loop at the element `c` of the text; `none`: there is no match. -/
def globStep (pat : List α) (star question c : α) (st : GlobState) : Option GlobState :=
  if pat[st.p]?.any (fun x => decide (x = question ∨ x = c)) then
    some { st with p := st.p + 1, i := st.i + 1 }
  else if pat[st.p]? = some star then
    some { p := st.p + 1, i := st.i, lastStar := some st.p, mark := st.i }
  else
    match st.lastStar with
    | some l => some { p := l + 1, i := st.mark + 1, lastStar := some l, mark := st.mark + 1 }
    | none => none

/-- The stars after the end of the text are skipped. -/
def skipStars (pat : List α) (star : α) (p : Nat) : Nat :=
  p + ((pat.drop p).takeWhile fun x => decide (x = star)).length

/-- The loop; without fuel it has no answer. -/
def globLoop (pat s : List α) (star question : α) : Nat → GlobState → Option Bool
  | 0, _ => none
  | fuel + 1, st =>
      match s[st.i]? with
      | none => some (decide (skipStars pat star st.p = pat.length))
      | some c =>
          match globStep pat star question c st with
          | some st' => globLoop pat s star question fuel st'
          | none => some false

def GlobState.start : GlobState := { p := 0, i := 0, lastStar := none, mark := 0 }

/-- `glob_match`, with as many rounds as it can need. -/
def globMatch (pat s : List α) (star question : α) : Option Bool :=
  globLoop pat s star question ((s.length + 1) * (pat.length + 1)) .start

end Matchers

inductive PathMatcher where
  | all
  | substring (folded : Folded)
  | glob (folded : Folded)
deriving DecidableEq

/-- `matches_with`: the byte form serves an ASCII pattern and an ASCII path. -/
def PathMatcher.matchesWith (lower : Char → List Char) (m : PathMatcher) (path : List Char) :
    Option Bool :=
  match m with
  | .all => some true
  | .substring pat =>
      match pat.ascii, isAscii path with
      | some needle, true => some (containsFolded (foldBytes path) needle)
      | _, _ => some (containsFolded (foldChars lower path) pat.chars)
  | .glob pat =>
      match pat.ascii, isAscii path with
      | some needle, true => globMatch needle (foldBytes path) 42 63
      | _, _ => globMatch pat.chars (foldChars lower path) '*' '?'

/-! ## Compiling a pattern -/

def queryPatternMax : Nat := 256
def queryPatternWildcardsMax : Nat := 16

inductive QueryError where
  | patternTooLong
  | tooManyWildcards
  | nul
  | backslash
  | absolute
  | driveLetter
  | badSegment
  | reserved
  | badSort (key : String)
deriving DecidableEq

def QueryError.code : QueryError → String
  | .badSort _ => "bad_request"
  | _ => "bad_pattern"

/-- `char::is_whitespace`. -/
def isWhitespace (c : Char) : Bool :=
  (9 ≤ c.toNat && c.toNat ≤ 13) || c.toNat == 0x20 || c.toNat == 0x85 || c.toNat == 0xA0 ||
    c.toNat == 0x1680 || (0x2000 ≤ c.toNat && c.toNat ≤ 0x200A) || c.toNat == 0x2028 ||
    c.toNat == 0x2029 || c.toNat == 0x202F || c.toNat == 0x205F || c.toNat == 0x3000

/-- `str::trim`. -/
def trim (s : List Char) : List Char := (s.dropWhile isWhitespace).rdropWhile isWhitespace

theorem isWhitespace_of_range {c : Char} (h : 48 ≤ c.toNat ∧ c.toNat ≤ 122) :
    isWhitespace c = false := by
  simp only [isWhitespace, Bool.or_eq_false_iff, Bool.and_eq_false_iff, decide_eq_false_iff_not,
    beq_eq_false_iff_ne]
  omega

theorem trim_surrounded {before core after : List Char} (hbefore : ∀ c ∈ before, isWhitespace c)
    (hafter : ∀ c ∈ after, isWhitespace c) (hcore : ∀ c ∈ core, isWhitespace c = false) :
    trim (before ++ core ++ after) = core := by
  have hfirst : (before ++ (core ++ after)).dropWhile isWhitespace
      = (core ++ after).dropWhile isWhitespace := List.dropWhile_append_of_pos hbefore
  have hlast : ((core ++ after).rdropWhile isWhitespace) = core := by
    rw [List.rdropWhile, List.reverse_append,
      List.dropWhile_append_of_pos fun c hc => hafter c (List.mem_reverse.mp hc)]
    rw [List.dropWhile_eq_self_iff.mpr fun hlen => ?_, List.reverse_reverse]
    rw [hcore _ (List.mem_reverse.mp (List.getElem_mem hlen))]
    exact Bool.false_ne_true
  rw [trim, List.append_assoc, hfirst]
  cases core with
  | nil =>
      have hnone : after.dropWhile isWhitespace = [] := List.dropWhile_eq_nil_iff.mpr hafter
      rw [List.nil_append, hnone]
      rfl
  | cons c core =>
      have hc := hcore c List.mem_cons_self
      rw [List.cons_append, List.dropWhile_cons_of_neg (by rw [hc]; exact Bool.false_ne_true)]
      exact hlast

/-- The loop over the names of a pattern. -/
def checkPatternSegments : List Segment → Except QueryError Unit
  | [] => .ok ()
  | seg :: rest =>
      if seg == ['.'] || seg == ['.', '.'] then .error .badSegment
      else if eqIgnoreAsciiCase seg metaDir then .error .reserved
      else checkPatternSegments rest

def isWildcard (c : Char) : Bool := c == '*' || c == '?'

def wildcards (pattern : List Char) : Nat := (pattern.filter isWildcard).length

/-- Validates an untrusted pattern and compiles it. -/
def compilePattern (lower : Char → List Char) (raw : List Char) :
    Except QueryError PathMatcher :=
  let pattern := trim raw
  if pattern.isEmpty then .ok .all
  else if queryPatternMax < pattern.length then .error .patternTooLong
  else if pattern.contains (Char.ofNat 0) then .error .nul
  else if startsWithDrive pattern then .error .driveLetter
  else if pattern.contains '\\' then .error .backslash
  else if pattern.head? == some '/' then .error .absolute
  else
    match checkPatternSegments (pattern.splitOn '/') with
    | .error e => .error e
    | .ok () =>
        if queryPatternWildcardsMax < wildcards pattern then .error .tooManyWildcards
        else
          let folded := Folded.new lower pattern
          if wildcards pattern = 0 then .ok (.substring folded) else .ok (.glob folded)

end Tazamun
