import Tazamun.Conflicts.Stamp
import Tazamun.Basic.Hex
import Tazamun.Paths.Sanitize

set_option autoImplicit false

/-! # Names of quarantined copies

A quarantined copy of `rel` is called `<UTC-stamp>__<quarantine_name(rel)>` (`guard.rs`): the
percent-encoded path, or, beyond 180 bytes, its first 180 bytes, `---` and 16 hex digits of
the path's BLAKE3. `path_from_name` (`conflicts.rs`) reads the path back from such a name.
Names are the byte strings they are; the digest is a parameter.

Decoding undoes encoding for every string, and a name never yields a wrong path. But `---` is
allowed in a path too, and the decoder takes it for the mark of a truncated name: for such a
path it returns nothing although the name holds the whole path. This is the only exception
(**`pathFromName_iff`**).
-/

namespace Tazamun

abbrev Name : Type := List UInt8

/-- The bytes of a string. -/
def utf8 (s : String) : List UInt8 := s.toUTF8.data.toList

/-- `String::from_utf8(bytes).ok()`. -/
def fromUtf8 (bytes : List UInt8) : Option String := String.fromUTF8? ⟨bytes.toArray⟩

theorem fromUtf8_utf8 (s : String) : fromUtf8 (utf8 s) = some s := by
  have hbytes : (⟨(utf8 s).toArray⟩ : ByteArray) = s.toUTF8 := by simp [utf8]
  rw [fromUtf8, hbytes, String.fromUTF8?, String.toUTF8_eq_toByteArray, dif_pos s.isValidUTF8]
  rfl

theorem utf8_injective {s t : String} (h : utf8 s = utf8 t) : s = t := by
  have hread := fromUtf8_utf8 s
  rw [h, fromUtf8_utf8] at hread
  exact (Option.some.inj hread).symm

/-! ## Percent encoding -/

def percentSign : UInt8 := '%'.toUInt8
def dash : UInt8 := '-'.toUInt8
def dot : UInt8 := '.'.toUInt8
def underscore : UInt8 := '_'.toUInt8

/-- `[A-Za-z0-9._-]`. -/
def unreserved (b : UInt8) : Bool :=
  (decide ('A'.toUInt8 ≤ b) && decide (b ≤ 'Z'.toUInt8)) ||
    (decide ('a'.toUInt8 ≤ b) && decide (b ≤ 'z'.toUInt8)) ||
    (decide ('0'.toUInt8 ≤ b) && decide (b ≤ '9'.toUInt8)) ||
    b == dot || b == underscore || b == dash

def percentByte (b : UInt8) : List UInt8 :=
  if unreserved b then [b] else [percentSign, hexUpper (b.toNat / 16), hexUpper (b.toNat % 16)]

def percentEncode (s : String) : Name := (utf8 s).flatMap percentByte

/-- The loop over the bytes of an encoded string. -/
def decodeBytes : List UInt8 → Option (List UInt8)
  | [] => some []
  | b :: rest =>
      if b = percentSign then
        match rest with
        | hi :: lo :: rest =>
            match toDigit16 hi, toDigit16 lo with
            | some hi, some lo =>
                (decodeBytes rest).map fun out => UInt8.ofNat (hi * 16 + lo) :: out
            | _, _ => none
        | _ => none
      else (decodeBytes rest).map fun out => b :: out

def percentDecode (s : Name) : Option String := (decodeBytes s).bind fromUtf8

/-! ## Names -/

/-- A BLAKE3 digest. -/
abbrev Digest : Type := Bytes32

def maxEncoded : Nat := 180

/-- What stands for the rest of a path that is too long. -/
def elision (blake3 : List UInt8 → Digest) (rel : String) : Name :=
  List.replicate 3 dash ++ hexEncode ((blake3 (utf8 rel)).toList.take 8)

/-- The name without its stamp. An encoded path is ASCII, so it can be cut anywhere. -/
def quarantineName (blake3 : List UInt8 → Digest) (rel : String) : Name :=
  if (percentEncode rel).length ≤ maxEncoded then percentEncode rel
  else (percentEncode rel).take maxEncoded ++ elision blake3 rel

/-- `<UTC-timestamp>__<name>`. -/
def fileName (blake3 : List UInt8 → Digest) (rel : String) (now : Nat) : Name :=
  utcTimestamp now ++ ([underscore, underscore] ++ quarantineName blake3 rel)

def pathFromName (name : Name) : Option String :=
  match Lib.splitOnce [underscore, underscore] name with
  | none => none
  | some (_, encoded) =>
      if List.replicate 3 dash <:+: encoded then none else percentDecode encoded

/-! ## The code words -/

theorem unreserved_ne_percentSign {b : UInt8} (h : unreserved b = true) : b ≠ percentSign := by
  rintro rfl
  exact absurd h (by decide)

theorem hexUpper_range {n : Nat} (hn : n < 16) :
    hexUpper n ≠ percentSign ∧ hexUpper n ≠ dash ∧ hexUpper n ≠ dot ∧
      hexUpper n ≠ underscore := by
  interval_cases n <;> decide

/-- **Decoding undoes encoding**, one code word at a time. -/
theorem decodeBytes_percentByte (b : UInt8) (rest : List UInt8) :
    decodeBytes (percentByte b ++ rest) = (decodeBytes rest).map fun out => b :: out := by
  unfold percentByte
  by_cases hb : unreserved b = true
  · rw [if_pos hb, List.singleton_append, decodeBytes.eq_def]
    exact if_neg (unreserved_ne_percentSign hb)
  · obtain ⟨hhi, hlo, hsame⟩ := byte_parts b
    rw [if_neg hb]
    simp only [List.cons_append, List.nil_append, decodeBytes, if_true, toDigit16_hexUpper hhi,
      toDigit16_hexUpper hlo, hsame]

theorem decodeBytes_flatMap (bytes : List UInt8) :
    decodeBytes (bytes.flatMap percentByte) = some bytes := by
  induction bytes with
  | nil => rfl
  | cons b bytes ih =>
      rw [List.flatMap_cons, decodeBytes_percentByte, ih]
      rfl

theorem percentDecode_percentEncode (s : String) : percentDecode (percentEncode s) = some s := by
  rw [percentDecode, percentEncode, decodeBytes_flatMap]
  exact fromUtf8_utf8 s

theorem percentByte_prefixFree : Lib.PrefixFree percentByte := by
  constructor
  · intro b
    unfold percentByte
    split_ifs <;> simp
  · intro a b hab
    unfold percentByte at hab
    by_cases ha : unreserved a = true
    · by_cases hb : unreserved b = true
      · rw [if_pos ha, if_pos hb, List.cons_prefix_cons] at hab
        exact hab.1
      · rw [if_pos ha, if_neg hb, List.cons_prefix_cons] at hab
        exact absurd hab.1 (unreserved_ne_percentSign ha)
    · by_cases hb : unreserved b = true
      · rw [if_neg ha, if_pos hb, List.cons_prefix_cons] at hab
        exact absurd hab.1.symm (unreserved_ne_percentSign hb)
      · rw [if_neg ha, if_neg hb, List.cons_prefix_cons, List.cons_prefix_cons,
          List.cons_prefix_cons] at hab
        obtain ⟨-, hhi, hlo, -⟩ := hab
        obtain ⟨haHi, haLo, haSame⟩ := byte_parts a
        obtain ⟨hbHi, hbLo, hbSame⟩ := byte_parts b
        have hhi' := congrArg toDigit16 hhi
        have hlo' := congrArg toDigit16 hlo
        rw [toDigit16_hexUpper haHi, toDigit16_hexUpper hbHi, Option.some.injEq] at hhi'
        rw [toDigit16_hexUpper haLo, toDigit16_hexUpper hbLo, Option.some.injEq] at hlo'
        rw [← haSame, ← hbSame, hhi', hlo']

/-- The punctuation that encoding leaves alone. -/
theorem standsFor_percentByte {c : UInt8} (hc : unreserved c = true)
    (hhex : ∀ n < 16, hexUpper n ≠ c) : Lib.StandsFor percentByte c c := by
  constructor
  · rw [percentByte, if_pos hc]
  · intro b hb
    refine ⟨percentByte_prefixFree.nonempty b, ?_⟩
    unfold percentByte
    by_cases hu : unreserved b = true
    · rw [if_pos hu]
      simp [hb.symm]
    · obtain ⟨hhi, hlo, -⟩ := byte_parts b
      rw [if_neg hu]
      simp only [List.mem_cons, List.not_mem_nil, or_false, not_or]
      exact ⟨unreserved_ne_percentSign hc, (hhex _ hhi).symm, (hhex _ hlo).symm⟩

theorem dash_standsFor : Lib.StandsFor percentByte dash dash :=
  standsFor_percentByte (by decide) fun _ hn => (hexUpper_range hn).2.1

theorem dot_standsFor : Lib.StandsFor percentByte dot dot :=
  standsFor_percentByte (by decide) fun _ hn => (hexUpper_range hn).2.2.1

/-- A run of dashes is in the encoded path exactly when it is in the path. -/
theorem dashes_percentEncode (k : Nat) (rel : String) :
    List.replicate k dash <:+: percentEncode rel ↔ List.replicate k dash <:+: utf8 rel :=
  Lib.replicate_infix_flatMap_iff dash_standsFor k

theorem dots_percentEncode (k : Nat) (rel : String) :
    List.replicate k dot <:+: percentEncode rel ↔ List.replicate k dot <:+: utf8 rel :=
  Lib.replicate_infix_flatMap_iff dot_standsFor k

/-! ## Reading a name back -/

theorem underscore_notMem_stamp (now : Nat) : underscore ∉ utcTimestamp now := by
  intro hmem
  rcases stampOf_bytes hmem with h | h | h
  · exact absurd h (by decide)
  · exact absurd h (by decide)
  · exact absurd h (by decide)

/-- The stamp ends at the first double underscore. -/
theorem splitOnce_fileName (blake3 : List UInt8 → Digest) (rel : String) (now : Nat) :
    Lib.splitOnce [underscore, underscore] (fileName blake3 rel now) =
      some (utcTimestamp now, quarantineName blake3 rel) := by
  have hcut := Lib.splitOnce_append underscore [underscore] (quarantineName blake3 rel)
    (underscore_notMem_stamp now)
  rw [fileName]
  exact hcut

theorem pathFromName_of_split {name stamp encoded : Name}
    (h : Lib.splitOnce [underscore, underscore] name = some (stamp, encoded)) :
    pathFromName name =
      if List.replicate 3 dash <:+: encoded then none else percentDecode encoded := by
  rw [pathFromName, h]

theorem pathFromName_fileName (blake3 : List UInt8 → Digest) (rel : String) (now : Nat) :
    pathFromName (fileName blake3 rel now) =
      if List.replicate 3 dash <:+: quarantineName blake3 rel then none
      else percentDecode (quarantineName blake3 rel) :=
  pathFromName_of_split (splitOnce_fileName blake3 rel now)

/-- What reading the name of a copy back should give: the path if the name holds all of it. -/
def ReadsBack (blake3 : List UInt8 → Digest) (rel : String) (now : Nat) : Prop :=
  pathFromName (fileName blake3 rel now) =
    if (percentEncode rel).length ≤ maxEncoded then some rel else none

/-- **Encoding and names.** Decoding undoes encoding for every string; a name reads back as it
should exactly when it was truncated or the path has no three dashes in a row. -/
theorem pathFromName_iff (blake3 : List UInt8 → Digest) :
    (∀ s, percentDecode (percentEncode s) = some s) ∧
      ∀ rel now, ReadsBack blake3 rel now ↔
        maxEncoded < (percentEncode rel).length ∨ ¬ List.replicate 3 dash <:+: utf8 rel := by
  refine ⟨percentDecode_percentEncode, fun rel now => ?_⟩
  rw [ReadsBack, pathFromName_fileName]
  by_cases hlen : (percentEncode rel).length ≤ maxEncoded
  · have hname : quarantineName blake3 rel = percentEncode rel := if_pos hlen
    have hnot : ¬ maxEncoded < (percentEncode rel).length := by omega
    simp only [if_pos hlen, hname, dashes_percentEncode, percentDecode_percentEncode, hnot,
      false_or]
    by_cases hdash : List.replicate 3 dash <:+: utf8 rel
    · simp
    · simp
  · -- a truncated name has its mark
    have hmark : List.replicate 3 dash <:+: quarantineName blake3 rel := by
      rw [quarantineName, if_neg hlen, elision]
      exact ⟨(percentEncode rel).take maxEncoded, _, by rw [List.append_assoc]⟩
    rw [if_neg hlen, if_pos hmark]
    simp only [true_iff]
    omega

/-- A name never yields a wrong path. -/
theorem pathFromName_never_wrong (blake3 : List UInt8 → Digest) {rel path : String} {now : Nat}
    (h : pathFromName (fileName blake3 rel now) = some path) : path = rel := by
  by_cases hright : maxEncoded < (percentEncode rel).length ∨
      ¬ List.replicate 3 dash <:+: utf8 rel
  · have hback := ((pathFromName_iff blake3).2 rel now).mpr hright
    rw [ReadsBack, h] at hback
    split at hback
    · exact Option.some.inj hback
    · cases hback
  · push Not at hright
    have hname : quarantineName blake3 rel = percentEncode rel := if_pos hright.1
    rw [pathFromName_fileName, hname, if_pos ((dashes_percentEncode 3 rel).mpr hright.2)] at h
    cases h

/-- A path of a few bytes with three dashes in it: no digest makes its name readable. -/
theorem pathFromName_dashes :
    ¬ ∃ blake3, ∀ rel now, sanitizeRelPath rel = .ok rel → ReadsBack blake3 rel now := by
  rintro ⟨blake3, h⟩
  have hrel : sanitizeRelPath "a---b" = .ok "a---b" := by decide +kernel
  rcases ((pathFromName_iff blake3).2 "a---b" 0).mp (h "a---b" 0 hrel) with hlong | hdash
  · exact absurd hlong (by decide +kernel)
  · exact absurd hdash (by decide +kernel)

/-! ## Equal names -/

theorem length_elision (blake3 : List UInt8 → Digest) (rel : String) :
    (elision blake3 rel).length = 19 := by
  simp [elision, hexEncode]

theorem percentEncode_injective {rel rel' : String} (h : percentEncode rel = percentEncode rel') :
    rel = rel' :=
  utf8_injective (Lib.flatMap_injective percentByte_prefixFree h)

/-- Two paths with one name: they are the same, or both are too long, agree in what the name
shows of them and in the first eight bytes of their digests. -/
def SameName (blake3 : List UInt8 → Digest) (rel rel' : String) : Prop :=
  rel = rel' ∨
    (maxEncoded < (percentEncode rel).length ∧ maxEncoded < (percentEncode rel').length ∧
      (percentEncode rel).take maxEncoded = (percentEncode rel').take maxEncoded ∧
      (blake3 (utf8 rel)).toList.take 8 = (blake3 (utf8 rel')).toList.take 8)

theorem length_quarantineName (blake3 : List UInt8 → Digest) (rel : String) :
    (quarantineName blake3 rel).length =
      if (percentEncode rel).length ≤ maxEncoded then (percentEncode rel).length else 199 := by
  unfold quarantineName
  split_ifs with hlen
  · rfl
  · rw [List.length_append, length_elision, List.length_take]
    have hmax : maxEncoded = 180 := rfl
    omega

theorem quarantineName_eq_iff {blake3 : List UInt8 → Digest} {rel rel' : String} :
    quarantineName blake3 rel = quarantineName blake3 rel' ↔ SameName blake3 rel rel' := by
  have hmax : maxEncoded = 180 := rfl
  constructor
  · intro h
    have hlength := congrArg List.length h
    rw [length_quarantineName, length_quarantineName] at hlength
    by_cases hlen : (percentEncode rel).length ≤ maxEncoded
    · by_cases hlen' : (percentEncode rel').length ≤ maxEncoded
      · rw [quarantineName, quarantineName, if_pos hlen, if_pos hlen'] at h
        exact .inl (percentEncode_injective h)
      · rw [if_pos hlen, if_neg hlen'] at hlength
        omega
    · by_cases hlen' : (percentEncode rel').length ≤ maxEncoded
      · rw [if_neg hlen, if_pos hlen'] at hlength
        omega
      · rw [quarantineName, quarantineName, if_neg hlen, if_neg hlen'] at h
        obtain ⟨hshown, helision⟩ := List.append_inj' h (by rw [length_elision, length_elision])
        have hdigest := List.append_cancel_left helision
        exact .inr ⟨by omega, by omega, hshown, Lib.flatMap_injective hexByte_prefixFree hdigest⟩
  · rintro (rfl | ⟨hlen, hlen', hshown, hdigest⟩)
    · rfl
    · rw [quarantineName, quarantineName, if_neg (by omega), if_neg (by omega), hshown, elision,
        elision, hdigest]

/-- **Two copies share a file exactly when they were made in the same millisecond under the
same name.** -/
theorem fileName_eq_iff {blake3 : List UInt8 → Digest} {rel rel' : String} {now now' : Nat} :
    fileName blake3 rel now = fileName blake3 rel' now' ↔
      now = now' ∧ SameName blake3 rel rel' := by
  constructor
  · intro h
    have hcut := splitOnce_fileName blake3 rel now
    rw [h, splitOnce_fileName, Option.some.injEq, Prod.mk.injEq] at hcut
    exact ⟨(utcTimestamp_injective hcut.1).symm, quarantineName_eq_iff.mp hcut.2.symm⟩
  · rintro ⟨rfl, hname⟩
    rw [fileName, fileName, quarantineName_eq_iff.mpr hname]

/-! ## Names that begin alike -/

/-- The encoded path of a name that was not truncated begins another name exactly when its
path begins the other path. -/
theorem quarantineName_prefix_iff {blake3 : List UInt8 → Digest} {rel rel' : String} :
    quarantineName blake3 rel <+: quarantineName blake3 rel' ↔
      SameName blake3 rel rel' ∨
        ((percentEncode rel).length ≤ maxEncoded ∧ utf8 rel <+: utf8 rel') := by
  have hmax : maxEncoded = 180 := rfl
  have henc : percentEncode rel <+: percentEncode rel' ↔ utf8 rel <+: utf8 rel' :=
    Lib.flatMap_prefix_iff percentByte_prefixFree
  have hshown : (percentEncode rel').take maxEncoded <+: percentEncode rel' :=
    List.take_prefix _ _
  constructor
  · intro h
    have hlength := h.length_le
    rw [length_quarantineName, length_quarantineName] at hlength
    by_cases hlen : (percentEncode rel).length ≤ maxEncoded
    · refine .inr ⟨hlen, henc.mp ?_⟩
      have hname : quarantineName blake3 rel = percentEncode rel := if_pos hlen
      rw [hname] at h
      by_cases hlen' : (percentEncode rel').length ≤ maxEncoded
      · rwa [quarantineName, if_pos hlen'] at h
      · rw [quarantineName, if_neg hlen'] at h
        refine (List.prefix_of_prefix_length_le h (List.prefix_append _ _) ?_).trans hshown
        rw [List.length_take]
        omega
    · left
      rw [if_neg hlen] at hlength
      refine quarantineName_eq_iff.mp (h.eq_of_length ?_)
      rw [length_quarantineName, length_quarantineName, if_neg hlen]
      split_ifs at hlength ⊢ <;> omega
  · rintro (hsame | ⟨hlen, hpre⟩)
    · rw [quarantineName_eq_iff.mpr hsame]
    · have hname : quarantineName blake3 rel = percentEncode rel := if_pos hlen
      rw [hname]
      by_cases hlen' : (percentEncode rel').length ≤ maxEncoded
      · rw [quarantineName, if_pos hlen']
        exact henc.mpr hpre
      · rw [quarantineName, if_neg hlen']
        refine (List.prefix_of_prefix_length_le (henc.mpr hpre) hshown ?_).trans
          (List.prefix_append _ _)
        rw [List.length_take]
        omega

theorem fileName_prefix_iff {blake3 : List UInt8 → Digest} {rel rel' : String} {now now' : Nat} :
    fileName blake3 rel now <+: fileName blake3 rel' now' ↔
      now = now' ∧ quarantineName blake3 rel <+: quarantineName blake3 rel' := by
  constructor
  · rintro ⟨rest, hrest⟩
    have hcut := Lib.splitOnce_append underscore [underscore] (quarantineName blake3 rel ++ rest)
      (underscore_notMem_stamp now)
    have hname : utcTimestamp now ++ (underscore :: [underscore] ++
        (quarantineName blake3 rel ++ rest)) = fileName blake3 rel' now' := by
      rw [← hrest, fileName]
      simp only [List.append_assoc, List.cons_append, List.nil_append]
    rw [hname, splitOnce_fileName, Option.some.injEq, Prod.mk.injEq] at hcut
    exact ⟨(utcTimestamp_injective hcut.1).symm, rest, hcut.2.symm⟩
  · rintro ⟨rfl, rest, hrest⟩
    refine ⟨rest, ?_⟩
    rw [fileName, fileName, ← hrest]
    simp only [List.append_assoc]

end Tazamun
