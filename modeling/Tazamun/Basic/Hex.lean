import Tazamun.Lib.Text
import Mathlib.Data.Vector.Defs
import Mathlib.Tactic.IntervalCases

set_option autoImplicit false

/-! # Hexadecimal text

Keys in the state file and digests in file names are written with two hex digits for each
byte. Text is the list of its bytes.
-/

namespace Tazamun

/-- A digit of `{:X}`. -/
def hexUpper (n : Nat) : UInt8 := UInt8.ofNat (if n < 10 then 48 + n else 55 + n)

/-- A digit of `{:x}`. -/
def hexLower (n : Nat) : UInt8 := UInt8.ofNat (if n < 10 then 48 + n else 87 + n)

/-- `to_digit(16)`. -/
def toDigit16 (b : UInt8) : Option Nat :=
  if 48 ≤ b.toNat ∧ b.toNat ≤ 57 then some (b.toNat - 48)
  else if 97 ≤ b.toNat ∧ b.toNat ≤ 102 then some (b.toNat - 87)
  else if 65 ≤ b.toNat ∧ b.toNat ≤ 70 then some (b.toNat - 55)
  else none

/-- `HEXLOWER.encode`. -/
def hexEncode (bytes : List UInt8) : List UInt8 :=
  bytes.flatMap fun b => [hexLower (b.toNat / 16), hexLower (b.toNat % 16)]

/-- `HEXLOWER_PERMISSIVE.decode`: pairs of digits of either case. -/
def hexDecode : List UInt8 → Option (List UInt8)
  | [] => some []
  | [_] => none
  | hi :: lo :: rest =>
      match toDigit16 hi, toDigit16 lo with
      | some hi, some lo => (hexDecode rest).map fun out => UInt8.ofNat (hi * 16 + lo) :: out
      | _, _ => none

theorem toDigit16_hexUpper {n : Nat} (hn : n < 16) : toDigit16 (hexUpper n) = some n := by
  interval_cases n <;> decide

theorem byte_parts (b : UInt8) :
    b.toNat / 16 < 16 ∧ b.toNat % 16 < 16 ∧
      UInt8.ofNat (b.toNat / 16 * 16 + b.toNat % 16) = b := by
  have hb := b.toNat_lt
  have hsum : b.toNat / 16 * 16 + b.toNat % 16 = b.toNat := by omega
  refine ⟨by omega, by omega, ?_⟩
  rw [hsum, UInt8.ofNat_toNat]

theorem toDigit16_hexLower {n : Nat} (hn : n < 16) : toDigit16 (hexLower n) = some n := by
  interval_cases n <;> decide

theorem hexByte_prefixFree :
    Lib.PrefixFree fun b : UInt8 => [hexLower (b.toNat / 16), hexLower (b.toNat % 16)] := by
  constructor
  · intro b
    simp
  · intro a b hab
    rw [List.cons_prefix_cons, List.cons_prefix_cons] at hab
    obtain ⟨haHi, haLo, haSame⟩ := byte_parts a
    obtain ⟨hbHi, hbLo, hbSame⟩ := byte_parts b
    have hhi := congrArg toDigit16 hab.1
    have hlo := congrArg toDigit16 hab.2.1
    rw [toDigit16_hexLower haHi, toDigit16_hexLower hbHi, Option.some.injEq] at hhi
    rw [toDigit16_hexLower haLo, toDigit16_hexLower hbLo, Option.some.injEq] at hlo
    rw [← haSame, ← hbSame, hhi, hlo]

theorem hexDecode_hexEncode (bytes : List UInt8) : hexDecode (hexEncode bytes) = some bytes := by
  induction bytes with
  | nil => rfl
  | cons b bytes ih =>
      obtain ⟨hhi, hlo, hsame⟩ := byte_parts b
      have hcons : hexEncode (b :: bytes) =
          hexLower (b.toNat / 16) :: hexLower (b.toNat % 16) :: hexEncode bytes := rfl
      rw [hcons, hexDecode, toDigit16_hexLower hhi, toDigit16_hexLower hlo, ih]
      simp only [Option.map_some, hsame]

/-- Thirty-two bytes: a key, a digest or a secret. -/
abbrev Bytes32 : Type := List.Vector UInt8 32

def encodeHex32 (b : Bytes32) : List UInt8 := hexEncode b.toList

def decodeHex32 (s : List UInt8) : Option Bytes32 :=
  (hexDecode s).bind fun raw =>
    if h : raw.length = 32 then some (⟨raw, h⟩ : List.Vector UInt8 32) else none

theorem decodeHex32_encodeHex32 (b : Bytes32) : decodeHex32 (encodeHex32 b) = some b := by
  rw [decodeHex32, encodeHex32, hexDecode_hexEncode, Option.bind_some, dif_pos b.toList_length]
  rfl

end Tazamun
