import Tazamun.Lib.Lines
import Tazamun.Query.Pattern

set_option autoImplicit false

/-! # Text files

A file holds bytes; `read_to_string` makes a text of them if they are UTF-8. A newline is one
byte in UTF-8 and occurs in no other character's bytes, so a text and its bytes have the same
lines (`splitInclusive_bytes`).
-/

namespace Tazamun

open Lib (splitInclusive splitInclusive_flatMap complete isEnded isEnded_append_newline
  length_complete)

/-- The text of a file, if it is UTF-8. -/
def readToString (file : List UInt8) : Option (List Char) :=
  (String.fromUTF8? ⟨file.toArray⟩).map String.toList

/-- The byte of a newline. -/
def newline : UInt8 := 10

theorem toByteArray_data (s : String) : s.toByteArray.data.toList = bytes s.toList := by
  obtain ⟨l, rfl⟩ : ∃ l, s = String.ofList l := ⟨s.toList, String.ofList_toList.symm⟩
  rw [String.toList_ofList, bytes]
  show (List.utf8Encode l).data.toList = _
  simp [List.utf8Encode]

/-- **A file is read as the text whose bytes it holds.** -/
theorem readToString_eq_some {file : List UInt8} {text : List Char} :
    readToString file = some text ↔ bytes text = file := by
  constructor
  · intro h
    rw [readToString, Option.map_eq_some_iff] at h
    obtain ⟨s, hs, rfl⟩ := h
    rw [String.fromUTF8?] at hs
    split at hs
    · cases hs
      exact (toByteArray_data _).symm
    · cases hs
  · rintro rfl
    have hdata : (String.ofList text).toByteArray = ⟨(bytes text).toArray⟩ := by
      have h := toByteArray_data (String.ofList text)
      rw [String.toList_ofList] at h
      rw [← h]
    rw [readToString, String.fromUTF8?, ← hdata, dif_pos (String.ofList text).isValidUTF8,
      Option.map_some]
    exact congrArg some (String.toList_ofList)

theorem ofNat_ne_newline {n : Nat} (h : 128 ≤ n) (h' : n < 256) : newline ≠ UInt8.ofNat n := by
  intro heq
  have hn := congrArg UInt8.toNat heq
  rw [UInt8.toNat_ofNat', Nat.mod_eq_of_lt h'] at hn
  have hten : newline.toNat = 10 := rfl
  omega

/-- **Only a newline has the byte of a newline.** -/
theorem newline_mem_utf8 {c : Char} : newline ∈ String.utf8EncodeChar c ↔ c = '\n' := by
  constructor
  · intro h
    have hten : newline.toNat = 10 := rfl
    unfold String.utf8EncodeChar at h
    dsimp only at h
    split at h
    · rename_i hascii
      rw [List.mem_singleton] at h
      have hn := congrArg UInt8.toNat h
      rw [UInt8.toNat_ofNat', Nat.mod_eq_of_lt (by omega)] at hn
      exact Char.ext (UInt32.toNat_inj.mp (hn.symm.trans hten))
    -- the bytes of every other character are from 128 on
    · split at h
      · simp only [List.mem_cons, List.not_mem_nil, or_false] at h
        rcases h with h | h
        · exact absurd h (ofNat_ne_newline (by omega) (by omega))
        · exact absurd h (ofNat_ne_newline (by omega) (by omega))
      · split at h
        · simp only [List.mem_cons, List.not_mem_nil, or_false] at h
          rcases h with h | h | h
          · exact absurd h (ofNat_ne_newline (by omega) (by omega))
          · exact absurd h (ofNat_ne_newline (by omega) (by omega))
          · exact absurd h (ofNat_ne_newline (by omega) (by omega))
        · simp only [List.mem_cons, List.not_mem_nil, or_false] at h
          rcases h with h | h | h | h
          · exact absurd h (ofNat_ne_newline (by omega) (by omega))
          · exact absurd h (ofNat_ne_newline (by omega) (by omega))
          · exact absurd h (ofNat_ne_newline (by omega) (by omega))
          · exact absurd h (ofNat_ne_newline (by omega) (by omega))
  · rintro rfl
    decide

/-- **A text and its bytes have the same lines.** -/
theorem splitInclusive_bytes (text : List Char) :
    splitInclusive newline (bytes text) = (splitInclusive '\n' text).map bytes := by
  have hnl : String.utf8EncodeChar '\n' = [newline] := by decide
  have hother : ∀ c, c ≠ '\n' →
      newline ∉ String.utf8EncodeChar c ∧ String.utf8EncodeChar c ≠ [] :=
    fun _ hc => ⟨fun h => hc (newline_mem_utf8.mp h), String.utf8EncodeChar_ne_nil⟩
  exact splitInclusive_flatMap hnl hother text

theorem isEnded_bytes (line : List Char) :
    isEnded newline (bytes line) = isEnded '\n' line := by
  rcases List.eq_nil_or_concat' line with rfl | ⟨before, c, rfl⟩
  · rfl
  · by_cases hc : c = '\n'
    · subst hc
      rw [isEnded_append_newline, bytes, List.flatMap_append]
      exact isEnded_append_newline _
    · have hline : isEnded '\n' (before ++ [c]) = false := by
        rw [isEnded, List.getLast?_concat]
        exact beq_eq_false_iff_ne.mpr fun h => hc (Option.some.inj h)
      rw [hline, isEnded, beq_eq_false_iff_ne, bytes, List.flatMap_append, List.flatMap_singleton,
        List.getLast?_append_of_ne_nil _ String.utf8EncodeChar_ne_nil]
      exact fun h => hc (newline_mem_utf8.mp (List.mem_of_getLast? h))

theorem complete_bytes (text : List Char) :
    complete newline (bytes text) = (complete '\n' text).map bytes := by
  rw [complete, splitInclusive_bytes, List.filter_map, complete]
  refine congrArg (List.map bytes) (List.filter_congr fun line _ => ?_)
  exact isEnded_bytes line

theorem bytes_flatten (lines : List (List Char)) :
    bytes lines.flatten = (lines.map bytes).flatten := by
  induction lines with
  | nil => rfl
  | cons line lines ih =>
      rw [List.flatten_cons, List.map_cons, List.flatten_cons, ← ih]
      exact List.flatMap_append

theorem count_bytes (text : List Char) : (bytes text).count newline = text.count '\n' := by
  rw [← length_complete, complete_bytes, List.length_map, length_complete]

end Tazamun
