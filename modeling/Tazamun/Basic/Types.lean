import Mathlib

set_option autoImplicit false

/-! # Machine types and constants

The daemon counts with `u64`s and keeps its tables in ordered maps. A `u64` is a residue
modulo `2 ^ 64`, so `+` wraps as it does in a release build; where the code saturates it
says so, and so does the model (`saturatingSucc`). Maps are the extensional tree maps of the
standard library: two maps are equal exactly when they have the same entries, which is what
the derived `PartialEq` of a `BTreeMap` compares.

Times are natural numbers of milliseconds. `Instant`s are only ever compared and added to,
so their origin does not matter.
-/

namespace Tazamun

abbrev U64 : Type := Fin (2 ^ 64)

instance u64NeZero : NeZero (2 ^ 64) := ⟨by decide⟩

instance u64LawfulBEq : LawfulBEq U64 := inferInstance

/-- `u64::MAX`. -/
def U64.max : U64 := Fin.last _

/-- `x.saturating_add(1)`. -/
def saturatingSucc (x : U64) : U64 := if x = U64.max then x else x + 1

theorem saturatingSucc_max : saturatingSucc U64.max = U64.max := by
  simp [saturatingSucc]

theorem lt_saturatingSucc {x : U64} (h : x ≠ U64.max) : x < saturatingSucc x := by
  rw [saturatingSucc, if_neg h]
  exact Fin.lt_add_one_iff.mpr (lt_of_le_of_ne (Fin.le_last x) h)

theorem le_saturatingSucc (x : U64) : x ≤ saturatingSucc x := by
  by_cases h : x = U64.max
  · rw [h, saturatingSucc_max]
  · exact (lt_saturatingSucc h).le

/-! The order of keys is lawful; found once, these need not be looked for at every map. -/

instance keyTransCmp {κ : Type} [LinearOrder κ] :
    Std.TransCmp (compare : κ → κ → Ordering) := inferInstance

instance keyLawfulEqCmp {κ : Type} [LinearOrder κ] :
    Std.LawfulEqCmp (compare : κ → κ → Ordering) := inferInstance

instance stampedTransOrd {κ : Type} [LinearOrder κ] : Std.TransOrd (U64 ×ₗ κ) := inferInstance

/-- An ordered map (`BTreeMap`). -/
abbrev Map (κ ν : Type) [Ord κ] : Type := Std.ExtTreeMap κ ν compare

namespace Map

variable {κ ν : Type} [LinearOrder κ]

theorem get_insert (m : Map κ ν) (k a : κ) (v : ν) :
    (m.insert k v)[a]? = if k = a then some v else m[a]? := by
  simp [Std.ExtTreeMap.getElem?_insert]

@[simp] theorem get_insert_self (m : Map κ ν) (k : κ) (v : ν) : (m.insert k v)[k]? = some v := by
  rw [get_insert, if_pos rfl]

theorem get_insert_ne (m : Map κ ν) {k a : κ} (v : ν) (h : k ≠ a) :
    (m.insert k v)[a]? = m[a]? := by
  rw [get_insert, if_neg h]

theorem get_erase (m : Map κ ν) (k a : κ) :
    (m.erase k)[a]? = if k = a then none else m[a]? := by
  simp [Std.ExtTreeMap.getElem?_erase]

@[simp] theorem get_erase_self (m : Map κ ν) (k : κ) : (m.erase k)[k]? = none := by
  rw [get_erase, if_pos rfl]

theorem get_erase_ne (m : Map κ ν) {k a : κ} (h : k ≠ a) : (m.erase k)[a]? = m[a]? := by
  rw [get_erase, if_neg h]

theorem contains_eq (m : Map κ ν) (k : κ) : m.contains k = m[k]?.isSome :=
  Std.ExtTreeMap.contains_eq_isSome_getElem?

theorem get_eq_none {m : Map κ ν} {k : κ} (h : m.contains k = false) : m[k]? = none := by
  rw [contains_eq] at h
  exact Option.isSome_eq_false_iff.mp h |> Option.isNone_iff_eq_none.mp

theorem contains_of_get {m : Map κ ν} {k : κ} {v : ν} (h : m[k]? = some v) :
    m.contains k = true := by
  rw [contains_eq, h]
  rfl

theorem contains_insert_iff {m : Map κ ν} {k a : κ} {v : ν} :
    (m.insert k v).contains a = true ↔ k = a ∨ m.contains a = true := by
  rw [contains_eq, contains_eq, get_insert]
  split
  · rename_i h
    simp [h]
  · rename_i h
    simp [h]

theorem contains_erase_iff {m : Map κ ν} {k a : κ} :
    (m.erase k).contains a = true ↔ k ≠ a ∧ m.contains a = true := by
  rw [contains_eq, contains_eq, get_erase]
  split
  · rename_i h
    simp [h]
  · rename_i h
    simp [h]

/-- An entry that is overwritten leaves the number of entries as it is. -/
theorem size_insert_of_get {m : Map κ ν} {k : κ} {v : ν} (h : m[k]? = some v) (w : ν) :
    (m.insert k w).size = m.size := by
  rw [Std.ExtTreeMap.size_insert, if_pos (contains_of_get h)]

theorem size_erase_lt {m : Map κ ν} {k : κ} {v : ν} (h : m[k]? = some v) :
    (m.erase k).size < m.size := by
  have hin := contains_of_get h
  have hpos : 0 < m.size := by
    by_contra hzero
    obtain rfl : m = ∅ := Std.ExtTreeMap.eq_empty_iff_size_eq_zero.mpr (by omega)
    simp at hin
  rw [Std.ExtTreeMap.size_erase, if_pos hin]
  omega

theorem mem_toList {m : Map κ ν} {k : κ} {v : ν} : (k, v) ∈ m.toList ↔ m[k]? = some v :=
  Std.ExtTreeMap.mem_toList_iff_getElem?_eq_some

end Map

/-! ## Constants (`lib.rs`) -/

/-- Bounds on a lease TTL, in milliseconds: 10 s and 24 h. -/
def minLeaseTtl : Nat := 10000
def maxLeaseTtl : Nat := 86400000

/-- Most paths the lock table tracks. -/
def maxTrackedLeases : Nat := 4096

end Tazamun
