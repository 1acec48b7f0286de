import Mathlib.Tactic

set_option autoImplicit false

/-! # Base 32

Bytes as text with thirty-two characters: the bits of the bytes, the highest first, are cut into
groups of five, and each group is the place of a character in `A`–`Z`, `2`–`7`. The last group
is filled up with zero bits, and nothing else is written behind it.

Reading such a text refuses a character that is not of the alphabet, a length that no bytes
have, and fill bits that are not zero.

The first two sections are about bits and groups of any width.
-/

namespace Lib

/-! ## Numbers as bits -/

/-- The low `w` bits of a number, the highest first. -/
def toBits : Nat → Nat → List Bool
  | 0, _ => []
  | w + 1, n => n.testBit w :: toBits w n

def ofBits : List Bool → Nat
  | [] => 0
  | b :: bits => b.toNat * 2 ^ bits.length + ofBits bits

@[simp] theorem length_toBits (w n : Nat) : (toBits w n).length = w := by
  induction w with
  | zero => rfl
  | succ w ih => rw [toBits, List.length_cons, ih]

theorem ofBits_lt (bits : List Bool) : ofBits bits < 2 ^ bits.length := by
  induction bits with
  | nil => exact Nat.one_pos
  | cons b bits ih =>
      have hb := b.toNat_le
      have hfirst : b.toNat * 2 ^ bits.length ≤ 2 ^ bits.length :=
        calc b.toNat * 2 ^ bits.length ≤ 1 * 2 ^ bits.length := Nat.mul_le_mul_right _ hb
          _ = 2 ^ bits.length := Nat.one_mul _
      rw [ofBits, List.length_cons, Nat.pow_succ]
      omega

theorem ofBits_toBits (w n : Nat) : ofBits (toBits w n) = n % 2 ^ w := by
  induction w with
  | zero => rw [Nat.pow_zero, Nat.mod_one]; rfl
  | succ w ih =>
      rw [toBits, ofBits, length_toBits, ih, Nat.mod_pow_succ, Nat.toNat_testBit]
      ring

/-- The bits above the lowest `w` do not matter. -/
theorem toBits_add_mul (w n k : Nat) : toBits w (k * 2 ^ w + n) = toBits w n := by
  have hbit : ∀ i < w, (k * 2 ^ w + n).testBit i = n.testBit i := by
    intro i hi
    have hlow := Nat.testBit_mod_two_pow (k * 2 ^ w + n) w i
    rw [Nat.add_comm, Nat.add_mul_mod_self_right, Nat.testBit_mod_two_pow] at hlow
    simpa [hi, Nat.add_comm] using hlow.symm
  have hlow : ∀ v ≤ w, toBits v (k * 2 ^ w + n) = toBits v n := by
    intro v
    induction v with
    | zero => exact fun _ => rfl
    | succ v ih =>
        intro hv
        rw [toBits, toBits, hbit v (by omega), ih (by omega)]
  exact hlow w le_rfl

theorem toBits_ofBits (bits : List Bool) : toBits bits.length (ofBits bits) = bits := by
  induction bits with
  | nil => rfl
  | cons b bits ih =>
      have htop : (b.toNat * 2 ^ bits.length + ofBits bits).testBit bits.length = b := by
        have hlt := ofBits_lt bits
        rw [Nat.testBit_eq_decide_div_mod_eq, Nat.add_comm,
          Nat.add_mul_div_right _ _ (by positivity), Nat.div_eq_of_lt hlt]
        cases b <;> rfl
      rw [List.length_cons, ofBits, toBits, htop, toBits_add_mul, ih]

/-! ## Groups -/

variable {α β : Type}

/-- The first `n` groups of `w` elements. -/
def groups (w : Nat) : Nat → List α → List (List α)
  | 0, _ => []
  | n + 1, xs => xs.take w :: groups w n (xs.drop w)

theorem flatten_groups (w n : Nat) (xs : List α) : (groups w n xs).flatten = xs.take (w * n) := by
  induction n generalizing xs with
  | zero => rfl
  | succ n ih =>
      rw [groups, List.flatten_cons, ih, Nat.mul_succ, Nat.add_comm, List.take_add]

theorem length_of_mem_groups {w n : Nat} {xs : List α} (h : w * n ≤ xs.length) {g : List α}
    (hg : g ∈ groups w n xs) : g.length = w := by
  induction n generalizing xs with
  | zero => exact absurd hg List.not_mem_nil
  | succ n ih =>
      rw [Nat.mul_succ] at h
      rcases List.mem_cons.mp hg with rfl | hrest
      · rw [List.length_take]
        omega
      · exact ih (by rw [List.length_drop]; omega) hrest

theorem groups_flatMap {w : Nat} {f : β → List α} (hf : ∀ b, (f b).length = w) (bs : List β)
    (rest : List α) : groups w bs.length (bs.flatMap f ++ rest) = bs.map f := by
  induction bs with
  | nil => rfl
  | cons b bs ih =>
      rw [List.length_cons, groups, List.flatMap_cons, List.append_assoc,
        List.take_left' (hf b), List.drop_left' (hf b), ih, List.map_cons]

/-! ## The text -/

namespace Base32

/-- The character of a group. -/
def symbol (n : Nat) : Char := Char.ofNat (if n < 26 then 65 + n else 24 + n)

def value (c : Char) : Option Nat :=
  if 65 ≤ c.toNat ∧ c.toNat ≤ 90 then some (c.toNat - 65)
  else if 50 ≤ c.toNat ∧ c.toNat ≤ 55 then some (c.toNat - 24)
  else none

def bitsOf (bytes : List UInt8) : List Bool := bytes.flatMap fun b => toBits 8 b.toNat

def encode (bytes : List UInt8) : List Char :=
  (groups 5 (((bitsOf bytes).length + 4) / 5) (bitsOf bytes ++ List.replicate 4 false)).map
    fun g => symbol (ofBits g)

def decode (text : List Char) : Option (List UInt8) :=
  (text.mapM value).bind fun values =>
    let bits := values.flatMap (toBits 5)
    let count := bits.length / 8
    if bits.length % 8 < 5 ∧ true ∉ bits.drop (8 * count) then
      some ((groups 8 count bits).map fun g => UInt8.ofNat (ofBits g))
    else none

theorem value_symbol {n : Nat} (h : n < 32) : value (symbol n) = some n := by
  interval_cases n <;> rfl

theorem mapM_value {values : List Nat} (h : ∀ n ∈ values, n < 32) :
    (values.map symbol).mapM value = some values := by
  induction values with
  | nil => rfl
  | cons n values ih =>
      have hn := value_symbol (h n List.mem_cons_self)
      have hrest := ih fun m hm => h m (List.mem_cons_of_mem _ hm)
      rw [List.map_cons, List.mapM_cons, hn, hrest]
      rfl

theorem length_bitsOf (bytes : List UInt8) : (bitsOf bytes).length = 8 * bytes.length := by
  rw [bitsOf, List.length_flatMap]
  simp [Nat.mul_comm]

theorem ofNat_toBits (b : UInt8) : UInt8.ofNat (ofBits (toBits 8 b.toNat)) = b := by
  rw [ofBits_toBits, Nat.mod_eq_of_lt b.toNat_lt, UInt8.ofNat_toNat]

/-- The bits of the groups are those of the bytes, with fewer than five zeros behind them. -/
theorem flatten_encode (bytes : List UInt8) :
    ∃ fill < 5, (groups 5 (((bitsOf bytes).length + 4) / 5)
        (bitsOf bytes ++ List.replicate 4 false)).flatten
      = bitsOf bytes ++ List.replicate fill false := by
  refine ⟨5 * (((bitsOf bytes).length + 4) / 5) - (bitsOf bytes).length, by omega, ?_⟩
  rw [flatten_groups, List.take_append, List.take_of_length_le (by omega), List.take_replicate]
  congr 2
  omega

/-- **Reading undoes writing.** -/
theorem decode_encode (bytes : List UInt8) : decode (encode bytes) = some bytes := by
  obtain ⟨fill, hfill, hflatten⟩ := flatten_encode bytes
  have hlen := length_bitsOf bytes
  set gs := groups 5 (((bitsOf bytes).length + 4) / 5) (bitsOf bytes ++ List.replicate 4 false)
    with hgs
  have hfive : ∀ g ∈ gs, g.length = 5 := fun g hg =>
    length_of_mem_groups (by rw [List.length_append, List.length_replicate]; omega) hg
  have hvalues : (encode bytes).mapM value = some (gs.map ofBits) := by
    have htext : encode bytes = (gs.map ofBits).map symbol := by
      rw [List.map_map]
      rfl
    rw [htext, mapM_value]
    intro n hn
    obtain ⟨g, hg, rfl⟩ := List.mem_map.mp hn
    have hlt := ofBits_lt g
    rwa [hfive g hg] at hlt
  have hbits : (gs.map ofBits).flatMap (toBits 5) = bitsOf bytes ++ List.replicate fill false := by
    rw [← hflatten, List.flatMap_map, ← List.flatMap_id']
    refine List.flatMap_congr fun g hg => ?_
    have hg' := toBits_ofBits g
    rwa [hfive g hg] at hg'
  have htotal : (bitsOf bytes ++ List.replicate fill false).length = 8 * bytes.length + fill := by
    rw [List.length_append, List.length_replicate, hlen]
  have hcount : (8 * bytes.length + fill) / 8 = bytes.length := by omega
  have hzeros : true ∉ (bitsOf bytes ++ List.replicate fill false).drop (8 * bytes.length) := by
    rw [← hlen, List.drop_left, List.mem_replicate]
    simp
  have hgroups : groups 8 bytes.length (bitsOf bytes ++ List.replicate fill false)
      = bytes.map fun b => toBits 8 b.toNat :=
    groups_flatMap (f := fun b : UInt8 => toBits 8 b.toNat) (fun _ => length_toBits _ _) bytes _
  rw [decode, hvalues, Option.bind_some]
  simp only [hbits, htotal, hcount]
  rw [if_pos ⟨by omega, hzeros⟩, hgroups, List.map_map]
  exact congrArg some (List.map_id'' ofNat_toBits bytes)

/-- The text is of the alphabet. -/
theorem mem_encode {bytes : List UInt8} {c : Char} (h : c ∈ encode bytes) :
    ∃ n < 32, c = symbol n := by
  obtain ⟨g, hg, rfl⟩ := List.mem_map.mp h
  have hlen : g.length = 5 :=
    length_of_mem_groups (by rw [List.length_append, List.length_replicate]; omega) hg
  have hlt := ofBits_lt g
  rw [hlen] at hlt
  exact ⟨ofBits g, hlt, rfl⟩

example : encode [0x66, 0x6f, 0x6f] = "MZXW6".toList := by decide

end Base32

end Lib
