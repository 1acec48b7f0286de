import Mathlib.Data.Vector.Defs
import Mathlib.Tactic

set_option autoImplicit false

/-! # Byte codecs

A codec writes a value as bytes and reads one from the front of a byte string, leaving the
rest. It is faithful at a value when reading what was written, whatever follows, gives the
value back and leaves what follows (`Codec.Faithful`); this form composes, and pairs and
sequences inherit it from their parts. The values at which a codec is faithful are stated
with each codec, and so is how many bytes it writes.

The codecs are numbers of a fixed width, variable-length numbers (seven bits a byte, the
lowest first, the high bit set on every byte but the last) with a bound on the length and on
the value or without one, pairs, sequences with their length in front or of a fixed length,
optional values, values with several shapes, and strings as UTF-8.
-/

namespace Lib

structure Codec (α : Type) where
  write : α → List UInt8
  read : List UInt8 → Option (α × List UInt8)

namespace Codec

variable {α β : Type}

/-- Reading undoes writing at `a`. -/
def Faithful (c : Codec α) (a : α) : Prop := ∀ rest, c.read (c.write a ++ rest) = some (a, rest)

/-- The value at the front of a byte string; what follows is ignored. -/
def decode (c : Codec α) (bytes : List UInt8) : Option α := (c.read bytes).map Prod.fst

theorem decode_write {c : Codec α} {a : α} (h : c.Faithful a) : c.decode (c.write a) = some a := by
  have hread := h []
  rw [List.append_nil] at hread
  rw [decode, hread]
  rfl

/-! ## Fixed width -/

def writeFixed : Nat → Nat → List UInt8
  | 0, _ => []
  | n + 1, v => UInt8.ofNat (v % 256) :: writeFixed n (v / 256)

def readFixed : Nat → List UInt8 → Option (Nat × List UInt8)
  | 0, bytes => some (0, bytes)
  | _ + 1, [] => none
  | n + 1, b :: bytes => (readFixed n bytes).map (fun r => (b.toNat + 256 * r.1, r.2))

/-- Numbers below `256 ^ n` in `n` bytes, the lowest first. -/
def fixed (n : Nat) : Codec Nat := { write := writeFixed n, read := readFixed n }

theorem toNat_ofNat_of_lt {v : Nat} (h : v < 256) : (UInt8.ofNat v).toNat = v := by
  rw [UInt8.toNat_ofNat']
  exact Nat.mod_eq_of_lt h

theorem fixed_faithful {n v : Nat} (h : v < 256 ^ n) : (fixed n).Faithful v := by
  intro rest
  show readFixed n (writeFixed n v ++ rest) = some (v, rest)
  induction n generalizing v with
  | zero =>
      obtain rfl : v = 0 := by simpa using h
      rfl
  | succ n ih =>
      have hdiv : v / 256 < 256 ^ n := by
        rw [Nat.div_lt_iff_lt_mul (by decide), ← Nat.pow_succ]
        exact h
      rw [writeFixed, List.cons_append, readFixed, ih hdiv,
        toNat_ofNat_of_lt (Nat.mod_lt _ (by decide))]
      simp only [Option.map_some, Option.some.injEq, Prod.mk.injEq, and_true]
      exact Nat.mod_add_div v 256

theorem length_fixed (n v : Nat) : ((fixed n).write v).length = n := by
  show (writeFixed n v).length = n
  induction n generalizing v with
  | zero => rfl
  | succ n ih => rw [writeFixed, List.length_cons, ih]

/-! ## Variable length -/

def writeVarint : Nat → Nat → List UInt8
  | 0, v => [UInt8.ofNat v]
  | k + 1, v =>
      if v < 128 then [UInt8.ofNat v]
      else UInt8.ofNat (v % 128 + 128) :: writeVarint k (v / 128)

def readVarint : Nat → List UInt8 → Option (Nat × List UInt8)
  | _, [] => none
  | 0, b :: bytes => if b.toNat < 128 then some (b.toNat, bytes) else none
  | k + 1, b :: bytes =>
      if b.toNat < 128 then some (b.toNat, bytes)
      else (readVarint k bytes).map (fun r => (b.toNat - 128 + 128 * r.1, r.2))

/-- Numbers below `bound`, in at most `k + 1` bytes; larger ones are not accepted. -/
def varint (k bound : Nat) : Codec Nat where
  write := writeVarint k
  read := fun bytes =>
    match readVarint k bytes with
    | none => none
    | some (v, rest) => if v < bound then some (v, rest) else none

theorem readVarint_write {k v : Nat} (h : v < 128 ^ (k + 1)) (rest : List UInt8) :
    readVarint k (writeVarint k v ++ rest) = some (v, rest) := by
  induction k generalizing v with
  | zero =>
      have hv : v < 128 := by simpa using h
      have hnat := toNat_ofNat_of_lt (v := v) (by omega)
      rw [writeVarint, List.singleton_append, readVarint, hnat, if_pos hv]
  | succ k ih =>
      rw [writeVarint]
      split
      · rename_i hv
        have hnat := toNat_ofNat_of_lt (v := v) (by omega)
        rw [List.singleton_append, readVarint, hnat, if_pos hv]
      · have hdiv : v / 128 < 128 ^ (k + 1) := by
          rw [Nat.div_lt_iff_lt_mul (by decide), ← Nat.pow_succ]
          exact h
        have hmod : v % 128 < 128 := Nat.mod_lt _ (by decide)
        have hnat := toNat_ofNat_of_lt (v := v % 128 + 128) (by omega)
        rw [List.cons_append, readVarint, hnat, if_neg (by omega), ih hdiv]
        simp only [Option.map_some, Option.some.injEq, Prod.mk.injEq, and_true]
        rw [Nat.add_sub_cancel]
        exact Nat.mod_add_div v 128

theorem varint_faithful {k bound v : Nat} (hbound : bound ≤ 128 ^ (k + 1)) (h : v < bound) :
    (varint k bound).Faithful v := by
  intro rest
  have hread := readVarint_write (lt_of_lt_of_le h hbound) rest
  show (match readVarint k (writeVarint k v ++ rest) with
    | none => none
    | some (v, rest) => if v < bound then some (v, rest) else none) = some (v, rest)
  rw [hread]
  exact if_pos h

theorem length_varint_le (k bound v : Nat) : ((varint k bound).write v).length ≤ k + 1 := by
  show (writeVarint k v).length ≤ k + 1
  induction k generalizing v with
  | zero => exact le_rfl
  | succ k ih =>
      rw [writeVarint]
      split
      · simp
      · have hrest := ih (v / 128)
        rw [List.length_cons]
        omega

/-- Seven bits a byte, in at most `k + 1` bytes. -/
theorem length_varint (k bound v : Nat) :
    ((varint k bound).write v).length = min (Nat.log 128 v + 1) (k + 1) := by
  show (writeVarint k v).length = _
  induction k generalizing v with
  | zero =>
      have hlog := Nat.le_add_left 1 (Nat.log 128 v)
      rw [writeVarint, List.length_singleton]
      omega
  | succ k ih =>
      rw [writeVarint]
      by_cases hv : v < 128
      · rw [if_pos hv, List.length_singleton, Nat.log_of_lt hv]
        omega
      · have hlog : Nat.log 128 v = Nat.log 128 (v / 128) + 1 :=
          Nat.log_of_one_lt_of_le (by omega) (by omega)
        rw [if_neg hv, List.length_cons, ih, hlog]
        omega

def readUvarint : List UInt8 → Option (Nat × List UInt8)
  | [] => none
  | b :: bytes =>
      if b.toNat < 128 then some (b.toNat, bytes)
      else (readUvarint bytes).map (fun r => (b.toNat - 128 + 128 * r.1, r.2))

/-- Any number, in as many bytes as it needs. -/
def uvarint : Codec Nat := { write := fun v => writeVarint v v, read := readUvarint }

theorem readUvarint_write {k v : Nat} (h : v < 128 ^ (k + 1)) (rest : List UInt8) :
    readUvarint (writeVarint k v ++ rest) = some (v, rest) := by
  have hread := readVarint_write h rest
  generalize writeVarint k v ++ rest = bytes at hread
  induction bytes generalizing k v with
  | nil =>
      cases k <;> simp [readVarint] at hread
  | cons b bytes ih =>
      rw [readUvarint]
      cases k with
      | zero =>
          rw [readVarint] at hread
          split at hread
          · rename_i hb
            rw [if_pos hb, hread]
          · cases hread
      | succ k =>
          rw [readVarint] at hread
          split at hread
          · rename_i hb
            rw [if_pos hb, hread]
          · rename_i hb
            obtain ⟨⟨w, rest'⟩, hrest, heq⟩ := Option.map_eq_some_iff.mp hread
            simp only [Prod.mk.injEq] at heq
            obtain ⟨rfl, rfl⟩ := heq
            rw [if_neg hb, ih (k := k) (v := w) ?_ hrest]
            · rfl
            · rw [Nat.pow_succ] at h
              omega

theorem uvarint_faithful (v : Nat) : uvarint.Faithful v := fun rest =>
  readUvarint_write ((Nat.lt_pow_self (by decide)).trans (Nat.pow_lt_pow_succ (by decide))) rest

/-! ## Pairs and sequences -/

def pair (c : Codec α) (d : Codec β) : Codec (α × β) where
  write := fun p => c.write p.1 ++ d.write p.2
  read := fun bytes =>
    match c.read bytes with
    | none => none
    | some (a, rest) => (d.read rest).map (fun r => ((a, r.1), r.2))

theorem pair_faithful {c : Codec α} {d : Codec β} {p : α × β} (hc : c.Faithful p.1)
    (hd : d.Faithful p.2) : (pair c d).Faithful p := by
  intro rest
  have hfirst := hc (d.write p.2 ++ rest)
  have hsecond := hd rest
  simp only [pair, List.append_assoc, hfirst, hsecond, Option.map_some]

/-- Another view of the values of a codec. -/
def via (c : Codec α) (parts : β → α) (join : α → β) : Codec β where
  write := fun b => c.write (parts b)
  read := fun bytes => (c.read bytes).map (fun r => (join r.1, r.2))

theorem via_faithful {c : Codec α} {parts : β → α} {join : α → β} {b : β}
    (h : c.Faithful (parts b)) (hjoin : join (parts b) = b) : (via c parts join).Faithful b := by
  intro rest
  have hread := h rest
  simp only [via, hread, Option.map_some, hjoin]

def readMany (c : Codec α) : Nat → List UInt8 → Option (List α × List UInt8)
  | 0, bytes => some ([], bytes)
  | n + 1, bytes =>
      match c.read bytes with
      | none => none
      | some (a, rest) => (readMany c n rest).map (fun r => (a :: r.1, r.2))

/-- A sequence, with its length in front. -/
def seq (len : Codec Nat) (c : Codec α) : Codec (List α) where
  write := fun xs => len.write xs.length ++ xs.flatMap c.write
  read := fun bytes =>
    match len.read bytes with
    | none => none
    | some (n, rest) => readMany c n rest

theorem readMany_write {c : Codec α} {xs : List α} (h : ∀ x ∈ xs, c.Faithful x)
    (rest : List UInt8) :
    readMany c xs.length (xs.flatMap c.write ++ rest) = some (xs, rest) := by
  induction xs with
  | nil => rfl
  | cons x xs ih =>
      have hx := h x List.mem_cons_self (xs.flatMap c.write ++ rest)
      have hxs := ih (fun y hy => h y (List.mem_cons_of_mem _ hy))
      rw [List.flatMap_cons, List.append_assoc, List.length_cons, readMany, hx]
      simp only [hxs, Option.map_some]

theorem seq_faithful {len : Codec Nat} {c : Codec α} {xs : List α}
    (hlen : len.Faithful xs.length) (h : ∀ x ∈ xs, c.Faithful x) : (seq len c).Faithful xs := by
  intro rest
  have hfirst := hlen (xs.flatMap c.write ++ rest)
  simp only [seq, List.append_assoc, hfirst]
  exact readMany_write h rest

theorem length_seq (len : Codec Nat) (c : Codec α) (xs : List α) :
    ((seq len c).write xs).length
      = (len.write xs.length).length + (xs.map fun x => (c.write x).length).sum := by
  show (len.write xs.length ++ xs.flatMap c.write).length = _
  rw [List.length_append, List.length_flatMap]

/-- Exactly `n` values, without their number. -/
def vector (n : Nat) (c : Codec α) : Codec (List.Vector α n) where
  write := fun xs => xs.toList.flatMap c.write
  read := fun bytes =>
    match readMany c n bytes with
    | none => none
    | some (xs, rest) => if h : xs.length = n then some (⟨xs, h⟩, rest) else none

theorem vector_faithful {n : Nat} {c : Codec α} {xs : List.Vector α n}
    (h : ∀ x ∈ xs.toList, c.Faithful x) : (vector n c).Faithful xs := by
  intro rest
  have hread := readMany_write h rest
  rw [xs.toList_length] at hread
  simp only [vector, hread, xs.toList_length, dif_pos]
  rfl

/-- An optional value, with one byte in front that tells whether it is there. -/
def option (c : Codec α) : Codec (Option α) where
  write
    | none => [0]
    | some a => 1 :: c.write a
  read
    | [] => none
    | b :: bytes =>
        if b = 0 then some (none, bytes)
        else if b = 1 then (c.read bytes).map (fun r => (some r.1, r.2))
        else none

theorem option_faithful {c : Codec α} {o : Option α} (h : ∀ a ∈ o, c.Faithful a) :
    (option c).Faithful o := by
  intro rest
  cases o with
  | none => rfl
  | some a =>
      have hread := h a rfl rest
      simp only [option, List.cons_append, hread, Option.map_some]
      rfl

theorem length_flatMap_le {f : α → List UInt8} {bound : Nat} (xs : List α)
    (h : ∀ x, (f x).length ≤ bound) : (xs.flatMap f).length ≤ bound * xs.length := by
  induction xs with
  | nil => simp
  | cons x xs ih =>
      have hx := h x
      rw [List.flatMap_cons, List.length_append, List.length_cons]
      calc (f x).length + (xs.flatMap f).length
          ≤ bound + bound * xs.length := Nat.add_le_add hx ih
        _ = bound * (xs.length + 1) := by ring

/-! ## Shapes

A value of a type with several shapes is written as the number of its shape and the parts of
that shape. A reader may know other shapes than the writer: it reads the values whose shape it
knows (`tagged_read`) and nothing of the others (`tagged_unknown`). -/

def bool : Codec Bool where
  write := fun b => [if b then 1 else 0]
  read
    | [] => none
    | b :: rest => if b = 0 then some (false, rest) else if b = 1 then some (true, rest) else none

theorem bool_faithful (b : Bool) : bool.Faithful b := by
  intro rest
  cases b <;> rfl

/-- One shape of `α`: `parts` takes a value of the shape apart, and `join` builds it. -/
def shape (c : Codec β) (parts : α → Option β) (join : β → α) : Codec α where
  write := fun a => ((parts a).map c.write).getD []
  read := fun bytes => (c.read bytes).map (fun r => (join r.1, r.2))

theorem shape_faithful {c : Codec β} {parts : α → Option β} {join : β → α} {a : α} {b : β}
    (hparts : parts a = some b) (hjoin : join b = a) (h : c.Faithful b) :
    (shape c parts join).Faithful a := by
  intro rest
  have hread := h rest
  simp only [shape, hparts, Option.map_some, Option.getD_some, hread, hjoin]

/-- The shapes in their order; `tag` is the number of a value's shape. -/
def tagged (tags : Codec Nat) (tag : α → Nat) (shapes : List (Codec α)) : Codec α where
  write := fun a => tags.write (tag a) ++ ((shapes[tag a]?).map fun c => c.write a).getD []
  read := fun bytes =>
    match tags.read bytes with
    | none => none
    | some (i, rest) =>
        match shapes[i]? with
        | none => none
        | some c => c.read rest

section Tagged

variable {tags : Codec Nat} {tag : α → Nat} {shapes shapes' : List (Codec α)} {a : α}
  {c c' : Codec α}

theorem tagged_write (hshape : shapes[tag a]? = some c) :
    (tagged tags tag shapes).write a = tags.write (tag a) ++ c.write a := by
  simp only [tagged, hshape, Option.map_some, Option.getD_some]

/-- One list of shapes reads what another has written, if it has the shape. -/
theorem tagged_read (htag : tags.Faithful (tag a)) (hshape : shapes[tag a]? = some c)
    (hshape' : shapes'[tag a]? = some c') (rest : List UInt8) :
    (tagged tags tag shapes).read ((tagged tags tag shapes').write a ++ rest)
      = c.read (c'.write a ++ rest) := by
  have hfirst := htag (c'.write a ++ rest)
  rw [tagged_write hshape', List.append_assoc]
  simp only [tagged, hfirst, hshape]

/-- Without the shape it reads nothing. -/
theorem tagged_unknown (htag : tags.Faithful (tag a)) (hshape : shapes[tag a]? = none)
    (hshape' : shapes'[tag a]? = some c') (rest : List UInt8) :
    (tagged tags tag shapes).read ((tagged tags tag shapes').write a ++ rest) = none := by
  have hfirst := htag (c'.write a ++ rest)
  rw [tagged_write hshape', List.append_assoc]
  simp only [tagged, hfirst, hshape]

theorem tagged_faithful (htag : tags.Faithful (tag a)) (hshape : shapes[tag a]? = some c)
    (h : c.Faithful a) : (tagged tags tag shapes).Faithful a := by
  intro rest
  rw [tagged_read htag hshape hshape]
  exact h rest

end Tagged

/-! ## Text -/

def byte : Codec UInt8 where
  write := fun b => [b]
  read
    | [] => none
    | b :: rest => some (b, rest)

/-- A string as its UTF-8 bytes with their number in front; other bytes are not accepted. -/
def text (len : Codec Nat) : Codec String where
  write := fun s => (seq len byte).write s.toUTF8.data.toList
  read := fun bytes =>
    match (seq len byte).read bytes with
    | none => none
    | some (utf8, rest) => (String.fromUTF8? ⟨utf8.toArray⟩).map (fun s => (s, rest))

theorem byte_faithful (b : UInt8) : byte.Faithful b := fun _ => rfl

theorem text_faithful {len : Codec Nat} {s : String} (h : len.Faithful s.utf8ByteSize) :
    (text len).Faithful s := by
  intro rest
  have hbytes : (seq len byte).Faithful s.toUTF8.data.toList :=
    seq_faithful h (fun b _ => byte_faithful b)
  have hvalid : String.fromUTF8? ⟨s.toUTF8.data.toList.toArray⟩ = some s := dif_pos s.isValidUTF8
  have hread := hbytes rest
  simp only [text, hread, hvalid, Option.map_some]

theorem length_text (len : Codec Nat) (s : String) :
    ((text len).write s).length = (len.write s.utf8ByteSize).length + s.utf8ByteSize := by
  have hone : (s.toUTF8.data.toList.map fun b => (byte.write b).length).sum = s.utf8ByteSize := by
    show (s.toUTF8.data.toList.map fun _ => 1).sum = _
    rw [List.map_const', List.sum_replicate, smul_eq_mul, Nat.mul_one]
    rfl
  show ((seq len byte).write s.toUTF8.data.toList).length = _
  rw [length_seq, hone]
  rfl

end Codec

end Lib
