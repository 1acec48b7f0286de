import Mathlib

set_option autoImplicit false

/-! # How long a JSON text is

A JSON value is written without blanks: strings are quoted with the shortest escapes, and what
is not a control character, a quote or a backslash stands for itself. A text is a list of
characters here, and its size is the number of bytes of its UTF-8 form.

The size of a value is the sum of the sizes of its parts: `size_quote` for the strings and
`size_render_obj` for the objects.
-/

namespace Lib

/-- A number is kept as it is written. -/
inductive Json where
  | null
  | bool (b : Bool)
  | num (text : List Char)
  | str (s : List Char)
  | arr (items : List Json)
  | obj (members : List (List Char × Json))

namespace Json

def nat (n : Nat) : Json := .num (Nat.toDigits 10 n)

/-! ## Writing -/

/-- The two-character escapes: the letters after the backslash. -/
def shortEscapes : List (Char × Char) :=
  [('"', '"'), ('\\', '\\'), ('\n', 'n'), ('\r', 'r'), ('\t', 't'), (Char.ofNat 8, 'b'),
    (Char.ofNat 12, 'f')]

def shortEscape (c : Char) : Option Char :=
  (shortEscapes.find? fun e => e.1 == c).map Prod.snd

def escapeChar (c : Char) : List Char :=
  match shortEscape c with
  | some letter => ['\\', letter]
  | none =>
      if c.toNat < 32 then
        ['\\', 'u', '0', '0', Nat.digitChar (c.toNat / 16), Nat.digitChar (c.toNat % 16)]
      else [c]

def quote (s : List Char) : List Char := '"' :: s.flatMap escapeChar ++ ['"']

mutual

def render : Json → List Char
  | .null => "null".toList
  | .bool true => "true".toList
  | .bool false => "false".toList
  | .num text => text
  | .str s => quote s
  | .arr items => '[' :: renderItems items ++ [']']
  | .obj members => '{' :: renderMembers members ++ ['}']

/-- The values, with commas between them. -/
def renderItems : List Json → List Char
  | [] => []
  | [item] => render item
  | item :: rest => render item ++ ',' :: renderItems rest

/-- The members, with commas between them. -/
def renderMembers : List (List Char × Json) → List Char
  | [] => []
  | [(key, value)] => quote key ++ ':' :: render value
  | (key, value) :: rest => quote key ++ ':' :: render value ++ ',' :: renderMembers rest

end

/-! ## Sizes -/

/-- The number of bytes of a text. -/
def size (text : List Char) : Nat := (text.map Char.utf8Size).sum

@[simp] theorem size_nil : size [] = 0 := rfl

@[simp] theorem size_cons (c : Char) (text : List Char) :
    size (c :: text) = c.utf8Size + size text := by
  rw [size, List.map_cons, List.sum_cons, size]

@[simp] theorem size_append (a b : List Char) : size (a ++ b) = size a + size b := by
  rw [size, List.map_append, List.sum_append, size, size]

theorem size_flatMap {α : Type} (f : α → List Char) (l : List α) :
    size (l.flatMap f) = (l.map fun a => size (f a)).sum := by
  induction l with
  | nil => rfl
  | cons a l ih => rw [List.flatMap_cons, size_append, ih, List.map_cons, List.sum_cons]

theorem utf8Size_of_lt {c : Char} (h : c.toNat < 128) : c.utf8Size = 1 := by
  rw [Char.utf8Size, if_pos]
  exact UInt32.le_iff_toNat_le.mpr (Nat.lt_succ_iff.mp h)

theorem utf8Size_digitChar {d : Nat} (h : d < 16) : (Nat.digitChar d).utf8Size = 1 := by
  have hall : ∀ d < 16, (Nat.digitChar d).utf8Size = 1 := by decide
  exact hall d h

/-- A text of ASCII characters has as many bytes as characters. -/
theorem size_of_ascii {text : List Char} (h : ∀ c ∈ text, c.toNat < 128) :
    size text = text.length := by
  induction text with
  | nil => rfl
  | cons c text ih =>
      rw [size_cons, utf8Size_of_lt (h c List.mem_cons_self),
        ih fun c hc => h c (List.mem_cons_of_mem _ hc), List.length_cons, Nat.add_comm]

/-! ## The size of a string -/

/-- The bytes that a character takes within quotes. -/
def charBytes (c : Char) : Nat :=
  if (shortEscape c).isSome then 2 else if c.toNat < 32 then 6 else c.utf8Size

/-- The bytes of a string, with its quotes. -/
def strBytes (s : List Char) : Nat := (s.map charBytes).sum + 2

theorem utf8Size_shortEscape {c letter : Char} (h : shortEscape c = some letter) :
    letter.utf8Size = 1 := by
  have hall : ∀ e ∈ shortEscapes, e.2.utf8Size = 1 := by decide
  rw [shortEscape, Option.map_eq_some_iff] at h
  obtain ⟨e, he, rfl⟩ := h
  exact hall e (List.mem_of_find?_eq_some he)

theorem size_escapeChar (c : Char) : size (escapeChar c) = charBytes c := by
  rw [escapeChar, charBytes]
  cases h : shortEscape c with
  | some letter =>
      show '\\'.utf8Size + (letter.utf8Size + 0) = 2
      rw [utf8Size_shortEscape h]
      rfl
  | none =>
      by_cases hc : c.toNat < 32
      · have hhigh : (Nat.digitChar (c.toNat / 16)).utf8Size = 1 := utf8Size_digitChar (by omega)
        have hlow : (Nat.digitChar (c.toNat % 16)).utf8Size = 1 := utf8Size_digitChar (by omega)
        simp only [hc, if_true, size_cons, size_nil, hhigh, hlow]
        rfl
      · simp [hc]

theorem size_quote (s : List Char) : size (quote s) = strBytes s := by
  rw [quote, strBytes]
  have hquote : '"'.utf8Size = 1 := rfl
  have hchars : (s.map fun c => size (escapeChar c)) = s.map charBytes :=
    List.map_congr_left fun c _ => size_escapeChar c
  rw [List.cons_append, size_cons, size_append, size_flatMap, hchars, size_cons, size_nil]
  omega

theorem charBytes_pos (c : Char) : 1 ≤ charBytes c := by
  unfold charBytes
  split_ifs
  · decide
  · decide
  · exact c.utf8Size_pos

theorem length_le_strBytes (s : List Char) : s.length + 2 ≤ strBytes s := by
  have hsum : s.length ≤ (s.map charBytes).sum := by
    induction s with
    | nil => exact Nat.le_refl _
    | cons c s ih =>
        have hpos := charBytes_pos c
        rw [List.length_cons, List.map_cons, List.sum_cons]
        omega
  exact Nat.add_le_add_right hsum 2

/-- The size of a text as a string. -/
theorem utf8ByteSize_ofList (text : List Char) :
    (String.ofList text).utf8ByteSize = size text := by
  induction text with
  | nil => rfl
  | cons c text ih =>
      rw [String.ofList_cons, String.utf8ByteSize_append, String.utf8ByteSize_singleton, ih,
        size_cons]

/-! ## The size of an object -/

/-- The bytes of a member. -/
def memberBytes (key : List Char) (valueBytes : Nat) : Nat := strBytes key + 1 + valueBytes

/-- The bytes of an object, from those of its members. -/
def objBytes (members : List Nat) : Nat := max 2 (1 + (members.map (· + 1)).sum)

theorem size_renderMembers (members : List (List Char × Json)) :
    size (renderMembers members) =
      (members.map fun m => memberBytes m.1 (size (render m.2)) + 1).sum - 1 := by
  induction members with
  | nil => rfl
  | cons m rest ih =>
      obtain ⟨key, value⟩ := m
      cases rest with
      | nil =>
          simp only [renderMembers, size_append, size_cons, size_quote, List.map_cons,
            List.map_nil, List.sum_cons, List.sum_nil, memberBytes]
          have hcolon : ':'.utf8Size = 1 := rfl
          omega
      | cons m' rest =>
          rw [renderMembers]
          · simp only [size_append, size_cons, size_quote, ih]
            rw [List.map_cons, List.sum_cons]
            simp only [memberBytes, List.map_cons, List.sum_cons]
            have hcolon : ':'.utf8Size = 1 := rfl
            have hcomma : ','.utf8Size = 1 := rfl
            omega
          · exact fun h => by cases h

theorem size_render_obj (members : List (List Char × Json)) :
    size (render (.obj members)) =
      objBytes (members.map fun m => memberBytes m.1 (size (render m.2))) := by
  have hopen : '{'.utf8Size = 1 := rfl
  have hclose : '}'.utf8Size = 1 := rfl
  rw [render, objBytes, List.map_map]
  simp only [List.cons_append, size_cons, size_append, size_nil, size_renderMembers]
  show _ = max 2 (1 + (members.map fun m => memberBytes m.1 (size (render m.2)) + 1).sum)
  omega

/-- An object is longer than each of its values. -/
theorem size_lt_of_mem {members : List (List Char × Json)} {key : List Char} {value : Json}
    (h : (key, value) ∈ members) : size (render value) < size (render (.obj members)) := by
  rw [size_render_obj, objBytes, List.map_map]
  have hmem : memberBytes key (size (render value)) + 1 ≤
      (members.map ((· + 1) ∘ fun m => memberBytes m.1 (size (render m.2)))).sum :=
    List.le_sum_of_mem (List.mem_map.mpr ⟨(key, value), h, rfl⟩)
  rw [memberBytes] at hmem
  omega

theorem objBytes_lt_iff {members : List Nat} {limit : Nat} (hlimit : 2 < limit) :
    objBytes members < limit ↔ 1 + (members.map (· + 1)).sum < limit := by
  rw [objBytes]
  omega

/-! ## On one line -/

mutual

/-- The numbers in it are written with visible characters. -/
def plain : Json → Bool
  | .num text => text.all fun c => decide (32 < c.toNat)
  | .arr items => plainItems items
  | .obj members => plainMembers members
  | _ => true

def plainItems : List Json → Bool
  | [] => true
  | item :: rest => plain item && plainItems rest

def plainMembers : List (List Char × Json) → Bool
  | [] => true
  | (_, value) :: rest => plain value && plainMembers rest

end

theorem ne_newline_of_lt {c : Char} (h : 32 ≤ c.toNat) : '\n' ≠ c := by
  rintro rfl
  exact absurd h (by decide)

theorem newline_notMem_escapeChar (c : Char) : '\n' ∉ escapeChar c := by
  unfold escapeChar
  cases hshort : shortEscape c with
  | some letter =>
      have hmem : letter ∈ shortEscapes.map Prod.snd := by
        obtain ⟨e, he, rfl⟩ := Option.map_eq_some_iff.mp hshort
        exact List.mem_map_of_mem (List.mem_of_find?_eq_some he)
      have hletter : ∀ letter ∈ shortEscapes.map Prod.snd, '\n' ∉ ['\\', letter] := by
        simp [shortEscapes]
      exact hletter letter hmem
  | none =>
      dsimp only
      by_cases hc : c.toNat < 32
      · rw [if_pos hc]
        have hdigit : ∀ d < 16, '\n' ≠ Nat.digitChar d := by decide
        have hhigh := hdigit (c.toNat / 16) (by omega)
        have hlow := hdigit (c.toNat % 16) (by omega)
        simp [hhigh, hlow]
      · rw [if_neg hc, List.mem_singleton]
        exact ne_newline_of_lt (by omega)

theorem newline_notMem_quote (s : List Char) : '\n' ∉ quote s := by
  unfold quote
  simp only [List.cons_append, List.mem_cons, List.mem_append, List.mem_flatMap, not_or]
  refine ⟨by decide, ?_, by decide, List.not_mem_nil⟩
  rintro ⟨c, -, hc⟩
  exact newline_notMem_escapeChar c hc

mutual

theorem newline_notMem_render : (j : Json) → plain j = true → '\n' ∉ render j
  | .null, _ => by decide
  | .bool true, _ => by decide
  | .bool false, _ => by decide
  | .num text, h => by
      rw [render]
      intro hmem
      have hc := List.all_eq_true.mp (show (text.all fun c => decide (32 < c.toNat)) = true from h)
        _ hmem
      exact absurd hc (by decide)
  | .str s, _ => newline_notMem_quote s
  | .arr items, h => by
      have hitems := newline_notMem_renderItems items h
      rw [render]
      simp only [List.cons_append, List.mem_cons, List.mem_append, not_or]
      exact ⟨by decide, hitems, by decide, List.not_mem_nil⟩
  | .obj members, h => by
      have hmembers := newline_notMem_renderMembers members h
      rw [render]
      simp only [List.cons_append, List.mem_cons, List.mem_append, not_or]
      exact ⟨by decide, hmembers, by decide, List.not_mem_nil⟩

theorem newline_notMem_renderItems : (items : List Json) → plainItems items = true →
    '\n' ∉ renderItems items
  | [], _ => List.not_mem_nil
  | [item], h => by
      rw [renderItems]
      exact newline_notMem_render item (Bool.and_eq_true_iff.mp h).1
  | item :: next :: rest, h => by
      obtain ⟨hitem, hrest⟩ := Bool.and_eq_true_iff.mp h
      rw [renderItems]
      · simp only [List.mem_append, List.mem_cons, not_or]
        exact ⟨newline_notMem_render item hitem, by decide,
          newline_notMem_renderItems (next :: rest) hrest⟩
      · exact List.cons_ne_nil _ _

theorem newline_notMem_renderMembers : (members : List (List Char × Json)) →
    plainMembers members = true → '\n' ∉ renderMembers members
  | [], _ => List.not_mem_nil
  | [(key, value)], h => by
      rw [renderMembers]
      simp only [List.mem_append, List.mem_cons, not_or]
      exact ⟨newline_notMem_quote key, by decide,
        newline_notMem_render value (Bool.and_eq_true_iff.mp h).1⟩
  | (key, value) :: next :: rest, h => by
      obtain ⟨hvalue, hrest⟩ := Bool.and_eq_true_iff.mp h
      rw [renderMembers]
      · simp only [List.mem_append, List.mem_cons, not_or]
        exact ⟨⟨newline_notMem_quote key, by decide, newline_notMem_render value hvalue⟩, by decide,
          newline_notMem_renderMembers (next :: rest) hrest⟩
      · exact List.cons_ne_nil _ _

end

end Json

end Lib
