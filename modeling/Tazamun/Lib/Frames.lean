import Tazamun.Lib.Codec

set_option autoImplicit false

/-! # Frames on a byte stream

A frame is the length of its body, in four bytes with the highest first, and the body. The
body is between one byte and a limit; a reader that meets another length stops before it has
read the body, and it also stops at a body that is not the encoding of a value and at the end
of the stream.

What was written as frames is read back in the same order, whatever follows
(`Framing.readAll_stream`). A stream that breaks off at any byte gives the values of the frames
that are complete and then the end of the stream, never another value
(`Framing.readAll_prefix`).
-/

namespace Lib

/-- Values of `α` as the bodies of frames of at most `maxBody` bytes. -/
structure Framing (α : Type) where
  codec : Codec α
  maxBody : Nat
  maxBody_lt : maxBody < 256 ^ 4

namespace Framing

variable {α : Type}

/-- Why a reader stops. -/
inductive Stop where
  | ended
  | badLength (n : Nat)
  | malformed
deriving DecidableEq

/-! ## Writing and reading -/

def header (n : Nat) : List UInt8 := (Codec.writeFixed 4 n).reverse

def readHeader (bytes : List UInt8) : Nat :=
  ((Codec.readFixed 4 bytes.reverse).map Prod.fst).getD 0

/-- The frame of a value, whatever its length. -/
def frame (f : Framing α) (a : α) : List UInt8 :=
  header (f.codec.write a).length ++ f.codec.write a

/-- The frame of a value, if its body is within the limits; the error is the length. -/
def write (f : Framing α) (a : α) : Except Nat (List UInt8) :=
  if (f.codec.write a).isEmpty || decide (f.maxBody < (f.codec.write a).length) then
    .error (f.codec.write a).length
  else .ok (f.frame a)

/-- The value of the first frame, and what follows it. -/
def read (f : Framing α) (bytes : List UInt8) : Except Stop (α × List UInt8) :=
  if bytes.length < 4 then .error .ended
  else if readHeader (bytes.take 4) = 0 ∨ f.maxBody < readHeader (bytes.take 4) then
    .error (.badLength (readHeader (bytes.take 4)))
  else if (bytes.drop 4).length < readHeader (bytes.take 4) then .error .ended
  else
    match f.codec.decode ((bytes.drop 4).take (readHeader (bytes.take 4))) with
    | none => .error .malformed
    | some a => .ok (a, (bytes.drop 4).drop (readHeader (bytes.take 4)))

theorem length_lt_of_read {f : Framing α} {bytes rest : List UInt8} {a : α}
    (h : f.read bytes = .ok (a, rest)) : rest.length < bytes.length := by
  unfold read at h
  split at h
  · cases h
  · rename_i hheader
    split at h
    · cases h
    · split at h
      · cases h
      · split at h
        · cases h
        · cases h
          rw [List.length_drop, List.length_drop]
          omega

/-- The values of a stream, and why reading stopped. -/
def readAll (f : Framing α) (bytes : List UInt8) : List α × Stop :=
  match h : f.read bytes with
  | .error stop => ([], stop)
  | .ok (a, rest) =>
      have : rest.length < bytes.length := length_lt_of_read h
      (a :: (f.readAll rest).1, (f.readAll rest).2)
termination_by bytes.length

variable {f : Framing α} {a : α} {as : List α} {bytes rest : List UInt8}

theorem readAll_ok (h : f.read bytes = .ok (a, rest)) :
    f.readAll bytes = (a :: (f.readAll rest).1, (f.readAll rest).2) := by
  rw [readAll]
  split
  · rename_i hstop
    rw [h] at hstop
    cases hstop
  · rename_i hok
    rw [h] at hok
    cases hok
    rfl

theorem readAll_error {stop : Stop} (h : f.read bytes = .error stop) :
    f.readAll bytes = ([], stop) := by
  rw [readAll]
  split
  · rename_i hstop
    rw [h] at hstop
    cases hstop
    rfl
  · rename_i hok
    rw [h] at hok
    cases hok

/-! ## One frame -/

/-- The value has a frame, and the frame gives it back. -/
structure Fits (f : Framing α) (a : α) : Prop where
  ne_nil : f.codec.write a ≠ []
  length_le : (f.codec.write a).length ≤ f.maxBody
  faithful : f.codec.Faithful a

theorem length_header (n : Nat) : (header n).length = 4 := by
  rw [header, List.length_reverse]
  exact Codec.length_fixed 4 n

theorem readHeader_header {n : Nat} (h : n < 256 ^ 4) : readHeader (header n) = n := by
  have hread : Codec.readFixed 4 (Codec.writeFixed 4 n ++ []) = some (n, []) :=
    Codec.fixed_faithful h []
  rw [List.append_nil] at hread
  rw [readHeader, header, List.reverse_reverse, hread]
  rfl

theorem write_eq (h : f.Fits a) : f.write a = .ok (f.frame a) := by
  have hlen := h.length_le
  have hempty : (f.codec.write a).isEmpty = false := by
    rw [List.isEmpty_eq_false_iff]
    exact h.ne_nil
  rw [write, hempty, Bool.false_or, if_neg (by simpa using hlen)]

theorem length_frame : (f.frame a).length = 4 + (f.codec.write a).length := by
  rw [frame, List.length_append, length_header]

theorem take_frame : (f.frame a ++ rest).take 4 = header (f.codec.write a).length := by
  rw [frame, List.append_assoc]
  exact List.take_left' (length_header _)

theorem drop_frame : (f.frame a ++ rest).drop 4 = f.codec.write a ++ rest := by
  rw [frame, List.append_assoc]
  exact List.drop_left' (length_header _)

theorem Fits.readHeader (h : f.Fits a) :
    readHeader (header (f.codec.write a).length) = (f.codec.write a).length :=
  readHeader_header (lt_of_le_of_lt h.length_le f.maxBody_lt)

theorem readHeader_frame (h : f.Fits a) :
    readHeader ((f.frame a ++ rest).take 4) = (f.codec.write a).length := by
  rw [take_frame, h.readHeader]

theorem Fits.length_pos (h : f.Fits a) : 0 < (f.codec.write a).length :=
  List.length_pos_iff.mpr h.ne_nil

theorem read_frame (h : f.Fits a) : f.read (f.frame a ++ rest) = .ok (a, rest) := by
  have hheader : readHeader ((f.frame a ++ rest).take 4) = (f.codec.write a).length :=
    readHeader_frame h
  have hlen := h.length_le
  have hpos := h.length_pos
  have hlong : ¬ (f.frame a ++ rest).length < 4 := by
    rw [List.length_append, length_frame]
    omega
  rw [read, if_neg hlong, hheader, drop_frame, if_neg (by omega),
    if_neg (by rw [List.length_append]; omega), List.take_left, List.drop_left,
    Codec.decode_write h.faithful]

/-- A frame that breaks off is not read. -/
theorem read_short (h : f.Fits a) {part : List UInt8} (hpart : part <+: f.frame a)
    (hne : part ≠ f.frame a) : f.read part = .error .ended := by
  have hshort : part.length < (f.frame a).length := by
    refine lt_of_le_of_ne hpart.length_le fun hlen => hne ?_
    exact hpart.eq_of_length hlen
  by_cases hheader : part.length < 4
  · rw [read, if_pos hheader]
  · obtain ⟨missing, hframe⟩ := hpart
    have htake : part.take 4 = header (f.codec.write a).length := by
      have hwhole : (f.frame a ++ []).take 4 = header (f.codec.write a).length := take_frame
      rw [← hwhole, List.append_nil, ← hframe, List.take_append_of_le_length (by omega)]
    have hnat : readHeader (part.take 4) = (f.codec.write a).length := by
      rw [htake, h.readHeader]
    have hlen := h.length_le
    have hpos := h.length_pos
    rw [length_frame] at hshort
    rw [read, if_neg hheader, hnat, if_neg (by omega),
      if_pos (by rw [List.length_drop]; omega)]

/-! ## A stream of frames -/

/-- The frames of the values, one after the other. -/
def stream (f : Framing α) (as : List α) : List UInt8 := as.flatMap f.frame

theorem stream_cons : f.stream (a :: as) = f.frame a ++ f.stream as := List.flatMap_cons

theorem stream_append (bs : List α) : f.stream (as ++ bs) = f.stream as ++ f.stream bs :=
  List.flatMap_append

/-- **What was written is read back**, whatever follows. -/
theorem readAll_stream (h : ∀ a ∈ as, f.Fits a) :
    f.readAll (f.stream as ++ rest) = (as ++ (f.readAll rest).1, (f.readAll rest).2) := by
  induction as with
  | nil => rfl
  | cons a as ih =>
      have htail := ih fun b hb => h b (List.mem_cons_of_mem _ hb)
      rw [stream_cons, List.append_assoc, readAll_ok (read_frame (h a List.mem_cons_self)), htail]
      rfl

/-- What a stream starts with, from the fourth byte on. -/
theorem front {part : List UInt8} (hpart : part <+: f.stream as) (hlen : 4 ≤ part.length) :
    ∃ a as', as = a :: as' ∧ part.take 4 = header (f.codec.write a).length ∧
      part.drop 4 <+: f.codec.write a ++ f.stream as' := by
  cases as with
  | nil =>
      rw [List.prefix_nil.mp hpart] at hlen
      exact absurd hlen (by decide)
  | cons a as' =>
      have hstream : f.stream (a :: as')
          = header (f.codec.write a).length ++ (f.codec.write a ++ f.stream as') := by
        rw [stream_cons, frame, List.append_assoc]
      have htake : part.take 4 = header (f.codec.write a).length := by
        obtain ⟨missing, hall⟩ := hpart
        have hfirst : (part ++ missing).take 4 = part.take 4 := List.take_append_of_le_length hlen
        rw [← hfirst, hall, hstream]
        exact List.take_left' (length_header _)
      refine ⟨a, as', rfl, htake, ?_⟩
      rw [← List.take_append_drop 4 part, htake, hstream] at hpart
      exact (List.prefix_append_right_inj _).mp hpart

theorem read_nil : f.read [] = .error .ended := rfl

/-- **A stream that breaks off** gives the values of its complete frames. -/
theorem readAll_prefix (h : ∀ a ∈ as, f.Fits a) {part : List UInt8}
    (hpart : part <+: f.stream as) :
    ∃ got missed, as = got ++ missed ∧ f.readAll part = (got, .ended) ∧
      f.stream got <+: part ∧
      ∀ b ∈ missed.head?, part.length < (f.stream (got ++ [b])).length := by
  induction as generalizing part with
  | nil =>
      obtain rfl : part = [] := List.prefix_nil.mp hpart
      exact ⟨[], [], rfl, readAll_error read_nil, List.prefix_rfl, by simp⟩
  | cons a as ih =>
      rw [stream_cons] at hpart
      rcases le_or_gt (f.frame a).length part.length with hlong | hshort
      · -- the first frame is complete, and the rest breaks off
        obtain ⟨part', rfl⟩ := List.prefix_of_prefix_length_le (List.prefix_append _ _) hpart hlong
        have hpart' : part' <+: f.stream as := (List.prefix_append_right_inj _).mp hpart
        obtain ⟨got, missed, hsplit, hread, hgot, hnext⟩ :=
          ih (fun b hb => h b (List.mem_cons_of_mem _ hb)) hpart'
        refine ⟨a :: got, missed, by rw [hsplit]; rfl, ?_, ?_, ?_⟩
        · rw [readAll_ok (read_frame (h a List.mem_cons_self)), hread]
        · rw [stream_cons]
          exact (List.prefix_append_right_inj _).mpr hgot
        · intro b hb
          have hlen := hnext b hb
          rw [List.cons_append, stream_cons, List.length_append, List.length_append]
          omega
      · have hfirst : part <+: f.frame a :=
          List.prefix_of_prefix_length_le hpart (List.prefix_append _ _) hshort.le
        have hne : part ≠ f.frame a := by
          rintro rfl
          omega
        refine ⟨[], a :: as, rfl, readAll_error (read_short (h a List.mem_cons_self) hfirst hne),
          List.nil_prefix, ?_⟩
        rintro b ⟨⟩
        show part.length < (f.stream [a]).length
        rw [stream_cons, List.length_append]
        omega

end Framing

end Lib
