import Tazamun.Daemon.Actor
import Tazamun.Lib.Frames
import Tazamun.Wire.Message

set_option autoImplicit false

/-! # Frames of control messages

`write_msg`, `read_msg` and `decode_frame` (`proto.rs`). The two readers apply the same rules,
one to a stream and one to a buffer: the length of a body is between 1 and `MAX_FRAME`, and the
body is the encoding of a message. They differ in the errors, and in that the stream is left
where the frame ends (`decodeFrame_ok`).

The reader of a connection reads until the first error (`readLoop`), and it is fatal. What
another node has written it reads back in order; if the stream breaks off, it has read the
messages that arrived whole and no others (**`readLoop_cut`**).
-/

namespace Tazamun.Wire

open Lib (Codec Framing)

inductive ProtoError where
  | badLength (n : Nat)
  | oversized (n : Nat)
  | decode
  | read
deriving DecidableEq

variable {Sig : Type} (sigCodec : Codec Sig)

/-! ## Writing and reading -/

/-- `postcard::to_stdvec`. -/
def toStdvec (m : Msg Sig) : Bytes := (msgCodec sigCodec currentMinor).write m

/-- `postcard::from_bytes`. -/
def fromBytes (body : Bytes) : Option (Msg Sig) := (msgCodec sigCodec currentMinor).decode body

/-- `u32::to_be_bytes` and `u32::from_be_bytes`. -/
def toBeBytes (n : Nat) : Bytes := Framing.header n

def fromBeBytes (bytes : Bytes) : Nat := Framing.readHeader bytes

/-- `write_msg`: the bytes that go out. -/
def writeMsg (m : Msg Sig) : Except ProtoError Bytes :=
  let body := toStdvec sigCodec m
  if body.isEmpty || decide (maxFrame < body.length) then .error (.oversized body.length)
  else .ok (toBeBytes body.length ++ body)

/-- `decode_frame`. -/
def decodeFrame (buf : Bytes) : Except ProtoError (Msg Sig) :=
  if buf.length < 4 then .error (.badLength buf.length)
  else
    let len := fromBeBytes (buf.take 4)
    if len = 0 ∨ maxFrame < len then .error (.badLength len)
    else if (buf.drop 4).length < len then .error (.badLength len)
    else
      match fromBytes sigCodec ((buf.drop 4).take len) with
      | none => .error .decode
      | some m => .ok m

/-- `read_msg`, on a stream of which `bytes` arrive, and what is left of them. -/
def readMsg (bytes : Bytes) : Except ProtoError (Msg Sig × Bytes) :=
  if bytes.length < 4 then .error .read
  else
    let len := fromBeBytes (bytes.take 4)
    if len = 0 ∨ maxFrame < len then .error (.badLength len)
    else if (bytes.drop 4).length < len then .error .read
    else
      match fromBytes sigCodec ((bytes.drop 4).take len) with
      | none => .error .decode
      | some m => .ok (m, (bytes.drop 4).drop len)

/-! ## As a framing -/

def framing : Framing (Msg Sig) where
  codec := msgCodec sigCodec currentMinor
  maxBody := maxFrame
  maxBody_lt := by decide

def ProtoError.ofStop : Framing.Stop → ProtoError
  | .ended => .read
  | .badLength n => .badLength n
  | .malformed => .decode

theorem readMsg_eq (bytes : Bytes) :
    readMsg sigCodec bytes = ((framing sigCodec).read bytes).mapError ProtoError.ofStop := by
  unfold readMsg Framing.read
  dsimp only
  by_cases hheader : bytes.length < 4
  · rw [if_pos hheader, if_pos hheader]
    rfl
  · rw [if_neg hheader, if_neg hheader]
    by_cases hbad : fromBeBytes (bytes.take 4) = 0 ∨ maxFrame < fromBeBytes (bytes.take 4)
    · have hbad' : Framing.readHeader (bytes.take 4) = 0 ∨
          (framing sigCodec).maxBody < Framing.readHeader (bytes.take 4) := hbad
      rw [if_pos hbad, if_pos hbad']
      rfl
    · have hgood' : ¬ (Framing.readHeader (bytes.take 4) = 0 ∨
          (framing sigCodec).maxBody < Framing.readHeader (bytes.take 4)) := hbad
      rw [if_neg hbad, if_neg hgood']
      by_cases hshort : (bytes.drop 4).length < fromBeBytes (bytes.take 4)
      · have hshort' : (bytes.drop 4).length < Framing.readHeader (bytes.take 4) := hshort
        rw [if_pos hshort, if_pos hshort']
        rfl
      · have hlong' : ¬ (bytes.drop 4).length < Framing.readHeader (bytes.take 4) := hshort
        have hbody : (framing sigCodec).codec.decode
            ((bytes.drop 4).take (Framing.readHeader (bytes.take 4)))
              = fromBytes sigCodec ((bytes.drop 4).take (fromBeBytes (bytes.take 4))) := rfl
        rw [if_neg hshort, if_neg hlong', hbody]
        cases fromBytes sigCodec ((bytes.drop 4).take (fromBeBytes (bytes.take 4))) <;> rfl

theorem readMsg_length_lt {bytes rest : Bytes} {m : Msg Sig}
    (h : readMsg sigCodec bytes = .ok (m, rest)) : rest.length < bytes.length := by
  rw [readMsg_eq] at h
  cases hread : (framing sigCodec).read bytes with
  | error stop =>
      rw [hread] at h
      cases h
  | ok r =>
      rw [hread] at h
      cases h
      exact Framing.length_lt_of_read hread

/-- The reader of a connection: messages until the first error. -/
def readLoop (bytes : Bytes) : List (Msg Sig) × ProtoError :=
  match h : readMsg sigCodec bytes with
  | .error e => ([], e)
  | .ok (m, rest) =>
      have : rest.length < bytes.length := readMsg_length_lt sigCodec h
      (m :: (readLoop rest).1, (readLoop rest).2)
termination_by bytes.length

theorem readLoop_eq (bytes : Bytes) :
    readLoop sigCodec bytes = (((framing sigCodec).readAll bytes).1,
      ProtoError.ofStop ((framing sigCodec).readAll bytes).2) := by
  induction hn : bytes.length using Nat.strong_induction_on generalizing bytes with
  | _ n ih =>
      have hmsg := readMsg_eq sigCodec bytes
      rw [readLoop]
      cases hread : (framing sigCodec).read bytes with
      | error stop =>
          rw [hread] at hmsg
          rw [Framing.readAll_error hread]
          split
          · rename_i e he
            rw [he] at hmsg
            cases hmsg
            rfl
          · rename_i m rest hok
            rw [hok] at hmsg
            cases hmsg
      | ok r =>
          obtain ⟨m, rest⟩ := r
          have hlt : rest.length < n := hn ▸ Framing.length_lt_of_read hread
          have hrest := ih rest.length hlt rest rfl
          rw [hread] at hmsg
          rw [Framing.readAll_ok hread]
          split
          · rename_i e he
            rw [he] at hmsg
            cases hmsg
          · rename_i m' rest' hok
            rw [hok] at hmsg
            cases hmsg
            rw [hrest]

/-! ## Messages on a stream -/

section Streams

variable {sigCodec} (hsig : ∀ sig, sigCodec.Faithful sig)

include hsig

/-- A message that `write_msg` writes. -/
theorem fits_of_writeMsg {m : Msg Sig} {frame : Bytes} (hfits : m.Fits)
    (h : writeMsg sigCodec m = .ok frame) :
    (framing sigCodec).Fits m ∧ frame = (framing sigCodec).frame m := by
  unfold writeMsg at h
  dsimp only at h
  split at h
  · cases h
  · rename_i hok
    simp only [Bool.or_eq_true, decide_eq_true_eq, not_or, Bool.not_eq_true, not_lt,
      List.isEmpty_eq_false_iff] at hok
    cases h
    exact ⟨⟨hok.1, hok.2, msgCodec_faithful hsig hfits (known_current m)⟩, rfl⟩

/-- The frames that `write_msg` makes of the messages. -/
def Written (sigCodec : Codec Sig) : List (Msg Sig) → List Bytes → Prop :=
  List.Forall₂ fun m frame => writeMsg sigCodec m = .ok frame

variable {ms : List (Msg Sig)} {frames : List Bytes}

theorem fits_of_written (hfits : ∀ m ∈ ms, m.Fits) (h : Written sigCodec ms frames) :
    (∀ m ∈ ms, (framing sigCodec).Fits m) ∧ frames = ms.map (framing sigCodec).frame := by
  induction h with
  | nil => exact ⟨by simp, rfl⟩
  | cons hframe _ ih =>
      obtain ⟨hm, rfl⟩ := fits_of_writeMsg hsig (hfits _ List.mem_cons_self) hframe
      obtain ⟨hms, rfl⟩ := ih fun m' hm' => hfits m' (List.mem_cons_of_mem _ hm')
      refine ⟨fun m' hm' => ?_, rfl⟩
      rcases List.mem_cons.mp hm' with rfl | hm'
      · exact hm
      · exact hms m' hm'

/-- **A connection that breaks off** at any byte has delivered the messages that arrived whole,
in order, and no others; with nothing missing, reading goes on with what follows. -/
theorem readLoop_cut (hfits : ∀ m ∈ ms, m.Fits) (h : Written sigCodec ms frames) :
    (∀ rest, readLoop sigCodec (frames.flatten ++ rest)
      = (ms ++ (readLoop sigCodec rest).1, (readLoop sigCodec rest).2)) ∧
    ∀ part, part <+: frames.flatten → ∃ k, readLoop sigCodec part = (ms.take k, .read) ∧
      (frames.take k).flatten <+: part ∧
      (k < ms.length → part.length < (frames.take (k + 1)).flatten.length) := by
  obtain ⟨hms, rfl⟩ := fits_of_written hsig hfits h
  have hflat : (ms.map (framing sigCodec).frame).flatten = (framing sigCodec).stream ms :=
    List.flatMap_def.symm
  rw [hflat]
  refine ⟨fun rest => ?_, fun part hpart => ?_⟩
  · rw [readLoop_eq, Framing.readAll_stream hms, readLoop_eq]
  · obtain ⟨got, missed, hsplit, hread, hgot, hnext⟩ := Framing.readAll_prefix hms hpart
    have hstream : ∀ as : List (Msg Sig),
        (as.map (framing sigCodec).frame).flatten = (framing sigCodec).stream as :=
      fun as => List.flatMap_def.symm
    refine ⟨got.length, ?_, ?_, fun hlt => ?_⟩
    · rw [readLoop_eq, hread, hsplit, List.take_left]
      rfl
    · rw [← List.map_take, hstream, hsplit, List.take_left]
      exact hgot
    · cases missed with
      | nil =>
          rw [hsplit, List.append_nil] at hlt
          exact absurd hlt (lt_irrefl _)
      | cons b missed =>
          have htake : (got ++ b :: missed).take (got.length + 1) = got ++ [b] := by
            rw [List.append_cons, List.take_left' (by simp)]
          rw [← List.map_take, hstream, hsplit, htake]
          exact hnext b rfl

end Streams

/-- Two messages, of which the second has not arrived whole. -/
theorem readLoop_cut_two : ∃ (frames : List Bytes) (k : Nat),
    readLoop ed25519Codec (frames.flatten.take 11)
      = (([.bye, .lockFreed "a"] : List (Msg (List.Vector UInt8 64))).take k, .read) := by
  have hfits : ∀ m ∈ ([.bye, .lockFreed "a"] : List (Msg (List.Vector UInt8 64))), m.Fits := by
    intro m hm
    rcases List.mem_pair.mp hm with rfl | rfl
    · trivial
    · show TextFits "a"
      unfold TextFits
      decide +kernel
  have hwritten : Written ed25519Codec [.bye, .lockFreed "a"]
      [[0, 0, 0, 1, 10], [0, 0, 0, 3, 12, 1, 97]] :=
    .cons (by decide +kernel) (.cons (by decide +kernel) .nil)
  obtain ⟨k, hread, -⟩ := (readLoop_cut ed25519Codec_faithful hfits hwritten).2
    _ (List.take_prefix 11 _)
  exact ⟨_, k, hread⟩

/-- On a buffer the message is the one that a stream with these bytes gives. -/
theorem decodeFrame_ok {buf : Bytes} {m : Msg Sig} :
    decodeFrame sigCodec buf = .ok m ↔ ∃ rest, readMsg sigCodec buf = .ok (m, rest) := by
  unfold decodeFrame readMsg
  by_cases hheader : buf.length < 4
  · simp [hheader]
  · rw [if_neg hheader, if_neg hheader]
    dsimp only
    by_cases hbad : fromBeBytes (buf.take 4) = 0 ∨ maxFrame < fromBeBytes (buf.take 4)
    · simp [hbad]
    · rw [if_neg hbad, if_neg hbad]
      by_cases hshort : (buf.drop 4).length < fromBeBytes (buf.take 4)
      · rw [if_pos hshort, if_pos hshort]
        simp
      · rw [if_neg hshort, if_neg hshort]
        cases fromBytes sigCodec ((buf.drop 4).take (fromBeBytes (buf.take 4))) <;> simp

end Tazamun.Wire
