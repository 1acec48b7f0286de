import Tazamun.Lib.Run
import Tazamun.Wire.Framing

set_option autoImplicit false

/-! # One direction of a control connection

What one daemon sends to another (`PeerHandle`, `net/control.rs`) goes through a bounded queue,
a writer task, the byte stream, and a reader task at the other end. `send` drops the message if
the queue is full or the writer is gone, and says so. The writer takes one message after the
other and stops at the first one that cannot be written. Bytes arrive in pieces of any size, and
the reader waits for four bytes of length and then for that many bytes. Either end can give the
connection up at any moment, between any two bytes.

`Link` is that direction with everything in it, and a run is any order of these steps. In every
run the messages delivered are, in order and without a gap, the first of those that `send`
accepted (**`Link.delivers`**). This is what models of the daemons that keep a list of messages
for each pair of nodes rely on.

`accepted` is an observer that no step reads.
-/

namespace Tazamun.Wire

open Lib

variable {Sig : Type}

structure Link (Sig : Type) where
  accepted : List (Msg Sig)
  queue : List (Msg Sig)
  writing : Bool
  flight : Bytes
  cut : Bool
  buffer : Bytes
  /-- The length of the body that the reader waits for, once it has read it. -/
  body : Option Nat
  reading : Bool
  delivered : List (Msg Sig)

inductive LinkAct (Sig : Type) where
  | send (m : Msg Sig)
  | write
  | arrive (n : Nat)
  | read
  | cut
  | close

/-- The capacity of the queue. -/
def queueCapacity : Nat := 1024

namespace Link

def init : Link Sig where
  accepted := []
  queue := []
  writing := true
  flight := []
  cut := false
  buffer := []
  body := none
  reading := true
  delivered := []

variable (sigCodec : Codec Sig)

/-- `PeerHandle::send`, and what it returns. -/
def send (l : Link Sig) (m : Msg Sig) : Link Sig × Bool :=
  if l.writing && decide (l.queue.length < queueCapacity) then
    ({ l with queue := l.queue ++ [m], accepted := l.accepted ++ [m] }, true)
  else (l, false)

/-- The writer is gone, and the queue with it. -/
def stopWriting (l : Link Sig) : Link Sig := { l with writing := false, queue := [] }

def stopReading (l : Link Sig) : Link Sig := { l with reading := false }

/-- A round of the writer task. -/
def write (l : Link Sig) : Option (Link Sig) :=
  if l.writing then
    match l.queue with
    | [] => none
    | m :: queue =>
        match writeMsg sigCodec m with
        | .error _ => some l.stopWriting
        | .ok frame =>
            if l.cut then some l.stopWriting
            else some { l with queue, flight := l.flight ++ frame }
  else none

/-- Bytes arrive. -/
def arrive (l : Link Sig) (n : Nat) : Link Sig :=
  { l with buffer := l.buffer ++ l.flight.take n, flight := l.flight.drop n }

/-- The reader task, which waits for the length or for the body. -/
def read (l : Link Sig) : Option (Link Sig) :=
  if l.reading then
    match l.body with
    | none =>
        if l.buffer.length < 4 then if l.cut then some l.stopReading else none
        else
          let len := fromBeBytes (l.buffer.take 4)
          if len = 0 ∨ maxFrame < len then some l.stopReading
          else some { l with body := some len, buffer := l.buffer.drop 4 }
    | some len =>
        if l.buffer.length < len then if l.cut then some l.stopReading else none
        else
          match fromBytes sigCodec (l.buffer.take len) with
          | none => some l.stopReading
          | some m =>
              some { l with body := none, buffer := l.buffer.drop len
                            delivered := l.delivered ++ [m] }
  else none

/-- The connection is lost, with the bytes on their way. -/
def lose (l : Link Sig) : Link Sig := { l with cut := true, flight := [] }

/-- `PeerHandle::close` at either end stops both tasks there and closes the connection. -/
def step (l : Link Sig) : LinkAct Sig → Option (Link Sig)
  | .send m => some (l.send m).1
  | .write => l.write sigCodec
  | .arrive n => some (l.arrive n)
  | .read => l.read sigCodec
  | .cut => some l.lose
  | .close => some l.lose.stopReading.stopWriting

/-- The messages that are sent are ones that the code can have. -/
def Sends (_ : Link Sig) : LinkAct Sig → Prop
  | .send m => m.Fits
  | _ => True

/-! ## What is on its way -/

/-- The bytes that the reader has read of a frame it has not delivered. -/
def opened (l : Link Sig) : Bytes := (l.body.map toBeBytes).getD []

/-- `transit` are the messages that are written and not delivered, and `rest` those accepted
after them. -/
structure Carries (l : Link Sig) (transit rest : List (Msg Sig)) : Prop where
  accepted : l.accepted = l.delivered ++ (transit ++ rest)
  fits : ∀ m ∈ transit, (framing sigCodec).Fits m
  bytes : l.opened ++ (l.buffer ++ l.flight) <+: (framing sigCodec).stream transit
  whole : l.cut = false → l.opened ++ (l.buffer ++ l.flight) = (framing sigCodec).stream transit
  queue : l.writing = true → rest = l.queue
  range : ∀ len ∈ l.body, len ≤ maxFrame
  lost : l.cut = true → l.flight = []
  reading : l.cut = false → l.reading = true

structure Inv (l : Link Sig) : Prop where
  carries : ∃ transit rest, l.Carries sigCodec transit rest
  fits : ∀ m ∈ l.queue, m.Fits

theorem inv_init : (init : Link Sig).Inv sigCodec where
  carries := ⟨[], [], rfl, by simp, List.prefix_rfl, fun _ => rfl, fun _ => rfl, by simp [init],
    fun h => (by cases h), fun _ => rfl⟩
  fits := by simp [init]

variable {sigCodec} {l l' : Link Sig}

theorem Inv.send (h : l.Inv sigCodec) {m : Msg Sig} (hm : m.Fits) : (l.send m).1.Inv sigCodec := by
  unfold Link.send
  split
  · rename_i hroom
    obtain ⟨transit, rest, hc⟩ := h.carries
    have hwriting := (Bool.and_eq_true_iff.mp hroom).1
    have hrest := hc.queue hwriting
    refine ⟨⟨transit, rest ++ [m], ?_, hc.fits, hc.bytes, hc.whole, fun _ => ?_, hc.range, hc.lost,
      hc.reading⟩, ?_⟩
    · show l.accepted ++ [m] = _
      rw [hc.accepted, List.append_assoc, List.append_assoc]
    · show rest ++ [m] = l.queue ++ [m]
      rw [hrest]
    · intro m' hm'
      rcases List.mem_append.mp hm' with hm' | hm'
      · exact h.fits m' hm'
      · rw [List.mem_singleton.mp hm']
        exact hm
  · exact h

theorem Inv.stopWriting (h : l.Inv sigCodec) : l.stopWriting.Inv sigCodec := by
  obtain ⟨transit, rest, hc⟩ := h.carries
  exact ⟨⟨transit, rest, hc.accepted, hc.fits, hc.bytes, hc.whole, fun hw => (by cases hw), hc.range,
    hc.lost, hc.reading⟩, by simp [Link.stopWriting]⟩

/-- The writer puts the next frame behind those on their way. -/
theorem Inv.write (hsig : ∀ sig, sigCodec.Faithful sig) (h : l.Inv sigCodec)
    (hw : l.write sigCodec = some l') : l'.Inv sigCodec := by
  unfold Link.write at hw
  split at hw
  · rename_i hwriting
    split at hw
    · cases hw
    · rename_i m queue hqueue
      split at hw
      · cases hw
        exact h.stopWriting
      · rename_i frame hframe
        split at hw
        · cases hw
          exact h.stopWriting
        · rename_i hcut
          cases hw
          obtain ⟨transit, rest, hc⟩ := h.carries
          have hcut : l.cut = false := by simpa using hcut
          have hm := h.fits m (by rw [hqueue]; exact List.mem_cons_self)
          obtain ⟨hfits, rfl⟩ := fits_of_writeMsg hsig hm hframe
          have hrest : rest = m :: queue := (hc.queue hwriting).trans hqueue
          have hbytes : l.opened ++ (l.buffer ++ (l.flight ++ (framing sigCodec).frame m))
              = (framing sigCodec).stream (transit ++ [m]) := by
            have hone : (framing sigCodec).stream [m] = (framing sigCodec).frame m := by
              rw [Framing.stream_cons]
              exact List.append_nil _
            rw [Framing.stream_append, hone, ← hc.whole hcut, List.append_assoc, List.append_assoc]
          refine ⟨⟨transit ++ [m], queue, ?_, ?_, ?_, fun _ => hbytes, fun _ => rfl, hc.range,
            fun hlost => by simp [hcut] at hlost, hc.reading⟩, ?_⟩
          · show l.accepted = _
            rw [hc.accepted, hrest, List.append_assoc]
            rfl
          · intro m' hm'
            rcases List.mem_append.mp hm' with hm' | hm'
            · exact hc.fits m' hm'
            · rw [List.mem_singleton.mp hm']
              exact hfits
          · show l.opened ++ (l.buffer ++ (l.flight ++ _)) <+: _
            rw [hbytes]
          · intro m' hm'
            exact h.fits m' (by rw [hqueue]; exact List.mem_cons_of_mem _ hm')
  · cases hw

theorem Inv.arrive (h : l.Inv sigCodec) (n : Nat) : (l.arrive n).Inv sigCodec := by
  obtain ⟨transit, rest, hc⟩ := h.carries
  have hsame : (l.buffer ++ l.flight.take n) ++ l.flight.drop n = l.buffer ++ l.flight := by
    rw [List.append_assoc, List.take_append_drop]
  refine ⟨⟨transit, rest, hc.accepted, hc.fits, ?_, fun hcut => ?_, hc.queue, hc.range,
    fun hcut => ?_, hc.reading⟩, h.fits⟩
  · show l.opened ++ ((l.buffer ++ l.flight.take n) ++ l.flight.drop n) <+: _
    rw [hsame]
    exact hc.bytes
  · show l.opened ++ ((l.buffer ++ l.flight.take n) ++ l.flight.drop n) = _
    rw [hsame]
    exact hc.whole hcut
  · show l.flight.drop n = []
    rw [hc.lost hcut, List.drop_nil]

theorem Inv.lose (h : l.Inv sigCodec) : l.lose.Inv sigCodec := by
  obtain ⟨transit, rest, hc⟩ := h.carries
  refine ⟨⟨transit, rest, hc.accepted, hc.fits, ?_, fun hcut => (by cases hcut), hc.queue, hc.range,
    fun _ => rfl, fun hcut => (by cases hcut)⟩, h.fits⟩
  refine List.IsPrefix.trans ?_ hc.bytes
  show l.opened ++ (l.buffer ++ []) <+: l.opened ++ (l.buffer ++ l.flight)
  rw [List.append_nil, ← List.append_assoc]
  exact List.prefix_append _ _

theorem Carries.stopReading {transit rest : List (Msg Sig)} (hc : l.Carries sigCodec transit rest)
    (hcut : l.cut = true) : l.stopReading.Carries sigCodec transit rest := by
  refine ⟨hc.accepted, hc.fits, hc.bytes, hc.whole, hc.queue, hc.range, hc.lost, fun h => ?_⟩
  rw [show l.cut = false from h] at hcut
  cases hcut

/-- The reader takes a length or a message off the front of what has arrived, and never meets
one that is out of range or that it cannot decode. -/
theorem Inv.read (h : l.Inv sigCodec) (hr : l.read sigCodec = some l') : l'.Inv sigCodec := by
  obtain ⟨transit, rest, hc⟩ := h.carries
  unfold Link.read at hr
  split at hr
  · split at hr
    · rename_i hbody
      have hopened : l.opened = [] := by rw [opened, hbody]; rfl
      split at hr
      · split at hr
        · rename_i hcut
          cases hr
          exact ⟨⟨transit, rest, hc.stopReading hcut⟩, h.fits⟩
        · cases hr
      · rename_i hlen
        have hbytes := hc.bytes
        rw [hopened, List.nil_append] at hbytes
        obtain ⟨a, as, rfl, hfirst, -⟩ := Framing.front hbytes (by rw [List.length_append]; omega)
        rw [List.take_append_of_le_length (by omega)] at hfirst
        have hfits := hc.fits a List.mem_cons_self
        have hnat : fromBeBytes (l.buffer.take 4) = ((framing sigCodec).codec.write a).length := by
          rw [fromBeBytes, hfirst, hfits.readHeader]
        have hpos := hfits.length_pos
        have hmax : ((framing sigCodec).codec.write a).length ≤ maxFrame := hfits.length_le
        dsimp only at hr
        rw [if_neg (by omega)] at hr
        cases hr
        -- the four bytes move from the buffer to what the reader has opened
        have hmove : toBeBytes (fromBeBytes (l.buffer.take 4)) ++ (l.buffer.drop 4 ++ l.flight)
            = l.buffer ++ l.flight := by
          rw [hnat, toBeBytes, ← hfirst, ← List.append_assoc, List.take_append_drop]
        refine ⟨⟨a :: as, rest, hc.accepted, hc.fits, ?_, fun hcut => ?_, hc.queue, ?_, hc.lost,
          hc.reading⟩, h.fits⟩
        · show toBeBytes _ ++ (l.buffer.drop 4 ++ l.flight) <+: _
          rw [hmove]
          exact hbytes
        · show toBeBytes _ ++ (l.buffer.drop 4 ++ l.flight) = _
          have hwhole := hc.whole hcut
          rw [hopened, List.nil_append] at hwhole
          rw [hmove]
          exact hwhole
        · rintro len ⟨⟩
          omega
    · rename_i len hbody
      have hopened : l.opened = toBeBytes len := by rw [opened, hbody]; rfl
      split at hr
      · split at hr
        · rename_i hcut
          cases hr
          exact ⟨⟨transit, rest, hc.stopReading hcut⟩, h.fits⟩
        · cases hr
      · rename_i hlen
        have hbytes := hc.bytes
        have hrange : len < 256 ^ 4 := lt_of_le_of_lt (hc.range len hbody) (by decide)
        have hheader : (toBeBytes len).length = 4 := Framing.length_header len
        rw [hopened] at hbytes
        obtain ⟨a, as, rfl, hfirst, hafter⟩ := Framing.front hbytes (by rw [List.length_append]; omega)
        rw [List.take_left' hheader] at hfirst
        rw [List.drop_left' hheader] at hafter
        have hfits := hc.fits a List.mem_cons_self
        obtain rfl : len = ((framing sigCodec).codec.write a).length := by
          rw [← Framing.readHeader_header hrange, ← hfits.readHeader, ← hfirst]
          rfl
        set body := (framing sigCodec).codec.write a with hbodyDef
        -- the body has arrived, so it is what the buffer starts with
        obtain ⟨more, hbuffer⟩ : body <+: l.buffer := by
          refine List.prefix_of_prefix_length_le (List.prefix_append body _)
            ((List.prefix_append _ _).trans hafter) (by omega)
        rw [← hbuffer, List.append_assoc] at hafter
        have hmore : more ++ l.flight <+: (framing sigCodec).stream as :=
          (List.prefix_append_right_inj body).mp hafter
        have hdecode : fromBytes sigCodec (l.buffer.take body.length) = some a := by
          rw [← hbuffer, List.take_left]
          exact Codec.decode_write hfits.faithful
        have hdrop : l.buffer.drop body.length = more := by rw [← hbuffer, List.drop_left]
        rw [hdecode] at hr
        cases hr
        refine ⟨⟨as, rest, ?_, fun m hm => hc.fits m (List.mem_cons_of_mem _ hm), ?_, fun hcut => ?_,
          hc.queue, by simp, hc.lost, hc.reading⟩, h.fits⟩
        · show l.accepted = (l.delivered ++ [a]) ++ (as ++ rest)
          rw [hc.accepted, List.append_assoc]
          rfl
        · show [] ++ (l.buffer.drop body.length ++ l.flight) <+: _
          rw [hdrop, List.nil_append]
          exact hmore
        · show [] ++ (l.buffer.drop body.length ++ l.flight) = _
          have hwhole := hc.whole hcut
          rw [hopened, ← hbuffer, Framing.stream_cons, Framing.frame, List.append_assoc,
            List.append_assoc] at hwhole
          rw [hdrop, List.nil_append]
          exact List.append_cancel_left (List.append_cancel_left hwhole)
  · cases hr

theorem Inv.step (hsig : ∀ sig, sigCodec.Faithful sig) (h : l.Inv sigCodec) {act : LinkAct Sig}
    (hsends : Sends l act) (hs : l.step sigCodec act = some l') : l'.Inv sigCodec := by
  cases act with
  | send m =>
      cases hs
      exact h.send hsends
  | write => exact h.write hsig hs
  | arrive n =>
      cases hs
      exact h.arrive n
  | read => exact h.read hs
  | cut =>
      cases hs
      exact h.lose
  | close =>
      cases hs
      have hlost := h.lose
      obtain ⟨transit, rest, hc⟩ := hlost.carries
      refine Inv.stopWriting ⟨⟨transit, rest, hc.stopReading rfl⟩, hlost.fits⟩

/-- Neither task can go on, and nothing is on its way. -/
def Idle (sigCodec : Codec Sig) (l : Link Sig) : Prop :=
  l.write sigCodec = none ∧ l.flight = [] ∧ l.read sigCodec = none

/-- **What arrives**: in every run the messages delivered are the first of those accepted, in
order. As long as the connection is not given up the reader meets no error, and once both tasks
wait, with the writer still there, everything accepted is delivered. -/
theorem delivers (hsig : ∀ sig, sigCodec.Faithful sig)
    (hrun : Reaches (step sigCodec) Sends init l) :
    l.delivered <+: l.accepted ∧
      (l.cut = false → l.reading = true) ∧
      (l.cut = false → l.writing = true → l.Idle sigCodec → l.delivered = l.accepted) := by
  have hinv : l.Inv sigCodec :=
    hrun.invariant (inv_init sigCodec) fun _ _ _ hi hsends hs => hi.step hsig hsends hs
  obtain ⟨transit, rest, hc⟩ := hinv.carries
  refine ⟨?_, hc.reading, fun hcut hwriting hidle => ?_⟩
  · rw [hc.accepted]
    exact List.prefix_append _ _
  · obtain ⟨hwrite, hflight, hread⟩ := hidle
    have hqueue : l.queue = [] := by
      unfold Link.write at hwrite
      rw [if_pos hwriting] at hwrite
      split at hwrite
      · assumption
      · split at hwrite
        · cases hwrite
        · rw [hcut] at hwrite
          cases hwrite
    have hrest : rest = [] := (hc.queue hwriting).trans hqueue
    have hwhole := hc.whole hcut
    rw [hflight, List.append_nil] at hwhole
    -- a frame on its way would be complete in the buffer, and the reader could go on
    have htransit : transit = [] := by
      cases htransit : transit with
      | nil => rfl
      | cons a as =>
          exfalso
          have hframe : ((framing sigCodec).frame a).length ≤ (l.opened ++ l.buffer).length := by
            rw [hwhole, htransit, Framing.stream_cons, List.length_append]
            omega
          have hfits := hc.fits a (by rw [htransit]; exact List.mem_cons_self)
          have hpos := hfits.length_pos
          rw [Framing.length_frame, List.length_append] at hframe
          unfold Link.read at hread
          rw [if_pos (hc.reading hcut)] at hread
          cases hbody : l.body with
          | none =>
              have hopened : l.opened = [] := by rw [opened, hbody]; rfl
              rw [hopened, List.length_nil] at hframe
              rw [hbody] at hread
              dsimp only at hread
              rw [if_neg (by omega)] at hread
              split at hread <;> cases hread
          | some len =>
              have hopened : l.opened = toBeBytes len := by rw [opened, hbody]; rfl
              have hheader : (toBeBytes len).length = 4 := Framing.length_header len
              have hrange : len < 256 ^ 4 := lt_of_le_of_lt (hc.range len hbody) (by decide)
              have hlen : len = ((framing sigCodec).codec.write a).length := by
                have hfirst : toBeBytes len =
                    Framing.header ((framing sigCodec).codec.write a).length := by
                  have htake := congrArg (List.take 4) hwhole
                  rw [hopened, htransit, Framing.stream_cons, List.take_left' hheader,
                    Framing.take_frame] at htake
                  exact htake
                rw [← Framing.readHeader_header hrange, ← hfits.readHeader, ← hfirst]
                rfl
              rw [hopened, hheader] at hframe
              rw [hbody] at hread
              dsimp only at hread
              rw [if_neg (by omega)] at hread
              split at hread <;> cases hread
    rw [hc.accepted, hrest, htransit]
    simp

/-- One message arrives in two pieces; the connection is lost before the next one is written. -/
def oneOfTwo : List (LinkAct (List.Vector UInt8 64)) :=
  [.send .bye, .write, .arrive 3, .send .bye, .arrive 2, .read, .read, .cut, .write]

theorem delivers_oneOfTwo : ∃ l : Link (List.Vector UInt8 64),
    l.delivered.length = 1 ∧ l.accepted.length = 2 ∧ l.delivered <+: l.accepted := by
  have hok : ∀ act ∈ oneOfTwo, ∀ l, Sends l act := by
    intro act hact l
    simp only [oneOfTwo, List.mem_cons, List.not_mem_nil, or_false] at hact
    rcases hact with rfl | rfl | rfl | rfl | rfl | rfl | rfl | rfl | rfl <;> trivial
  have hrun : (execute (step ed25519Codec) oneOfTwo init).any
      (fun l => l.delivered.length == 1 && l.accepted.length == 2) = true := by decide +kernel
  obtain ⟨l, hreach, hl⟩ := exists_reaches_of_execute Sends hok hrun
  simp only [Bool.and_eq_true, beq_iff_eq] at hl
  exact ⟨l, hl.1, hl.2, (delivers ed25519Codec_faithful hreach).1⟩

end Link

end Tazamun.Wire
