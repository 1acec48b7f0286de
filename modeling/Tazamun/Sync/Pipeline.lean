import Tazamun.Lib.Run
import Tazamun.Sync.Chunker

set_option autoImplicit false

/-! # The pipelined chunker

`chunk_file` reads a regular file in a thread of its own, scans for cuts in the calling
thread, and hashes the chunks of each window in a task on a pool (`sync/chunker.rs`). Three
buffers go round: the reader takes one from the recycle channel, fills it and sends it to the
scanner; the scanner puts what the last window left in front, cuts, and gives the buffer to a
hash task; the task returns the buffer before it sends the hashed batch. Batches are numbered
when they are dispatched and may arrive in any order; the scanner keeps them in `pending` and
emits those whose turn it is.

`Pipe` is the state of all parties and the channels between them, `Pipe.step` what each party
can do next. A run is any interleaving. The pool may be missing (`pool = false`); then the
scanner hashes by itself.

A read is one step: it touches nothing but the reader's own buffer and the file. The batch of
a task is fixed when it is spawned, because the buffer is moved into it. Offsets count from
the beginning of the view and not of the buffer.
-/

namespace Tazamun

/-! ## The parties -/

/-- `SEG`, `CARRY` and `BUFS`. -/
def segment : Nat := 4 * 1024 * 1024
def carryRoom : Nat := 2 * cdcMax
def bufs : Nat := 3

/-- What the reader thread sends. -/
inductive Filled where
  | seg (data : Bytes) (eof : Bool)
  | failed

/-- Where the calling thread is. -/
inductive ScanPhase where
  /-- It receives from the reader. -/
  | scan
  /-- It takes what the hash tasks have sent so far; `eof` is that of the window before. -/
  | collect (eof : Bool)
  /-- It waits for the outstanding batches. -/
  | drain
  /-- The channels are closed; it waits for the reader thread to end. -/
  | join (result : Except ChunkError Unit)
  | returned (result : Except ChunkError Unit)
  /-- The carry does not fit in front of the buffer. -/
  | crashed

structure Pipe where
  reader : Reader
  /-- The reader thread runs. -/
  reading : Bool
  /-- The buffers in the recycle channel. -/
  free : Nat
  filled : List Filled
  /-- The hash tasks that have a buffer, and those that have returned it. -/
  hashing : List (Nat × HashedBatch)
  handing : List (Nat × HashedBatch)
  /-- The channel from the hash tasks. -/
  done : List (Nat × HashedBatch)
  carry : Bytes
  nextDispatch : Nat
  nextEmit : Nat
  pending : Map Nat HashedBatch
  out : Emitted
  phase : ScanPhase

def Pipe.start (bytes : Bytes) (reads : Nat → Option Nat) : Pipe :=
  { reader := { rest := bytes, reads, count := 0 }
    reading := true, free := bufs, filled := [], hashing := [], handing := [], done := []
    carry := [], nextDispatch := 0, nextEmit := 0, pending := ∅, out := .start, phase := .scan }

/-- `emit_ready`: every batch whose number is next. -/
def emitReady (sink : Sink) (pending : Map Nat HashedBatch) (next : Nat) (out : Emitted) :
    Map Nat HashedBatch × Nat × Emitted × Option ChunkError :=
  match _ : pending[next]? with
  | none => (pending, next, out, none)
  | some batch =>
      match emitBatch sink batch out with
      | (out, some e) => (pending.erase next, next + 1, out, some e)
      | (out, none) => emitReady sink (pending.erase next) (next + 1) out
termination_by pending.size
decreasing_by exact Map.size_erase_lt ‹pending[next]? = some batch›

namespace Pipe

/-- A sender of the recycle channel is left: the scanner's until it is done, and one in each
hash task. -/
def recycleOpen (p : Pipe) : Bool :=
  match p.phase with
  | .join _ | .returned _ | .crashed => !p.hashing.isEmpty || !p.handing.isEmpty
  | _ => true

/-- The same for the channel from the hash tasks. -/
def doneOpen (p : Pipe) : Bool := p.recycleOpen

/-- The reader thread takes a free buffer, fills it and sends it. -/
def read (p : Pipe) : Option Pipe :=
  if p.reading ∧ 0 < p.free ∧ p.filled.length < bufs then
    match p.reader.fill segment with
    | none =>
        some { p with free := p.free - 1, filled := p.filled ++ [.failed], reading := false }
    | some (data, eof, reader) =>
        some { p with free := p.free - 1, filled := p.filled ++ [.seg data eof]
                      reader := reader, reading := !eof }
  else none

/-- The reader thread finds the recycle channel closed. -/
def hangUp (p : Pipe) : Option Pipe :=
  if p.reading ∧ p.free = 0 ∧ !p.recycleOpen then some { p with reading := false } else none

/-- The `i`-th hash task returns its buffer. Where the reader thread has ended the send fails
and is ignored; the buffer is counted all the same, for nobody. -/
def hashed (p : Pipe) (i : Nat) : Option Pipe :=
  match p.hashing[i]? with
  | none => none
  | some task =>
      if p.free < bufs then
        some { p with free := p.free + 1, hashing := p.hashing.eraseIdx i
                      handing := p.handing ++ [task] }
      else none

/-- The `i`-th of the tasks that returned their buffer sends its batch. -/
def handed (p : Pipe) (i : Nat) : Option Pipe :=
  match p.handing[i]? with
  | none => none
  | some task =>
      some { p with handing := p.handing.eraseIdx i, done := p.done ++ [task] }

/-- `emit_ready`, and the end if the sink refuses; otherwise the scanner goes on with
`next`. -/
def emit (p : Pipe) (sink : Sink) (next : ScanPhase) : Pipe :=
  match emitReady sink p.pending p.nextEmit p.out with
  | (pending, nextEmit, out, some e) => { p with pending, nextEmit, out, phase := .join (.error e) }
  | (pending, nextEmit, out, none) => { p with pending, nextEmit, out, phase := next }

/-- A window: the final cuts of what was carried and what was read go to a hash task, the
rest is carried on. -/
def window (p : Pipe) (cdc : FastCdc) (pool : Bool) (data : Bytes) (eof : Bool) : Option Pipe :=
  if carryRoom < p.carry.length then some { p with phase := .crashed }
  else
    let view := p.carry ++ data
    let cuts := cdc.cutter.final eof view
    let carry := cdc.cutter.kept eof view
    if cuts = [] then
      if eof = true ∧ view = [] then some { p with carry, phase := .drain }
      else some { p with carry, phase := .join (.error .noFinalizedCut) }
    else
      let task := (p.nextDispatch, hashBatch cdc.chunker view cuts true)
      if pool then
        some { p with carry, nextDispatch := p.nextDispatch + 1, hashing := p.hashing ++ [task]
                      phase := .collect eof }
      else if p.free < bufs then
        some { p with carry, nextDispatch := p.nextDispatch + 1, free := p.free + 1
                      done := p.done ++ [task], phase := .collect eof }
      else none

/-- `filled_rx.recv()` and what follows. -/
def scan (p : Pipe) (cdc : FastCdc) (pool : Bool) : Option Pipe :=
  match p.filled with
  | .seg data eof :: filled => { p with filled }.window cdc pool data eof
  | .failed :: filled => some { p with filled, phase := .join (.error .read) }
  | [] => if p.reading then none else some { p with phase := .drain }

/-- One `done_rx.try_recv()`; the batches that are next are emitted when it finds nothing. -/
def collect (p : Pipe) (sink : Sink) (eof : Bool) : Pipe :=
  match p.done with
  | (seq, batch) :: done => { p with done, pending := p.pending.insert seq batch }
  | [] => p.emit sink (if eof then .drain else .scan)

/-- One round of the last loop. -/
def drain (p : Pipe) (sink : Sink) : Option Pipe :=
  if p.nextEmit < p.nextDispatch then
    match p.done with
    | (seq, batch) :: done =>
        some ({ p with done, pending := p.pending.insert seq batch }.emit sink .drain)
    | [] => if p.doneOpen then none else some { p with phase := .join (.error .hashStageEnded) }
  else some { p with phase := .join (.ok ()) }

/-- Who moves. -/
inductive Act where
  | read
  | hangUp
  | hashed (i : Nat)
  | handed (i : Nat)
  /-- The calling thread. -/
  | main

def main (p : Pipe) (cdc : FastCdc) (pool : Bool) (sink : Sink) : Option Pipe :=
  match p.phase with
  | .scan => p.scan cdc pool
  | .collect eof => some (p.collect sink eof)
  | .drain => p.drain sink
  | .join result => if p.reading then none else some { p with phase := .returned result }
  | .returned _ => none
  | .crashed => none

def step (cdc : FastCdc) (pool : Bool) (sink : Sink) (p : Pipe) : Act → Option Pipe
  | .read => p.read
  | .hangUp => p.hangUp
  | .hashed i => p.hashed i
  | .handed i => p.handed i
  | .main => p.main cdc pool sink

/-- What `chunk_file` leaves. -/
def outcome (p : Pipe) : Option Chunked :=
  match p.phase with
  | .returned (.ok ()) => some p.out.returned
  | .returned (.error e) => some (p.out.failed e)
  | _ => none

end Pipe

end Tazamun
