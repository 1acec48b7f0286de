import Tazamun.Sync.Chunker

set_option autoImplicit false

/-! # The transfer of blobs

The transfer layer (`sync/transfer.rs`) moves files in and out of the blob store.
`publish_local` puts the chunks of a file into the store and makes its manifest: the chunk
list itself, or when the list is long the hash of a blob that holds it. `pull_stage` gets the
chunks of a peer's record that are missing, from several peers at once, and assembles them
into a staging file; `materialize` does the same from the store alone. `resolve_manifest`
turns a manifest back into the list.

The store is iroh-blobs, which is third-party: it files blobs under their hashes, and what it
fetches from a peer has the hash that was asked for (`BlobStore.filed`, `Fetch`). postcard is
`Postcard`. How the connections and the operations on the staging file turn out, in which
order fetches complete and with what answer are inputs (`PullIo`). The rate limiter, the
progress meter and the temp tags of the garbage collection are left out; the tags are those
of `Store.Gc`.
-/

namespace Tazamun.Transfer

/-! ## Constants (`lib.rs`) -/

def inlineManifestMax : Nat := 256
def maxManifestBytes : Nat := maxChunksPerFile * 48
def fetchConcurrency : Nat := 16
def swarmPeers : Nat := 4
def maxChunkRetries : Nat := 5

/-! ## The store -/

/-- The blobs of the store, each under its hash. -/
structure BlobStore (hash : Bytes → Nat) where
  blobs : Map Nat Bytes
  filed : ∀ (h : Nat) (b : Bytes), blobs[h]? = some b → hash b = h

/-- How a fetch goes: an error, or bytes with the hash that was asked for. -/
abbrev Fetch (hash : Bytes → Nat) : Type := (h : Nat) → Except String { b : Bytes // hash b = h }

namespace BlobStore

variable {hash : Bytes → Nat}

def empty : BlobStore hash := { blobs := ∅, filed := fun h b hb => by simp at hb }

def get (s : BlobStore hash) (h : Nat) : Option Bytes := s.blobs[h]?

def has (s : BlobStore hash) (h : Nat) : Bool := s.blobs.contains h

/-- A blob is stored under its hash. -/
def put (s : BlobStore hash) {h : Nat} (b : { b : Bytes // hash b = h }) : BlobStore hash :=
  { blobs := s.blobs.insert h b.1
    filed := fun h' b' hb => by
      rw [Map.get_insert] at hb
      split at hb
      · rename_i heq
        obtain rfl : b.1 = b' := by simpa using hb
        exact b.2.trans heq
      · exact s.filed h' b' hb }

/-- `add_bytes`: nothing happens when there is a blob with this hash. -/
def add (s : BlobStore hash) (data : Bytes) : BlobStore hash :=
  if s.has (hash data) then s else s.put ⟨data, rfl⟩

/-- `remote().fetch`: a blob that is fetched is in the store. -/
def fetched (s : BlobStore hash) {h : Nat} (b : { b : Bytes // hash b = h }) : BlobStore hash :=
  if s.has h then s else s.put b

end BlobStore

/-- The encoding of a chunk list. -/
structure Postcard where
  toBytes : List ChunkRef → Except String Bytes
  fromBytes : Bytes → Option (List ChunkRef)

inductive TransferError where
  | io
  | chunk (e : ChunkError)
  | store
  | fetch (msg : String)
  | manifestInvalid (msg : String)
  /-- The store has a blob of another length than the manifest says. -/
  | chunkMismatch (hash got want : Nat)
  /-- The store and the chunker disagree on a hash of the published file. -/
  | publishMismatch
  | join
deriving DecidableEq

variable {hash : Bytes → Nat}

/-! ## Publishing -/

structure Published where
  manifest : ManifestRef
  size : Nat
deriving DecidableEq

/-- `build_manifest`: a short list goes into the manifest, a long one into a blob. -/
def buildManifest (pc : Postcard) (s : BlobStore hash) (refs : List ChunkRef) :
    Except TransferError ManifestRef × BlobStore hash :=
  if refs.length ≤ inlineManifestMax then (.ok (.inline refs), s)
  else
    match pc.toBytes refs with
    | .error e => (.error (.manifestInvalid e), s)
    | .ok bytes => (.ok (.blob (hash bytes)), s.add bytes)

/-- `publish_local`: `chunked` is what `chunk_file` sent and what it returned. -/
def publishLocal (pc : Postcard) (s : BlobStore hash) (chunked : Chunked) :
    Except TransferError Published × BlobStore hash :=
  let data := chunked.calls.map Prod.snd
  let s := data.foldl BlobStore.add s
  let tags := data.map hash
  match chunked.result with
  | .error e => (.error (.chunk e), s)
  | .ok (refs, size) =>
      if (tags.zip refs).any (fun t => decide (t.1 ≠ t.2.hash)) then (.error .publishMismatch, s)
      else
        match buildManifest pc s refs with
        | (.error e, s) => (.error e, s)
        | (.ok manifest, s) => (.ok { manifest, size }, s)

/-! ## Resolving a manifest -/

/-- The blob that holds the list, if it is in the store or can be fetched. -/
def resolveBlob (s : BlobStore hash) (h : Nat) (conn : Option (Fetch hash)) :
    Except TransferError (BlobStore hash) :=
  if s.has h then .ok s
  else
    match conn with
    | none => .error (.manifestInvalid "manifest blob not in local store")
    | some fetch =>
        match fetch h with
        | .error e => .error (.fetch e)
        | .ok b => .ok (s.fetched b)

/-- The list in a blob of the store. -/
def loadManifest (pc : Postcard) (s : BlobStore hash) (h : Nat) :
    Except TransferError (List ChunkRef) :=
  match s.get h with
  | none => .error .store
  | some bytes =>
      if maxManifestBytes < bytes.length then
        .error (.manifestInvalid
          s!"manifest blob is {bytes.length} bytes, exceeds the {maxManifestBytes}-byte cap")
      else
        match decodeBlob pc.fromBytes bytes with
        | .error e => .error (.manifestInvalid e.text)
        | .ok refs => .ok refs

/-- `manifest::check`, with the error as the transfer reports it. -/
def checked (refs : List ChunkRef) (expected : Nat) : Except TransferError (List ChunkRef) :=
  match checkManifest refs expected with
  | .error e => .error (.manifestInvalid e.text)
  | .ok () => .ok refs

/-- `resolve_manifest`. -/
def resolveManifest (pc : Postcard) (s : BlobStore hash) (manifest : ManifestRef) (expected : Nat)
    (conn : Option (Fetch hash)) : Except TransferError (List ChunkRef) × BlobStore hash :=
  match manifest with
  | .inline refs => (checked refs expected, s)
  | .blob h =>
      match resolveBlob s h conn with
      | .error e => (.error e, s)
      | .ok s =>
          match loadManifest pc s h with
          | .error e => (.error e, s)
          | .ok refs => (checked refs expected, s)

/-- `local_manifest_chunks`. -/
def localManifestChunks (pc : Postcard) (s : BlobStore hash) (manifest : ManifestRef)
    (expected : Nat) : Except TransferError (List ChunkRef) :=
  (resolveManifest pc s manifest expected none).1

/-! ## The staging file -/

/-- How the operations on the staging file turn out. -/
structure StageIo where
  creates : Bool
  /-- The write of the `j`-th chunk. -/
  writes : Nat → Bool
  syncs : Bool

/-- The loop of `assemble`, from the `j`-th chunk on: the bytes it writes. -/
def writeChunks (s : BlobStore hash) (io : StageIo) : Nat → List ChunkRef →
    Except TransferError Bytes
  | _, [] => .ok []
  | j, r :: rs =>
      match s.get r.hash with
      | none => .error .store
      | some bytes =>
          if bytes.length % 2 ^ 32 ≠ r.len then
            .error (.chunkMismatch r.hash bytes.length r.len)
          else if !io.writes j then .error .io
          else
            match writeChunks s io (j + 1) rs with
            | .error e => .error e
            | .ok rest => .ok (bytes ++ rest)

/-- `assemble`. -/
def assemble (s : BlobStore hash) (io : StageIo) (refs : List ChunkRef) :
    Except TransferError Bytes :=
  if !io.creates then .error .io
  else
    match writeChunks s io 0 refs with
    | .error e => .error e
    | .ok bytes => if io.syncs then .ok bytes else .error .io

/-- A staging file, and the size it is said to have. -/
structure Staged where
  bytes : Bytes
  size : Nat
deriving DecidableEq

/-- `materialize`. -/
def materialize (pc : Postcard) (s : BlobStore hash) (io : StageIo) (manifest : ManifestRef)
    (expected : Nat) : Except TransferError Staged :=
  match (resolveManifest pc s manifest expected none).1 with
  | .error e => .error e
  | .ok refs =>
      match assemble s io refs with
      | .error e => .error e
      | .ok bytes => .ok { bytes, size := expected }

/-- `disk_matches`: `content` is the file, if there is one, and `chunked` what `chunk_file`
makes of it. -/
def diskMatches {Id : Type} [LinearOrder Id] (pc : Postcard) (s : BlobStore hash)
    (record : FileRecord Id) (content : Option Bytes) (chunked : Chunked) :
    Except TransferError Bool :=
  match content with
  | none => .ok record.deleted
  | some bytes =>
      if record.deleted = true ∨ bytes.length ≠ record.size then .ok false
      else
        match (resolveManifest pc s record.manifest record.size none).1 with
        | .error e => .error e
        | .ok want =>
            match chunked.result with
            | .error e => .error (.chunk e)
            | .ok (got, _) => .ok (decide (want = got))

/-! ## The swarm -/

/-- `next_live_conn`: `fuel` slots are looked at. -/
def nextLiveFrom {κ : Type} (conns : List (Option κ)) : Nat → Nat → Option Nat × Nat
  | 0, rr => (none, rr)
  | fuel + 1, rr =>
      let i := rr % conns.length
      let rr := (rr + 1) % 2 ^ 64
      match conns[i]? with
      | some (some _) => (some i, rr)
      | _ => nextLiveFrom conns fuel rr

def nextLiveConn {κ : Type} (conns : List (Option κ)) (rr : Nat) : Option Nat × Nat :=
  nextLiveFrom conns conns.length rr

/-- The state of the fetch loop. A connection is named by its address. -/
structure Swarm (hash : Bytes → Nat) where
  queue : List Nat
  attempts : Map Nat Nat
  conns : List (Option Nat)
  connFails : List Nat
  /-- The hash each running fetch asks for, and the slot it uses. -/
  inflight : List (Nat × Nat)
  rr : Nat
  store : BlobStore hash

namespace Swarm

/-- The inner loop: fetches are started while there are slots, hashes and connections. -/
def fill (conns : List (Option Nat)) :
    List Nat → List (Nat × Nat) → Nat → List Nat × List (Nat × Nat) × Nat
  | [], inflight, rr => ([], inflight, rr)
  | h :: queue, inflight, rr =>
      if inflight.length < fetchConcurrency then
        match nextLiveConn conns rr with
        | (none, rr) => (h :: queue, inflight, rr)
        | (some ci, rr) => fill conns queue (inflight ++ [(h, ci)]) rr
      else (h :: queue, inflight, rr)

def filled (w : Swarm hash) : Swarm hash :=
  let (queue, inflight, rr) := fill w.conns w.queue w.inflight w.rr
  { w with queue, inflight, rr }

/-- A fetch failed: the connection gets a mark, and is retired at the third. -/
def blame (w : Swarm hash) (ci : Nat) : Swarm hash :=
  match w.connFails[ci]? with
  | none => w
  | some f =>
      let w := { w with connFails := w.connFails.set ci (f + 1) }
      if 3 ≤ f + 1 then { w with conns := w.conns.set ci none } else w

/-- The fetch of `h` over the slot `ci` ends with `answer`; without one its task panicked. -/
def joined (w : Swarm hash) (h ci : Nat) (answer : Option (Fetch hash)) :
    Except TransferError (Swarm hash) :=
  match answer with
  | none => .error .join
  | some fetch =>
      match fetch h with
      | .ok b => .ok { w with store := w.store.fetched b }
      | .error e =>
          let a := (w.attempts[h]?).getD 0 + 1
          let w := { w with attempts := w.attempts.insert h a }
          if maxChunkRetries < a then
            .error (.fetch s!"chunk failed after {maxChunkRetries} retries: {e}")
          else
            let w := w.blame ci
            .ok { w with queue := w.queue ++ [h] }

end Swarm

/-- A fetch that ends: which of those in flight, and with what. -/
structure Joined (hash : Bytes → Nat) where
  index : Nat
  answer : Option (Fetch hash)

/-- The end of the loop, when no fetch is running. -/
def Swarm.finish (w : Swarm hash) : Except TransferError (BlobStore hash) :=
  if w.queue = [] then .ok w.store
  else .error (.fetch "every swarm peer dropped before the pull finished")

/-- The fetch loop, for the completions in the order they come. `none`: it still waits for
one. -/
def fetchLoop : List (Joined hash) → Swarm hash → Option (Except TransferError (BlobStore hash))
  | [], w => if w.filled.inflight = [] then some w.filled.finish else none
  | j :: joins, w =>
      if w.filled.inflight = [] then some w.filled.finish
      else
        match w.filled.inflight[j.index]? with
        | none => none
        | some (h, ci) =>
            let w := { w.filled with inflight := w.filled.inflight.eraseIdx j.index }
            match w.joined h ci j.answer with
            | .error e => some (.error e)
            | .ok w => fetchLoop joins w

/-! ## Pulling -/

/-- What a pull meets. -/
structure PullIo (hash : Bytes → Nat) where
  /-- `dial_any`, address by address: the error, or how a fetch over the connection goes. -/
  dials : List (Except String (Fetch hash))
  /-- Which of the addresses the swarm reaches. -/
  swarm : List Bool
  joins : List (Joined hash)
  stage : StageIo

/-- `dial_any`: the first address that can be reached. -/
def dialAny : List (Except String (Fetch hash)) → Option String → Except TransferError (Fetch hash)
  | [], last => .error (.fetch (last.getD "no peers to dial"))
  | .ok fetch :: _, _ => .ok fetch
  | .error e :: dials, _ => dialAny dials (some e)

/-- The first part of `pull_stage`: the chunk list of the record. -/
def pullManifest (pc : Postcard) (s : BlobStore hash) (io : PullIo hash) (manifest : ManifestRef)
    (size : Nat) : Except TransferError (List ChunkRef) × BlobStore hash :=
  match manifest with
  | .inline refs => (.ok refs, s)
  | .blob h =>
      match dialAny io.dials none with
      | .error e => (.error e, s)
      | .ok fetch => resolveManifest pc s (.blob h) size (some fetch)

/-- The hashes of the list that are not in the store, each once. -/
def missing (s : BlobStore hash) (refs : List ChunkRef) : List Nat :=
  ((refs.map ChunkRef.hash).eraseDups).filter (fun h => !s.has h)

/-- The connections of the swarm. -/
def swarmConns (reached : List Bool) : List (Option Nat) :=
  ((reached.take swarmPeers).zipIdx.filter (fun r => r.1)).map (fun r => some r.2)

/-- The second part: the missing chunks. -/
def pullChunks (s : BlobStore hash) (io : PullIo hash) (refs : List ChunkRef) :
    Option (Except TransferError (BlobStore hash)) :=
  if missing s refs = [] then some (.ok s)
  else
    let conns := swarmConns io.swarm
    if conns = [] then some (.error (.fetch "no peer reachable for the missing chunks"))
    else
      fetchLoop io.joins
        { queue := missing s refs, attempts := ∅, conns
          connFails := List.replicate conns.length 0, inflight := [], rr := 0, store := s }

/-- What a pull works on when it has got everything: the list and the store. -/
structure Pulled (hash : Bytes → Nat) where
  refs : List ChunkRef
  store : BlobStore hash

/-- `pull_stage` up to the staging file. -/
def pullFetch (pc : Postcard) (s : BlobStore hash) (io : PullIo hash) (manifest : ManifestRef)
    (size : Nat) : Option (Except TransferError (Pulled hash)) :=
  match pullManifest pc s io manifest size with
  | (.error e, _) => some (.error e)
  | (.ok refs, s) =>
      match pullChunks s io refs with
      | none => none
      | some (.error e) => some (.error e)
      | some (.ok store) => some (.ok { refs, store })

/-- `pull_stage`, for the manifest and the size of a record. -/
def pullStage (pc : Postcard) (s : BlobStore hash) (io : PullIo hash) (manifest : ManifestRef)
    (size : Nat) : Option (Except TransferError Staged) :=
  match pullFetch pc s io manifest size with
  | none => none
  | some (.error e) => some (.error e)
  | some (.ok pulled) =>
      match assemble pulled.store io.stage pulled.refs with
      | .error e => some (.error e)
      | .ok bytes => some (.ok { bytes, size })

end Tazamun.Transfer
