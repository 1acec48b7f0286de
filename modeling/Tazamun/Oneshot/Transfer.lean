import Tazamun.Sync.Manifest

set_option autoImplicit false

/-! # The one-shot transfer

`tazamun send` offers files and `tazamun receive` fetches them (`oneshot.rs`), without a
session. The sender describes each file by its chunk list; the receiver answers with the
chunk index to resume each file from, checks every chunk against the list, appends it to a
part file in the staging directory, and renames the parts into place at the end.

The chunker (FastCDC) and the hash (BLAKE3) are third-party code and parameters here. A
frame that is not delivered ends the stream: `serveOne` gives the frames the sender writes,
and a conversation delivers some prefix of them, so every failure of the sender or of the
network is a shorter prefix. The outcome of every file operation of the receiver is an
input (`PartIo`, `RecvIo`): the code ignores some of them. The mutual proof that precedes
the transfer is left out.
-/

namespace Tazamun.Oneshot

variable {Path : Type} [LinearOrder Path]

/-! ## The wire -/

/-- One file of the transfer. -/
structure SendEntry (Path : Type) where
  path : Path
  size : Nat
  chunks : List ChunkRef
deriving DecidableEq

/-- The frames that follow the mutual proof. -/
inductive SendMsg (Path : Type) where
  | manifest (entries : List (SendEntry Path))
  | start (resume : List Nat)
  | chunk (data : Bytes)
  | entryDone
  | allDone
  | received
  | fail (msg : String)
deriving DecidableEq

/-! ## The sender -/

/-- What `send` was pointed at: a file, or a folder with the sorted list of its files. -/
inductive Source (Path : Type) where
  | file (name : Path)
  | folder (files : List Path)

/-- The sender's disk and the two filters of a folder send. `content` does not change while
the ticket lives; a file that cannot be read has none. -/
structure Sender (Path : Type) where
  source : Source Path
  content : Path → Option Bytes
  sanitize : Path → Bool
  isSync : Path → Bool

def entryFor (ck : Chunker) (s : Sender Path) (rel : Path) : Except Path (SendEntry Path) :=
  match s.content rel with
  | none => .error rel
  | some bytes =>
      let (chunks, size) := ck.chunkFile bytes
      .ok { path := rel, size, chunks }

/-- The paths on offer. -/
def Sender.offered (s : Sender Path) : List Path :=
  match s.source with
  | .file name => [name]
  | .folder files => files.filter (fun rel => s.sanitize rel && s.isSync rel)

def buildEntries (ck : Chunker) (s : Sender Path) : Except Path (List (SendEntry Path)) :=
  s.offered.mapM (entryFor ck s)

/-- The chunks `serve_one` streams of one file, each with its index: those below `start` are
skipped, and `index` counts all of them. -/
def streamed (start : Nat) : Nat → List Bytes → List (Nat × Bytes)
  | _, [] => []
  | index, data :: rest =>
      if index < start then streamed start (index + 1) rest
      else (index, data) :: streamed start (index + 1) rest

def serveEntry (ck : Chunker) (s : Sender Path) (entry : SendEntry Path) (start : Nat) :
    List (SendMsg Path) :=
  (streamed start 0 (ck.cut ((s.content entry.path).getD []))).map (fun c => .chunk c.2)
    ++ [.entryDone]

/-- The frames `serve_one` writes after the manifest, for the resume plan it read. -/
def serveOne (ck : Chunker) (s : Sender Path) (entries : List (SendEntry Path))
    (resume : List Nat) : List (SendMsg Path) :=
  if resume.length ≠ entries.length then []
  else (entries.zip resume).flatMap (fun e => serveEntry ck s e.1 e.2) ++ [.allDone]

/-- What reaches the receiver: the first frame, and what follows the resume plan. -/
structure Conversation (Path : Type) where
  offer : Option (SendMsg Path)
  stream : List Nat → List (SendMsg Path)

/-- The sender's frames up to the `n`-th, where the sender or the network breaks off. -/
def conversation (ck : Chunker) (s : Sender Path) (entries : List (SendEntry Path)) (n : Nat) :
    Conversation Path :=
  { offer := if n = 0 then none else some (.manifest entries)
    stream := fun resume => (serveOne ck s entries resume).take (n - 1) }

/-! ## The receiver -/

/-- How the file operations on one part file end. -/
structure PartIo where
  /-- `File::open` of the existing part. -/
  opens : Bool
  /-- The `j`-th read meets no error of its own. -/
  reads : Nat → Bool
  /-- The open for writing and `set_len` succeed. -/
  trims : Bool
  /-- The open in append mode. -/
  appends : Bool
  /-- The write of the `j`-th chunk. -/
  writes : Nat → Bool
  flushes : Bool
  /-- The directories and the rename of the publication. -/
  publishes : Bool

/-- How everything else `receive` depends on ends. -/
structure RecvIo where
  part : Nat → PartIo
  creates : Bool
  starts : Bool
  confirms : Bool

/-- Why `receive` gives up. -/
inductive RecvError (Path : Type) where
  /-- "stream closed" -/
  | closed
  /-- "expected Manifest" -/
  | expectedManifest
  /-- "manifest lists an implausible number of files" -/
  | tooManyFiles
  /-- "manifest has a hostile path: .." -/
  | hostilePath (path : Path)
  /-- "manifest for .. is inconsistent: .." -/
  | inconsistent (path : Path) (err : ManifestError)
  /-- The staging directory. -/
  | create
  /-- The resume plan could not be sent. -/
  | start
  /-- "staging ..: .." -/
  | staging (path : Path)
  /-- "sender sent an extra chunk for .." -/
  | extraChunk (path : Path)
  /-- "chunk failed verification" -/
  | verification
  | write
  /-- "sender aborted: .." -/
  | aborted (msg : String)
  /-- "expected Chunk or EntryDone" -/
  | expectedChunk
  | flush
  /-- "entry ended before all chunks arrived" -/
  | endedEarly
  /-- "expected AllDone" -/
  | expectedAllDone
  /-- "publishing ..: .." -/
  | publishing (path : Path)
  /-- The confirmation could not be sent. -/
  | confirm
deriving DecidableEq

/-- The reading loop of `verified_prefix`: how many leading chunks the rest of the part file
holds, and how many bytes these are. -/
def countVerified (ck : Chunker) (reads : Nat → Bool) : List ChunkRef → Nat → Bytes → Nat × Nat
  | [], _, _ => (0, 0)
  | chunk :: chunks, j, rest =>
      if reads j = true ∧ chunk.len ≤ rest.length then
        if ck.hash (rest.take chunk.len) = chunk.hash then
          let (good, goodBytes) := countVerified ck reads chunks (j + 1) (rest.drop chunk.len)
          (good + 1, goodBytes + chunk.len)
        else (0, 0)
      else (0, 0)

/-- `verified_prefix`: the number of verified leading chunks, and the part file as it is
left. Without a readable file nothing is counted and nothing is trimmed; a trim that fails
is ignored. -/
def verifiedPrefix (ck : Chunker) (io : PartIo) (part : Option Bytes) (entry : SendEntry Path) :
    Nat × Option Bytes :=
  match part with
  | none => (0, none)
  | some staged =>
      if !io.opens then (0, some staged)
      else
        let (good, goodBytes) := countVerified ck io.reads entry.chunks 0 staged
        (good, some (if io.trims then staged.take goodBytes else staged))

def validateEntries (sanitize : Path → Bool) :
    List (SendEntry Path) → Except (RecvError Path) Unit
  | [] => .ok ()
  | e :: es =>
      if !sanitize e.path then .error (.hostilePath e.path)
      else
        match checkManifest e.chunks e.size with
        | .error err => .error (.inconsistent e.path err)
        | .ok () => validateEntries sanitize es

def validateManifest (sanitize : Path → Bool) (entries : List (SendEntry Path)) :
    Except (RecvError Path) Unit :=
  if entries.length > maxChunksPerFile then .error .tooManyFiles
  else validateEntries sanitize entries

/-- The frame loop of one entry: from index `idx` and the part file `file` to the index
reached, the file as written, and the frames left. -/
def recvChunks (ck : Chunker) (io : PartIo) (entry : SendEntry Path) :
    List (SendMsg Path) → Nat → Bytes → Except (RecvError Path) (Nat × Bytes × List (SendMsg Path))
  | [], _, _ => .error .closed
  | .chunk data :: frames, idx, file =>
      match entry.chunks[idx]? with
      | none => .error (.extraChunk entry.path)
      | some expected =>
          if ck.hash data ≠ expected.hash ∨ data.length % 2 ^ 32 ≠ expected.len then
            .error .verification
          else if !io.writes idx then .error .write
          else recvChunks ck io entry frames (idx + 1) (file ++ data)
  | .entryDone :: frames, idx, file => .ok (idx, file, frames)
  | .fail msg :: _, _, _ => .error (.aborted msg)
  | _ :: _, _, _ => .error .expectedChunk

/-- One entry: the part it leaves, complete, and the frames left. `planned` is what
`verified_prefix` returned and left. -/
def recvEntry (ck : Chunker) (io : PartIo) (entry : SendEntry Path) (planned : Nat × Option Bytes)
    (frames : List (SendMsg Path)) : Except (RecvError Path) (Bytes × List (SendMsg Path)) :=
  if !io.appends then .error (.staging entry.path)
  else
    match recvChunks ck io entry frames planned.1 (planned.2.getD []) with
    | .error e => .error e
    | .ok (idx, file, rest) =>
        if !io.flushes then .error .flush
        else if idx ≠ entry.chunks.length then .error .endedEarly
        else .ok (file, rest)

/-- The entries from the `i`-th on, each with its plan. -/
def recvEntries (ck : Chunker) (io : Nat → PartIo) :
    Nat → List (SendEntry Path × (Nat × Option Bytes)) → List (SendMsg Path) →
      Except (RecvError Path) (List Bytes × List (SendMsg Path))
  | _, [], frames => .ok ([], frames)
  | i, (entry, planned) :: rest, frames =>
      match recvEntry ck (io i) entry planned frames with
      | .error e => .error e
      | .ok (file, frames) =>
          match recvEntries ck io (i + 1) rest frames with
          | .error e => .error e
          | .ok (files, frames) => .ok (file :: files, frames)

/-- The parts from the `i`-th on are renamed to their destinations. -/
def publish (io : Nat → PartIo) :
    Nat → List (SendEntry Path × Bytes) → Map Path Bytes → Except (RecvError Path) (Map Path Bytes)
  | _, [], dest => .ok dest
  | i, (entry, file) :: rest, dest =>
      if !(io i).publishes then .error (.publishing entry.path)
      else publish io (i + 1) rest (dest.insert entry.path file)

structure RecvOutcome (Path : Type) [Ord Path] where
  files : Nat
  bytes : Nat
  dest : Map Path Bytes

/-- The resume plan: for each entry the verified prefix of its part, and the part as left. -/
def plan (ck : Chunker) (io : Nat → PartIo) (staging : Nat → Option Bytes)
    (entries : List (SendEntry Path)) : List (Nat × Option Bytes) :=
  entries.mapIdx (fun i e => verifiedPrefix ck (io i) (staging i) e)

/-- The end of `receive`: the closing frame, then the publication and the confirmation. -/
def finish (io : RecvIo) (entries : List (SendEntry Path)) (dest : Map Path Bytes)
    (parts : List Bytes) : List (SendMsg Path) → Except (RecvError Path) (RecvOutcome Path)
  | .allDone :: _ =>
      match publish io.part 0 (entries.zip parts) dest with
      | .error e => .error e
      | .ok dest =>
          if !io.confirms then .error .confirm
          else .ok { files := entries.length
                     bytes := (entries.map SendEntry.size).sum % 2 ^ 64
                     dest := dest }
  | .fail msg :: _ => .error (.aborted msg)
  | [] => .error .closed
  | _ :: _ => .error .expectedAllDone

/-- `receive`, after the mutual proof: `staging` holds the part files earlier attempts left,
`dest` the destination directory. -/
def receive (ck : Chunker) (sanitize : Path → Bool) (io : RecvIo) (staging : Nat → Option Bytes)
    (dest : Map Path Bytes) (talk : Conversation Path) :
    Except (RecvError Path) (RecvOutcome Path) :=
  match talk.offer with
  | none => .error .closed
  | some (.manifest entries) =>
      match validateManifest sanitize entries with
      | .error e => .error e
      | .ok () =>
          if !io.creates then .error .create
          else
            let planned := plan ck io.part staging entries
            if !io.starts then .error .start
            else
              match recvEntries ck io.part 0 (entries.zip planned)
                  (talk.stream (planned.map Prod.fst)) with
              | .error e => .error e
              | .ok (parts, frames) => finish io entries dest parts frames
  | some _ => .error .expectedManifest

end Tazamun.Oneshot
