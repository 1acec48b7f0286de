import Tazamun.Locks.Mesh
import Tazamun.Session.Grant
import Tazamun.Sync.Record

set_option autoImplicit false

/-! # The daemon actor: its state

The state of the daemon (`Actor`, `daemon.rs`): the persisted index and history, the lock
table, what is known of the peers, the pull pipeline, the watch pipeline, and the files on
disk. The actor handles one event after the other. Slow work runs in tasks beside it: a
handler spawns a task, the task does its work at some later moment and posts an event. So a
task is first in `tasks` and then, with its result, in `inbox`, and between the handler that
spawned it, its own work and the handler of its event anything may happen.

What the code leaves to other crates is a parameter (`Host`): the chunker and hash behind
manifests, the pattern matcher behind the sync scope, path syntax and encoded sizes. The
outcome of a file operation is an input of the step (`Env`).

`journal`, `known`, `skipped` and `opened` are observers that no handler reads. The journal
notes the records that were applied, committed or let go, the leases that were granted and
acquired, the indexes that were installed, and the bytes that were replaced on disk. `known` has the bytes of a file that the
daemon last preserved or put there itself, `skipped` the tombstones it ignored because it had
no record of the path, and `opened` the paths that the daemon last made writable for the sake
of a lease.
-/

namespace Tazamun

/-! ## Constants (`lib.rs`) -/

def maxPeers : Nat := 128
def maxConcurrentPulls : Nat := 32
def maxPullBacklog : Nat := 8192
def maxWaitlistEntries : Nat := 4096
def maxVvEntries : Nat := 4096
def maxIndexParts : Nat := 4096
def maxIndexEntries : Nat := 262144

/-- `MAX_FRAME` and `INDEX_PART_BUDGET`, in bytes. -/
def maxFrame : Nat := 4194304
def indexPartBudget : Nat := maxFrame - 262144

/-- Durations in milliseconds. -/
def muteWindow : Nat := 2000
def autolockIdleRelease : Nat := 60000
def minAcquireTimeout : Nat := 2000
def maxAcquireTimeout : Nat := 60000

/-- Attempts after which a pull is given up. -/
def maxPullAttempts : Nat := 5

/-! ## Configuration and messages -/

/-- The part of `SessionConfig` that the actor reads. -/
structure SessionConfig where
  role : NodeRole
  strict : Bool
  autolock : Bool
  historyDepth : Nat
  leaseTtlMs : Nat
  acquireTimeoutMs : Nat
  waitTimeoutMs : Nat
  junkFilter : Bool
  syncOnly : String
  syncSkip : String
  maxFileSize : U64
deriving DecidableEq

/-- Whether settled files are clamped read-only. -/
def SessionConfig.enforceReadonly (c : SessionConfig) : Bool := c.strict || !c.role.canEdit

/-- `lease_ttl`, `lease_renew` and `acquire_timeout`. -/
def SessionConfig.timings (c : SessionConfig) : LockTimings :=
  let ttl := max minLeaseTtl (min c.leaseTtlMs maxLeaseTtl)
  { ttl, renew := ttl / 3,
    acquireTimeout := max minAcquireTimeout (min c.acquireTimeoutMs maxAcquireTimeout) }

abbrev Bytes : Type := List UInt8

/-- The name of a quarantine copy: the time it was made, and the path. -/
abbrev CopyName (Path : Type) : Type := U64 ×ₗ Path

/-- The control messages (`Msg`, `proto.rs`). -/
inductive Msg (Id Path : Type) [Ord Id] where
  | handshake
  | index (lamport : U64) (files : List (Path × FileRecord Id))
      (leases : List (LeaseInfo Id Path))
  | indexPart (seq : Nat) (last : Bool) (lamport : U64) (files : List (Path × FileRecord Id))
      (leases : List (LeaseInfo Id Path))
  | fileMeta (path : Path) (record : FileRecord Id) (lamport : U64)
  | lock (msg : LockMsg Id Path)
  | bye
  | lockInterest (path : Path)
  | lockFreed (path : Path)
  | identity (grant : SignedGrant Nat)

/-- What the code takes from elsewhere. -/
structure Host (Id Path : Type) [Ord Id] where
  /-- `sanitize_rel_path` accepts the path. -/
  sanitize : Path → Bool
  /-- Paths, endpoint ids and copy names as the messages show them. -/
  str : Path → String
  idStr : Id → String
  copyStr : CopyName Path → String
  ignoreFile : Path
  /-- The sync-scope verdict for the rules in the ignore file: `none` is `Sync`. -/
  verdict : Option Bytes → SessionConfig → Path → Option U64 → Option String
  portabilityViolation : Path → Option String
  toLowercase : Path → String
  windows : Bool
  /-- Chunks and hashes bytes, and back: the bytes a manifest stands for. -/
  manifestOf : Bytes → ManifestRef
  content : ManifestRef → Option Bytes
  entryLen : Path × FileRecord Id → Nat
  encodedLen : Msg Id Path → Nat

/-- How the file operations of a step turn out, path by path. -/
structure Io (Path : Type) where
  quarantine : Path → Bool
  createDir : Path → Bool
  persist : Path → Bool
  remove : Path → Bool
  setMode : Path → Bool
  /-- The text of the error, where there is one. -/
  error : Path → String

structure Env (Path : Type) where
  now : Nat
  nowMs : U64
  io : Io Path

/-! ## Events and tasks -/

/-- What an IPC request is answered with. A diagnosed error names the precondition that
failed. -/
inductive IpcResponse where
  | ok
  | err (code message : String)
  | diagnosed (code precondition hint : String)
deriving DecidableEq

/-- The settings that can be changed while the daemon runs. -/
inductive LiveKey where
  | autolock (on : Bool)
  | leaseTtl (ms : Nat)
  | acquireTimeout (ms : Nat)
  | waitTimeout (ms : Nat)

/-- The requests that change something; `reply` names the channel of the answer. -/
inductive IpcRequest (Path : Type) where
  | lock (path : Path)
  | unlock (path : Path)
  | lockWait (path : Path)
  | restore (path : Path) (n : Nat)
  | conflictApply (id : CopyName Path) (target : Path)
  | conflictDiscard (id : CopyName Path)
  | tag (path : Path) (n : Nat) (name : Option String)
  | pin (path : Path) (n : Nat) (pinned : Bool)
  | configSet (key : LiveKey)

inductive PublishCause where
  | edit
  | import
  | unlock (reply : Nat)
deriving DecidableEq

/-- Result of comparing a path's bytes with its record. -/
inductive Inspection where
  | clean
  | differs
  | missingIndexed
  | unindexed
deriving DecidableEq

inductive InspectCause where
  | watch
  | unlock (reply : Nat)
deriving DecidableEq

structure Published where
  manifest : ManifestRef
  size : U64
  bytes : Bytes
deriving DecidableEq

/-- Work beside the actor, not yet done. -/
inductive Task (Id Path : Type) [Ord Id] where
  | inspect (rel : Path) (record : Option (FileRecord Id)) (cause : InspectCause)
  | publish (rel : Path) (cause : PublishCause)
  | pull (rel : Path) (sender : Id) (record : FileRecord Id)
  | pullTimer (rel : Path)
  | violation (rel : Path) (record : FileRecord Id) (quarantineFirst : Bool)
  | autolock (rel : Path) (newFile : Bool)
  | revert (rel : Path) (record : FileRecord Id) (quarantined : CopyName Path)
  | restore (rel : Path) (entry : VersionEntry Id) (reply : Nat)
  | conflictApply (rel : Path) (copy : CopyName Path) (reply : Nat)
  | acquireTimer (rel : Path) (lamport : U64)

/-- What the actor handles. The first group comes from outside, the second from tasks. -/
inductive Event (Id Path : Type) [Ord Id] where
  | authed (id : Id) (connId : Nat) (initiatedByMe : Bool)
  | msg (id : Id) (msg : Msg Id Path)
  | gone (id : Id) (connId : Nat)
  | watch (rel : Path)
  | ipc (req : IpcRequest Path) (reply : Nat)
  | sweep
  | renew
  | inspected (rel : Path) (outcome : Except String Inspection) (cause : InspectCause)
  | publishDone (rel : Path) (result : Option Published) (cause : PublishCause)
  | pullStaged (rel : Path) (sender : Id) (record : FileRecord Id) (result : Option Bytes)
  | pullRetry (rel : Path)
  | violationStaged (rel : Path) (result : Option Bytes)
      (quarantined : Option (CopyName Path)) (preserveRequired : Bool)
  | autolockReady (rel : Path) (quarantined : Option (CopyName Path)) (newFile : Bool)
  | restoreStaged (rel : Path) (entry : VersionEntry Id) (result : Except String Bytes)
      (reply : Nat)
  | conflictApplied (rel : Path) (result : Except String Bytes) (reply : Nat)
  | acquireTimeout (rel : Path) (lamport : U64)

/-! ## The actor -/

/-- A control connection (`PeerHandle`). -/
structure Peer where
  connId : Nat
  initiatedByMe : Bool
deriving DecidableEq

/-- A pull job for one path. -/
structure PullJob (Id : Type) [Ord Id] where
  sender : Id
  record : FileRecord Id
  attempts : Nat
  queued : Option (Id × FileRecord Id)

/-- Apply work postponed because a watch-side operation held the path. -/
structure DeferredApply (Id : Type) [Ord Id] where
  sender : Id
  record : FileRecord Id
  staged : Option Bytes

structure UnappliedEntry (Id : Type) [Ord Id] where
  record : FileRecord Id
  reason : String

structure DiskFile where
  bytes : Bytes
  readonly : Bool
deriving DecidableEq

/-- Which commit put a record with a new own counter into the index. -/
inductive CommitKind where
  | publish
  | import
  | tombstone
  | restore
  | reassert
deriving DecidableEq

/-- An entry of the journal. `prev` is the record that was replaced, `leased` whether the
path was self-held at that moment, `preserved` whether the replaced bytes were in quarantine
or in the index, `undisturbed` whether they were the known ones. -/
inductive Effect (Id Path : Type) [Ord Id] where
  /-- A peer's record was applied. -/
  | applied (rel : Path) (record : FileRecord Id) (prev : Option (FileRecord Id))
      (leased : Bool)
  /-- A record of our own was committed and broadcast. -/
  | committed (kind : CommitKind) (rel : Path) (record : FileRecord Id)
      (prev : Option (FileRecord Id)) (leased : Bool)
  /-- A path without a record got one that does not dominate a tombstone skipped before. -/
  | revived (rel : Path) (record : FileRecord Id)
  /-- A record that was news was let go while its sender was connected. -/
  | dropped (rel : Path) (sender : Id) (record : FileRecord Id)
  /-- A file on disk was overwritten or removed. -/
  | replaced (rel : Path) (bytes : Bytes) (preserved undisturbed : Bool)
  /-- We voted for a peer's lease; `record` is ours. -/
  | granted (rel : Path) (requester : Id) (record : Option (FileRecord Id))
  /-- All voters granted us the lease. -/
  | acquired (rel : Path) (voters : Finset Id) (record : Option (FileRecord Id))
  /-- A complete index of a peer was installed. -/
  | indexed (sender : Id) (files : List (Path × FileRecord Id))
      (leases : List (LeaseInfo Id Path))
  /-- The clock was counted up; `held` is the value before. -/
  | ticked (held : U64)

structure Actor (Id Path : Type) [LinearOrder Id] [LinearOrder Path] where
  me : Id
  -- persisted state
  config : SessionConfig
  adminPublicKey : Option Nat
  myGrant : Option (SignedGrant Nat)
  files : Map Path (FileRecord Id)
  history : History Id Path
  lamport : U64
  unapplied : Map Path (UnappliedEntry Id)
  pulling : Map Path (FileRecord Id)
  -- locks and peers
  locks : LockTable Id Path
  peers : Map Id Peer
  peerIndex : Map Id (Map Path (FileRecord Id))
  peerRoles : Map Id UInt8
  indexReceived : Map Id Unit
  indexStaging : Map Id (Nat × Map Path (FileRecord Id))
  -- pulls
  pendingPulls : Map Path (PullJob Id)
  pullBacklog : List (Path × Id × FileRecord Id)
  deferred : Map Path (DeferredApply Id)
  -- acquires, unlocks and the waitlist
  pendingAcquires : Map Path (U64 × Option Nat)
  pendingUnlocks : Map Path Unit
  myWaits : Map Path (Id × Nat)
  interest : Map Path (Map Id Unit)
  autolockIdle : Map Path Nat
  autolockPending : Map Path (Option (CopyName Path) × Bool)
  -- the watch pipeline
  ignoreRules : Option Bytes
  heldLocal : Map Path String
  muted : Map Path Nat
  busy : Map Path Unit
  recheck : Map Path Unit
  -- the world around the actor
  disk : Map Path DiskFile
  conflicts : Map (CopyName Path) Bytes
  tasks : List (Task Id Path)
  inbox : List (Event Id Path)
  sent : List (Id × Msg Id Path)
  replies : List (Nat × IpcResponse)
  -- observers
  journal : List (Effect Id Path)
  known : Map Path Bytes
  skipped : List (Id × Path × FileRecord Id)
  opened : Map Path Unit

variable {Id Path : Type} [LinearOrder Id] [LinearOrder Path]

namespace Actor

def spawn (a : Actor Id Path) (t : Task Id Path) : Actor Id Path :=
  { a with tasks := a.tasks ++ [t] }

def reply (a : Actor Id Path) (r : Nat) (resp : IpcResponse) : Actor Id Path :=
  { a with replies := a.replies ++ [(r, resp)] }

/-- Answers a waiter; an autolock acquire has none. -/
def replyTo (a : Actor Id Path) (r : Option Nat) (resp : IpcResponse) : Actor Id Path :=
  match r with
  | some r => a.reply r resp
  | none => a

/-- Sends to one peer, if it is connected. -/
def send (a : Actor Id Path) (dst : Id) (msg : Msg Id Path) : Actor Id Path :=
  if a.peers.contains dst then { a with sent := a.sent ++ [(dst, msg)] } else a

/-- `broadcast`. -/
def broadcast (a : Actor Id Path) (msg : Msg Id Path) : Actor Id Path :=
  { a with sent := a.sent ++ a.peers.keys.map fun id => (id, msg) }

def note (a : Actor Id Path) (e : Effect Id Path) : Actor Id Path :=
  { a with journal := a.journal ++ [e] }

/-- Counts the clock up. -/
def tick (a : Actor Id Path) : Actor Id Path :=
  ({ a with lamport := a.lamport + 1 } : Actor Id Path).note (.ticked a.lamport)

/-- `is_muted`, which also forgets the mutes that are over. -/
def isMuted (a : Actor Id Path) (env : Env Path) (rel : Path) : Actor Id Path × Bool :=
  let muted := a.muted.filter fun _ t => decide (env.now - t < muteWindow)
  ({ a with muted }, muted.contains rel)

def mute (a : Actor Id Path) (env : Env Path) (rel : Path) : Actor Id Path :=
  { a with muted := a.muted.insert rel env.now }

/-- The size of a file on disk, if there is one. -/
def sizeOnDisk (a : Actor Id Path) (rel : Path) : Option U64 :=
  a.disk[rel]?.map fun f => Fin.ofNat _ f.bytes.length

def verdict (h : Host Id Path) (a : Actor Id Path) (rel : Path) (size : Option U64) :
    Option String :=
  h.verdict a.ignoreRules a.config rel size

/-- Whether the own record makes taking over `record` superfluous. -/
def isCurrent (a : Actor Id Path) (rel : Path) (record : FileRecord Id) : Bool :=
  match a.files[rel]? with
  | none => false
  | some mine =>
      match VClock.compare mine.vv record.vv with
      | .equal | .after => true
      | .before | .concurrent => false

/-! ## Observers -/

/-- The notice that is due when a record is let go. -/
def loss (a : Actor Id Path) (rel : Path) (sender : Id) (record : FileRecord Id) :
    List (Effect Id Path) :=
  if a.isCurrent rel record || !a.peers.contains sender then []
  else [.dropped rel sender record]

/-- A record is let go without having been applied. -/
def letGo (a : Actor Id Path) (rel : Path) (sender : Id) (record : FileRecord Id) :
    Actor Id Path :=
  { a with journal := a.journal ++ a.loss rel sender record }

/-- A waiting record makes room for `new`. -/
def displace (a : Actor Id Path) (rel : Path) (old : Option (Id × FileRecord Id))
    (new : FileRecord Id) : Actor Id Path :=
  { a with journal := a.journal ++
      match old with
      | none => []
      | some (sender, record) =>
          match VClock.compare record.vv new.vv with
          | .equal | .before => []
          | .after | .concurrent => a.loss rel sender record }

/-- A tombstone of a path without a record is ignored. -/
def skip (a : Actor Id Path) (sender : Id) (rel : Path) (record : FileRecord Id) :
    Actor Id Path :=
  { a with skipped := a.skipped ++ [(sender, rel, record)] }

/-- The notice that is due when `record` becomes the record of `rel`. -/
def revival (a : Actor Id Path) (rel : Path) (record : FileRecord Id) : List (Effect Id Path) :=
  let newer := a.skipped.any fun s =>
    decide (s.2.1 = rel) && a.peers.contains s.1 &&
      match VClock.compare s.2.2.vv record.vv with
      | .equal | .before => false
      | .after | .concurrent => true
  if a.files[rel]?.isNone && newer then [.revived rel record] else []

def forget (a : Actor Id Path) (rel : Path) : Actor Id Path :=
  { a with known := a.known.erase rel }

def know (a : Actor Id Path) (rel : Path) (bytes : Bytes) : Actor Id Path :=
  { a with known := a.known.insert rel bytes }

/-- The file is writable now because of a lease. -/
def openFor (a : Actor Id Path) (rel : Path) : Actor Id Path :=
  { a with opened := a.opened.insert rel () }

/-- A file that is made read-only is not open any more. -/
def noteMode (a : Actor Id Path) (rel : Path) (readonly : Bool) : Actor Id Path :=
  if readonly then { a with opened := a.opened.erase rel } else a

/-! ## Files (`guard.rs`, `win_fs.rs`) -/

/-- The bytes are in a quarantine copy, or the content of a manifest in the index or in the
history. -/
def preserves (h : Host Id Path) (a : Actor Id Path) (bytes : Bytes) : Bool :=
  a.conflicts.toList.any (fun c => decide (c.2 = bytes)) ||
    a.files.toList.any (fun e => decide (h.content e.2.manifest = some bytes)) ||
    a.history.toList.any fun e =>
      e.2.any fun v => decide (h.content v.manifest = some bytes)

/-- Notes that the file at `rel` is about to be overwritten or removed. -/
def noteReplaced (h : Host Id Path) (a : Actor Id Path) (rel : Path) : Actor Id Path :=
  match a.disk[rel]? with
  | none => a
  | some f =>
      a.note (.replaced rel f.bytes (a.preserves h f.bytes)
        (decide (a.known[rel]? = some f.bytes)))

/-- `set_readonly` and `set_writable`; missing files are ignored. -/
def setMode (a : Actor Id Path) (env : Env Path) (rel : Path) (readonly : Bool) :
    Actor Id Path × Bool :=
  match a.disk[rel]? with
  | none => (a.noteMode rel readonly, true)
  | some f =>
      if env.io.setMode rel then
        let a := { a with disk := a.disk.insert rel { f with readonly } }
        (a.noteMode rel readonly, true)
      else (a, false)

/-- A quarantine copy is gone: what was known for its sake is known no longer. -/
def loseCopy (a : Actor Id Path) (name : CopyName Path) : Actor Id Path :=
  match a.conflicts[name]? with
  | none => a
  | some bytes =>
      { a with
        conflicts := a.conflicts.erase name
        known := a.known.filter fun _ b => decide (b ≠ bytes) }

/-- `quarantine`: copies the bytes of `rel`. Copies are named by path and millisecond, and a
second one of the same name overwrites the first. -/
def quarantine (a : Actor Id Path) (env : Env Path) (rel : Path) :
    Actor Id Path × Option (CopyName Path) :=
  match a.disk[rel]? with
  | none => (a, none)
  | some f =>
      if env.io.quarantine rel then
        let name : CopyName Path := toLex (env.nowMs, rel)
        let a := a.loseCopy name
        let a := { a with conflicts := a.conflicts.insert name f.bytes }
        (a.know rel f.bytes, some name)
      else (a, none)

/-- Renames a staged file over `rel`: its directory is made, the old file made writable, and
the staged file, which is writable, takes its place. -/
def persistTemp (h : Host Id Path) (env : Env Path) (a : Actor Id Path) (rel : Path)
    (bytes : Bytes) : Actor Id Path × Bool :=
  if env.io.createDir rel then
    let a := (a.setMode env rel false).1
    if env.io.persist rel then
      let a := a.noteReplaced h rel
      ({ a with disk := a.disk.insert rel { bytes, readonly := false } }, true)
    else (a, false)
  else (a, false)

/-- Makes `rel` writable and removes it; a missing file is no error. -/
def removeFile (h : Host Id Path) (env : Env Path) (a : Actor Id Path) (rel : Path) :
    Actor Id Path × Bool :=
  let a := (a.setMode env rel false).1
  match a.disk[rel]? with
  | none => (a, true)
  | some _ =>
      if env.io.remove rel then
        let a := a.noteReplaced h rel
        ({ a with disk := a.disk.erase rel }, true)
      else (a, false)

/-- Brings a file to the permission of a path without a lease. -/
def settleMode (a : Actor Id Path) (env : Env Path) (rel : Path) : Actor Id Path :=
  (a.setMode env rel a.config.enforceReadonly).1

end Actor

end Tazamun
