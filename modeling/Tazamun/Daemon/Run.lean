import Tazamun.Daemon.Peers
import Tazamun.Lib.Run

set_option autoImplicit false

/-! # Runs of the actor

The timers and the startup scan, the dispatch of an event (`run`, `daemon.rs`), the work of a
task, and one step of the whole: an event comes in from outside, an event is taken from the
inbox, a task does its work, or the user changes a file. A step has its own environment, so
time passes and file operations fail between any two steps as they please. Events of the
inbox and tasks are taken in any order.
-/

namespace Tazamun.Actor

variable {Id Path : Type} [LinearOrder Id] [LinearOrder Path]

variable (h : Host Id Path) (env : Env Path)

/-! ## Timers -/

/-- The end of a lease that was not renewed. -/
def leaseExpired (a : Actor Id Path) (rel : Path) (holder : Id) : Actor Id Path :=
  let a := if holder = a.me then a.settleMode env rel else a
  ({ a with autolockIdle := a.autolockIdle.erase rel } : Actor Id Path).broadcast (.lockFreed rel)

/-- The end of a round that was not answered in time. -/
def roundTimedOut (a : Actor Id Path) (rel : Path) : Actor Id Path :=
  let a := a.broadcast (.lock (.lockRelease rel))
  let pending := a.pendingAcquires[rel]?
  let a := { a with pendingAcquires := a.pendingAcquires.erase rel }
  match a.autolockPending[rel]? with
  | some (quarantined, newFile) => a.autolockFail h env rel quarantined newFile
  | none =>
      match pending with
      | some (_, waiter) =>
          a.replyTo waiter (.err "timeout" "not every peer answered the lock request in time")
      | none => a

def onSweep (a : Actor Id Path) : Actor Id Path :=
  let idle := (a.autolockIdle.toList.filter fun e =>
    decide (e.2 ≤ env.now) && a.locks.isHeldByMe e.1).map Prod.fst
  let a := idle.foldl (fun a rel => a.releaseOwnLease env rel) a
  let a := { a with autolockIdle := a.autolockIdle.filter fun _ d => decide (env.now < d) }
  let (locks, swept) := a.locks.sweep env.now
  let a := { a with locks }
  let a := swept.expired.foldl (fun a e => a.leaseExpired env e.1 e.2) a
  let a := { a with myWaits := a.myWaits.filter fun _ w => decide (env.now < w.2) }
  swept.timedOut.foldl (fun a rel => a.roundTimedOut h env rel) a

def onRenewTick (a : Actor Id Path) : Actor Id Path :=
  a.locks.selfHeldPaths.foldl
    (fun a rel =>
      ({ a with locks := a.locks.renewOwn rel env.now } : Actor Id Path).broadcast
        (.lock (.lockRenew rel a.lamport (Fin.ofNat _ a.locks.timings.ttl))))
    a

/-! ## Shutdown and startup -/

/-- `graceful_shutdown`, up to the closing of the connections: every lease is given up. -/
def gracefulShutdown (a : Actor Id Path) : Actor Id Path :=
  let a := a.locks.selfHeldPaths.foldl
    (fun a rel => (a.settleMode env rel).broadcast (.lock (.lockRelease rel))) a
  { a.broadcast .bye with peers := ∅ }

/-- A file found at startup that is no part of the index. -/
def scanUnindexed (a : Actor Id Path) (rel : Path) : Actor Id Path :=
  match a.verdict h rel (a.sizeOnDisk rel) with
  | some reason => { a with heldLocal := a.heldLocal.insert rel reason }
  | none =>
      let a := { a with busy := a.busy.insert rel () }
      (a.violationNewFile h env rel).unbusy h env rel

/-- A file found at startup; of indexed ones only the size is compared. -/
def scanFile (a : Actor Id Path) (rel : Path) : Actor Id Path :=
  match a.files[rel]? with
  | none => a.scanUnindexed h env rel
  | some record =>
      if record.deleted then a.scanUnindexed h env rel
      else if a.sizeOnDisk rel = some record.size then a
      else a.spawnViolation h env rel true

/-- The founding content of a session is published without leases. -/
def importFile (a : Actor Id Path) (rel : Path) : Actor Id Path :=
  match a.verdict h rel (a.sizeOnDisk rel) with
  | some reason => { a with heldLocal := a.heldLocal.insert rel reason }
  | none => a.spawnPublish rel .import

/-- `startup_scan`; `founding` if no member of the session is known yet. -/
def startupScan (a : Actor Id Path) (founding : Bool) : Actor Id Path :=
  let onDisk := a.disk.keys.filter h.sanitize
  if a.files.isEmpty && founding && a.history.isEmpty then
    onDisk.foldl (fun a rel => a.importFile h rel) a
  else
    let a := onDisk.foldl (fun a rel => a.scanFile h env rel) a
    let missing := (a.files.toList.filter fun e =>
      !e.2.deleted && !onDisk.contains e.1).map Prod.fst
    let a := missing.foldl
      (fun a rel =>
        ({ a with busy := a.busy.insert rel () } : Actor Id Path).spawnViolation h env rel false)
      a
    { a with pulling := a.pulling.filter fun rel target => !a.isCurrent rel target }

/-! ## Events and tasks -/

/-- The dispatch of `run`. -/
def handle (a : Actor Id Path) : Event Id Path → Actor Id Path
  | .authed id connId initiatedByMe => a.onAuthed h env id connId initiatedByMe
  | .msg id msg => a.onCtl h env id msg
  | .gone id connId => a.onPeerGone id connId
  | .watch rel => a.onWatch h env rel
  | .ipc req reply => a.onIpc h env req reply
  | .sweep => a.onSweep h env
  | .renew => a.onRenewTick env
  | .inspected rel outcome cause => a.onInspected h env rel outcome cause
  | .publishDone rel result cause => a.onPublishDone h env rel result cause
  | .pullStaged rel sender record result => a.onPullStaged h env rel sender record result
  | .pullRetry rel => a.onPullRetry rel
  | .violationStaged rel result quarantined preserveRequired =>
      a.onViolationStaged h env rel result quarantined preserveRequired
  | .autolockReady rel quarantined newFile =>
      a.beginAutolockAcquire h env rel quarantined newFile
  | .restoreStaged rel entry result reply => a.onRestoreStaged h env rel entry result reply
  | .conflictApplied rel result reply => a.onConflictApplied h env rel result reply
  | .acquireTimeout rel lamport => a.onAcquireTimeout h env rel lamport

/-- What an inspection finds on disk; `failure` if the comparison cannot be made. -/
def inspection (a : Actor Id Path) (rel : Path) (record : Option (FileRecord Id))
    (failure : Option String) : Except String Inspection :=
  match record, a.disk[rel]? with
  | none, none => .ok .clean
  | none, some _ => .ok .unindexed
  | some r, none => .ok (if r.deleted then .clean else .missingIndexed)
  | some r, some f =>
      if r.deleted then .ok .unindexed
      else
        match failure with
        | some e => .error e
        | none =>
            let same := decide (f.bytes.length = r.size.val) &&
              decide (h.manifestOf f.bytes = r.manifest)
            .ok (if same then .clean else .differs)

/-- The content of a manifest, unless the transfer fails. -/
def fetch (manifest : ManifestRef) (failure : Option String) : Option Bytes :=
  match failure with
  | some _ => none
  | none => h.content manifest

/-- A task does its work, unless it fails, and posts its event. -/
def runTask (a : Actor Id Path) (failure : Option String) (t : Task Id Path) :
    Actor Id Path × Event Id Path :=
  match t with
  | .inspect rel record cause => (a, .inspected rel (a.inspection h rel record failure) cause)
  | .publish rel cause =>
      let result : Option Published :=
        match failure, a.disk[rel]? with
        | none, some f => some ⟨h.manifestOf f.bytes, Fin.ofNat _ f.bytes.length, f.bytes⟩
        | _, _ => none
      (a, .publishDone rel result cause)
  | .pull rel sender record =>
      (a, .pullStaged rel sender record (fetch h record.manifest failure))
  | .pullTimer rel => (a, .pullRetry rel)
  | .violation rel record quarantineFirst =>
      let (a, quarantined) := if quarantineFirst then a.quarantine env rel else (a, none)
      (a, .violationStaged rel (fetch h record.manifest failure) quarantined quarantineFirst)
  | .autolock rel newFile =>
      let (a, quarantined) := a.quarantine env rel
      (a, .autolockReady rel quarantined newFile)
  | .revert rel record quarantined =>
      (a, .violationStaged rel (fetch h record.manifest failure) (some quarantined) true)
  | .restore rel entry reply =>
      let result : Except String Bytes :=
        match fetch h entry.manifest failure with
        | some bytes => .ok bytes
        | none => .error (failure.getD "chunk missing")
      (a, .restoreStaged rel entry result reply)
  | .conflictApply rel copy reply =>
      let result : Except String Bytes :=
        match failure, a.conflicts[copy]? with
        | none, some bytes => .ok bytes
        | _, _ => .error (failure.getD "copy missing")
      (a, .conflictApplied rel result reply)
  | .acquireTimer rel lamport => (a, .acquireTimeout rel lamport)

end Tazamun.Actor

namespace Tazamun

variable {Id Path : Type} [LinearOrder Id] [LinearOrder Path]

/-- The event comes from outside, not from a task. -/
def Event.isExternal : Event Id Path → Bool
  | .authed _ _ _ | .msg _ _ | .gone _ _ | .watch _ | .ipc _ _ | .sweep | .renew => true
  | _ => false

/-- One step of a run. -/
inductive Act (Id Path : Type) [Ord Id] where
  | event (ev : Event Id Path)
  | inbox (n : Nat)
  | task (n : Nat) (failure : Option String)
  | write (rel : Path) (bytes : Bytes)
  | delete (rel : Path)
  | chmod (rel : Path) (readonly : Bool)

namespace Actor

variable (h : Host Id Path)

/-- The step function. -/
def step (a : Actor Id Path) (s : Env Path × Act Id Path) : Option (Actor Id Path) :=
  let env := s.1
  match s.2 with
  | .event ev => if ev.isExternal then some (a.handle h env ev) else none
  | .inbox n =>
      match a.inbox[n]? with
      | none => none
      | some ev => some (({ a with inbox := a.inbox.eraseIdx n } : Actor Id Path).handle h env ev)
  | .task n failure =>
      match a.tasks[n]? with
      | none => none
      | some t =>
          let (a, ev) := ({ a with tasks := a.tasks.eraseIdx n } : Actor Id Path).runTask h env
            failure t
          some { a with inbox := a.inbox ++ [ev] }
  | .write rel bytes =>
      let readonly := match a.disk[rel]? with | some f => f.readonly | none => false
      some { a with disk := a.disk.insert rel { bytes, readonly } }
  | .delete rel => some { a with disk := a.disk.erase rel }
  | .chmod rel readonly =>
      match a.disk[rel]? with
      | none => none
      | some f => some { a with disk := a.disk.insert rel { f with readonly } }

/-- What a daemon finds when it starts. -/
structure Persisted (Id Path : Type) [LinearOrder Id] [LinearOrder Path] where
  config : SessionConfig
  adminPublicKey : Option Nat
  myGrant : Option (SignedGrant Nat)
  files : Map Path (FileRecord Id)
  history : History Id Path
  lamport : U64
  unapplied : Map Path (UnappliedEntry Id)
  pulling : Map Path (FileRecord Id)
  disk : Map Path DiskFile
  conflicts : Map (CopyName Path) Bytes

/-- The actor before its startup scan. A file whose bytes the index has is known. -/
def load (me : Id) (p : Persisted Id Path) : Actor Id Path where
  me := me
  config := p.config
  adminPublicKey := p.adminPublicKey
  myGrant := p.myGrant
  files := p.files
  history := p.history
  lamport := p.lamport
  unapplied := p.unapplied
  pulling := p.pulling
  locks := .new me p.config.timings
  peers := ∅
  peerIndex := ∅
  peerRoles := ∅
  indexReceived := ∅
  indexStaging := ∅
  pendingPulls := ∅
  pullBacklog := []
  deferred := ∅
  pendingAcquires := ∅
  pendingUnlocks := ∅
  myWaits := ∅
  interest := ∅
  autolockIdle := ∅
  autolockPending := ∅
  ignoreRules := p.disk[h.ignoreFile]?.map DiskFile.bytes
  heldLocal := ∅
  muted := ∅
  busy := ∅
  recheck := ∅
  disk := p.disk
  conflicts := p.conflicts
  tasks := []
  inbox := []
  sent := []
  replies := []
  journal := []
  known := (p.disk.filter fun rel f =>
    match p.files[rel]? with
    | some r => decide (h.content r.manifest = some f.bytes)
    | none => false).map fun _ f => f.bytes
  skipped := []
  opened := ∅

/-- The actor as its run begins: every indexed file has its mode, and the disk has been
scanned. -/
def boot (env : Env Path) (me : Id) (p : Persisted Id Path) (founding : Bool) : Actor Id Path :=
  let a := load h me p
  let a := (a.files.toList.filter fun e => !e.2.deleted).foldl
    (fun a e => a.settleMode env e.1) a
  a.startupScan h env founding

end Actor

end Tazamun
