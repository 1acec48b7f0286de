import Tazamun.Daemon.Pull

set_option autoImplicit false

/-! # The watch pipeline

What the actor does about files that change on disk (`daemon.rs`, from `on_watch` to
`autolock_fail`). A watch event leads to an inspection, a task that compares the file with
its record. Under a lease a difference is published and a missing file becomes a tombstone.
Without one it is a violation: the bytes are quarantined and the indexed version is restored,
unless autolock tries to acquire the lease first. A path is `busy` from the first to the last
of these steps, and a remote record that arrives meanwhile is deferred until `unbusy`.
-/

namespace Tazamun.Actor

variable {Id Path : Type} [LinearOrder Id] [LinearOrder Path]

/-! ## Inspection -/

/-- Spawns the comparison of disk and index. -/
def inspect (a : Actor Id Path) (rel : Path) (cause : InspectCause) : Actor Id Path :=
  let a := { a with busy := a.busy.insert rel () }
  a.spawn (.inspect rel a.files[rel]? cause)

variable (h : Host Id Path) (env : Env Path)

def onWatch (a : Actor Id Path) (rel : Path) : Actor Id Path :=
  let (a, muted) := a.isMuted env rel
  if muted then a
  else if a.busy.contains rel then { a with recheck := a.recheck.insert rel () }
  else if rel = h.ignoreFile then (a.rebuildIgnore h env).inspect rel .watch
  else if FileRecord.isLive a.files[rel]? then a.inspect rel .watch
  else
    let size := a.sizeOnDisk rel
    match a.verdict h rel size with
    | some reason =>
        if size.isSome then { a with heldLocal := a.heldLocal.insert rel reason }
        else { a with heldLocal := a.heldLocal.erase rel }
    | none => ({ a with heldLocal := a.heldLocal.erase rel } : Actor Id Path).inspect rel .watch

/-- The operation on `rel` is over: the deferred record, and the watch events that came in
meanwhile, are next. -/
def unbusy (a : Actor Id Path) (rel : Path) : Actor Id Path :=
  let a := { a with busy := a.busy.erase rel }
  let a :=
    match a.deferred[rel]? with
    | none => a
    | some d =>
        ({ a with deferred := a.deferred.erase rel } : Actor Id Path).applyRemote h env rel
          d.sender d.record d.staged
  if a.recheck.contains rel then
    ({ a with recheck := a.recheck.erase rel } : Actor Id Path).inspect rel .watch
  else a

/-! ## Publishing -/

def spawnPublish (a : Actor Id Path) (rel : Path) (cause : PublishCause) : Actor Id Path :=
  ({ a with busy := a.busy.insert rel () } : Actor Id Path).spawn (.publish rel cause)

/-- Releases a self-held lease and re-applies permissions (`finish_unlock`). -/
def finishUnlock (a : Actor Id Path) (rel : Path) (publishedOk : Bool) (r : Nat) :
    Actor Id Path :=
  let a := { a with
    pendingUnlocks := a.pendingUnlocks.erase rel
    locks := a.locks.onRelease rel a.me
    autolockIdle := a.autolockIdle.erase rel }
  let a := a.settleMode env rel
  let a := a.broadcast (.lock (.lockRelease rel))
  let a := a.broadcast (.lockFreed rel)
  if publishedOk then a.reply r .ok
  else a.reply r (.err "publish_failed"
    "the edit could not be published (lease released, bytes kept locally); nothing synced")

/-- A published edit is committed, unless it is the content the index has already. -/
def commitPublished (a : Actor Id Path) (rel : Path) (p : Published) (cause : PublishCause) :
    Actor Id Path :=
  let prev := a.files[rel]?
  let unchanged :=
    match prev with
    | some r => !r.deleted && decide (r.manifest = p.manifest) && decide (r.size = p.size)
    | none => false
  if unchanged then a.know rel p.bytes
  else
    let a := a.forget rel
    let vv := VClock.inc (match prev with | some r => r.vv | none => ∅) a.me
    let a := a.pushHistory rel prev
    let kind := match cause with | .import => CommitKind.import | _ => .publish
    let a := a.tick.commitLocal kind rel
      { size := p.size, manifest := p.manifest, vv, deleted := false, updatedAtMs := env.nowMs }
    a.know rel p.bytes

def onPublishDone (a : Actor Id Path) (rel : Path) (result : Option Published)
    (cause : PublishCause) : Actor Id Path :=
  let allowed := a.locks.isHeldByMe rel || decide (cause = .import)
  let published := if allowed then result else none
  let a :=
    match result, cause with
    | none, .edit => { a with recheck := a.recheck.insert rel () }
    | _, _ => a
  let a :=
    match published with
    | none => a
    | some p =>
        let a := a.commitPublished env rel p cause
        if cause = PublishCause.import then a.settleMode env rel else a
  let a := a.unbusy h env rel
  match cause with
  | .unlock r => a.finishUnlock env rel published.isSome r
  | _ => a

/-- A delete under a lease becomes a tombstone. -/
def commitTombstone (a : Actor Id Path) (rel : Path) : Actor Id Path :=
  match a.files[rel]? with
  | none => a
  | some prev =>
      if prev.deleted then a
      else
        let a := a.pushHistory rel (some prev)
        let a := a.forget rel
        a.tick.commitLocal .tombstone rel (.tombstone (VClock.inc prev.vv a.me) env.nowMs)

/-! ## Violations -/

/-- Restores the indexed version; `quarantineFirst` if there are bytes to preserve. -/
def spawnViolation (a : Actor Id Path) (rel : Path) (quarantineFirst : Bool) : Actor Id Path :=
  match a.files[rel]? with
  | none => a.unbusy h env rel
  | some record =>
      ({ a with busy := a.busy.insert rel () } : Actor Id Path).spawn
        (.violation rel record quarantineFirst)

/-- The file at `rel` was just written from `bytes`; they are known if the index has them. -/
def knowIfIndexed (a : Actor Id Path) (rel : Path) (bytes : Bytes) : Actor Id Path :=
  match a.files[rel]? with
  | some r => if h.content r.manifest = some bytes then a.know rel bytes else a.forget rel
  | none => a.forget rel

def onViolationStaged (a : Actor Id Path) (rel : Path) (result : Option Bytes)
    (quarantined : Option (CopyName Path)) (preserveRequired : Bool) : Actor Id Path :=
  if preserveRequired && quarantined.isNone then a.unbusy h env rel
  else
    let a :=
      match result with
      | none => a
      | some bytes =>
          match (a.mute env rel).persistTemp h env rel bytes with
          | (a, false) => a
          | (a, true) =>
              let a := a.knowIfIndexed h rel bytes
              if a.config.enforceReadonly then (a.setMode env rel true).1 else a
    a.unbusy h env rel

/-- A new file without a lease is quarantined and removed. -/
def violationNewFile (a : Actor Id Path) (rel : Path) : Actor Id Path :=
  match a.quarantine env rel with
  | (a, none) => a
  | (a, some _) => ((a.mute env rel).removeFile h env rel).1

/-! ## Autolock -/

def autolockEligible (a : Actor Id Path) (rel : Path) : Bool :=
  a.config.role.canEdit && (a.config.autolock || !a.config.strict) &&
    (a.locks.holder rel).isNone && !a.autolockPending.contains rel

def spawnAutolock (a : Actor Id Path) (rel : Path) (newFile : Bool) : Actor Id Path :=
  ({ a with busy := a.busy.insert rel () } : Actor Id Path).spawn (.autolock rel newFile)

/-- The acquire failed: the bytes stay in quarantine, and the indexed version is restored or
the new file removed. -/
def autolockFail (a : Actor Id Path) (rel : Path) (quarantined : Option (CopyName Path))
    (newFile : Bool) : Actor Id Path :=
  let a := { a with autolockPending := a.autolockPending.erase rel }
  match quarantined with
  | none => a.unbusy h env rel
  | some copy =>
      if newFile then (((a.mute env rel).removeFile h env rel).1).unbusy h env rel
      else
        match a.files[rel]? with
        | none => a.unbusy h env rel
        | some record => a.spawn (.revert rel record copy)

/-- The freshness and reachability checks before an acquire; `none` if they pass. -/
def strictEditGuard (a : Actor Id Path) (rel : Path) : Option IpcResponse :=
  if a.peers.isEmpty then
    some (.diagnosed "strict_offline" "REACHABILITY"
      "wait for at least one peer to reconnect (check `tazamun status`)")
  else if a.peers.keys.any fun id => !a.indexReceived.contains id then
    some (.diagnosed "syncing" "FRESHNESS" "index exchange is still in progress; retry shortly")
  else if a.pendingPulls.contains rel || a.deferred.contains rel then
    some (.diagnosed "not_fresh" "FRESHNESS" "let the in-flight pull finish, then retry")
  else if a.busy.contains rel then
    some (.diagnosed "busy" "FRESHNESS"
      "an operation on this path is in progress; retry shortly")
  else
    let localVv := match a.files[rel]? with | some r => r.vv | none => ∅
    let ahead := a.peerIndex.toList.any fun e =>
      a.peers.contains e.1 &&
        match e.2[rel]? with
        | none => false
        | some theirs =>
            match VClock.compare localVv theirs.vv with
            | .equal | .after => false
            | .before | .concurrent => true
    if ahead then
      some (.diagnosed "not_fresh" "FRESHNESS"
        "this peer has a newer version; wait for it to sync in, then retry")
    else none

/-- Starts a round of votes on `rel`, unless the table refuses. -/
def startAcquire (a : Actor Id Path) (rel : Path) (waiter : Option Nat) :
    Actor Id Path × Except (StartError Id) Unit :=
  let a := a.tick
  match a.locks.startRequest rel a.lamport a.peers.keys.toFinset env.now with
  | (locks, .error e) => ({ a with locks }, .error e)
  | (locks, .ok _) =>
      let ttlMs : U64 := Fin.ofNat _ a.locks.timings.ttl
      let a := { a with
        locks
        pendingAcquires := a.pendingAcquires.insert rel (a.lamport, waiter) }
      let a := a.broadcast (.lock (.lockReq rel a.lamport ttlMs))
      (a.spawn (.acquireTimer rel a.lamport), .ok ())

/-- The bytes are preserved: begin a standard acquire. -/
def beginAutolockAcquire (a : Actor Id Path) (rel : Path)
    (quarantined : Option (CopyName Path)) (newFile : Bool) : Actor Id Path :=
  let a := { a with busy := a.busy.erase rel }
  match a.strictEditGuard rel with
  | some _ => a.autolockFail h env rel quarantined newFile
  | none =>
      let a := { a with busy := a.busy.insert rel () }
      match a.startAcquire env rel none with
      | (a, .error _) => a.autolockFail h env rel quarantined newFile
      | (a, .ok _) =>
          { a with autolockPending := a.autolockPending.insert rel (quarantined, newFile) }

/-- Autolock won the lease: publish the edit, and start the idle countdown. -/
def autolockSucceed (a : Actor Id Path) (rel : Path) : Actor Id Path :=
  match a.autolockPending[rel]? with
  | none => a
  | some _ =>
      let a := { a with
        autolockPending := a.autolockPending.erase rel
        autolockIdle := a.autolockIdle.insert rel (env.now + autolockIdleRelease) }
      a.spawnPublish rel .edit

/-! ## The result of an inspection -/

/-- An inspection for a watch event. -/
def onWatchInspected (a : Actor Id Path) (rel : Path) (outcome : Inspection) : Actor Id Path :=
  match a.locks.isHeldByMe rel, outcome with
  | _, .clean => a.unbusy h env rel
  | true, .differs | true, .unindexed =>
      let a :=
        if a.autolockIdle.contains rel then
          { a with autolockIdle := a.autolockIdle.insert rel (env.now + autolockIdleRelease) }
        else a
      a.spawnPublish rel .edit
  | true, .missingIndexed => (a.commitTombstone env rel).unbusy h env rel
  | false, .differs =>
      if a.autolockEligible rel then a.spawnAutolock rel false
      else a.spawnViolation h env rel true
  | false, .unindexed =>
      if a.autolockEligible rel then a.spawnAutolock rel true
      else (a.violationNewFile h env rel).unbusy h env rel
  | false, .missingIndexed => a.spawnViolation h env rel false

/-- The last inspection before an unlock. -/
def onUnlockInspected (a : Actor Id Path) (rel : Path) (outcome : Inspection) (r : Nat) :
    Actor Id Path :=
  match outcome with
  | .clean => (a.unbusy h env rel).finishUnlock env rel true r
  | .differs | .unindexed => a.spawnPublish rel (.unlock r)
  | .missingIndexed => ((a.commitTombstone env rel).unbusy h env rel).finishUnlock env rel true r

/-- `on_inspected`. -/
def onInspected (a : Actor Id Path) (rel : Path) (outcome : Except String Inspection)
    (cause : InspectCause) : Actor Id Path :=
  match outcome, cause with
  | .error e, .unlock r => (a.reply r (.err "inspect_failed" e)).unbusy h env rel
  | .error _, .watch => a.unbusy h env rel
  | .ok outcome, .watch => a.onWatchInspected h env rel outcome
  | .ok outcome, .unlock r => a.onUnlockInspected h env rel outcome r

end Tazamun.Actor
