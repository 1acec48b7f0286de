import Tazamun.Daemon.Watch

set_option autoImplicit false

/-! # Requests of the local user

The requests that change something (`daemon.rs`, from `handle_conflict_apply` to
`on_restore_staged`), with their checks in the order of the code. Lock, unlock, restore and
conflict apply first check the path and the role of the folder; each then has its own ladder
of preconditions and answers with the first that fails. A request that passes starts an
asynchronous operation and is answered at its end.
-/

namespace Tazamun

def NodeRole.str : NodeRole → String
  | .editor => "editor"
  | .viewer => "viewer"
  | .archive => "archive"

namespace Actor

variable {Id Path : Type} [LinearOrder Id] [LinearOrder Path]

def badPath : IpcResponse := .err "bad_path" "invalid relative path"

/-- `role_edit_guard`. -/
def roleEditGuard (a : Actor Id Path) : Option IpcResponse :=
  if a.config.role.canEdit then none
  else some (.err "role_forbidden"
    ("this folder's role is " ++ a.config.role.str ++ " (set in `tazamun setup`): it syncs and reads but never locks, edits, or publishes. To make it writable, run `tazamun config set role editor` and restart the daemon. (Role is enforced locally today; mesh-wide enforcement by peers arrives in a later phase.)"))

variable (h : Host Id Path) (env : Env Path)

/-! ## Leases -/

def handleLock (a : Actor Id Path) (rel : Path) (r : Nat) : Actor Id Path :=
  if !h.sanitize rel then a.reply r badPath
  else
    match a.roleEditGuard with
    | some err => a.reply r err
    | none =>
        if a.locks.isHeldByMe rel then a.reply r .ok
        else if (a.locks.holder rel).isSome then
          a.reply r (.diagnosed "lease_held" "LEASE"
            "wait for the current holder to unlock or its TTL to expire, or pass --wait")
        else if a.pendingAcquires.contains rel then
          a.reply r (.err "busy" "a lock request for this path is already pending")
        else
          match a.strictEditGuard rel with
          | some err => a.reply r err
          | none =>
              match a.startAcquire env rel (some r) with
              | (a, .ok _) => a
              | (a, .error (.alreadyHeld holder)) =>
                  a.reply r (.err "lease_held" ("lease already held by " ++ h.idStr holder))
              | (a, .error .alreadyPending) =>
                  a.reply r (.err "lease_held" "a lock request for this path is already pending")

/-- A round that got no answer in time; an autolock is reverted. -/
def onAcquireTimeout (a : Actor Id Path) (rel : Path) (lamport : U64) : Actor Id Path :=
  match a.pendingAcquires[rel]? with
  | none => a
  | some (l, waiter) =>
      if l ≠ lamport then a
      else
        let a := { a with
          pendingAcquires := a.pendingAcquires.erase rel
          locks := (a.locks.onDeny rel).1 }
        let a := a.broadcast (.lock (.lockRelease rel))
        match a.autolockPending[rel]? with
        | some (quarantined, newFile) => a.autolockFail h env rel quarantined newFile
        | none =>
            a.replyTo waiter (.diagnosed "timeout" "REACHABILITY"
              "a consulted peer did not respond — check its link in `tazamun status`")

def handleUnlock (a : Actor Id Path) (rel : Path) (r : Nat) : Actor Id Path :=
  if !h.sanitize rel then a.reply r badPath
  else
    match a.roleEditGuard with
    | some err => a.reply r err
    | none =>
        if !a.locks.isHeldByMe rel then
          a.reply r (.err "not_held" "you do not hold a lease on this path")
        else if a.busy.contains rel || a.pendingUnlocks.contains rel then
          a.reply r (.err "busy" "your edit is still syncing; retry in a moment")
        else
          ({ a with pendingUnlocks := a.pendingUnlocks.insert rel () } : Actor Id Path).inspect
            rel (.unlock r)

/-- Registers interest in a path that another node holds. -/
def handleLockWait (a : Actor Id Path) (rel : Path) (r : Nat) : Actor Id Path :=
  if !h.sanitize rel then a.reply r badPath
  else
    match a.locks.holder rel with
    | none => a.reply r .ok
    | some holder =>
        if holder = a.me then a.reply r .ok
        else
          let a := { a with
            myWaits := a.myWaits.insert rel (holder, env.now + a.config.waitTimeoutMs) }
          (a.broadcast (.lockInterest rel)).reply r .ok

/-- Releases a lease we hold with no reply (`release_own_lease`). -/
def releaseOwnLease (a : Actor Id Path) (rel : Path) : Actor Id Path :=
  if !a.locks.isHeldByMe rel then a
  else
    let a := { a with
      locks := a.locks.onRelease rel a.me
      autolockIdle := a.autolockIdle.erase rel }
    let a := a.settleMode env rel
    (a.broadcast (.lock (.lockRelease rel))).broadcast (.lockFreed rel)

/-! ## History -/

/-- The answer to `tag` and `pin`, which only touch the own history. -/
def setHistory (a : Actor Id Path) (rel : Path) (n : Nat) (r : Nat)
    (history : Option (History Id Path)) : Actor Id Path :=
  if !h.sanitize rel then a.reply r badPath
  else
    match history with
    | some history => ({ a with history } : Actor Id Path).reply r .ok
    | none => a.reply r (.err "no_history" ("no history entry " ++ toString n ++ " for " ++ h.str rel))

def handleTag (a : Actor Id Path) (rel : Path) (n : Nat) (name : Option String) (r : Nat) :
    Actor Id Path :=
  a.setHistory h rel n r (a.history.tag rel n name)

def handlePin (a : Actor Id Path) (rel : Path) (n : Nat) (pinned : Bool) (r : Nat) :
    Actor Id Path :=
  a.setHistory h rel n r (a.history.setPinned rel n pinned)

def handleRestore (a : Actor Id Path) (rel : Path) (n : Nat) (r : Nat) : Actor Id Path :=
  if !h.sanitize rel then a.reply r badPath
  else
    match a.roleEditGuard with
    | some err => a.reply r err
    | none =>
        if a.peers.isEmpty then
          a.reply r (.err "strict_offline"
            "strict mode: no authenticated peer is connected, so edits are refused")
        else if !a.locks.isHeldByMe rel then
          a.reply r (.err "not_held"
            "restore requires a self-held lease (run `tazamun lock` first)")
        else if a.busy.contains rel then
          a.reply r (.err "busy" "an operation on this path is in progress; retry in a moment")
        else
          match a.history.entry rel n with
          | none =>
              a.reply r (.err "no_history"
                ("no history entry " ++ toString n ++ " for this path"))
          | some entry =>
              ({ a with busy := a.busy.insert rel () } : Actor Id Path).spawn
                (.restore rel entry r)

/-- The restored version is committed as a new edit (`on_restore_staged`). -/
def commitRestored (a : Actor Id Path) (rel : Path) (entry : VersionEntry Id) (bytes : Bytes) :
    Actor Id Path :=
  let prev := a.files[rel]?
  let a := a.forget rel
  let vv := VClock.inc (match prev with | some r => r.vv | none => ∅) a.me
  let a := a.pushHistory rel prev
  let a := a.tick.commitLocal .restore rel
    { size := entry.size, manifest := entry.manifest, vv, deleted := false,
      updatedAtMs := env.nowMs }
  a.know rel bytes

def onRestoreStaged (a : Actor Id Path) (rel : Path) (entry : VersionEntry Id)
    (result : Except String Bytes) (r : Nat) : Actor Id Path :=
  if !a.locks.isHeldByMe rel then
    (a.reply r (.err "not_held" "lease was lost while restoring")).unbusy h env rel
  else
    match result with
    | .error e => (a.reply r (.err "restore_failed" e)).unbusy h env rel
    | .ok bytes =>
        let a :=
          match (a.mute env rel).persistTemp h env rel bytes with
          | (a, true) => ((a.openFor rel).commitRestored env rel entry bytes).reply r .ok
          | (a, false) => a.reply r (.err "restore_failed" (env.io.error rel))
        a.unbusy h env rel

/-! ## Quarantine copies -/

/-- `conflicts resolve`, its write step. -/
def handleConflictApply (a : Actor Id Path) (id : CopyName Path) (rel : Path) (r : Nat) :
    Actor Id Path :=
  if !a.conflicts.contains id then
    a.reply r (.err "unknown_conflict" ("no quarantined copy named " ++ h.copyStr id))
  else if !h.sanitize rel then a.reply r badPath
  else
    match a.roleEditGuard with
    | some err => a.reply r err
    | none =>
        if a.peers.isEmpty then
          a.reply r (.err "strict_offline"
            "resolving needs at least one connected peer (the publish must be seen)")
        else if !a.locks.isHeldByMe rel then
          a.reply r (.err "not_held" ("resolve requires a self-held lease (run `tazamun lock " ++
            h.str rel ++ "` first)"))
        else if a.disk.contains rel && !FileRecord.isLive a.files[rel]? then
          a.reply r (.err "target_exists"
            (h.str rel ++ " already exists on disk but is not a synced file; refusing to overwrite unrecoverable bytes — choose another `--into` name"))
        else if a.busy.contains rel then
          a.reply r (.err "busy" "another operation is running on this path; retry in a moment")
        else
          ({ a with busy := a.busy.insert rel () } : Actor Id Path).spawn
            (.conflictApply rel id r)

/-- The copy is renamed into the working path; it is not published here. The bytes are known
as long as the copy is there. -/
def onConflictApplied (a : Actor Id Path) (rel : Path) (result : Except String Bytes) (r : Nat) :
    Actor Id Path :=
  match result with
  | .error e => (a.unbusy h env rel).reply r (.err "apply_failed" e)
  | .ok bytes =>
      if !a.locks.isHeldByMe rel then
        (a.unbusy h env rel).reply r (.err "lease_lost"
          "the lease lapsed while staging; nothing was written and the quarantine copy is untouched")
      else
        match (a.mute env rel).persistTemp h env rel bytes with
        | (a, true) =>
            let a := a.openFor rel
            let a := if a.conflicts.toList.any (fun c => decide (c.2 = bytes)) then
              a.know rel bytes else a.forget rel
            (a.unbusy h env rel).reply r .ok
        | (a, false) =>
            (a.unbusy h env rel).reply r (.err "apply_failed" (env.io.error rel))

/-- `ConflictDiscard`: deletes one copy, because the user asked for it. -/
def handleConflictDiscard (a : Actor Id Path) (id : CopyName Path) (r : Nat) : Actor Id Path :=
  if a.conflicts.contains id then (a.loseCopy id).reply r .ok
  else a.reply r (.err "discard_failed" ("no quarantined copy named " ++ h.copyStr id))

/-! ## Settings -/

/-- `handle_config_set`; the timings take effect for future leases. -/
def handleConfigSet (a : Actor Id Path) (key : LiveKey) (r : Nat) : Actor Id Path :=
  let config : SessionConfig :=
    match key with
    | .autolock on => { a.config with autolock := on }
    | .leaseTtl ms => { a.config with leaseTtlMs := ms }
    | .acquireTimeout ms => { a.config with acquireTimeoutMs := ms }
    | .waitTimeout ms => { a.config with waitTimeoutMs := ms }
  let locks :=
    match key with
    | .leaseTtl _ | .acquireTimeout _ => a.locks.setTimings config.timings
    | .autolock _ | .waitTimeout _ => a.locks
  ({ a with config, locks } : Actor Id Path).reply r .ok

/-- `on_ipc`. -/
def onIpc (a : Actor Id Path) (req : IpcRequest Path) (r : Nat) : Actor Id Path :=
  match req with
  | .lock rel => a.handleLock h env rel r
  | .unlock rel => a.handleUnlock h rel r
  | .lockWait rel => a.handleLockWait h env rel r
  | .restore rel n => a.handleRestore h rel n r
  | .conflictApply id rel => a.handleConflictApply h id rel r
  | .conflictDiscard id => a.handleConflictDiscard h id r
  | .tag rel n name => a.handleTag h rel n name r
  | .pin rel n pinned => a.handlePin h rel n pinned r
  | .configSet key => a.handleConfigSet key r

end Actor

end Tazamun
