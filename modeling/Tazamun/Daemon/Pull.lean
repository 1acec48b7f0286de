import Tazamun.Daemon.Actor

set_option autoImplicit false

/-! # Reconciliation and pulls

The part of the actor that takes over the records of its peers (`daemon.rs`, from
`reconcile` to `finish_pull`). A record that is newer than the own one is pulled: a job in
`pendingPulls`, of which a bounded number run at once, a bounded backlog behind it, a slot
in each job for the record to pull next, and a deferred slot for content that arrived while
the path was busy. `apply_remote` finally writes the content and takes the record over.

`apply_remote` of the ignore file re-reads the rules, which may release held records, which
are then reconciled and may be applied in turn. The functions of this cycle take the
re-reading as a parameter `rebuild`, and `rebuildIgnore` ties the knot. A nested re-reading
needs the ignore file itself among the held records, and the outer one has just released it,
so two levels are all there are.
-/

namespace Tazamun

variable {Id Path : Type} [LinearOrder Id] [LinearOrder Path]

/-- `record_acceptable`. -/
def recordAcceptable (record : FileRecord Id) : Bool := decide (record.vv.size ≤ maxVvEntries)

/-- `is_scope_reason`. -/
def isScopeReason (reason : String) : Bool :=
  reason.startsWith "junk filter" || reason.startsWith "ignored by" ||
    reason.startsWith "outside this node's" || reason.startsWith "file is "

/-- The first element with the smallest key, with its position (`min_by_key`). -/
def minByKey {α κ : Type} [LT κ] [DecidableLT κ] (key : α → κ) : List α → Option (Nat × α)
  | [] => none
  | x :: xs =>
      match minByKey key xs with
      | none => some (0, x)
      | some (i, y) => if key y < key x then some (i + 1, y) else some (0, x)

namespace Actor

/-! ## The pull scheduler -/

def startPull (a : Actor Id Path) (rel : Path) (sender : Id) (record : FileRecord Id) :
    Actor Id Path :=
  let a :=
    if a.pulling[rel]? = some record then a
    else { a with pulling := a.pulling.insert rel record }
  a.spawn (.pull rel sender record)

/-- A fresh job, and its task. -/
def beginPull (a : Actor Id Path) (rel : Path) (sender : Id) (record : FileRecord Id) :
    Actor Id Path :=
  let a := { a with
    pendingPulls := a.pendingPulls.insert rel ⟨sender, record, 0, none⟩ }
  a.startPull rel sender record

/-- Adds a path to the bounded backlog, or refreshes its slot. -/
def enqueuePullBacklog (a : Actor Id Path) (rel : Path) (sender : Id)
    (record : FileRecord Id) : Actor Id Path :=
  match a.pullBacklog.findIdx? fun e => decide (e.1 = rel) with
  | some i =>
      let a := a.displace rel (a.pullBacklog[i]?.map Prod.snd) record
      { a with pullBacklog := a.pullBacklog.set i (rel, sender, record) }
  | none =>
      if a.pullBacklog.length < maxPullBacklog then
        { a with pullBacklog := a.pullBacklog ++ [(rel, sender, record)] }
      else a.letGo rel sender record

/-- `pick_backlog_index`: a path a local lock is waiting for first, then the smallest. -/
def pickBacklog (a : Actor Id Path) : Option (Nat × Path × Id × FileRecord Id) :=
  minByKey
    (fun e => toLex (!(a.myWaits.contains e.1 || a.pendingAcquires.contains e.1), e.2.2.size))
    a.pullBacklog

/-- The loop of `drain_pull_backlog`; every round takes an entry off the backlog. -/
def drainLoop : Nat → Actor Id Path → Actor Id Path
  | 0, a => a
  | n + 1, a =>
      if a.pendingPulls.size < maxConcurrentPulls then
        match a.pickBacklog with
        | none => a
        | some (i, rel, sender, record) =>
            let a := { a with pullBacklog := a.pullBacklog.eraseIdx i }
            if a.pendingPulls.contains rel || a.locks.isHeldByMe rel then
              drainLoop n (a.letGo rel sender record)
            else drainLoop n (a.beginPull rel sender record)
      else a

def drainPullBacklog (a : Actor Id Path) : Actor Id Path :=
  drainLoop a.pullBacklog.length a

/-- A pull of exactly this record is running or has just succeeded. -/
def isPulling (a : Actor Id Path) (rel : Path) (sender : Id) (record : FileRecord Id) : Bool :=
  a.tasks.any (fun
    | .pull r s w => decide (r = rel ∧ s = sender ∧ w = record)
    | _ => false) ||
  a.inbox.any fun
    | .pullStaged r s w (some _) => decide (r = rel ∧ s = sender ∧ w = record)
    | _ => false

/-- The job of `rel` is over, and the record queued behind it is next. -/
def nextPull (a : Actor Id Path) (rel : Path) : Actor Id Path :=
  match a.pendingPulls[rel]? with
  | none => a
  | some job =>
      let a :=
        if a.isPulling rel job.sender job.record then a
        else a.letGo rel job.sender job.record
      let a := { a with pendingPulls := a.pendingPulls.erase rel }
      match job.queued with
      | some (sender, record) => a.beginPull rel sender record
      | none => a

def finishPull (a : Actor Id Path) (rel : Path) : Actor Id Path :=
  (a.nextPull rel).drainPullBacklog

/-! ## Applying a record -/

/-- Whether the file at `rel` is there and writable. -/
def isWritable (a : Actor Id Path) (rel : Path) : Bool :=
  match a.disk[rel]? with
  | some f => !f.readonly
  | none => false

/-- `versions::push` of the record that is about to be replaced. -/
def pushHistory (a : Actor Id Path) (rel : Path) (replaced : Option (FileRecord Id)) :
    Actor Id Path :=
  match replaced with
  | none => a
  | some r =>
      { a with history :=
          a.history.push (effectiveDepth a.config.historyDepth a.config.role) rel r }

/-- The disk part of `apply_remote`. -/
def applyToDisk (h : Host Id Path) (env : Env Path) (a : Actor Id Path) (rel : Path)
    (record : FileRecord Id) (staged : Option Bytes) : Actor Id Path × Bool :=
  if record.deleted then a.removeFile h env rel
  else
    match staged with
    | none => (a, false)
    | some bytes =>
        match a.persistTemp h env rel bytes with
        | (a, false) => (a, false)
        | (a, true) => if a.config.enforceReadonly then a.setMode env rel true else (a, true)

/-- The record is taken over into the index, under a vector that covers the old one too. -/
def commitApplied (a : Actor Id Path) (rel : Path) (record : FileRecord Id)
    (staged : Option Bytes) : Actor Id Path :=
  let mergedVv :=
    match a.files[rel]? with
    | some p => VClock.merge p.vv record.vv
    | none => record.vv
  { a with
    files := a.files.insert rel { record with vv := mergedVv }
    pulling := a.pulling.erase rel
    journal := a.journal ++
      .applied rel record a.files[rel]? (a.locks.isHeldByMe rel) :: a.revival rel record
    known :=
      match staged with
      | some bytes => if record.deleted then a.known.erase rel else a.known.insert rel bytes
      | none => a.known.erase rel }

/-- What `apply_remote` does before it touches the file: a writable file carries an edit
without a lease and is quarantined, and the old version goes to the history. -/
def prepareApply (env : Env Path) (a : Actor Id Path) (rel : Path) : Actor Id Path :=
  let a := if a.isWritable rel then (a.quarantine env rel).1 else a
  let a := a.mute env rel
  a.pushHistory rel a.files[rel]?

section Cycle

variable (rebuild : Actor Id Path → Actor Id Path) (h : Host Id Path) (env : Env Path)

/-- `apply_remote`, once the path is free and the record still news. -/
def applyNow (a : Actor Id Path) (rel : Path) (sender : Id) (record : FileRecord Id)
    (staged : Option Bytes) : Actor Id Path :=
  let a :=
    match (a.prepareApply env rel).applyToDisk h env rel record staged with
    | (a, true) =>
        let a := a.commitApplied rel record staged
        if rel = h.ignoreFile then rebuild a else a
    | (a, false) => a.letGo rel sender record
  a.finishPull rel

/-- `apply_remote`. -/
def applyRemoteWith (a : Actor Id Path) (rel : Path) (sender : Id) (record : FileRecord Id)
    (staged : Option Bytes) : Actor Id Path :=
  if a.busy.contains rel then
    let a := a.displace rel (a.deferred[rel]?.map fun d => (d.sender, d.record)) record
    { a with deferred := a.deferred.insert rel ⟨sender, record, staged⟩ }
  else if a.isCurrent rel record then a.finishPull rel
  else a.applyNow rebuild h env rel sender record staged

/-! ## Reconciliation -/

/-- `portability_reason`: the rules for path segments, and the case-fold collision. -/
def portabilityReason (h : Host Id Path) (a : Actor Id Path) (rel : Path) : Option String :=
  match h.portabilityViolation rel with
  | some reason => some reason
  | none =>
      (a.files.toList.find? fun e =>
        !e.2.deleted && decide (e.1 ≠ rel) &&
          decide (h.toLowercase e.1 = h.toLowercase rel)).map
        fun e => "case-fold collision with already-indexed " ++ h.str e.1

/-- Stores a record that is not materialized, unless it is stored already. -/
def hold (a : Actor Id Path) (rel : Path) (record : FileRecord Id) (reason : String) :
    Actor Id Path :=
  match a.unapplied[rel]? with
  | some e =>
      if e.record.vv = record.vv then a
      else { a with unapplied := a.unapplied.insert rel ⟨record, reason⟩ }
  | none => { a with unapplied := a.unapplied.insert rel ⟨record, reason⟩ }

/-- The gates of `maybe_pull` for a live record: why it must be held, if it must. -/
def holdReason (h : Host Id Path) (a : Actor Id Path) (rel : Path) (record : FileRecord Id) :
    Option String :=
  let scope :=
    if FileRecord.isLive a.files[rel]? then none else a.verdict h rel (some record.size)
  match scope with
  | some reason => some reason
  | none => if h.windows then a.portabilityReason h rel else none

/-- `maybe_pull`, for a live record past its gates. -/
def schedulePull (a : Actor Id Path) (rel : Path) (sender : Id) (record : FileRecord Id) :
    Actor Id Path :=
  match a.pendingPulls[rel]? with
  | some job =>
      if job.record.manifest = record.manifest ∧ job.record.vv = record.vv then a
      else
        let a := a.displace rel job.queued record
        { a with pendingPulls :=
            a.pendingPulls.insert rel { job with queued := some (sender, record) } }
  | none =>
      if maxConcurrentPulls ≤ a.pendingPulls.size then a.enqueuePullBacklog rel sender record
      else a.beginPull rel sender record

/-- `maybe_pull`. -/
def maybePullWith (a : Actor Id Path) (rel : Path) (sender : Id) (record : FileRecord Id) :
    Actor Id Path :=
  if a.locks.isHeldByMe rel then a.letGo rel sender record
  else if record.deleted then
    let a := { a with unapplied := a.unapplied.erase rel }
    a.applyRemoteWith rebuild h env rel sender record none
  else
    match a.holdReason h rel record with
    | some reason => (a.letGo rel sender record).hold rel record reason
    | none => a.schedulePull rel sender record

/-- A record with a new own counter is committed and broadcast, once the clock is counted up. -/
def commitLocal (a : Actor Id Path) (kind : CommitKind) (rel : Path) (record : FileRecord Id) :
    Actor Id Path :=
  { a with
    files := a.files.insert rel record
    sent := a.sent ++ a.peers.keys.map fun id => (id, .fileMeta rel record a.lamport)
    journal := a.journal ++
      .committed kind rel record a.files[rel]? (a.locks.isHeldByMe rel) ::
        a.revival rel record }

/-- `on_concurrent`: the higher endpoint id asserts its copy again under a dominating clock,
the lower one quarantines its bytes and pulls. -/
def onConcurrentWith (a : Actor Id Path) (rel : Path) (sender : Id) (record : FileRecord Id) :
    Actor Id Path :=
  if sender < a.me then
    match a.files[rel]? with
    | none => a.letGo rel sender record
    | some mine =>
        let vv := VClock.inc (VClock.merge mine.vv record.vv) a.me
        a.tick.commitLocal .reassert rel { mine with vv, updatedAtMs := env.nowMs }
  else
    let a := (a.quarantine env rel).1
    a.maybePullWith rebuild h env rel sender record

/-- `maybe_clear_unapplied`. -/
def maybeClearUnapplied (a : Actor Id Path) (rel : Path) (record : FileRecord Id) :
    Actor Id Path :=
  if record.deleted then { a with unapplied := a.unapplied.erase rel } else a

/-- `reconcile_one`. -/
def reconcileOneWith (a : Actor Id Path) (sender : Id) (rel : Path) (record : FileRecord Id) :
    Actor Id Path :=
  let a := a.maybeClearUnapplied rel record
  match a.files[rel]? with
  | none =>
      if record.deleted then a.skip sender rel record
      else a.maybePullWith rebuild h env rel sender record
  | some mine =>
      match VClock.compare mine.vv record.vv with
      | .before => a.maybePullWith rebuild h env rel sender record
      | .concurrent => a.onConcurrentWith rebuild h env rel sender record
      | .equal | .after => a

/-- Retires the markers of held paths that the peer has deleted. -/
def clearDeleted (a : Actor Id Path) (records : Map Path (FileRecord Id)) : Actor Id Path :=
  { a with unapplied := a.unapplied.filter fun rel _ =>
      match records[rel]? with
      | some r => !r.deleted
      | none => true }

/-- The tombstones among the entries for which there is no record are ignored. -/
def skipUnknown (a : Actor Id Path) (sender : Id) (entries : List (Path × FileRecord Id)) :
    Actor Id Path :=
  { a with skipped := a.skipped ++ (entries.filter fun e =>
      e.2.deleted && a.files[e.1]?.isNone).map fun e => (sender, e) }

/-- `reconcile` against the index of `sender`. -/
def reconcileWith (a : Actor Id Path) (sender : Id) : Actor Id Path :=
  match a.peerIndex[sender]? with
  | none => a
  | some records =>
      let d := diff a.files records.toList
      let a := (a.clearDeleted records).skipUnknown sender records.toList
      let a := d.pull.foldl
        (fun a rel =>
          match records[rel]? with
          | some r => a.maybePullWith rebuild h env rel sender r
          | none => a) a
      d.conflicts.foldl
        (fun a rel =>
          match records[rel]? with
          | some r => a.onConcurrentWith rebuild h env rel sender r
          | none => a) a

/-- A held record that the rules release is reconciled with whoever advertises it. -/
def releaseHeld (a : Actor Id Path) (rel : Path) : Actor Id Path :=
  let a := { a with unapplied := a.unapplied.erase rel }
  match a.peerIndex.toList.findSome? fun e => e.2[rel]?.map fun r => (e.1, r) with
  | some (sender, record) => a.reconcileOneWith rebuild h env sender rel record
  | none => a

/-- Re-reads the rules of the ignore file. -/
def reloadRules (a : Actor Id Path) : Actor Id Path :=
  let a := { a with ignoreRules := a.disk[h.ignoreFile]?.map DiskFile.bytes }
  { a with heldLocal := a.heldLocal.filter fun rel _ =>
      (a.verdict h rel (a.sizeOnDisk rel)).isSome }

/-- The held records that the rules no longer hold. -/
def releasable (a : Actor Id Path) : List Path :=
  (a.unapplied.toList.filter fun e =>
    isScopeReason e.2.reason && (a.verdict h e.1 (some e.2.record.size)).isNone).map Prod.fst

/-- `rebuild_ignore`. -/
def rebuildIgnoreWith (a : Actor Id Path) : Actor Id Path :=
  let a := a.reloadRules h
  (a.releasable h).foldl (fun a rel => a.releaseHeld rebuild h env rel) a

end Cycle

variable (h : Host Id Path) (env : Env Path)

/-- `rebuild_ignore`, nested at most `n` deep. -/
def rebuildIgnoreN : Nat → Actor Id Path → Actor Id Path
  | 0 => id
  | n + 1 => rebuildIgnoreWith (rebuildIgnoreN n) h env

def rebuildIgnore (a : Actor Id Path) : Actor Id Path := rebuildIgnoreN h env 2 a

def applyRemote (a : Actor Id Path) : Path → Id → FileRecord Id → Option Bytes → Actor Id Path :=
  a.applyRemoteWith (rebuildIgnore h env) h env

def maybePull (a : Actor Id Path) : Path → Id → FileRecord Id → Actor Id Path :=
  a.maybePullWith (rebuildIgnore h env) h env

def onConcurrent (a : Actor Id Path) : Path → Id → FileRecord Id → Actor Id Path :=
  a.onConcurrentWith (rebuildIgnore h env) h env

def reconcileOne (a : Actor Id Path) : Id → Path → FileRecord Id → Actor Id Path :=
  a.reconcileOneWith (rebuildIgnore h env) h env

def reconcile (a : Actor Id Path) : Id → Actor Id Path :=
  a.reconcileWith (rebuildIgnore h env) h env

/-- `on_pull_staged`: content is applied, a failure retried a few times. -/
def onPullStaged (a : Actor Id Path) (rel : Path) (sender : Id) (record : FileRecord Id)
    (result : Option Bytes) : Actor Id Path :=
  match result with
  | some bytes => a.applyRemote h env rel sender record (some bytes)
  | none =>
      match a.pendingPulls[rel]? with
      | none => (a.letGo rel sender record).finishPull rel
      | some job =>
          let job := { job with attempts := job.attempts + 1 }
          let a := { a with pendingPulls := a.pendingPulls.insert rel job }
          if job.attempts < maxPullAttempts ∧ a.peers.contains sender then
            (a.displace rel (some (sender, record)) job.record).spawn (.pullTimer rel)
          else (a.letGo rel sender record).finishPull rel

/-- The `PullRetry` event. -/
def onPullRetry (a : Actor Id Path) (rel : Path) : Actor Id Path :=
  match a.pendingPulls[rel]? with
  | some job => a.startPull rel job.sender job.record
  | none => a

end Actor

end Tazamun
