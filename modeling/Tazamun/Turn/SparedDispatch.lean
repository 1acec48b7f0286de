import Tazamun.Turn.Held

set_option autoImplicit false

/-! # What requests, messages and timers leave alone

The second half of the walk with one path, up to the dispatch of an event: the requests of the
user, the messages of the peers, and the timers. The requests that end in a change to a file,
and a watch event of a file that the rules do not hold, start work on their path; a turn that is
gated (`Gates`) starts none on the path that is followed.
-/

namespace Tazamun

variable {Id Path : Type} [LinearOrder Id] [LinearOrder Path]

/-- The path on which the request starts work, whatever the rules say. -/
def IpcRequest.worksOn : IpcRequest Path → Option Path
  | .unlock rel | .restore rel _ | .conflictApply _ rel => some rel
  | .lock _ | .lockWait _ | .conflictDiscard _ | .tag _ _ _ | .pin _ _ _ | .configSet _ => none

namespace Actor

/-- The event starts no work on the path: no request of the user does, and a watch event finds
it held. -/
def Gates (h : Host Id Path) (a : Actor Id Path) (q : Path) : Event Id Path → Prop
  | .watch rel => rel = q → rel ≠ h.ignoreFile ∧ FileRecord.isLive a.files[rel]? = false ∧
      (a.verdict h rel (a.sizeOnDisk rel)).isSome = true
  | .ipc req _ => req.worksOn ≠ some q
  | _ => True

section Walk

variable {q : Path} {g : Prop} {a b : Actor Id Path} (hb : Spares q g a b) (h : Host Id Path)
  (env : Env Path)

include hb

/-! ## Requests of the user -/

omit h env in
theorem unpend_spares (rel : Path) :
    Spares q g a { b with pendingAcquires := b.pendingAcquires.erase rel } :=
  hb.same rfl rfl rfl rfl rfl

theorem handleLock_spares (rel : Path) (r : Nat) : Spares q g a (b.handleLock h env rel r) := by
  have hsay : ∀ resp, Spares q g a (b.reply r resp) := fun resp => reply_spares hb r resp
  have hstarted := startAcquire_spares hb env rel (some r)
  unfold handleLock
  split
  · exact hsay _
  · split
    · exact hsay _
    · split
      · exact hsay _
      · split
        · exact hsay _
        · split
          · exact hsay _
          · split
            · exact hsay _
            · split
              · rename_i d hd
                rw [hd] at hstarted
                exact hstarted
              · rename_i d holder hd
                rw [hd] at hstarted
                exact reply_spares hstarted r _
              · rename_i d hd
                rw [hd] at hstarted
                exact reply_spares hstarted r _

theorem onAcquireTimeout_spares (hfree : a.autolockPending[q]? = none) (rel : Path)
    (lamport : U64) : Spares q g a (b.onAcquireTimeout h env rel lamport) := by
  unfold onAcquireTimeout
  split
  · exact hb
  · rename_i l waiter _
    dsimp only
    split
    · exact hb
    · have hended : Spares q g a { b with
          pendingAcquires := b.pendingAcquires.erase rel, locks := (b.locks.onDeny rel).1 } :=
        hb.same rfl rfl rfl rfl rfl
      have hsent := broadcast_spares hended (.lock (.lockRelease rel))
      exact roundOver_spares hsent h env hfree (replyTo_spares hsent waiter _)

theorem handleUnlock_spares {rel : Path} (hrel : g → rel ≠ q) (r : Nat) :
    Spares q g a (b.handleUnlock h rel r) := by
  have hsay : ∀ resp, Spares q g a (b.reply r resp) := fun resp => reply_spares hb r resp
  unfold handleUnlock
  split
  · exact hsay _
  · split
    · exact hsay _
    · split
      · exact hsay _
      · split
        · exact hsay _
        · have hwaits : Spares q g a
              { b with pendingUnlocks := b.pendingUnlocks.insert rel () } :=
            hb.same rfl rfl rfl rfl rfl
          exact inspect_spares hwaits hrel _

theorem handleLockWait_spares (rel : Path) (r : Nat) :
    Spares q g a (b.handleLockWait h env rel r) := by
  have hsay : ∀ resp, Spares q g a (b.reply r resp) := fun resp => reply_spares hb r resp
  unfold handleLockWait
  split
  · exact hsay _
  · split
    · exact hsay _
    · split
      · exact hsay _
      · exact hb.same rfl rfl rfl rfl rfl

theorem releaseOwnLease_spares (rel : Path) : Spares q g a (b.releaseOwnLease env rel) := by
  unfold releaseOwnLease
  split
  · exact hb
  · have hreleased : Spares q g a { b with
        locks := b.locks.onRelease rel b.me, autolockIdle := b.autolockIdle.erase rel } :=
      hb.same rfl rfl rfl rfl rfl
    exact broadcast_spares (broadcast_spares (settleMode_spares hreleased env rel) _) _

theorem setHistory_spares (rel : Path) (n r : Nat) (history : Option (History Id Path)) :
    Spares q g a (b.setHistory h rel n r history) := by
  unfold setHistory
  split
  · exact reply_spares hb r _
  · split
    · exact hb.same rfl rfl rfl rfl rfl
    · exact reply_spares hb r _

theorem handleRestore_spares {rel : Path} (hrel : g → rel ≠ q) (n r : Nat) :
    Spares q g a (b.handleRestore h rel n r) := by
  have hsay : ∀ resp, Spares q g a (b.reply r resp) := fun resp => reply_spares hb r resp
  unfold handleRestore
  split
  · exact hsay _
  · split
    · exact hsay _
    · split
      · exact hsay _
      · split
        · exact hsay _
        · split
          · exact hsay _
          · split
            · exact hsay _
            · exact (busy_spares hb _).spawn (worksOn_ne rfl hrel)

theorem commitRestored_spares {rel : Path} (hrel : rel ≠ q) (entry : VersionEntry Id)
    (bytes : Bytes) : Spares q g a (b.commitRestored env rel entry bytes) := by
  have hforgot : Spares q g a (b.forget rel) := hb.same rfl rfl rfl rfl rfl
  have hpushed := pushHistory_spares hforgot rel b.files[rel]?
  exact (commitLocal_spares (tick_spares hpushed) (.inl hrel)).same rfl rfl rfl rfl rfl

theorem onRestoreStaged_spares {rel : Path} (hrel : rel ≠ q) (entry : VersionEntry Id)
    (result : Except String Bytes) (r : Nat) :
    Spares q g a (b.onRestoreStaged h env rel entry result r) := by
  unfold onRestoreStaged
  split
  · exact unbusy_spares (reply_spares hb r _) h env hrel
  · split
    · exact unbusy_spares (reply_spares hb r _) h env hrel
    · rename_i bytes
      have hwritten := persistTemp_spares (mute_spares hb env rel) h env rel bytes
      refine unbusy_spares ?_ h env hrel
      split
      · rename_i d hd
        rw [hd] at hwritten
        have hopen : Spares q g a (d.openFor rel) := hwritten.same rfl rfl rfl rfl rfl
        exact reply_spares (commitRestored_spares hopen env hrel entry bytes) r _
      · rename_i d hd
        rw [hd] at hwritten
        exact reply_spares hwritten r _

theorem handleConflictApply_spares (id : CopyName Path) {rel : Path} (hrel : g → rel ≠ q)
    (r : Nat) :
    Spares q g a (b.handleConflictApply h id rel r) := by
  have hsay : ∀ resp, Spares q g a (b.reply r resp) := fun resp => reply_spares hb r resp
  unfold handleConflictApply
  split
  · exact hsay _
  · split
    · exact hsay _
    · split
      · exact hsay _
      · split
        · exact hsay _
        · split
          · exact hsay _
          · split
            · exact hsay _
            · split
              · exact hsay _
              · exact (busy_spares hb _).spawn (worksOn_ne rfl hrel)

theorem onConflictApplied_spares {rel : Path} (hrel : rel ≠ q)
    (result : Except String Bytes) (r : Nat) :
    Spares q g a (b.onConflictApplied h env rel result r) := by
  unfold onConflictApplied
  split
  · exact reply_spares (unbusy_spares hb h env hrel) r _
  · rename_i bytes
    split
    · exact reply_spares (unbusy_spares hb h env hrel) r _
    · have hwritten := persistTemp_spares (mute_spares hb env rel) h env rel bytes
      split
      · rename_i d hd
        rw [hd] at hwritten
        have hopen : Spares q g a (d.openFor rel) := hwritten.same rfl rfl rfl rfl rfl
        refine reply_spares (unbusy_spares ?_ h env hrel) r _
        split
        · exact hopen.same rfl rfl rfl rfl rfl
        · exact hopen.same rfl rfl rfl rfl rfl
      · rename_i d hd
        rw [hd] at hwritten
        exact reply_spares (unbusy_spares hwritten h env hrel) r _

theorem loseCopy_spares (name : CopyName Path) : Spares q g a (b.loseCopy name) := by
  unfold loseCopy
  split
  · exact hb
  · exact hb.same rfl rfl rfl rfl rfl

theorem onIpc_spares {req : IpcRequest Path} (hreq : g → req.worksOn ≠ some q) (r : Nat) :
    Spares q g a (b.onIpc h env req r) := by
  have hne : ∀ {rel}, req.worksOn = some rel → g → rel ≠ q := by
    rintro rel heq hg rfl
    exact hreq hg heq
  cases req with
  | lock rel => exact handleLock_spares hb h env rel r
  | unlock rel => exact handleUnlock_spares hb h (hne rfl) r
  | lockWait rel => exact handleLockWait_spares hb h env rel r
  | restore rel n => exact handleRestore_spares hb h (hne rfl) n r
  | conflictApply id rel => exact handleConflictApply_spares hb h id (hne rfl) r
  | conflictDiscard id =>
      show Spares q g a (b.handleConflictDiscard h id r)
      unfold handleConflictDiscard
      split
      · exact reply_spares (loseCopy_spares hb id) r _
      · exact reply_spares hb r _
  | tag rel n name => exact setHistory_spares hb h rel n r _
  | pin rel n pinned => exact setHistory_spares hb h rel n r _
  | configSet key => exact hb.same rfl rfl rfl rfl rfl

/-! ## Peers -/

theorem join_spares (id : Id) (peer : Peer) : Spares q g a (b.join h env id peer) :=
  hb.same rfl rfl rfl rfl rfl

theorem onAuthed_spares (id : Id) (connId : Nat) (initiatedByMe : Bool) :
    Spares q g a (b.onAuthed h env id connId initiatedByMe) := by
  have hjoin : ∀ peer, Spares q g a (b.join h env id peer) := fun peer =>
    join_spares hb h env id peer
  unfold onAuthed
  dsimp only
  split
  · exact hb
  · split
    · exact hb
    · split
      · exact hjoin _
      · split_ifs <;> first | exact hjoin _ | exact hb

theorem abortRound_spares (rel : Path) : Spares q g a (b.abortRound rel) := by
  have hsent := broadcast_spares hb (.lock (.lockRelease rel))
  unfold abortRound
  dsimp only
  split
  · exact hsent
  · exact replyTo_spares (unpend_spares hsent rel) _ _

theorem onPeerGone_spares (id : Id) (connId : Nat) : Spares q g a (b.onPeerGone id connId) := by
  unfold onPeerGone
  split
  · exact hb
  · refine Spares.foldl (hb.same rfl rfl rfl rfl rfl) fun d rel _ hd => abortRound_spares hd rel

theorem onPeerIdentity_spares (sender : Id) (grant : SignedGrant Nat) :
    Spares q g a (b.onPeerIdentity env sender grant) := by
  unfold onPeerIdentity
  split
  · exact hb
  · split
    · exact hb.same rfl rfl rfl rfl rfl
    · split <;> exact hb.same rfl rfl rfl rfl rfl

theorem ingest_spares (sender : Id) (map : Map Path (FileRecord Id))
    (files : List (Path × FileRecord Id)) : Spares q g a (b.ingest h sender map files).1 := by
  unfold ingest
  induction files generalizing b map with
  | nil => exact hb
  | cons e files ih =>
      rw [List.foldl_cons]
      dsimp only
      split
      · exact ih (displace_spares hb e.1 _ e.2) _
      · exact ih (letGo_spares hb e.1 sender e.2) _

theorem observeLeases_spares (leases : List (LeaseInfo Id Path)) :
    Spares q g a (b.observeLeases h env leases) :=
  hb.same rfl rfl rfl rfl rfl

theorem commitPeerIndex_spares (sender : Id) (map : Map Path (FileRecord Id))
    (leases : List (LeaseInfo Id Path)) :
    Spares q g a (b.commitPeerIndex h env sender map leases) := by
  have hbooked : Spares q g a { b with
      peerIndex := b.peerIndex.insert sender map
      indexReceived := b.indexReceived.insert sender () } := hb.same rfl rfl rfl rfl rfl
  have hnoted := note_spares (e := .indexed sender map.toList leases) hbooked rfl
  exact reconcile_spares (observeLeases_spares hnoted h env leases) h env sender

theorem supersede_spares (sender : Id) (map : Map Path (FileRecord Id))
    (staged : List (Path × FileRecord Id)) : Spares q g a (b.supersede sender map staged) := by
  unfold supersede
  refine Spares.foldl hb fun d e _ hd => ?_
  dsimp only
  split
  · exact displace_spares hd e.1 _ _
  · exact letGo_spares hd e.1 sender e.2

theorem onIndex_spares (sender : Id) (lamport : U64) (files : List (Path × FileRecord Id))
    (leases : List (LeaseInfo Id Path)) :
    Spares q g a (b.onIndex h env sender lamport files leases) := by
  have hout : Spares q g a { b with
      lamport := max b.lamport lamport, indexStaging := b.indexStaging.erase sender } :=
    hb.same rfl rfl rfl rfl rfl
  exact commitPeerIndex_spares (supersede_spares (ingest_spares hout h sender ∅ files) sender _ _)
    h env sender _ leases

theorem onIndexPart_spares (sender : Id) (seq : Nat) (last : Bool) (lamport : U64)
    (files : List (Path × FileRecord Id)) (leases : List (LeaseInfo Id Path)) :
    Spares q g a (b.onIndexPart h env sender seq last lamport files leases) := by
  have hout : Spares q g a { b with
      lamport := max b.lamport lamport, indexStaging := b.indexStaging.erase sender } :=
    hb.same rfl rfl rfl rfl rfl
  have hread := ingest_spares hout h sender (b.indexStaging[sender]?.getD (0, ∅)).2 files
  unfold onIndexPart
  dsimp only
  split
  · exact hout.same rfl rfl rfl rfl rfl
  · split
    · exact commitPeerIndex_spares hread h env sender _ leases
    · exact hread.same rfl rfl rfl rfl rfl

theorem onFileMeta_spares (sender : Id) (rel : Path) (record : FileRecord Id) (lamport : U64) :
    Spares q g a (b.onFileMeta h env sender rel record lamport) := by
  have hheard : Spares q g a { b with lamport := max b.lamport lamport } :=
    hb.same rfl rfl rfl rfl rfl
  unfold onFileMeta
  dsimp only
  split
  · have hbooked : Spares q g a { b with
        lamport := max b.lamport lamport
        peerIndex := b.peerIndex.insert sender
          ((b.peerIndex[sender]?.getD ∅).insert rel record) } := hheard.same rfl rfl rfl rfl rfl
    exact reconcileOne_spares hbooked h env sender rel record
  · exact letGo_spares hheard rel sender record

/-! ## Lock messages -/

theorem tieLost_spares (hfree : a.autolockPending[q]? = none) (rel : Path) :
    Spares q g a (b.tieLost h env rel) := by
  have hover := unpend_spares hb rel
  unfold tieLost
  refine roundOver_spares hover h env hfree ?_
  split
  · exact replyTo_spares hover _ _
  · exact hover

theorem onLockReq_spares (hfree : a.autolockPending[q]? = none) (sender : Id) (rel : Path)
    (lamport ttlMs : U64) : Spares q g a (b.onLockReq h env sender rel lamport ttlMs) := by
  have hheard : Spares q g a { b with lamport := max b.lamport lamport } :=
    hb.same rfl rfl rfl rfl rfl
  unfold onLockReq
  dsimp only
  split
  · exact hheard
  · split
    · exact send_spares hheard sender _
    · split
      · rename_i locks _
        have hgranted : Spares q g a { b with lamport := max b.lamport lamport, locks } :=
          hheard.same rfl rfl rfl rfl rfl
        exact send_spares (note_spares hgranted rfl) sender _
      · rename_i locks _
        have hgranted : Spares q g a { b with lamport := max b.lamport lamport, locks } :=
          hheard.same rfl rfl rfl rfl rfl
        exact send_spares (broadcast_spares
          (tieLost_spares (note_spares hgranted rfl) h env hfree rel) _) sender _
      · rename_i locks _ _
        have hdenied : Spares q g a { b with lamport := max b.lamport lamport, locks } :=
          hheard.same rfl rfl rfl rfl rfl
        exact send_spares hdenied sender _

theorem leaseAcquired_spares (hfree : a.autolockPending[q]? = none) (rel : Path) : Spares q g a (b.leaseAcquired env rel) := by
  have hopen : Spares q g a ((b.setMode env rel false).1.openFor rel) :=
    (setMode_spares hb env rel false).same rfl rfl rfl rfl rfl
  have hserved : Spares q g a { (b.setMode env rel false).1.openFor rel with
      myWaits := ((b.setMode env rel false).1.openFor rel).myWaits.erase rel
      interest := ((b.setMode env rel false).1.openFor rel).interest.erase rel } :=
    hopen.same rfl rfl rfl rfl rfl
  have hwon := autolockSucceed_spares hserved env hfree rel
  unfold leaseAcquired
  dsimp only
  split
  · exact hwon
  · exact replyTo_spares (unpend_spares hwon rel) _ _

theorem onLockGrant_spares (hfree : a.autolockPending[q]? = none) (sender : Id) (rel : Path) :
    Spares q g a (b.onLockGrant h env sender rel) := by
  unfold onLockGrant
  split
  · exact hb
  · split
    · exact hb.same rfl rfl rfl rfl rfl
    · rename_i locks _
      have hnoted := note_spares (e := .acquired rel (b.voters rel) b.files[rel]?) hb rfl
      have hheld : Spares q g a { b.note (.acquired rel (b.voters rel) b.files[rel]?) with
          locks } := hnoted.same rfl rfl rfl rfl rfl
      exact leaseAcquired_spares hheld env hfree rel

theorem onLockDeny_spares (hfree : a.autolockPending[q]? = none) (rel : Path)
    (reason : DenyReason Id) : Spares q g a (b.onLockDeny h env rel reason) := by
  unfold onLockDeny
  split
  · exact hb
  · split
    · exact hb.same rfl rfl rfl rfl rfl
    · rename_i locks _
      have hended : Spares q g a { b with locks } := hb.same rfl rfl rfl rfl rfl
      have hover := unpend_spares (broadcast_spares hended (.lock (.lockRelease rel))) rel
      refine roundOver_spares hover h env hfree ?_
      split
      · exact replyTo_spares hover _ _
      · exact hover

theorem onLockMsg_spares (hfree : a.autolockPending[q]? = none) (sender : Id)
    (m : LockMsg Id Path) : Spares q g a (b.onLockMsg h env sender m) := by
  cases m with
  | lockReq rel lamport ttlMs => exact onLockReq_spares hb h env hfree sender rel lamport ttlMs
  | lockGrant rel => exact onLockGrant_spares hb h env hfree sender rel
  | lockDeny rel reason => exact onLockDeny_spares hb h env hfree rel reason
  | lockRelease rel =>
      show Spares q g a (if h.sanitize rel then { b with locks := b.locks.onRelease rel sender }
        else b)
      split
      · exact hb.same rfl rfl rfl rfl rfl
      · exact hb
  | lockRenew rel lamport ttlMs =>
      show Spares q g a (if h.sanitize rel then { b with
        lamport := max b.lamport lamport, locks := b.locks.onRenew rel sender ttlMs env.now }
        else { b with lamport := max b.lamport lamport })
      split
      · exact hb.same rfl rfl rfl rfl rfl
      · exact hb.same rfl rfl rfl rfl rfl

theorem onCtl_spares (hfree : a.autolockPending[q]? = none) (sender : Id) (m : Msg Id Path) :
    Spares q g a (b.onCtl h env sender m) := by
  unfold onCtl
  split
  · exact hb
  · cases m with
    | handshake => exact hb.same rfl rfl rfl rfl rfl
    | index lamport files leases => exact onIndex_spares hb h env sender lamport files leases
    | indexPart seq last lamport files leases =>
        exact onIndexPart_spares hb h env sender seq last lamport files leases
    | fileMeta rel record lamport =>
        exact onFileMeta_spares hb h env sender rel record lamport
    | lock m => exact onLockMsg_spares hb h env hfree sender m
    | bye => exact onPeerGone_spares hb sender _
    | lockInterest rel =>
        dsimp only
        unfold onLockInterest
        split
        · exact hb
        · split
          · exact hb
          · exact hb.same rfl rfl rfl rfl rfl
    | lockFreed rel =>
        dsimp only
        split
        · exact hb.same rfl rfl rfl rfl rfl
        · exact hb
    | identity grant => exact onPeerIdentity_spares hb env sender grant

/-! ## Timers -/

theorem leaseExpired_spares (rel : Path) (holder : Id) :
    Spares q g a (b.leaseExpired env rel holder) := by
  have hsettled : Spares q g a (if holder = b.me then b.settleMode env rel else b) := by
    split
    · exact settleMode_spares hb env rel
    · exact hb
  exact hsettled.same rfl rfl rfl rfl rfl

theorem roundTimedOut_spares (hfree : a.autolockPending[q]? = none) (rel : Path) :
    Spares q g a (b.roundTimedOut h env rel) := by
  have hover := unpend_spares (broadcast_spares hb (.lock (.lockRelease rel))) rel
  unfold roundTimedOut
  refine roundOver_spares hover h env hfree ?_
  split
  · exact replyTo_spares hover _ _
  · exact hover

theorem onSweep_spares (hfree : a.autolockPending[q]? = none) :
    Spares q g a (b.onSweep h env) := by
  unfold onSweep
  dsimp only
  refine Spares.foldl ?_ fun d rel _ hd => roundTimedOut_spares hd h env hfree rel
  refine Spares.same (Spares.foldl ?_ fun d e _ hd => leaseExpired_spares hd env e.1 e.2)
    rfl rfl rfl rfl rfl
  exact Spares.same (Spares.foldl hb fun d rel _ hd => releaseOwnLease_spares hd env rel)
    rfl rfl rfl rfl rfl

theorem onRenewTick_spares : Spares q g a (b.onRenewTick env) := by
  unfold onRenewTick
  exact Spares.foldl hb fun d rel _ hd => hd.same rfl rfl rfl rfl rfl

/-! ## The dispatch -/

/-- **A turn spares the paths it does not work on**, unless a pull of the path has come in. -/
theorem handle_spares (hfree : a.autolockPending[q]? = none) {ev : Event Id Path}
    (hwork : ev.worksOn ≠ some q)
    (hpull : ∀ sender record result, ev ≠ .pullStaged q sender record result)
    (hgate : g → b.Gates h q ev) : Spares q g a (b.handle h env ev) := by
  have hne : ∀ {rel}, ev.worksOn = some rel → rel ≠ q := by
    rintro rel heq rfl
    exact hwork heq
  cases ev with
  | authed id connId initiatedByMe => exact onAuthed_spares hb h env id connId initiatedByMe
  | msg id m => exact onCtl_spares hb h env hfree id m
  | gone id connId => exact onPeerGone_spares hb id connId
  | watch rel => exact onWatch_spares hb h env rel hgate
  | ipc req reply => exact onIpc_spares hb h env hgate reply
  | sweep => exact onSweep_spares hb h env hfree
  | renew => exact onRenewTick_spares hb env
  | inspected rel outcome cause => exact onInspected_spares hb h env (hne rfl) outcome cause
  | publishDone rel result cause => exact onPublishDone_spares hb h env (hne rfl) result cause
  | pullStaged rel sender record result =>
      refine onPullStaged_spares hb h env ?_ sender record result
      rintro rfl
      exact hpull sender record result rfl
  | pullRetry rel => exact onPullRetry_spares hb rel
  | violationStaged rel result quarantined preserveRequired =>
      exact onViolationStaged_spares hb h env (hne rfl) result quarantined preserveRequired
  | autolockReady rel quarantined newFile =>
      exact beginAutolockAcquire_spares hb h env (hne rfl) quarantined newFile
  | restoreStaged rel entry result reply =>
      exact onRestoreStaged_spares hb h env (hne rfl) entry result reply
  | conflictApplied rel result reply =>
      exact onConflictApplied_spares hb h env (hne rfl) result reply
  | acquireTimeout rel lamport => exact onAcquireTimeout_spares hb h env hfree rel lamport

end Walk

end Actor

end Tazamun
