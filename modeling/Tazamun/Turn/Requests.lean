import Tazamun.Turn.Watch

set_option autoImplicit false

/-! # Requests of the user are made of small changes

Locks and unlocks, the history and the quarantine copies, and the settings. A request that is
refused only replies; one that passes its checks starts a round of votes, an inspection or a
task.
-/

namespace Tazamun

variable {Id Path : Type} [LinearOrder Id] [LinearOrder Path]
variable {c : Ctx Id Path} {hand : List (Advert Id Path)}

namespace Actor

/-! ## Leases -/

theorem lamport_steps (a : Actor Id Path) (lamport : U64) :
    Steps c (hand, a) (hand, { a with lamport := max a.lamport lamport }) :=
  .single (.hear lamport)

theorem unpend_steps (a : Actor Id Path) (rel : Path) :
    Steps c (hand, a) (hand, { a with pendingAcquires := a.pendingAcquires.erase rel }) :=
  .single (.misc ..)

theorem handleLock_steps (a : Actor Id Path) (rel : Path) (r : Nat) :
    Steps c (hand, a) (hand, a.handleLock c.host c.env rel r) := by
  unfold handleLock
  split
  · exact reply_steps a r _
  · split
    · exact reply_steps a r _
    · split
      · exact reply_steps a r _
      · rename_i hnot
        split
        · exact reply_steps a r _
        · split
          · exact reply_steps a r _
          · split
            · exact reply_steps a r _
            · have hacq := @startAcquire_steps _ _ _ _ c hand a rel
                (fun _ hheld => absurd hheld hnot) (some r)
              split
              all_goals rename_i hb; rw [hb] at hacq
              · exact hacq
              · exact hacq.trans (reply_steps _ r _)
              · exact hacq.trans (reply_steps _ r _)

/-- A round has failed: an autolock is reverted, a waiter is told. -/
theorem failed_steps {a : Actor Id Path} (hs : Sound c a) (rel : Path)
    (pending : Option (U64 × Option Nat)) (resp : IpcResponse) :
    Steps c (hand, a) (hand,
      match a.autolockPending[rel]? with
      | some (quarantined, newFile) => a.autolockFail c.host c.env rel quarantined newFile
      | none =>
          match pending with
          | some (_, waiter) => a.replyTo waiter resp
          | none => a) := by
  split
  · exact autolockFail_steps hs rel _ _
  · split
    · exact replyTo_steps a _ resp
    · exact .refl

theorem onAcquireTimeout_steps {a : Actor Id Path} (hs : Sound c a) (rel : Path)
    (lamport : U64) :
    Steps c (hand, a) (hand, a.onAcquireTimeout c.host c.env rel lamport) := by
  unfold onAcquireTimeout
  split
  · exact .refl
  · rename_i l waiter hpend
    split
    · exact .refl
    · dsimp only
      refine (unpend_steps a rel).andThen hs fun hs => ?_
      refine (calm_steps _ (LockTable.calm_onDeny _ rel)
        fun _ => LockTable.keepsHeld_onDeny _ rel).andThen hs fun hs => ?_
      refine (@broadcast_steps _ _ _ _ _ _ _ (.lock (.lockRelease rel)) rfl).andThen hs fun hs => ?_
      split
      · exact autolockFail_steps hs rel _ _
      · exact replyTo_steps _ waiter _

theorem handleUnlock_steps (a : Actor Id Path) (rel : Path) (r : Nat) :
    Steps c (hand, a) (hand, a.handleUnlock c.host rel r) := by
  unfold handleUnlock
  split
  · exact reply_steps a r _
  · split
    · exact reply_steps a r _
    · split
      · exact reply_steps a r _
      · split
        · exact reply_steps a r _
        · have hpend : Steps c (hand, a)
              (hand, { a with pendingUnlocks := a.pendingUnlocks.insert rel () }) :=
            .single (.misc ..)
          exact hpend.trans (inspect_steps _ rel _)

theorem handleLockWait_steps (a : Actor Id Path) (rel : Path) (r : Nat) :
    Steps c (hand, a) (hand, a.handleLockWait c.host c.env rel r) := by
  unfold handleLockWait
  split
  · exact reply_steps a r _
  · split
    · exact reply_steps a r _
    · split
      · exact reply_steps a r _
      · refine .trans ?_ (reply_steps _ r _)
        refine .trans ?_ (broadcast_steps _ rfl)
        exact .single (.misc ..)

theorem releaseOwnLease_steps {a : Actor Id Path} (hs : Sound c a) (rel : Path) :
    Steps c (hand, a) (hand, a.releaseOwnLease c.env rel) := by
  unfold releaseOwnLease
  split
  · exact .refl
  · refine .trans ?_ (freed_steps _ rel)
    have hidle : Steps c (hand, a) (hand, { a with autolockIdle := a.autolockIdle.erase rel }) :=
      .single (.misc ..)
    exact hidle.andThen hs fun hs => releaseSettle_steps hs rel

/-! ## History and quarantine -/

theorem setHistory_steps (a : Actor Id Path) (rel : Path) (n r : Nat)
    (history : Option (History Id Path)) :
    Steps c (hand, a) (hand, a.setHistory c.host rel n r history) := by
  unfold setHistory
  split
  · exact reply_steps a r _
  · split
    · exact .trans (.single (.misc ..)) (reply_steps _ r _)
    · exact reply_steps a r _

theorem handleRestore_steps (a : Actor Id Path) (rel : Path) (n r : Nat) :
    Steps c (hand, a) (hand, a.handleRestore c.host rel n r) := by
  unfold handleRestore
  split
  · exact reply_steps a r _
  · split
    · exact reply_steps a r _
    · split
      · exact reply_steps a r _
      · split
        · exact reply_steps a r _
        · split
          · exact reply_steps a r _
          · split
            · exact reply_steps a r _
            · refine .trans ?_ (spawn_steps _ rfl)
              exact .single (.misc ..)

theorem onRestoreStaged_steps {a : Actor Id Path} (hs : Sound c a) {rel : Path}
    {entry : VersionEntry Id} {result : Except String Bytes} {r : Nat}
    (hcontent : ∀ bytes, result = .ok bytes → c.Backs entry.manifest bytes) :
    Steps c (hand, a) (hand, a.onRestoreStaged c.host c.env rel entry result r) := by
  unfold onRestoreStaged
  split
  · exact (reply_steps a r _).andThen hs fun hs => unbusy_steps hs rel
  · rename_i hheld
    have hheld : a.locks.isHeldByMe rel = true := by simpa using hheld
    split
    · exact (reply_steps a r _).andThen hs fun hs => unbusy_steps hs rel
    · rename_i bytes
      dsimp only
      refine Steps.andThen (b := _) ?_ hs fun hs => unbusy_steps hs rel
      have hw := @written_steps _ _ _ _ c hand a rel bytes
      have hkeep := written_keeps c.host c.env a rel bytes
      split
      · rename_i b hb
        rw [hb] at hw hkeep
        have hheld' : b.locks.isHeldByMe rel = true := by
          rw [hkeep.locks]
          exact hheld
        refine hw.trans ((openFor_steps hheld').trans (.trans ?_ (reply_steps _ r _)))
        exact commitNext_steps (by simp) (.inr hheld') rfl (hcontent bytes rfl)
      · rename_i b hb
        rw [hb] at hw
        exact hw.trans (reply_steps b r _)

theorem handleConflictApply_steps (a : Actor Id Path) (id : CopyName Path) (rel : Path)
    (r : Nat) : Steps c (hand, a) (hand, a.handleConflictApply c.host id rel r) := by
  unfold handleConflictApply
  split
  · exact reply_steps a r _
  · split
    · exact reply_steps a r _
    · split
      · exact reply_steps a r _
      · split
        · exact reply_steps a r _
        · split
          · exact reply_steps a r _
          · split
            · exact reply_steps a r _
            · split
              · exact reply_steps a r _
              · refine .trans ?_ (spawn_steps _ rfl)
                exact .single (.misc ..)

theorem onConflictApplied_steps {a : Actor Id Path} (hs : Sound c a) (rel : Path)
    (result : Except String Bytes) (r : Nat) :
    Steps c (hand, a) (hand, a.onConflictApplied c.host c.env rel result r) := by
  unfold onConflictApplied
  split
  · exact (unbusy_steps hs rel).trans (reply_steps _ r _)
  · rename_i bytes
    split
    · exact (unbusy_steps hs rel).trans (reply_steps _ r _)
    · rename_i hheld
      have hw := @written_steps _ _ _ _ c hand a rel bytes
      have hkeep := written_keeps c.host c.env a rel bytes
      split
      · rename_i b hb
        rw [hb] at hw hkeep
        have hheld' : b.locks.isHeldByMe rel = true := by
          rw [hkeep.locks]
          simpa using hheld
        refine .trans ?_ (reply_steps _ r _)
        refine Steps.andThen (b := _) ?_ hs fun hs => unbusy_steps hs rel
        refine hw.trans ((openFor_steps hheld').trans ?_)
        split
        · rename_i hcopy
          obtain ⟨e, he, heq⟩ := List.any_eq_true.mp hcopy
          refine know_steps _ rel bytes (.inl ⟨e.1, ?_⟩)
          rw [← of_decide_eq_true heq]
          exact Map.mem_toList.mp he
        · exact forget_steps _ rel
      · rename_i b hb
        rw [hb] at hw
        exact hw.andThen hs fun hs => (unbusy_steps hs rel).trans (reply_steps _ r _)

theorem handleConflictDiscard_steps (a : Actor Id Path) (id : CopyName Path) (r : Nat) :
    Steps c (hand, a) (hand, a.handleConflictDiscard c.host id r) := by
  unfold handleConflictDiscard
  split
  · exact (loseCopy_steps a id).trans (reply_steps _ r _)
  · exact reply_steps a r _

theorem handleConfigSet_steps (a : Actor Id Path) (key : LiveKey) (r : Nat) :
    Steps c (hand, a) (hand, a.handleConfigSet key r) := by
  unfold handleConfigSet
  have htimings : ∀ config : SessionConfig,
      config.enforceReadonly = a.config.enforceReadonly → Steps c (hand, a)
      (hand, { a with config, locks := a.locks.setTimings config.timings }) := fun config hc =>
    .trans (calm_steps a (LockTable.calm_setTimings a.locks config.timings) fun _ _ h => h)
      (.single (.config config hc))
  refine .trans ?_ (reply_steps _ r _)
  cases key with
  | autolock on => exact .single (.config _ rfl)
  | leaseTtl ms => exact htimings _ rfl
  | acquireTimeout ms => exact htimings _ rfl
  | waitTimeout ms => exact .single (.config _ rfl)

theorem onIpc_steps (a : Actor Id Path) (req : IpcRequest Path) (r : Nat) :
    Steps c (hand, a) (hand, a.onIpc c.host c.env req r) := by
  cases req with
  | lock rel => exact handleLock_steps a rel r
  | unlock rel => exact handleUnlock_steps a rel r
  | lockWait rel => exact handleLockWait_steps a rel r
  | restore rel n => exact handleRestore_steps a rel n r
  | conflictApply id rel => exact handleConflictApply_steps a id rel r
  | conflictDiscard id => exact handleConflictDiscard_steps a id r
  | tag rel n name => exact setHistory_steps a rel n r _
  | pin rel n pinned => exact setHistory_steps a rel n r _
  | configSet key => exact handleConfigSet_steps a key r

end Actor

end Tazamun
