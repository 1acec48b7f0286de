import Tazamun.Turn.Leases
import Tazamun.Turn.Reconcile

set_option autoImplicit false

/-! # The watch pipeline and the requests are made of small changes

Every function of the watch pipeline and every request of the user is a chain of small
changes. Three of them need something of the state they start in. The end of an operation on
a path (`unbusy`) applies a deferred record, which is fine because a deferred record has the
content of its manifest, and because a path that is self-held has none. A publish or a
restore is committed under a lease, which is checked right before. And the tombstone of an
unlock is committed under a lease only if the lease is still there.
-/

namespace Tazamun

variable {Id Path : Type} [LinearOrder Id] [LinearOrder Path]
variable {c : Ctx Id Path} {hand : List (Advert Id Path)}

/-- A chain is continued from a sound state. -/
theorem Steps.andThen {hand' : List (Advert Id Path)} {a b : Actor Id Path}
    {t : List (Advert Id Path) × Actor Id Path} (h : Steps c (hand, a) (hand', b))
    (hs : Sound c a) (hk : Sound c b → Steps c (hand', b) t) : Steps c (hand, a) t :=
  h.trans (hk (h.sound hs))

theorem MayLock.of_calm {a : Actor Id Path} {locks : LockTable Id Path}
    (h : LockTable.Calm a.locks locks)
    (hends : c.clamps → ∀ p, a.locks.isHeldByMe p = true → locks.isHeldByMe p = false →
      a.opened.contains p = false) : MayLock c a locks :=
  ⟨h.me, fun _ p hp hno => absurd ((h.held p hp).symm.trans hno) (by simp),
    fun p v hv => .inl (h.grants p v hv), fun p v hv => .inl (h.waits p v hv), hends⟩

/-- A table that keeps our leases ends none. -/
theorem LockTable.KeepsHeld.ends {a : Actor Id Path} {locks : LockTable Id Path}
    (h : LockTable.KeepsHeld a.locks locks) (p : Path) (hp : a.locks.isHeldByMe p = true)
    (hno : locks.isHeldByMe p = false) : a.opened.contains p = false :=
  absurd ((h p hp).symm.trans hno) (by simp)

namespace Actor

theorem calm_steps (a : Actor Id Path) {locks : LockTable Id Path}
    (h : LockTable.Calm a.locks locks) (hk : c.clamps → LockTable.KeepsHeld a.locks locks) :
    Steps c (hand, a) (hand, { a with locks }) :=
  .single (.locks locks (.of_calm h fun hc => (hk hc).ends))

/-! ## Results of pulls -/

/-- A record whose pull failed makes room for the one the job is after now. -/
theorem giveWay_steps {a : Actor Id Path} {rel : Path} {sender : Id} {record : FileRecord Id}
    {job : PullJob Id} (hjob : a.pendingPulls[rel]? = some job) :
    Steps c ((rel, sender, record) :: hand, a)
      (hand, a.displace rel (some (sender, record)) job.record) := by
  refine (displace_steps a rel (some (sender, record)) job.record).trans (release_steps ?_)
  rcases displace_excused a rel sender record job.record with hle | hex
  · exact .of_covered (y := (rel, job.sender, job.record))
      (.inr (.inl (.inl ⟨_, hjob, .inl rfl⟩))) rfl hle
  · exact .of_excused hex

theorem onPullStaged_steps {a : Actor Id Path} {rel : Path} {sender : Id}
    {record : FileRecord Id} {result : Option Bytes}
    (hlease : c.quietWins → result ≠ none → a.locks.isHeldByMe rel = false)
    (hcontent : ∀ bytes, result = some bytes → c.Backs record.manifest bytes) :
    Steps c ((rel, sender, record) :: hand, a)
      (hand, a.onPullStaged c.host c.env rel sender record result) := by
  unfold onPullStaged
  split
  · exact applyRemote_steps (fun hq => hlease hq (by simp)) hcontent
  · split
    · exact (abandon_steps a rel sender record).trans (finishPull_steps _ rel)
    · rename_i job hjob
      dsimp only
      refine (recount_steps (n := job.attempts + 1) hjob).trans ?_
      split
      · refine (@giveWay_steps _ _ _ _ c hand _ _ _ _
          { job with attempts := job.attempts + 1 } ?_).trans
          (spawn_steps _ rfl)
        exact Map.get_insert_self _ _ _
      · exact (abandon_steps _ rel sender record).trans (finishPull_steps _ rel)

theorem onPullRetry_steps (a : Actor Id Path) (rel : Path) :
    Steps c (hand, a) (hand, a.onPullRetry rel) := by
  unfold onPullRetry
  split
  · rename_i job hjob
    exact startPull_steps hjob
  · exact .refl

/-! ## Inspection and the end of an operation -/

theorem inspect_steps (a : Actor Id Path) (rel : Path) (cause : InspectCause) :
    Steps c (hand, a) (hand, a.inspect rel cause) := by
  have hbusy : Steps c (hand, a) (hand, { a with busy := a.busy.insert rel () }) :=
    .single (.misc ..)
  exact hbusy.trans (spawn_steps _ rfl)

theorem onWatch_steps (a : Actor Id Path) (rel : Path) :
    Steps c (hand, a) (hand, a.onWatch c.host c.env rel) := by
  unfold onWatch
  have hmuted : Steps c (hand, a) (hand, (a.isMuted c.env rel).1) := .single (.misc ..)
  dsimp only
  generalize (a.isMuted c.env rel).1 = b at hmuted ⊢
  refine hmuted.trans ?_
  split
  · exact .refl
  · split
    · exact .single (.misc ..)
    · split
      · exact (rebuildIgnore_steps hand b).trans (inspect_steps _ rel _)
      · split
        · exact inspect_steps b rel _
        · split
          · split
            · exact .single (.misc ..)
            · exact .single (.misc ..)
          · have hheld : Steps c (hand, b) (hand, { b with heldLocal := b.heldLocal.erase rel }) :=
              .single (.misc ..)
            exact hheld.trans (inspect_steps _ rel _)

/-- A deferred record is taken into the hand. -/
theorem undefer_steps {a : Actor Id Path} {rel : Path} {d : DeferredApply Id}
    (hd : a.deferred[rel]? = some d) :
    Steps c (hand, a) ((rel, d.sender, d.record) :: hand,
      { a with deferred := a.deferred.erase rel }) := by
  refine shift_of_waits ?_ ?_ ?_ ?_ id
  · rintro x (hx | hx | hx | ⟨d', hd', hx⟩ | hx)
    · rcases List.mem_cons.mp hx with rfl | hx
      · exact .inr (.inr (.inr (.inl ⟨d, hd, rfl⟩)))
      · exact .inl hx
    · exact .inr (.inl hx)
    · exact .inr (.inr (.inl hx))
    · rw [Map.get_erase] at hd'
      split at hd'
      · cases hd'
      · exact .inr (.inr (.inr (.inl ⟨d', hd', hx⟩)))
    · exact .inr (.inr (.inr (.inr hx)))
  · rintro x (hx | hx | hx | ⟨d', hd', hx⟩ | hx)
    · exact .of_owed (.inl (List.mem_cons_of_mem _ hx))
    · exact .of_owed (.inr (.inl (.inl hx)))
    · exact .of_owed (.inr (.inl (.inr (.inl hx))))
    · by_cases hrel : rel = x.1
      · obtain ⟨r, x⟩ := x
        obtain rfl : rel = r := hrel
        rw [hd] at hd'
        cases hd'
        cases hx
        exact .of_owed (.inl List.mem_cons_self)
      · refine .of_owed (.inr (.inl (.inr (.inr (.inl ⟨d', ?_, hx⟩)))))
        rw [Map.get_erase_ne _ hrel]
        exact hd'
    · exact .of_owed (.inr (.inl (.inr (.inr (.inr hx)))))
  · intro _ p _ hp
    refine ⟨hp.1, ?_, hp.2.2⟩
    rw [Map.get_erase]
    split
    · rfl
    · exact hp.2.1
  · intro q d' bytes hd' _
    rw [Map.get_erase] at hd'
    split at hd'
    · cases hd'
    · exact .inl hd'

theorem recheck_steps (a : Actor Id Path) (rel : Path) :
    Steps c (hand, a) (hand, if a.recheck.contains rel then
      ({ a with recheck := a.recheck.erase rel } : Actor Id Path).inspect rel .watch else a) := by
  split
  · have hre : Steps c (hand, a) (hand, { a with recheck := a.recheck.erase rel }) :=
      .single (.misc ..)
    exact hre.trans (inspect_steps _ rel _)
  · exact .refl

theorem unbusy_steps {a : Actor Id Path} (hs : Sound c a) (rel : Path) :
    Steps c (hand, a) (hand, a.unbusy c.host c.env rel) := by
  unfold unbusy
  have hbusy : Steps c (hand, a) (hand, { a with busy := a.busy.erase rel }) :=
    .single (.misc ..)
  refine hbusy.trans ?_
  dsimp only
  refine .trans ?_ (recheck_steps _ rel)
  split
  · exact .refl
  · rename_i d hd
    refine (undefer_steps (a := { a with busy := a.busy.erase rel }) hd).trans
      (applyRemote_steps (fun hq => ?_) fun bytes hb => hs.staged rel d bytes hd hb)
    by_contra hheld
    have hquiet := hs.quiet hq rel (by simpa using hheld)
    exact absurd (hquiet.2.1.symm.trans hd) (by simp)

/-! ## Publishing -/

theorem spawnPublish_steps (a : Actor Id Path) (rel : Path) (cause : PublishCause) :
    Steps c (hand, a) (hand, a.spawnPublish rel cause) := by
  have hbusy : Steps c (hand, a) (hand, { a with busy := a.busy.insert rel () }) :=
    .single (.misc ..)
  exact hbusy.trans (spawn_steps _ rfl)

/-- The end of a lease is announced. -/
theorem freed_steps (a : Actor Id Path) (rel : Path) :
    Steps c (hand, a)
      (hand, (a.broadcast (.lock (.lockRelease rel))).broadcast (.lockFreed rel)) :=
  (broadcast_steps a rfl).trans (broadcast_steps _ rfl)

theorem settleMode_locks (a : Actor Id Path) (locks : LockTable Id Path) (env : Env Path)
    (rel : Path) :
    ({ a with locks } : Actor Id Path).settleMode env rel =
      { a.settleMode env rel with locks } := by
  unfold settleMode setMode noteMode
  dsimp only
  split
  · split <;> rfl
  · split
    · split <;> rfl
    · rfl

/-- A file that is clamped is not open any more. -/
theorem settleMode_opened {a : Actor Id Path} (hs : Sound c a) (hc : c.clamps) (rel : Path) :
    (a.settleMode c.env rel).opened = a.opened.erase rel := by
  unfold settleMode setMode noteMode
  dsimp only
  rw [hs.readonly hc, hs.modes hc rel]
  split <;> rfl

/-- A lease is released and the file clamped. The clamp goes first here, so that no open file
is without its lease in between. -/
theorem releaseSettle_steps {a : Actor Id Path} (hs : Sound c a) (rel : Path) :
    Steps c (hand, a)
      (hand, ({ a with locks := a.locks.onRelease rel a.me } : Actor Id Path).settleMode c.env
        rel) := by
  rw [settleMode_locks]
  have hkeep := setMode_keeps a c.env rel a.config.enforceReadonly
  refine (settleMode_steps a rel).trans (.single (.locks _ (.of_calm ?_ ?_)))
  · rw [show (a.settleMode c.env rel).locks = a.locks from hkeep.locks]
    exact LockTable.calm_onRelease a.locks rel a.me
  · intro hc p hp hno
    rw [show (a.settleMode c.env rel).locks = a.locks from hkeep.locks] at hp
    rw [LockTable.eq_of_lost_onRelease hp hno, settleMode_opened hs hc]
    simp

theorem finishUnlock_steps {a : Actor Id Path} (hs : Sound c a) (rel : Path)
    (publishedOk : Bool) (r : Nat) :
    Steps c (hand, a) (hand, a.finishUnlock c.env rel publishedOk r) := by
  unfold finishUnlock
  dsimp only
  have hrest : Steps c (hand, a) (hand, { a with
      pendingUnlocks := a.pendingUnlocks.erase rel
      autolockIdle := a.autolockIdle.erase rel }) := .single (.misc ..)
  refine hrest.andThen hs fun hs => ?_
  refine (releaseSettle_steps hs rel).trans ((freed_steps _ rel).trans ?_)
  split
  · exact reply_steps _ r _
  · exact reply_steps _ r _

/-- A record with the next vector is committed, and its bytes are known. -/
theorem commitNext_steps {a : Actor Id Path} {rel : Path} {kind : CommitKind}
    {record : FileRecord Id} {bytes : Bytes} (hkind : kind ≠ .reassert)
    (hlicence : kind = .import ∨ a.locks.isHeldByMe rel = true)
    (hvv : record.vv = VClock.inc (match a.files[rel]? with | some r => r.vv | none => ∅) a.me)
    (hcontent : c.Backs record.manifest bytes) :
    Steps c (hand, a) (hand,
      (((a.forget rel).pushHistory rel a.files[rel]?).tick.commitLocal kind rel record).know
        rel bytes) := by
  refine (forget_steps a rel).trans ((pushHistory_steps _ rel a.files[rel]?).trans ?_)
  have hkeep := pushHistory_keeps (a.forget rel) rel a.files[rel]?
  have hknown : ((a.forget rel).pushHistory rel a.files[rel]?).known[rel]? = none := by
    unfold pushHistory
    split
    · exact Map.get_erase_self _ _
    · exact Map.get_erase_self _ _
  have hme : ((a.forget rel).pushHistory rel a.files[rel]?).me = a.me := by
    unfold pushHistory
    split <;> rfl
  generalize (a.forget rel).pushHistory rel a.files[rel]? = b at hkeep hknown hme ⊢
  have hm : MayCommit c hand b.tick kind rel record := by
    refine ⟨?_, .inl ⟨hkind, ?_⟩, fun _ => hknown⟩
    · rcases hlicence with h | h
      · exact .inl h
      · rw [← show b.tick.locks = a.locks from hkeep.locks] at h
        exact .inr (.inr (.inl h))
    · show record.vv = VClock.inc (b.vvOf rel) b.me
      rw [vvOf, hkeep.files, hme]
      exact hvv
  refine .trans (.single .tick) ?_
  refine .trans (.single (.committed kind rel record hm)) (know_steps _ rel bytes ?_)
  exact .inr ⟨record, Map.get_insert_self _ _ _, hcontent⟩

theorem commitPublished_steps {a : Actor Id Path} {rel : Path} {p : Published}
    {cause : PublishCause} (hlicence : cause = .import ∨ a.locks.isHeldByMe rel = true)
    (hcontent : c.Backs p.manifest p.bytes) :
    Steps c (hand, a) (hand, a.commitPublished c.env rel p cause) := by
  unfold commitPublished
  dsimp only
  split_ifs with hsame
  · refine know_steps a rel p.bytes (.inr ?_)
    split at hsame
    · rename_i r hr
      simp only [Bool.and_eq_true, decide_eq_true_eq] at hsame
      exact ⟨r, hr, by rw [hsame.1.2]; exact hcontent⟩
    · cases hsame
  · refine commitNext_steps ?_ ?_ rfl hcontent
    · split <;> simp
    · rcases hlicence with rfl | h
      · exact .inl rfl
      · exact .inr h

/-- The end of a publish (`onPublishDone`). -/
def endPublish (h : Host Id Path) (env : Env Path) (rel : Path) (cause : PublishCause) (ok : Bool)
    (b : Actor Id Path) : Actor Id Path :=
  match cause with
  | .unlock r => (b.unbusy h env rel).finishUnlock env rel ok r
  | _ => b.unbusy h env rel

theorem onPublishDone_steps {a : Actor Id Path} (hs : Sound c a) {rel : Path}
    {result : Option Published} {cause : PublishCause}
    (hcontent : ∀ p, result = some p → c.Backs p.manifest p.bytes) :
    Steps c (hand, a) (hand, a.onPublishDone c.host c.env rel result cause) := by
  have hend : ∀ {b : Actor Id Path} (ok : Bool), Steps c (hand, a) (hand, b) →
      Steps c (hand, a) (hand, endPublish c.host c.env rel cause ok b) := by
    intro b ok hb
    refine hb.andThen hs fun hs => (unbusy_steps hs rel).andThen hs fun hs => ?_
    cases cause with
    | unlock r => exact finishUnlock_steps hs rel ok r
    | edit => exact .refl
    | «import» => exact .refl
  unfold onPublishDone
  dsimp only
  cases result with
  | none =>
      simp only [ite_self]
      refine hend _ ?_
      split
      · exact .single (.misc ..)
      · exact .refl
  | some p =>
      by_cases hallowed : (a.locks.isHeldByMe rel || decide (cause = .import)) = true
      · rw [if_pos hallowed]
        refine hend _ ?_
        dsimp only
        have hlicence : cause = .import ∨ a.locks.isHeldByMe rel = true := by
          rw [Bool.or_eq_true, decide_eq_true_eq] at hallowed
          exact hallowed.symm
        have hc := @commitPublished_steps _ _ _ _ _ hand _ _ _ _ hlicence (hcontent p rfl)
        split
        · exact hc.trans (settleMode_steps _ rel)
        · exact hc
      · rw [if_neg hallowed]
        exact hend _ .refl

theorem commitTombstone_steps {a : Actor Id Path} {rel : Path}
    (hlease : FileRecord.isLive a.files[rel]? = true → c.leasedUnlock →
      a.locks.isHeldByMe rel = true) :
    Steps c (hand, a) (hand, a.commitTombstone c.env rel) := by
  unfold commitTombstone
  split
  · exact .refl
  · rename_i prev hprev
    split
    · exact .refl
    · rename_i hlive
      refine (pushHistory_steps a rel (some prev)).trans ((forget_steps _ rel).trans ?_)
      have hkeep := pushHistory_keeps a rel (some prev)
      refine .trans (.single .tick) ?_
      refine .single (.committed .tombstone rel _ ⟨?_, .inl ⟨by simp, ?_⟩, fun _ => ?_⟩)
      · by_cases hc : c.leasedUnlock
        · refine .inr (.inr (.inl ?_))
          refine hlease ?_ hc
          rw [hprev]
          simpa [FileRecord.isLive] using hlive
        · exact .inr (.inr (.inr ⟨rfl, hc⟩))
      · have hvv : ((a.pushHistory rel (some prev)).forget rel).tick.vvOf rel = prev.vv := by
          unfold vvOf
          rw [show ((a.pushHistory rel (some prev)).forget rel).tick.files = a.files from
            hkeep.files, hprev]
        rw [hvv]
        rfl
      · exact Map.get_erase_self _ _

/-! ## Violations -/

theorem spawnViolation_steps {a : Actor Id Path} (hs : Sound c a) (rel : Path)
    (quarantineFirst : Bool) :
    Steps c (hand, a) (hand, a.spawnViolation c.host c.env rel quarantineFirst) := by
  unfold spawnViolation
  split
  · exact unbusy_steps hs rel
  · have hbusy : Steps c (hand, a) (hand, { a with busy := a.busy.insert rel () }) :=
      .single (.misc ..)
    exact hbusy.trans (spawn_steps _ rfl)

theorem knowIfIndexed_steps (a : Actor Id Path) (rel : Path) (bytes : Bytes) :
    Steps c (hand, a) (hand, a.knowIfIndexed c.host rel bytes) := by
  unfold knowIfIndexed
  split
  · rename_i r hr
    split
    · rename_i hcontent
      exact know_steps a rel bytes (.inr ⟨r, hr, fun _ => hcontent⟩)
    · exact forget_steps a rel
  · exact forget_steps a rel

theorem written_steps (a : Actor Id Path) (rel : Path) (bytes : Bytes) :
    Steps c (hand, a) (hand, ((a.mute c.env rel).persistTemp c.host c.env rel bytes).1) :=
  (mute_steps a rel).trans (persistTemp_steps _ rel bytes)

theorem written_keeps (h : Host Id Path) (env : Env Path) (a : Actor Id Path) (rel : Path)
    (bytes : Bytes) : KeepsIndex a ((a.mute env rel).persistTemp h env rel bytes).1 :=
  ⟨(persistTemp_keeps h env (a.mute env rel) rel bytes).files,
    (persistTemp_keeps h env (a.mute env rel) rel bytes).locks⟩

theorem onViolationStaged_steps {a : Actor Id Path} (hs : Sound c a) (rel : Path)
    (result : Option Bytes) (quarantined : Option (CopyName Path)) (preserveRequired : Bool) :
    Steps c (hand, a)
      (hand, a.onViolationStaged c.host c.env rel result quarantined preserveRequired) := by
  unfold onViolationStaged
  split
  · exact unbusy_steps hs rel
  · dsimp only
    refine Steps.andThen (b := _) ?_ hs fun hs => unbusy_steps hs rel
    split
    · exact .refl
    · rename_i bytes
      have hw := @written_steps _ _ _ _ c hand a rel bytes
      split
      · rename_i b hb
        rw [hb] at hw
        exact hw
      · rename_i b hb
        rw [hb] at hw
        refine hw.trans ?_
        split
        · exact (knowIfIndexed_steps b rel bytes).trans (setMode_steps _ rel true)
        · exact knowIfIndexed_steps b rel bytes

theorem violationNewFile_steps (a : Actor Id Path) (rel : Path) :
    Steps c (hand, a) (hand, a.violationNewFile c.host c.env rel) := by
  unfold violationNewFile
  have hq := @quarantine_steps _ _ _ _ c hand a rel
  split
  · rename_i b hb
    rw [hb] at hq
    exact hq
  · rename_i b name hb
    rw [hb] at hq
    exact hq.trans ((mute_steps b rel).trans (removeFile_steps _ rel))

/-! ## Autolock -/

theorem spawnAutolock_steps (a : Actor Id Path) (rel : Path) (newFile : Bool) :
    Steps c (hand, a) (hand, a.spawnAutolock rel newFile) := by
  have hbusy : Steps c (hand, a) (hand, { a with busy := a.busy.insert rel () }) :=
    .single (.misc ..)
  exact hbusy.trans (spawn_steps _ rfl)

theorem autolockFail_steps {a : Actor Id Path} (hs : Sound c a) (rel : Path)
    (quarantined : Option (CopyName Path)) (newFile : Bool) :
    Steps c (hand, a) (hand, a.autolockFail c.host c.env rel quarantined newFile) := by
  unfold autolockFail
  dsimp only
  have hpend : Steps c (hand, a)
      (hand, { a with autolockPending := a.autolockPending.erase rel }) := .single (.misc ..)
  refine hpend.andThen hs fun hs => ?_
  split
  · exact unbusy_steps hs rel
  · split
    · exact Steps.andThen ((mute_steps _ rel).trans (removeFile_steps _ rel)) hs
        fun hs => unbusy_steps hs rel
    · split
      · exact unbusy_steps hs rel
      · exact spawn_steps _ rfl

/-- The lease of the path, if it is ours, has not expired. -/
def HoldsLive (a : Actor Id Path) (env : Env Path) (rel : Path) : Prop :=
  a.locks.isHeldByMe rel = true → LockTable.Live env.now a.locks.states[rel]?

theorem startAcquire_steps {a : Actor Id Path} {rel : Path}
    (hlive : c.clamps → a.HoldsLive c.env rel) (waiter : Option Nat) :
    Steps c (hand, a) (hand, (a.startAcquire c.env rel waiter).1) := by
  unfold startAcquire
  dsimp only
  have hclock : Steps c (hand, a) (hand, a.tick) := .single .tick
  have hlive' : c.clamps → a.tick.HoldsLive c.env rel := hlive
  refine hclock.trans ?_
  generalize a.tick = b at hlive' ⊢
  obtain ⟨hme, hheld, hgrants, hwaits⟩ := LockTable.startRequest_gain b.locks rel b.lamport
    b.peers.keys.toFinset c.env.now
  have hkeep : c.clamps → LockTable.KeepsHeld b.locks (b.locks.startRequest rel b.lamport
      b.peers.keys.toFinset c.env.now).1 := fun hc =>
    LockTable.keepsHeld_startRequest (hlive' hc) _ _
  have hlocks : Steps c (hand, b)
      (hand, { b with
        locks := (b.locks.startRequest rel b.lamport b.peers.keys.toFinset c.env.now).1 }) := by
    refine .single (.locks _ ⟨hme, fun _ p hp hno => ?_, fun p v hv => .inl (hgrants p v hv),
      fun p v hv => (hwaits p v hv).imp_right fun hin => ?_, fun hc => (hkeep hc).ends⟩)
    · exact absurd ((hheld p hp).symm.trans hno) (by simp)
    · simpa using hin
  split
  · rename_i locks e hreq
    rw [hreq] at hlocks
    exact hlocks
  · rename_i locks _ hreq
    rw [hreq] at hlocks
    refine .trans ?_ (spawn_steps _ rfl)
    refine .trans ?_ (broadcast_steps _ rfl)
    exact hlocks.trans (.single (.misc ..))

theorem beginAutolockAcquire_steps {a : Actor Id Path} (hs : Sound c a) {rel : Path}
    (hlive : c.clamps → strictEditGuard { a with busy := a.busy.erase rel } rel = none →
      a.HoldsLive c.env rel) (quarantined : Option (CopyName Path)) (newFile : Bool) :
    Steps c (hand, a) (hand, a.beginAutolockAcquire c.host c.env rel quarantined newFile) := by
  unfold beginAutolockAcquire
  dsimp only
  have hbusy : Steps c (hand, a) (hand, { a with busy := a.busy.erase rel }) :=
    .single (.misc ..)
  refine hbusy.andThen hs fun hs => ?_
  split
  · exact autolockFail_steps hs rel quarantined newFile
  · rename_i hguard
    have hbusy' : ∀ b : Actor Id Path,
        Steps c (hand, b) (hand, { b with busy := b.busy.insert rel () }) :=
      fun b => .single (.misc ..)
    refine (hbusy' _).andThen hs fun hs => ?_
    have hacq := @startAcquire_steps _ _ _ _ c hand
      { a with busy := (a.busy.erase rel).insert rel () } rel (fun hc => hlive hc hguard) none
    split
    · rename_i d e hd
      rw [hd] at hacq
      exact hacq.andThen hs fun hs => autolockFail_steps hs rel quarantined newFile
    · rename_i d e hd
      rw [hd] at hacq
      exact hacq.trans (.single (.misc ..))

theorem autolockSucceed_steps (a : Actor Id Path) (rel : Path) :
    Steps c (hand, a) (hand, a.autolockSucceed c.env rel) := by
  unfold autolockSucceed
  split
  · exact .refl
  · have hidle : Steps c (hand, a) (hand, { a with
        autolockPending := a.autolockPending.erase rel
        autolockIdle := a.autolockIdle.insert rel (c.env.now + autolockIdleRelease) }) :=
      .single (.misc ..)
    exact hidle.trans (spawnPublish_steps _ rel .edit)

/-! ## The result of an inspection -/

theorem onWatchInspected_steps {a : Actor Id Path} (hs : Sound c a) (rel : Path)
    (outcome : Inspection) :
    Steps c (hand, a) (hand, a.onWatchInspected c.host c.env rel outcome) := by
  have hedit : Steps c (hand, a) (hand,
      ((if a.autolockIdle.contains rel then
          { a with autolockIdle := a.autolockIdle.insert rel (c.env.now + autolockIdleRelease) }
        else a : Actor Id Path)).spawnPublish rel .edit) := by
    refine .trans ?_ (spawnPublish_steps _ rel .edit)
    split
    · exact .single (.misc ..)
    · exact .refl
  unfold onWatchInspected
  split
  · exact unbusy_steps hs rel
  · exact hedit
  · exact hedit
  · rename_i hheld
    exact (commitTombstone_steps fun _ _ => hheld).andThen hs fun hs => unbusy_steps hs rel
  · split
    · exact spawnAutolock_steps a rel false
    · exact spawnViolation_steps hs rel true
  · split
    · exact spawnAutolock_steps a rel true
    · exact (violationNewFile_steps a rel).andThen hs fun hs => unbusy_steps hs rel
  · exact spawnViolation_steps hs rel false

theorem onUnlockInspected_steps {a : Actor Id Path} (hs : Sound c a) {rel : Path}
    {outcome : Inspection} {r : Nat}
    (hlease : outcome = .missingIndexed → FileRecord.isLive a.files[rel]? = true →
      c.leasedUnlock → a.locks.isHeldByMe rel = true) :
    Steps c (hand, a) (hand, a.onUnlockInspected c.host c.env rel outcome r) := by
  unfold onUnlockInspected
  cases outcome with
  | clean => exact (unbusy_steps hs rel).andThen hs fun hs => finishUnlock_steps hs rel true r
  | differs => exact spawnPublish_steps a rel _
  | unindexed => exact spawnPublish_steps a rel _
  | missingIndexed =>
      refine (commitTombstone_steps (hlease rfl)).andThen hs fun hs => ?_
      exact (unbusy_steps hs rel).andThen hs fun hs => finishUnlock_steps hs rel true r

theorem onInspected_steps {a : Actor Id Path} (hs : Sound c a) {rel : Path}
    {outcome : Except String Inspection} {cause : InspectCause}
    (hlease : ∀ r, outcome = .ok .missingIndexed → cause = .unlock r →
      FileRecord.isLive a.files[rel]? = true → c.leasedUnlock →
        a.locks.isHeldByMe rel = true) :
    Steps c (hand, a) (hand, a.onInspected c.host c.env rel outcome cause) := by
  unfold onInspected
  split
  · exact (reply_steps a _ _).andThen hs fun hs => unbusy_steps hs rel
  · exact unbusy_steps hs rel
  · exact onWatchInspected_steps hs rel _
  · rename_i outcome r
    exact onUnlockInspected_steps hs fun ho => hlease r (by rw [ho]) rfl

end Actor

end Tazamun
