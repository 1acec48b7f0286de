import Tazamun.Turn.Index

set_option autoImplicit false

/-! # Every handler is made of small changes

The requests of the user, the messages of the peers and the timers, and with them the whole
dispatch: a turn of the actor is a chain of small changes (`handle_steps`). It starts with
the records of the event in the hand (`handOf`) and ends with an empty hand.

What a turn needs of its event is `EventOk`: bytes that a task has fetched are those of the
manifest, a vote is one that was delivered, and, as far as the context asks for it, a lease
is won only while the path is quiet, a tombstone at an unlock is committed under the lease, a
peer is dropped only if nothing is on record of it, and the lock table ends no lease of ours
by itself.
-/

namespace Tazamun

variable {Id Path : Type} [LinearOrder Id] [LinearOrder Path]
variable {c : Ctx Id Path} {hand : List (Advert Id Path)}

namespace Actor

/-! ## Lock messages -/

theorem tieLost_steps {a : Actor Id Path} (hs : Sound c a) (rel : Path) :
    Steps c (hand, a) (hand, a.tieLost c.host c.env rel) :=
  (unpend_steps a rel).andThen hs fun hs => failed_steps hs rel _ _

/-- A vote is sent once it is in the journal. -/
theorem vote_steps {a : Actor Id Path} {rel : Path} {requester : Id}
    {record : Option (FileRecord Id)} (hg : .granted rel requester record ∈ a.journal) :
    Steps c (hand, a) (hand, a.send requester (.lock (.lockGrant rel))) := by
  unfold send
  split
  · exact .single (.vote rel requester record hg)
  · exact .refl

/-- The request is granted. -/
def grantsRequest (h : Host Id Path) (env : Env Path) (a : Actor Id Path) (sender : Id)
    (rel : Path) (lamport ttlMs : U64) : Bool :=
  h.sanitize rel && a.peerMayLock sender &&
    match (a.locks.onRemoteRequest rel sender lamport ttlMs env.now).2 with
    | .grant | .grantAndAbortMine => true
    | .deny _ => false

theorem onLockReq_steps {a : Actor Id Path} (hs : Sound c a) {sender : Id}
    (hpeer : a.peers.contains sender = true) {rel : Path} {lamport ttlMs : U64}
    (hasks : a.grantsRequest c.host c.env sender rel lamport ttlMs = true →
      c.asks sender rel a.files[rel]?)
    (hlive : c.clamps → c.host.sanitize rel = true → a.peerMayLock sender = true →
      a.HoldsLive c.env rel) :
    Steps c (hand, a) (hand, a.onLockReq c.host c.env sender rel lamport ttlMs) := by
  have hne : sender ≠ a.locks.me := by
    rintro rfl
    rw [hs.me] at hpeer
    exact absurd (hpeer.symm.trans hs.peers) (by simp)
  unfold onLockReq
  dsimp only
  refine (lamport_steps a lamport).andThen hs fun hs => ?_
  split
  · exact .refl
  · rename_i hclean
    split
    · exact send_steps _ sender rfl
    · rename_i hmay
      have hmay : a.peerMayLock sender = true := by
        rw [Bool.not_eq_true, Bool.not_eq_false'] at hmay
        exact hmay
      have hcalm := LockTable.calm_onRemoteRequest hne rel lamport ttlMs c.env.now
      have hkeep : c.clamps → LockTable.KeepsHeld a.locks
          (a.locks.onRemoteRequest rel sender lamport ttlMs c.env.now).1 := fun hc =>
        LockTable.keepsHeld_onRemoteRequest
          (hlive hc (by simpa using hclean) hmay) hne lamport ttlMs
      have hvote : ∀ locks, LockTable.Calm a.locks locks →
          (c.clamps → LockTable.KeepsHeld a.locks locks) → c.asks sender rel a.files[rel]? →
          Steps c (hand, { a with lamport := max a.lamport lamport })
          (hand, ({ a with lamport := max a.lamport lamport, locks } : Actor Id Path).note
            (.granted rel sender a.files[rel]?)) := fun locks hl hk ha =>
        .trans (calm_steps { a with lamport := max a.lamport lamport } hl hk)
          (.single (.granted rel sender ha))
      have hgrants : ∀ locks verdict,
          a.locks.onRemoteRequest rel sender lamport ttlMs c.env.now = (locks, verdict) →
          (∀ reason, verdict ≠ .deny reason) → c.asks sender rel a.files[rel]? := by
        intro locks verdict hreq hno
        refine hasks ?_
        rw [grantsRequest, hreq, hmay, show c.host.sanitize rel = true by simpa using hclean]
        cases verdict with
        | deny reason => exact absurd rfl (hno reason)
        | _ => rfl
      split
      all_goals rename_i hreq; rw [hreq] at hcalm hkeep
      · exact (hvote _ hcalm hkeep (hgrants _ _ hreq (fun _ => by simp))).trans
          (vote_steps (List.mem_append_right _ (List.mem_singleton_self _)))
      · refine (hvote _ hcalm hkeep (hgrants _ _ hreq (fun _ => by simp))).andThen hs
          fun hs => ?_
        have htie := (@tieLost_steps _ _ _ _ _ hand _ hs rel).trans
          (@broadcast_steps _ _ _ _ _ _ _ (.lock (.lockRelease rel)) rfl)
        refine htie.trans (@vote_steps _ _ _ _ _ _ _ _ _ a.files[rel]? (Steps.mem_journal htie ?_))
        exact List.mem_append_right _ (List.mem_singleton_self _)
      · exact (calm_steps { a with lamport := max a.lamport lamport } hcalm hkeep).trans
          (send_steps _ sender rfl)

theorem leaseAcquired_steps {a : Actor Id Path} {rel : Path}
    (hheld : a.locks.isHeldByMe rel = true) :
    Steps c (hand, a) (hand, a.leaseAcquired c.env rel) := by
  unfold leaseAcquired
  dsimp only
  have hserve : ∀ b : Actor Id Path, Steps c (hand, b) (hand, { b with
      myWaits := b.myWaits.erase rel, interest := b.interest.erase rel }) :=
    fun b => .single (.misc ..)
  have hopen : Steps c (hand, (a.setMode c.env rel false).1)
      (hand, (a.setMode c.env rel false).1.openFor rel) := by
    refine openFor_steps ?_
    rw [(setMode_keeps a c.env rel false).locks]
    exact hheld
  refine ((setMode_steps a rel false).trans hopen).trans ((hserve _).trans
    ((autolockSucceed_steps _ rel).trans ?_))
  split
  · exact .refl
  · exact (unpend_steps _ rel).trans (replyTo_steps _ _ _)

theorem onLockGrant_steps {a : Actor Id Path} {sender : Id} {rel : Path}
    (hgot : c.got sender rel)
    (hquiet : c.quietWins → c.host.sanitize rel = true → ∀ p, a.locks.isHeldByMe p = false →
      (a.locks.onGrant rel sender c.env.now).1.isHeldByMe p = true → a.Quiet p) :
    Steps c (hand, a) (hand, a.onLockGrant c.host c.env sender rel) := by
  unfold onLockGrant
  split
  · exact .refl
  · rename_i hclean
    obtain ⟨hme, -, hgrants, hwaits⟩ := LockTable.onGrant_gain a.locks rel sender c.env.now
    have hlock : ∀ b : Actor Id Path, b.locks = a.locks → (∀ p, a.Quiet p → b.Quiet p) →
        MayLock c b (a.locks.onGrant rel sender c.env.now).1 := by
      intro b hb hq
      refine ⟨by rw [hb]; exact hme, fun hqw p hp hno => ?_, fun p v hv => ?_,
        fun p v hv => .inl (by rw [hb]; exact hwaits p v hv), fun _ p hp hno => ?_⟩
      · rw [hb] at hno
        exact hq p (hquiet hqw (by simpa using hclean) p hno hp)
      · rw [hb]
        rcases hgrants p v hv with hv | ⟨rfl, rfl⟩
        · exact .inl hv
        · exact .inr hgot
      · rw [hb] at hp
        exact absurd ((LockTable.keepsHeld_onGrant a.locks rel sender c.env.now p hp).symm.trans
          hno) (by simp)
    split
    · rename_i locks hr
      rw [hr] at hlock
      exact .single (.locks locks (hlock a rfl fun _ h => h))
    · rename_i locks hr
      have hdone : (a.locks.onGrant rel sender c.env.now).2 = true := by rw [hr]
      rw [hr] at hlock
      have hvoters : ∀ v ∈ a.voters rel, v ∈ a.locks.grantsOf rel ∨ c.got v rel := by
        intro v hv
        unfold voters at hv
        split at hv
        · rename_i hs
          rcases LockTable.voted_of_onGrant hdone hs hv with hv | rfl
          · exact .inl hv
          · exact .inr hgot
        · cases hv
      refine .trans (.single (.acquired rel (a.voters rel) hvoters)) ?_
      refine .trans (.single (.locks locks (hlock _ rfl fun _ h => h))) (leaseAcquired_steps ?_)
      have hheld := LockTable.isHeldByMe_of_onGrant hdone
      rw [hr] at hheld
      exact hheld

theorem onLockDeny_steps {a : Actor Id Path} (hs : Sound c a) (rel : Path)
    (reason : DenyReason Id) :
    Steps c (hand, a) (hand, a.onLockDeny c.host c.env rel reason) := by
  unfold onLockDeny
  split
  · exact .refl
  · have hcalm := LockTable.calm_onDeny a.locks rel
    have hkeep := LockTable.keepsHeld_onDeny a.locks rel
    split
    · rename_i hr
      rw [hr] at hcalm hkeep
      exact calm_steps a hcalm fun _ => hkeep
    · rename_i hr
      rw [hr] at hcalm hkeep
      refine (calm_steps a hcalm fun _ => hkeep).andThen hs fun hs => ?_
      refine (@broadcast_steps _ _ _ _ _ _ _ (.lock (.lockRelease rel)) rfl).andThen hs fun hs => ?_
      exact (unpend_steps _ rel).andThen hs fun hs => failed_steps hs rel _ _

theorem onLockInterest_steps (a : Actor Id Path) (sender : Id) (rel : Path) :
    Steps c (hand, a) (hand, a.onLockInterest c.host sender rel) := by
  unfold onLockInterest
  split
  · exact .refl
  · split
    · exact .refl
    · exact .single (.misc ..)

/-! ## Timers and startup -/

theorem leaseExpired_steps (a : Actor Id Path) (rel : Path) (holder : Id) :
    Steps c (hand, a) (hand, a.leaseExpired c.env rel holder) := by
  unfold leaseExpired
  dsimp only
  refine .trans ?_ (broadcast_steps _ rfl)
  refine .trans ?_ (.single (.misc ..))
  split
  · exact settleMode_steps a rel
  · exact .refl

theorem roundTimedOut_steps {a : Actor Id Path} (hs : Sound c a) (rel : Path) :
    Steps c (hand, a) (hand, a.roundTimedOut c.host c.env rel) := by
  unfold roundTimedOut
  refine (@broadcast_steps _ _ _ _ _ _ a (.lock (.lockRelease rel)) rfl).andThen hs fun hs => ?_
  exact (unpend_steps _ rel).andThen hs fun hs => failed_steps hs rel _ _

/-- A loop of chains, each from a sound state, is a chain. -/
theorem foldlSound_steps {α : Type} {f : Actor Id Path → α → Actor Id Path}
    (hf : ∀ a x, Sound c a → Steps c (hand, a) (hand, f a x)) (l : List α) {a : Actor Id Path}
    (hs : Sound c a) : Steps c (hand, a) (hand, l.foldl f a) := by
  induction l generalizing a with
  | nil => exact .refl
  | cons x l ih => exact (hf a x hs).andThen hs fun hs => ih hs

theorem leaseExpired_locks (a : Actor Id Path) (locks : LockTable Id Path) (env : Env Path)
    (rel : Path) (holder : Id) :
    ({ a with locks } : Actor Id Path).leaseExpired env rel holder =
      { a.leaseExpired env rel holder with locks } := by
  unfold leaseExpired
  dsimp only
  split
  · rw [settleMode_locks]
    rfl
  · rfl

theorem leaseExpired_keeps (a : Actor Id Path) (env : Env Path) (rel : Path) (holder : Id) :
    (a.leaseExpired env rel holder).locks = a.locks := by
  unfold leaseExpired
  split
  · exact (setMode_keeps a env rel a.config.enforceReadonly).locks
  · rfl

theorem foldl_leaseExpired_keeps (env : Env Path) (expired : List (Path × Id))
    (a : Actor Id Path) :
    (expired.foldl (fun a e => a.leaseExpired env e.1 e.2) a).locks = a.locks := by
  induction expired generalizing a with
  | nil => rfl
  | cons e expired ih => exact (ih _).trans (leaseExpired_keeps a env e.1 e.2)

theorem foldl_leaseExpired_locks (env : Env Path) (expired : List (Path × Id))
    (a : Actor Id Path) (locks : LockTable Id Path) :
    expired.foldl (fun a e => a.leaseExpired env e.1 e.2) { a with locks } =
      { expired.foldl (fun a e => a.leaseExpired env e.1 e.2) a with locks } := by
  induction expired generalizing a with
  | nil => rfl
  | cons e expired ih =>
      rw [List.foldl_cons, List.foldl_cons, leaseExpired_locks]
      exact ih _

/-- The loop clamps the files of the leases that were ours. -/
theorem foldl_leaseExpired_opened {a : Actor Id Path} (hs : Sound c a) (hc : c.clamps)
    (expired : List (Path × Id)) :
      (∀ p, (expired.foldl (fun a e => a.leaseExpired c.env e.1 e.2) a).opened.contains p = true →
        a.opened.contains p = true) ∧
      ∀ p, (p, a.me) ∈ expired →
        (expired.foldl (fun a e => a.leaseExpired c.env e.1 e.2) a).opened.contains p = false := by
  induction expired generalizing a with
  | nil => exact ⟨fun _ h => h, fun _ h => by cases h⟩
  | cons e expired ih =>
      have hstep : Steps c ([], a) ([], a.leaseExpired c.env e.1 e.2) :=
        leaseExpired_steps a e.1 e.2
      obtain ⟨hless, hgone⟩ := ih (hstep.sound hs)
      have hopened : (a.leaseExpired c.env e.1 e.2).opened =
          if e.2 = a.me then a.opened.erase e.1 else a.opened := by
        unfold leaseExpired
        split
        · exact settleMode_opened hs hc e.1
        · rfl
      have hless' : ∀ p, (a.leaseExpired c.env e.1 e.2).opened.contains p = true →
          a.opened.contains p = true := by
        intro p hp
        rw [hopened] at hp
        split at hp
        · rw [Std.ExtTreeMap.contains_erase] at hp
          exact (Bool.and_eq_true_iff.mp hp).2
        · exact hp
      rw [List.foldl_cons]
      refine ⟨fun p hp => hless' p (hless p hp), fun p hp => ?_⟩
      rcases List.mem_cons.mp hp with rfl | hp
      · -- the file is clamped in this round and stays so
        by_contra hin
        have hin' := hless p (by simpa using hin)
        rw [hopened, if_pos rfl] at hin'
        simp at hin'
      · exact hgone p (by rw [hstep.me_eq]; exact hp)

/-- Leases end and the files of ours among them are clamped. As with a release, the clamps go
first here. -/
theorem expire_steps {a : Actor Id Path} (hs : Sound c a) {locks : LockTable Id Path}
    {expired : List (Path × Id)} (hcalm : LockTable.Calm a.locks locks)
    (hlost : ∀ p, a.locks.isHeldByMe p = true → locks.isHeldByMe p = false →
      (p, a.locks.me) ∈ expired) :
    Steps c (hand, a)
      (hand, expired.foldl (fun a e => a.leaseExpired c.env e.1 e.2) { a with locks }) := by
  rw [foldl_leaseExpired_locks]
  have hclamp : Steps c (hand, a)
      (hand, expired.foldl (fun a e => a.leaseExpired c.env e.1 e.2) a) :=
    foldl_steps (fun a e => leaseExpired_steps a e.1 e.2) expired a
  refine hclamp.trans ?_
  have hkeep := foldl_leaseExpired_keeps c.env expired a
  refine .single (.locks locks (.of_calm (by rw [hkeep]; exact hcalm) fun hc p hp hno => ?_))
  obtain ⟨-, hgone⟩ := foldl_leaseExpired_opened hs hc expired
  rw [hkeep] at hp
  exact hgone p (by rw [← hs.me]; exact hlost p hp hno)

theorem onSweep_steps {a : Actor Id Path} (hs : Sound c a) :
    Steps c (hand, a) (hand, a.onSweep c.host c.env) := by
  unfold onSweep
  dsimp only
  generalize (a.autolockIdle.toList.filter fun e =>
    decide (e.2 ≤ c.env.now) && a.locks.isHeldByMe e.1).map Prod.fst = idle
  have hrelease : Steps c (hand, a)
      (hand, idle.foldl (fun a rel => a.releaseOwnLease c.env rel) a) :=
    foldlSound_steps (fun a rel hs => releaseOwnLease_steps hs rel) idle hs
  refine hrelease.andThen hs fun hs => ?_
  generalize idle.foldl (fun a rel => a.releaseOwnLease c.env rel) a = b at hs ⊢
  have hidle : Steps c (hand, b) (hand, { b with
      autolockIdle := b.autolockIdle.filter fun _ d => decide (c.env.now < d) }) :=
    .single (.misc ..)
  refine hidle.andThen hs fun hs => ?_
  have hcalm := LockTable.calm_sweep b.locks c.env.now
  have hlost : ∀ p, b.locks.isHeldByMe p = true →
      (b.locks.sweep c.env.now).1.isHeldByMe p = false →
      (p, b.locks.me) ∈ (b.locks.sweep c.env.now).2.expired := fun p hp hno =>
    LockTable.mem_expired_of_lost_sweep hp hno
  generalize b.locks.sweep c.env.now = swept at hcalm hlost ⊢
  obtain ⟨locks, expired, timedOut⟩ := swept
  refine (expire_steps hs hcalm hlost).andThen hs fun hs => ?_
  have hwaits : ∀ d : Actor Id Path, Steps c (hand, d) (hand, { d with
      myWaits := d.myWaits.filter fun _ w => decide (c.env.now < w.2) }) :=
    fun d => .single (.misc ..)
  refine (hwaits _).andThen hs fun hs => ?_
  exact foldlSound_steps (fun a rel hs => roundTimedOut_steps hs rel) _ hs

theorem onRenewTick_steps (a : Actor Id Path) :
    Steps c (hand, a) (hand, a.onRenewTick c.env) := by
  unfold onRenewTick
  refine foldl_steps (fun a rel => ?_) _ a
  exact (calm_steps a (LockTable.calm_renewOwn a.locks rel c.env.now)
    fun _ => LockTable.keepsHeld_renewOwn a.locks rel c.env.now).trans (broadcast_steps _ rfl)

theorem scanUnindexed_steps {a : Actor Id Path} (hs : Sound c a) (rel : Path) :
    Steps c (hand, a) (hand, a.scanUnindexed c.host c.env rel) := by
  unfold scanUnindexed
  split
  · exact .single (.misc ..)
  · have hbusy : Steps c (hand, a) (hand, { a with busy := a.busy.insert rel () }) :=
      .single (.misc ..)
    refine hbusy.andThen hs fun hs => ?_
    exact (violationNewFile_steps _ rel).andThen hs fun hs => unbusy_steps hs rel

theorem scanFile_steps {a : Actor Id Path} (hs : Sound c a) (rel : Path) :
    Steps c (hand, a) (hand, a.scanFile c.host c.env rel) := by
  unfold scanFile
  split
  · exact scanUnindexed_steps hs rel
  · split
    · exact scanUnindexed_steps hs rel
    · split
      · exact .refl
      · exact spawnViolation_steps hs rel true

theorem importFile_steps (a : Actor Id Path) (rel : Path) :
    Steps c (hand, a) (hand, a.importFile c.host rel) := by
  unfold importFile
  split
  · exact .single (.misc ..)
  · exact spawnPublish_steps a rel .import

theorem startupScan_steps {a : Actor Id Path} (hs : Sound c a) (founding : Bool) :
    Steps c (hand, a) (hand, a.startupScan c.host c.env founding) := by
  unfold startupScan
  dsimp only
  split
  · exact foldl_steps (fun a rel => importFile_steps a rel) _ a
  · refine .trans ?_ (.single (.misc ..))
    generalize a.disk.keys.filter c.host.sanitize = onDisk
    have hscan : Steps c (hand, a)
        (hand, onDisk.foldl (fun a rel => a.scanFile c.host c.env rel) a) :=
      foldlSound_steps (fun a rel hs => scanFile_steps hs rel) onDisk hs
    refine hscan.andThen hs fun hs => ?_
    refine foldlSound_steps (fun a rel hs => ?_) _ hs
    have hbusy : Steps c (hand, a) (hand, { a with busy := a.busy.insert rel () }) :=
      .single (.misc ..)
    exact hbusy.andThen hs fun hs => spawnViolation_steps hs rel false

end Actor

/-! ## The dispatch -/

/-- The records that an event brings. -/
def handOf : Event Id Path → List (Advert Id Path)
  | .msg sender (.index _ files _) => Actor.adverts sender files
  | .msg sender (.indexPart _ _ _ files _) => Actor.adverts sender files
  | .msg sender (.fileMeta rel record _) => [(rel, sender, record)]
  | .pullStaged rel sender record _ => [(rel, sender, record)]
  | _ => []

/-- The event may change the books on the peers. -/
def Event.isPeering : Event Id Path → Bool
  | .authed _ _ _ | .gone _ _ | .msg _ .handshake | .msg _ (.index _ _ _)
  | .msg _ (.indexPart _ _ _ _ _) | .msg _ .bye | .msg _ (.identity _) => true
  | _ => false

/-- Bytes that a task has read or fetched are those of the manifest that goes with them. -/
def Event.ContentOk (h : Host Id Path) : Event Id Path → Prop
  | .publishDone _ (some p) _ => h.content p.manifest = some p.bytes
  | .pullStaged _ _ record (some bytes) => h.content record.manifest = some bytes
  | .restoreStaged _ entry (.ok bytes) _ => h.content entry.manifest = some bytes
  | _ => True

namespace Actor

/-- The lock table once the vote or the leases that an event delivers are taken in. -/
def lockGain (h : Host Id Path) (env : Env Path) (a : Actor Id Path) :
    Event Id Path → LockTable Id Path
  | .msg sender (.lock (.lockGrant rel)) =>
      if a.peers.contains sender && h.sanitize rel then
        (a.locks.onGrant rel sender env.now).1
      else a.locks
  | .msg sender (.index _ _ leases) =>
      if a.peers.contains sender then (a.observeLeases h env leases).locks else a.locks
  | .msg sender (.indexPart seq last _ files leases) =>
      if a.peers.contains sender && last && a.accepts sender seq files then
        (a.observeLeases h env leases).locks
      else a.locks
  | _ => a.locks

/-- A lease that the event wins us is of a path without a pull under way. -/
def WinsQuietly (h : Host Id Path) (env : Env Path) (a : Actor Id Path) (ev : Event Id Path) :
    Prop :=
  ∀ p, a.locks.isHeldByMe p = false → (a.lockGain h env ev).isHeldByMe p = true → a.Quiet p

/-- A peer that the event makes us drop has nothing on record. -/
def DropsTidily (a : Actor Id Path) : Event Id Path → Prop
  | .msg sender .handshake =>
      a.peers.contains sender = true →
        a.Unrecorded sender ∧ a.indexStaging.contains sender = false
  | .msg sender (.indexPart seq _ _ files _) =>
      a.peers.contains sender = true → a.accepts sender seq files = false → a.Unrecorded sender
  | _ => True

/-- No lease of ours ends inside the lock table: where a path is inspected for a request, a
lease of ours has not expired, and no advertised lease has a lower claim. -/
def SparesLeases (h : Host Id Path) (env : Env Path) (a : Actor Id Path) : Event Id Path → Prop
  | .msg sender (.lock (.lockReq rel _ _)) =>
      a.peers.contains sender = true → h.sanitize rel = true → a.peerMayLock sender = true →
        a.HoldsLive env rel
  | .autolockReady rel _ _ =>
      strictEditGuard { a with busy := a.busy.erase rel } rel = none → a.HoldsLive env rel
  | .msg sender (.index _ _ leases) =>
      a.peers.contains sender = true → Unchallenged h env.now a.locks leases
  | .msg sender (.indexPart seq last _ files leases) =>
      a.peers.contains sender = true → last = true → a.accepts sender seq files = true →
        Unchallenged h env.now a.locks leases
  | _ => True

/-- If the file of an indexed path was missing at the unlock, the lease is still there. -/
def UnlocksLeased (a : Actor Id Path) : Event Id Path → Prop
  | .inspected rel (.ok .missingIndexed) (.unlock _) =>
      FileRecord.isLive a.files[rel]? = true → a.locks.isHeldByMe rel = true
  | _ => True

end Actor

/-- What a turn needs of its event. -/
structure EventOk (c : Ctx Id Path) (a : Actor Id Path) (ev : Event Id Path) : Prop where
  got : ∀ sender rel, ev = .msg sender (.lock (.lockGrant rel)) → c.got sender rel
  asks : ∀ sender rel lamport ttlMs, ev = .msg sender (.lock (.lockReq rel lamport ttlMs)) →
    a.peers.contains sender = true →
    a.grantsRequest c.host c.env sender rel lamport ttlMs = true → c.asks sender rel a.files[rel]?
  joins : ∀ id connId initiatedByMe, ev = .authed id connId initiatedByMe → c.joining
  content : c.storeOk → ev.ContentOk c.host
  unlock : c.leasedUnlock → a.UnlocksLeased ev
  quiet : c.quietWins → a.WinsQuietly c.host c.env ev
  leaseless : c.quietWins → ∀ rel sender record bytes,
    ev = .pullStaged rel sender record (some bytes) → a.locks.isHeldByMe rel = false
  peering : ev.isPeering = true → c.peering
  tidy : c.tidy → a.DropsTidily ev
  clamps : c.clamps → a.SparesLeases c.host c.env ev

namespace Actor

theorem onLockMsg_steps {a : Actor Id Path} (hs : Sound c a) {sender : Id} {msg : LockMsg Id Path}
    (hpeer : a.peers.contains sender = true) (hev : EventOk c a (.msg sender (.lock msg))) :
    Steps c (hand, a) (hand, a.onLockMsg c.host c.env sender msg) := by
  cases msg with
  | lockReq rel lamport ttlMs =>
      exact onLockReq_steps hs hpeer (hev.asks sender rel lamport ttlMs rfl hpeer)
        fun hc => hev.clamps hc hpeer
  | lockGrant rel =>
      refine onLockGrant_steps (hev.got sender rel rfl) fun hq hclean p hno hp => ?_
      refine hev.quiet hq p hno ?_
      simp only [lockGain, hpeer, hclean, Bool.and_self, if_true]
      exact hp
  | lockDeny rel reason => exact onLockDeny_steps hs rel reason
  | lockRelease rel =>
      rw [onLockMsg]
      split
      · refine calm_steps a (LockTable.calm_onRelease _ _ _) fun _ =>
          LockTable.keepsHeld_onRelease ?_ rel
        rintro rfl
        rw [hs.me] at hpeer
        exact absurd (hpeer.symm.trans hs.peers) (by simp)
      · exact .refl
  | lockRenew rel lamport ttlMs =>
      rw [onLockMsg]
      refine (lamport_steps a lamport).trans ?_
      split
      · exact calm_steps _ (LockTable.calm_onRenew a.locks _ _ _ _)
          fun _ => LockTable.keepsHeld_onRenew a.locks _ _ _ _
      · exact .refl

theorem onCtl_steps {a : Actor Id Path} (hs : Sound c a) {sender : Id} {msg : Msg Id Path}
    (hev : EventOk c a (.msg sender msg)) :
    Steps c (handOf (.msg sender msg), a) ([], a.onCtl c.host c.env sender msg) := by
  unfold onCtl
  split
  · -- messages of a peer that is not connected are ignored
    rename_i hnone
    have hgone : a.peers.contains sender = false := by
      rw [Map.contains_eq, hnone]
      rfl
    have hall : ∀ files, Steps c (adverts sender files, a) ([], a) := fun files => by
      simpa using @disown_steps _ _ _ _ c [] _ _ hgone files
    cases msg with
    | index lamport files leases => exact hall files
    | indexPart seq last lamport files leases => exact hall files
    | fileMeta rel record lamport => exact hall [(rel, record)]
    | _ => exact .refl
  · rename_i peer hsome
    have hpeer : a.peers.contains sender = true := by
      rw [Map.contains_eq, hsome]
      rfl
    cases msg with
    | handshake => exact dropPeer_steps (hev.peering rfl) fun ht => hev.tidy ht hpeer
    | index lamport files leases =>
        have h := @onIndex_steps _ _ _ _ c [] (hev.peering rfl) a sender hpeer lamport files
          leases ?_ fun hc => hev.clamps hc hpeer
        · rw [List.append_nil] at h
          exact h
        · intro hq p hno hp
          refine hev.quiet hq p hno ?_
          simp only [lockGain, hpeer, if_true]
          exact hp
    | indexPart seq last lamport files leases =>
        have h := @onIndexPart_steps _ _ _ _ c [] (hev.peering rfl) a sender hpeer seq last
          lamport files leases ?_ (fun hc => hev.clamps hc hpeer) fun ht => hev.tidy ht hpeer
        · rw [List.append_nil] at h
          exact h
        · intro hq hlast hacc p hno hp
          refine hev.quiet hq p hno ?_
          simp only [lockGain, hpeer, hlast, hacc, Bool.and_self, if_true]
          exact hp
    | fileMeta rel record lamport => exact onFileMeta_steps a sender rel record lamport
    | lock msg => exact onLockMsg_steps hs hpeer hev
    | bye => exact onPeerGone_steps (hev.peering rfl) a sender _
    | lockInterest rel => exact onLockInterest_steps a sender rel
    | lockFreed rel =>
        dsimp only
        split
        · exact .single (.misc ..)
        · exact .refl
    | identity grant => exact onPeerIdentity_steps (hev.peering rfl) hpeer grant

/-- **A turn is a chain of small changes** that starts with the records of its event in the
hand and ends with an empty hand. -/
theorem handle_steps {a : Actor Id Path} (hs : Sound c a) {ev : Event Id Path}
    (hev : EventOk c a ev) :
    Steps c (handOf ev, a) ([], a.handle c.host c.env ev) := by
  cases ev with
  | authed id connId initiatedByMe =>
      exact onAuthed_steps (hev.peering rfl) (hev.joins _ _ _ rfl) a id connId initiatedByMe
  | msg id msg => exact onCtl_steps hs hev
  | gone id connId => exact onPeerGone_steps (hev.peering rfl) a id connId
  | watch rel => exact onWatch_steps a rel
  | ipc req reply => exact onIpc_steps a req reply
  | sweep => exact onSweep_steps hs
  | renew => exact onRenewTick_steps a
  | inspected rel outcome cause =>
      refine onInspected_steps hs fun r ho hc hlive hl => ?_
      subst ho hc
      exact hev.unlock hl hlive
  | publishDone rel result cause =>
      refine onPublishDone_steps hs fun p hp => ?_
      subst hp
      exact hev.content
  | pullStaged rel sender record result =>
      refine onPullStaged_steps (fun hq hne => ?_) fun bytes hb => ?_
      · obtain ⟨bytes, rfl⟩ := Option.ne_none_iff_exists'.mp hne
        exact hev.leaseless hq rel sender record bytes rfl
      · subst hb
        exact hev.content
  | pullRetry rel => exact onPullRetry_steps a rel
  | violationStaged rel result quarantined preserveRequired =>
      exact onViolationStaged_steps hs rel result quarantined preserveRequired
  | autolockReady rel quarantined newFile =>
      exact beginAutolockAcquire_steps hs (fun hc => hev.clamps hc) quarantined newFile
  | restoreStaged rel entry result reply =>
      refine onRestoreStaged_steps hs fun bytes hb => ?_
      subst hb
      exact hev.content
  | conflictApplied rel result reply => exact onConflictApplied_steps hs rel result reply
  | acquireTimeout rel lamport => exact onAcquireTimeout_steps hs rel lamport

end Actor

end Tazamun
