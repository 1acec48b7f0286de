import Tazamun.Turn.Books
import Tazamun.Turn.Operations

set_option autoImplicit false

/-! # Marks over whole runs

The handlers of messages and timers, the startup scan, and the steps of a run.
-/

namespace Tazamun.Actor

open Lib Mesh LockTable

variable {Id Path : Type} [LinearOrder Id] [LinearOrder Path]

variable {t : DeskTerms} {o : InHand Path} {w l u : List Path} {a b : Actor Id Path} {rel : Path}
  (h : Host Id Path) (env : Env Path)

/-! ## Indexes -/

namespace Desk

theorem observeLeases (hd : Desk t o a) (leases : List (LeaseInfo Id Path)) :
    Desk t o (a.observeLeases h env leases) := by
  unfold Actor.observeLeases
  refine hd.locks ?_
  generalize a.locks = table
  induction leases generalizing table with
  | nil => exact .refl
  | cons lease leases ih =>
      rw [List.foldl_cons]
      refine .trans ?_ (ih _)
      split
      · exact keepsRounds_observeLease table _ _ _ _ _
      · exact .refl

theorem commitPeerIndex (hd : Desk t o a) (sender : Id) (map : Map Path (FileRecord Id))
    (leases : List (LeaseInfo Id Path)) : Desk t o (a.commitPeerIndex h env sender map leases) := by
  have hinstall : Aside a (({ a with
      peerIndex := a.peerIndex.insert sender map
      indexReceived := a.indexReceived.insert sender () } : Actor Id Path).note
        (.indexed sender map.toList leases)) := ⟨rfl, rfl, rfl, rfl, rfl, rfl, rfl, fun _ h => h⟩
  have hseen := (hd.aside hinstall).observeLeases h env leases
  exact hseen.aside (reconcileWith_frame h env (rebuildIgnore_frame h env) _ sender).toAside

theorem onIndex (hd : Desk t o a) (sender : Id) (lamport : U64)
    (files : List (Path × FileRecord Id)) (leases : List (LeaseInfo Id Path)) :
    Desk t o (a.onIndex h env sender lamport files leases) := by
  have htake : Aside a { a with
      lamport := max a.lamport lamport, indexStaging := a.indexStaging.erase sender } :=
    ⟨rfl, rfl, rfl, rfl, rfl, rfl, rfl, fun _ h => h⟩
  replace hd := hd.aside htake
  unfold Actor.onIndex
  dsimp only
  obtain ⟨journal, hingest⟩ := ingest_eq h { a with
    lamport := max a.lamport lamport, indexStaging := a.indexStaging.erase sender } sender ∅ files
  rw [hingest]
  refine commitPeerIndex h env ?_ sender _ leases
  obtain ⟨journal', hsuper⟩ := supersede_eq ({ a with
    lamport := max a.lamport lamport, indexStaging := a.indexStaging.erase sender, journal } :
      Actor Id Path) sender _ _
  rw [hsuper]
  exact hd.aside ⟨rfl, rfl, rfl, rfl, rfl, rfl, rfl, fun _ h => h⟩

theorem onIndexPart (hd : Desk t o a) (sender : Id) (seq : Nat) (last : Bool) (lamport : U64)
    (files : List (Path × FileRecord Id)) (leases : List (LeaseInfo Id Path)) :
    Desk t o (a.onIndexPart h env sender seq last lamport files leases) := by
  have htake : Aside a { a with
      lamport := max a.lamport lamport, indexStaging := a.indexStaging.erase sender } :=
    ⟨rfl, rfl, rfl, rfl, rfl, rfl, rfl, fun _ h => h⟩
  unfold Actor.onIndexPart
  dsimp only
  split
  · exact (hd.aside htake).aside ⟨rfl, rfl, rfl, rfl, rfl, rfl, rfl, fun _ h => h⟩
  · obtain ⟨journal, hingest⟩ := ingest_eq h { a with
      lamport := max a.lamport lamport, indexStaging := a.indexStaging.erase sender } sender
      (a.indexStaging[sender]?.getD (0, ∅)).2 files
    have hin : Aside { a with
        lamport := max a.lamport lamport, indexStaging := a.indexStaging.erase sender }
        ({ a with
          lamport := max a.lamport lamport, indexStaging := a.indexStaging.erase sender
          journal } : Actor Id Path) := ⟨rfl, rfl, rfl, rfl, rfl, rfl, rfl, fun _ h => h⟩
    rw [hingest]
    split
    · exact ((hd.aside htake).aside hin).commitPeerIndex h env sender _ leases
    · exact (hd.aside htake).aside ⟨rfl, rfl, rfl, rfl, rfl, rfl, rfl, fun _ h => h⟩

theorem onFileMeta (hd : Desk t o a) (sender : Id) (rel : Path) (record : FileRecord Id)
    (lamport : U64) : Desk t o (a.onFileMeta h env sender rel record lamport) := by
  unfold Actor.onFileMeta
  dsimp only
  split
  · have hview : Aside a { a with
        lamport := max a.lamport lamport
        peerIndex :=
          a.peerIndex.insert sender ((a.peerIndex[sender]?.getD ∅).insert rel record) } :=
      ⟨rfl, rfl, rfl, rfl, rfl, rfl, rfl, fun _ h => h⟩
    exact (hd.aside hview).aside
      (reconcileOneWith_frame h env (rebuildIgnore_frame h env) _ sender rel record).toAside
  · exact hd.aside ⟨rfl, rfl, rfl, rfl, rfl, rfl, rfl, fun _ h => h⟩

/-! ## Votes -/

/-- The table knows no longer of the round of `rel`. -/
theorem leaveRound (hd : Desk t ⟨w, l, u⟩ a) {locks : LockTable Id Path}
    (ho : OnlyAt rel a.locks locks) : Desk t ⟨w, rel :: l, u⟩ { a with locks } := by
  refine ⟨hd.busy, hd.autolocks, fun hr p hp => ?_, hd.unlocks⟩
  by_cases heq : rel = p
  · exact .inl (heq ▸ List.mem_cons_self)
  · refine (hd.acquires hr p hp).imp (List.mem_cons_of_mem _) fun hpend => ?_
    rw [ho.get p heq]
    exact hpend

theorem onLockReq (hd : Desk t o a) (sender : Id) (rel : Path) (lamport ttlMs : U64) :
    Desk t o (a.onLockReq h env sender rel lamport ttlMs) := by
  have hhear : Aside a { a with lamport := max a.lamport lamport } :=
    ⟨rfl, rfl, rfl, rfl, rfl, rfl, rfl, fun _ h => h⟩
  replace hd := hd.aside hhear
  unfold Actor.onLockReq
  dsimp only
  split
  · exact hd
  split
  · exact hd.aside (send_aside _ sender _)
  split
  · rename_i locks hreq
    have hkeep := keepsRounds_onRemoteRequest (fun h => by cases h) hreq
    exact ((hd.locks hkeep).aside (note_aside _ _)).aside (send_aside _ sender _)
  · rename_i locks hreq
    have honly := onRemoteRequest_onlyAt a.locks rel sender lamport ttlMs env.now
    rw [hreq] at honly
    -- the round that lost is over before its mark is taken back
    have hnoted := (hd.leaveRound honly).aside (note_aside _ (.granted rel sender a.files[rel]?))
    have htold := hnoted.tieLost h env
    exact (htold.aside (broadcast_aside _ _)).aside (send_aside _ sender _)
  · rename_i locks reason hreq
    have hkeep := keepsRounds_onRemoteRequest (fun h => by cases h) hreq
    exact (hd.locks hkeep).aside (send_aside _ sender _)

/-- Autolock that has won the lease publishes the edit. -/
theorem autolockSucceed (hd : Desk t ⟨w, l, u⟩ a) (rel : Path) :
    Desk t ⟨w, l, u⟩ (a.autolockSucceed env rel) ∧
      (a.autolockSucceed env rel).autolockPending.contains rel = false := by
  unfold Actor.autolockSucceed
  split
  · rename_i hnone
    refine ⟨hd, ?_⟩
    rw [Map.contains_eq, hnone]
    rfl
  · refine ⟨spawnPublish ((hd.dropAutolock rel).aside ?_) .edit, ?_⟩
    · exact ⟨rfl, rfl, rfl, rfl, rfl, rfl, rfl, fun _ h => h⟩
    · exact Bool.eq_false_iff.mpr fun hin => (Map.contains_erase_iff.mp hin).1 rfl

theorem leaseAcquired (hd : Desk t ⟨w, rel :: l, u⟩ a) :
    Desk t ⟨w, l, u⟩ (a.leaseAcquired env rel) := by
  have hopen : Aside a { (a.setMode env rel false).1.openFor rel with
      myWaits := ((a.setMode env rel false).1.openFor rel).myWaits.erase rel
      interest := ((a.setMode env rel false).1.openFor rel).interest.erase rel } :=
    (setMode_onDisk a env rel false).aside.trans
      ⟨rfl, rfl, rfl, rfl, rfl, rfl, rfl, fun _ h => h⟩
  obtain ⟨hwon, hauto⟩ := (hd.aside hopen).autolockSucceed env rel
  unfold Actor.leaseAcquired
  dsimp only
  split
  · rename_i hnone
    exact hwon.unlapse hnone
  · exact (hwon.dropAcquire fun _ => hauto).aside (replyTo_aside _ _ _)

theorem onLockGrant (hd : Desk t o a) (sender : Id) (rel : Path) :
    Desk t o (a.onLockGrant h env sender rel) := by
  have honly := onGrant_onlyAt a.locks rel sender env.now
  unfold Actor.onLockGrant
  split
  · exact hd
  split
  · rename_i locks hgrant
    exact hd.locks (keepsRounds_onGrant hgrant)
  · rename_i locks hgrant
    rw [hgrant] at honly
    have hnoted := hd.aside (note_aside a (.acquired rel (a.voters rel) a.files[rel]?))
    exact leaseAcquired env (hnoted.leaveRound honly)

theorem onLockDeny (hd : Desk t o a) (rel : Path) (reason : DenyReason Id) :
    Desk t o (a.onLockDeny h env rel reason) := by
  have honly := onDeny_onlyAt a.locks rel
  unfold Actor.onLockDeny
  split
  · exact hd
  split
  · rename_i locks hdeny
    exact hd.locks (keepsRounds_onDeny hdeny)
  · rename_i locks hdeny
    rw [hdeny] at honly
    have hover : RoundOver rel a { ({ a with locks } : Actor Id Path).broadcast
        (.lock (.lockRelease rel)) with pendingAcquires := a.pendingAcquires.erase rel } :=
      (RoundOver.of_onlyAt honly).broadcast _
    refine roundOver h env hd.lapse hover _ ?_
    split
    · exact replyTo_aside _ _ _
    · exact .refl

theorem onLockMsg (hd : Desk t o a) (sender : Id) (msg : LockMsg Id Path) :
    Desk t o (a.onLockMsg h env sender msg) := by
  cases msg with
  | lockReq rel lamport ttlMs => exact hd.onLockReq h env sender rel lamport ttlMs
  | lockGrant rel => exact hd.onLockGrant h env sender rel
  | lockDeny rel reason => exact hd.onLockDeny h env rel reason
  | lockRelease rel =>
      simp only [Actor.onLockMsg]
      split
      · exact hd.locks (keepsRounds_onRelease _ rel sender)
      · exact hd
  | lockRenew rel lamport ttlMs =>
      have hhear : Aside a { a with lamport := max a.lamport lamport } :=
        ⟨rfl, rfl, rfl, rfl, rfl, rfl, rfl, fun _ h => h⟩
      simp only [Actor.onLockMsg]
      split
      · exact (hd.aside hhear).locks (keepsRounds_onRenew _ rel sender ttlMs env.now)
      · exact hd.aside hhear

/-! ## Connections -/

/-- No autolock waits for the vote of the peer. -/
theorem onPeerGone (hd : Desk t ⟨w, l, u⟩ a) (id : Id) (connId : Nat)
    (hauto : t.rounds → a.peers[id]?.map Peer.connId = some connId →
      ∀ p ∈ (a.locks.onPeerDown id).2, a.autolockPending.contains p = false) :
    Desk t ⟨w, l, u⟩ (a.onPeerGone id connId) := by
  unfold Actor.onPeerGone
  split
  · exact hd
  · rename_i hconn
    have hauto := fun hr => hauto hr (not_not.mp hconn)
    have hdown : Desk t ⟨w, (a.locks.onPeerDown id).2 ++ l, u⟩ { a with
        locks := (a.locks.onPeerDown id).1
        peers := a.peers.erase id
        peerIndex := a.peerIndex.erase id
        peerRoles := a.peerRoles.erase id
        indexReceived := a.indexReceived.erase id
        indexStaging := a.indexStaging.erase id } := by
      refine ⟨hd.busy, hd.autolocks, fun hr p hp => ?_, hd.unlocks⟩
      rcases hd.acquires hr p hp with hin | hpend
      · exact .inl (List.mem_append_right _ hin)
      · exact (pending_onPeerDown a.locks id hpend).imp_left (List.mem_append_left _)
    dsimp only
    generalize (a.locks.onPeerDown id).2 = aborted at hdown hauto ⊢
    -- the rounds are ended one after the other
    have hfold : ∀ (aborted : List Path) (b : Actor Id Path),
        Desk t ⟨w, aborted ++ l, u⟩ b →
        (t.rounds → ∀ p ∈ aborted, b.autolockPending.contains p = false) →
        Desk t ⟨w, l, u⟩ (aborted.foldl Actor.abortRound b) := by
      intro aborted
      induction aborted with
      | nil => exact fun b hb _ => hb
      | cons p aborted ih =>
          intro b hb hno
          rw [List.foldl_cons]
          refine ih _ (hb.abortRound fun hr => hno hr p List.mem_cons_self) fun hr q hq => ?_
          have hsame : (b.abortRound p).autolockPending = b.autolockPending := by
            unfold Actor.abortRound Actor.replyTo
            dsimp only
            split
            · rfl
            · split <;> rfl
          rw [hsame]
          exact hno hr q (List.mem_cons_of_mem _ hq)
    exact hfold aborted _ hdown hauto

/-! ## Timers and startup -/

theorem foldl {α : Type} {f : Actor Id Path → α → Actor Id Path} {l : List α}
    (hf : ∀ b, ∀ x ∈ l, Desk t o b → Desk t o (f b x)) (hd : Desk t o a) :
    Desk t o (l.foldl f a) := by
  induction l generalizing a with
  | nil => exact hd
  | cons x l ih =>
      rw [List.foldl_cons]
      exact ih (fun b y hy hb => hf b y (List.mem_cons_of_mem _ hy) hb)
        (hf a x List.mem_cons_self hd)

theorem releaseOwnLease (hd : Desk t o a) (rel : Path) :
    Desk t o (a.releaseOwnLease env rel) := by
  unfold Actor.releaseOwnLease
  split
  · exact hd
  · have hreleased := (hd.locks (keepsRounds_onRelease a.locks rel a.me)).aside
      (b := { a with
        locks := a.locks.onRelease rel a.me, autolockIdle := a.autolockIdle.erase rel })
      ⟨rfl, rfl, rfl, rfl, rfl, rfl, rfl, fun _ h => h⟩
    exact ((hreleased.aside (settleMode_aside _ env rel)).aside (broadcast_aside _ _)).aside
      (broadcast_aside _ _)

theorem leaseExpired (hd : Desk t o a) (rel : Path) (holder : Id) :
    Desk t o (a.leaseExpired env rel holder) := by
  have hmode : Aside a (if holder = a.me then a.settleMode env rel else a) := by
    split
    · exact settleMode_aside a env rel
    · exact .refl
  exact (hd.aside hmode).aside ⟨rfl, rfl, rfl, rfl, rfl, rfl, rfl, fun _ h => h⟩

theorem onSweep (hd : Desk t ⟨w, l, u⟩ a) : Desk t ⟨w, l, u⟩ (a.onSweep h env) := by
  unfold Actor.onSweep
  dsimp only
  have hidle := foldl
    (l := (a.autolockIdle.toList.filter fun e =>
      decide (e.2 ≤ env.now) && a.locks.isHeldByMe e.1).map Prod.fst)
    (fun b rel _ hb => hb.releaseOwnLease env rel) hd
  generalize List.foldl (fun a rel => Actor.releaseOwnLease env a rel) a _ = b at hidle ⊢
  have hswept : Desk t ⟨w, (b.locks.sweep env.now).2.timedOut ++ l, u⟩ { b with
      autolockIdle := b.autolockIdle.filter fun _ d => decide (env.now < d)
      locks := (b.locks.sweep env.now).1 } := by
    refine ⟨hidle.busy, hidle.autolocks, fun hr p hp => ?_, hidle.unlocks⟩
    rcases hidle.acquires hr p hp with hin | hpend
    · exact .inl (List.mem_append_right _ hin)
    · exact (pending_sweep b.locks env.now hpend).imp_left (List.mem_append_left _)
  generalize b.locks.sweep env.now = res at hswept ⊢
  obtain ⟨locks, swept⟩ := res
  have hexpired := foldl (l := swept.expired)
    (fun b e _ hb => hb.leaseExpired env e.1 e.2) hswept
  dsimp only
  generalize List.foldl (fun a e => Actor.leaseExpired env a e.1 e.2) _ swept.expired = d
    at hexpired ⊢
  have hwaits : Aside d { d with myWaits := d.myWaits.filter fun _ w => decide (env.now < w.2) } :=
    ⟨rfl, rfl, rfl, rfl, rfl, rfl, rfl, fun _ h => h⟩
  replace hexpired := hexpired.aside hwaits
  generalize ({ d with myWaits := d.myWaits.filter fun _ w => decide (env.now < w.2) } :
    Actor Id Path) = d' at hexpired ⊢
  generalize swept.timedOut = timedOut at hexpired ⊢
  -- every round that timed out is ended in its turn
  induction timedOut generalizing d' with
  | nil => exact hexpired
  | cons p timedOut ih =>
      rw [List.foldl_cons]
      exact ih _ (hexpired.roundTimedOut h env)

theorem onRenewTick (hd : Desk t o a) : Desk t o (a.onRenewTick env) :=
  foldl (fun _ rel _ hb => (hb.locks (keepsRounds_renewOwn _ rel env.now)).aside
    (broadcast_aside _ _)) hd

theorem scanUnindexed (hd : Desk t ⟨w, l, u⟩ a) (rel : Path) :
    Desk t ⟨w, l, u⟩ (a.scanUnindexed h env rel) := by
  unfold Actor.scanUnindexed
  split
  · exact hd.aside ⟨rfl, rfl, rfl, rfl, rfl, rfl, rfl, fun _ h => h⟩
  · exact unbusy h env ((hd.mark rel).aside (violationNewFile_onDisk h env _ rel).aside)

theorem scanFile (hd : Desk t ⟨w, l, u⟩ a) (rel : Path) :
    Desk t ⟨w, l, u⟩ (a.scanFile h env rel) := by
  unfold Actor.scanFile
  split
  · exact hd.scanUnindexed h env rel
  split
  · exact hd.scanUnindexed h env rel
  split
  · exact hd
  · exact spawnViolation h env hd.hold true

theorem startupScan (hd : Desk t ⟨w, l, u⟩ a) (founding : Bool) :
    Desk t ⟨w, l, u⟩ (a.startupScan h env founding) := by
  unfold Actor.startupScan
  dsimp only
  split
  · refine foldl (fun b rel _ hb => ?_) hd
    unfold importFile
    split
    · exact hb.aside ⟨rfl, rfl, rfl, rfl, rfl, rfl, rfl, fun _ h => h⟩
    · exact spawnPublish hb.hold .import
  · have hscan := foldl (l := a.disk.keys.filter h.sanitize)
      (fun b rel _ hb => hb.scanFile h env rel) hd
    generalize List.foldl _ a _ = b at hscan ⊢
    have hmissing := foldl (l := (b.files.toList.filter fun e =>
        !e.2.deleted && !(a.disk.keys.filter h.sanitize).contains e.1).map Prod.fst)
      (fun b rel _ hb => spawnViolation h env (hb.mark rel) false) hscan
    exact hmissing.aside ⟨rfl, rfl, rfl, rfl, rfl, rfl, rfl, fun _ h => h⟩

end Desk

/-! ## Turns -/

/-- No autolock waits for the vote of the peer whose connection has ended. -/
def SparesAutolocks (a : Actor Id Path) : Event Id Path → Prop
  | .gone id connId => a.peers[id]?.map Peer.connId = some connId →
      ∀ p ∈ (a.locks.onPeerDown id).2, a.autolockPending.contains p = false
  | .msg id .bye => a.peers.contains id = true →
      ∀ p ∈ (a.locks.onPeerDown id).2, a.autolockPending.contains p = false
  | _ => True

end Tazamun.Actor

namespace Tazamun

variable {Id Path : Type} [LinearOrder Id] [LinearOrder Path]

/-- The event is no failed inspection for an unlock. -/
def Event.UnlockInspected : Event Id Path → Prop
  | .inspected _ (.error _) (.unlock _) => False
  | _ => True

/-- What the handler of the event has in its hand. -/
def Event.inHand (ev : Event Id Path) : InHand Path := ⟨ev.worksOn.toList, [], ev.unlocks.toList⟩

namespace Actor

open Lib Mesh LockTable

variable {t : DeskTerms} {a b : Actor Id Path} (h : Host Id Path) (env : Env Path)

theorem Desk.onCtl (hd : Desk t ⟨[], [], []⟩ a) (sender : Id) (msg : Msg Id Path)
    (hauto : t.rounds → a.SparesAutolocks (.msg sender msg)) :
    Desk t ⟨[], [], []⟩ (a.onCtl h env sender msg) := by
  unfold Actor.onCtl
  split
  · exact hd
  · rename_i hpeer
    cases msg with
    | handshake => exact hd.aside ⟨rfl, rfl, rfl, rfl, rfl, rfl, rfl, fun _ h => h⟩
    | index lamport files leases => exact hd.onIndex h env sender lamport files leases
    | indexPart seq last lamport files leases =>
        exact hd.onIndexPart h env sender seq last lamport files leases
    | fileMeta rel record lamport => exact hd.onFileMeta h env sender rel record lamport
    | lock msg => exact hd.onLockMsg h env sender msg
    | bye => exact hd.onPeerGone sender _ fun hr _ => hauto hr (Map.contains_of_get hpeer)
    | lockInterest rel =>
        simp only [onLockInterest]
        split
        · exact hd
        split
        · exact hd
        · exact hd.aside ⟨rfl, rfl, rfl, rfl, rfl, rfl, rfl, fun _ h => h⟩
    | lockFreed rel =>
        dsimp only
        split
        · exact hd.aside ⟨rfl, rfl, rfl, rfl, rfl, rfl, rfl, fun _ h => h⟩
        · exact hd
    | identity grant =>
        simp only [onPeerIdentity]
        split
        · exact hd
        split
        · exact hd.aside ⟨rfl, rfl, rfl, rfl, rfl, rfl, rfl, fun _ h => h⟩
        split
        · exact hd.aside ⟨rfl, rfl, rfl, rfl, rfl, rfl, rfl, fun _ h => h⟩
        · exact hd.aside ⟨rfl, rfl, rfl, rfl, rfl, rfl, rfl, fun _ h => h⟩

/-- A pull ends, or is tried again: no operation on a path is involved. -/
theorem onPullStaged_aside (a : Actor Id Path) (rel : Path) (sender : Id)
    (record : FileRecord Id) (result : Option Bytes) :
    Aside a (a.onPullStaged h env rel sender record result) := by
  have hgo : ∀ b : Actor Id Path, Aside b (b.letGo rel sender record) :=
    fun b => ⟨rfl, rfl, rfl, rfl, rfl, rfl, rfl, fun _ h => h⟩
  unfold onPullStaged
  split
  · exact applyRemote_aside h env a rel sender record _
  split
  · exact (hgo a).trans (finishPull_frame _ rel).toAside
  · rename_i job _
    have hcount : Aside a { a with
        pendingPulls := a.pendingPulls.insert rel { job with attempts := job.attempts + 1 } } :=
      ⟨rfl, rfl, rfl, rfl, rfl, rfl, rfl, fun _ h => h⟩
    dsimp only
    split
    · exact hcount.trans
        ⟨rfl, rfl, rfl, rfl, rfl, rfl, rfl, fun _ h => List.mem_append_left _ h⟩
    · exact (hcount.trans (hgo _)).trans (finishPull_frame _ rel).toAside

theorem onPullRetry_aside (a : Actor Id Path) (rel : Path) : Aside a (a.onPullRetry rel) := by
  unfold onPullRetry startPull
  split
  · dsimp only
    split <;>
      exact ⟨rfl, rfl, rfl, rfl, rfl, rfl, rfl, fun _ h => List.mem_append_left _ h⟩
  · exact .refl

/-- **A handler deals with what is in its hand.** -/
theorem handle_desk {ev : Event Id Path} (hd : Desk t ev.inHand a)
    (hauto : t.rounds → a.SparesAutolocks ev) (hok : t.unlocks → ev.UnlockInspected) :
    Desk t ⟨[], [], []⟩ (a.handle h env ev) := by
  cases ev with
  | authed id connId byMe =>
      have hjoin : ∀ peer, Aside a (a.join h env id peer) :=
        fun peer => ⟨rfl, rfl, rfl, rfl, rfl, rfl, rfl, fun _ h => h⟩
      have hreplace : ∀ (p : Prop) [Decidable p] peer,
          Aside a (if p then a.join h env id peer else a) := by
        intro p _ peer
        split
        · exact hjoin peer
        · exact .refl
      refine hd.aside ?_
      simp only [handle, onAuthed]
      split
      · exact .refl
      split
      · exact .refl
      split
      · exact hjoin _
      · exact hreplace _ _
  | msg id msg => exact Desk.onCtl h env hd id msg hauto
  | gone id connId => exact hd.onPeerGone id connId hauto
  | watch rel => exact hd.onWatch h env rel
  | ipc req reply => exact hd.onIpc h env req reply
  | sweep => exact hd.onSweep h env
  | renew => exact hd.onRenewTick env
  | inspected rel outcome cause =>
      refine Desk.onInspected h env hd fun hu e r he hc => ?_
      subst he hc
      exact hok hu
  | publishDone rel result cause => exact Desk.onPublishDone h env hd
  | pullStaged rel sender record result =>
      exact hd.aside (onPullStaged_aside h env a rel sender record result)
  | pullRetry rel => exact hd.aside (onPullRetry_aside a rel)
  | violationStaged rel result quarantined preserveRequired =>
      exact Desk.onViolationStaged h env hd result quarantined preserveRequired
  | autolockReady rel quarantined newFile =>
      exact Desk.beginAutolockAcquire h env hd quarantined newFile
  | restoreStaged rel entry result reply =>
      exact Desk.onRestoreStaged h env hd entry result reply
  | conflictApplied rel result reply => exact Desk.onConflictApplied h env hd result reply
  | acquireTimeout rel lamport => exact hd.onAcquireTimeout h env rel lamport

/-! ## Steps and runs -/

/-- A task posts an event for the operation it is a stage of. -/
theorem runTask_desk (a : Actor Id Path) (failure : Option String) (task : Task Id Path) :
    Aside a (a.runTask h env failure task).1 ∧
      (a.runTask h env failure task).2.worksOn = task.worksOn ∧
      (a.runTask h env failure task).2.unlocks = task.unlocks := by
  cases task with
  | inspect rel record cause => cases cause <;> exact ⟨.refl, rfl, rfl⟩
  | publish rel cause => cases cause <;> exact ⟨.refl, rfl, rfl⟩
  | violation rel record quarantineFirst =>
      cases quarantineFirst with
      | false => exact ⟨.refl, rfl, rfl⟩
      | true => exact ⟨(quarantine_onDisk a env rel).aside, rfl, rfl⟩
  | autolock rel newFile => exact ⟨(quarantine_onDisk a env rel).aside, rfl, rfl⟩
  | _ => exact ⟨.refl, rfl, rfl⟩

/-- The event that the handler takes is in its hand. -/
theorem Desk.take (hd : Desk t ⟨[], [], []⟩ a) {n : Nat} {ev : Event Id Path}
    (hev : a.inbox[n]? = some ev) :
    Desk t ev.inHand { a with inbox := a.inbox.eraseIdx n } := by
  refine ⟨fun p hp => ?_, hd.autolocks, fun hr p hp => ?_, fun hu p hp => ?_⟩
  · rcases hd.busy p hp with hin | (hin | ⟨ev', hev', hw⟩) | hin
    · cases hin
    · exact .inr (.inl (.inl hin))
    · rcases mem_eraseIdx_or_eq hev hev' with hev' | rfl
      · exact .inr (.inl (.inr ⟨ev', hev', hw⟩))
      · exact .inl (Option.mem_toList.mpr hw)
    · exact .inr (.inr hin)
  · exact hd.acquires hr p hp
  · rcases hd.unlocks hu p hp with hin | hin | ⟨ev', hev', hw⟩
    · cases hin
    · exact .inr (.inl hin)
    · rcases mem_eraseIdx_or_eq hev hev' with hev' | rfl
      · exact .inr (.inr ⟨ev', hev', hw⟩)
      · exact .inl (Option.mem_toList.mpr hw)

/-- A task makes way for its event. -/
theorem Desk.post (hd : Desk t ⟨[], [], []⟩ a) {n : Nat} {task : Task Id Path}
    (htask : a.tasks[n]? = some task) {b : Actor Id Path}
    (hb : Aside { a with tasks := a.tasks.eraseIdx n } b) {ev : Event Id Path}
    (hworks : ev.worksOn = task.worksOn) (hunlocks : ev.unlocks = task.unlocks) :
    Desk t ⟨[], [], []⟩ { b with inbox := b.inbox ++ [ev] } := by
  have hnew : ev ∈ b.inbox ++ [ev] := List.mem_append_right _ (List.mem_singleton_self _)
  have hold : ∀ e ∈ a.inbox, e ∈ b.inbox ++ [ev] := fun e he =>
    List.mem_append_left _ (by rw [hb.inbox]; exact he)
  refine ⟨fun p hp => ?_, fun hr p hp => ?_, fun hr p hp => ?_, fun hu p hp => ?_⟩
  · rcases hd.busy p (by rw [← hb.busy]; exact hp) with hin | (⟨t', ht', hw⟩ | ⟨e, he, hw⟩) | hin
    · cases hin
    · rcases mem_eraseIdx_or_eq htask ht' with ht' | rfl
      · exact .inr (.inl (.inl ⟨t', hb.tasks t' ht', hw⟩))
      · exact .inr (.inl (.inr ⟨ev, hnew, hworks.trans hw⟩))
    · exact .inr (.inl (.inr ⟨e, hold e he, hw⟩))
    · exact .inr (.inr (by rw [← hb.autolocks] at hin; exact hin))
  · rw [show b.pendingAcquires = a.pendingAcquires from hb.acquires]
    exact hd.autolocks hr p (by rw [← hb.autolocks]; exact hp)
  · rw [show b.locks = a.locks from hb.locks]
    exact hd.acquires hr p (by rw [← hb.acquires]; exact hp)
  · rcases hd.unlocks hu p (by rw [← hb.unlocks]; exact hp) with hin | ⟨t', ht', hw⟩ | ⟨e, he, hw⟩
    · cases hin
    · rcases mem_eraseIdx_or_eq htask ht' with ht' | rfl
      · exact .inr (.inl ⟨t', hb.tasks t' ht', hw⟩)
      · exact .inr (.inr ⟨ev, hnew, hunlocks.trans hw⟩)
    · exact .inr (.inr ⟨e, hold e he, hw⟩)

theorem step_desk {s : Env Path × Act Id Path} (hd : Desk t ⟨[], [], []⟩ a)
    (hauto : t.rounds → ∀ ev, a.handled s.2 = some ev → a.SparesAutolocks ev)
    (hok : t.unlocks → ∀ ev, a.handled s.2 = some ev → ev.UnlockInspected)
    (hstep : a.step h s = some b) : Desk t ⟨[], [], []⟩ b := by
  obtain ⟨env, act⟩ := s
  cases act with
  | event ev =>
      simp only [Actor.step] at hstep
      split at hstep
      · rename_i hext
        cases hstep
        have hnone : ev.inHand = ⟨[], [], []⟩ := by
          cases ev <;> first | rfl | cases hext
        rw [← hnone] at hd
        exact handle_desk h env hd (fun hr => hauto hr ev rfl) fun hu => hok hu ev rfl
      · cases hstep
  | inbox n =>
      simp only [Actor.step] at hstep
      split at hstep
      · cases hstep
      · rename_i ev hev
        cases hstep
        exact handle_desk h env (hd.take hev) (fun hr => hauto hr ev hev) fun hu => hok hu ev hev
  | task n failure =>
      simp only [Actor.step] at hstep
      split at hstep
      · cases hstep
      · rename_i task htask
        cases hstep
        obtain ⟨hb, hworks, hunlocks⟩ := runTask_desk h env
          { a with tasks := a.tasks.eraseIdx n } failure task
        exact hd.post htask hb hworks hunlocks
  | write rel bytes =>
      cases hstep
      exact hd.aside ⟨rfl, rfl, rfl, rfl, rfl, rfl, rfl, fun _ h => h⟩
  | delete rel =>
      cases hstep
      exact hd.aside ⟨rfl, rfl, rfl, rfl, rfl, rfl, rfl, fun _ h => h⟩
  | chmod rel readonly =>
      simp only [Actor.step] at hstep
      split at hstep
      · cases hstep
      · cases hstep
        exact hd.aside ⟨rfl, rfl, rfl, rfl, rfl, rfl, rfl, fun _ h => h⟩

theorem boot_desk (me : Id) (p : Persisted Id Path) (founding : Bool) :
    Desk t ⟨[], [], []⟩ (Actor.boot h env me p founding) := by
  have hload : Desk t ⟨[], [], []⟩ (load h me p) := by
    refine ⟨fun q hq => ?_, fun _ q hq => ?_, fun _ q hq => ?_, fun _ q hq => ?_⟩ <;>
      simp [load] at hq
  unfold Actor.boot
  exact (Desk.foldl (fun b e _ hb => hb.aside (settleMode_aside b env e.1)) hload).startupScan
    h env founding

end Actor

end Tazamun
