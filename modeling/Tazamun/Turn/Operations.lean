import Tazamun.Turn.Desk

set_option autoImplicit false

/-! # No handler leaves a mark behind

Each handler deals with what it has in its hand and leaves a desk in order: it takes the mark
of the operation back, or starts the next stage, and a round that is over is over in all three
places that know of it. -/

namespace Tazamun.Actor

open Mesh LockTable

variable {Id Path : Type} [LinearOrder Id] [LinearOrder Path]

variable {t : DeskTerms} {o : InHand Path} {w l u : List Path} {a b : Actor Id Path} {rel : Path}

/-! ## What handlers do on the side -/

theorem reply_aside (a : Actor Id Path) (r : Nat) (resp : IpcResponse) :
    Aside a (a.reply r resp) :=
  ⟨rfl, rfl, rfl, rfl, rfl, rfl, rfl, fun _ h => h⟩

theorem replyTo_aside (a : Actor Id Path) (r : Option Nat) (resp : IpcResponse) :
    Aside a (a.replyTo r resp) := by
  cases r with
  | none => exact .refl
  | some r => exact reply_aside a r resp

theorem broadcast_aside (a : Actor Id Path) (msg : Msg Id Path) : Aside a (a.broadcast msg) :=
  ⟨rfl, rfl, rfl, rfl, rfl, rfl, rfl, fun _ h => h⟩

theorem send_aside (a : Actor Id Path) (dst : Id) (msg : Msg Id Path) :
    Aside a (a.send dst msg) := by
  unfold send
  split
  · exact ⟨rfl, rfl, rfl, rfl, rfl, rfl, rfl, fun _ h => h⟩
  · exact .refl

theorem note_aside (a : Actor Id Path) (e : Effect Id Path) : Aside a (a.note e) :=
  ⟨rfl, rfl, rfl, rfl, rfl, rfl, rfl, fun _ h => h⟩

theorem settleMode_aside (a : Actor Id Path) (env : Env Path) (rel : Path) :
    Aside a (a.settleMode env rel) :=
  (setMode_onDisk a env rel _).aside

variable (h : Host Id Path) (env : Env Path)

theorem applyRemote_aside (a : Actor Id Path) (rel : Path) (sender : Id)
    (record : FileRecord Id) (staged : Option Bytes) :
    Aside a (a.applyRemote h env rel sender record staged) :=
  applyRemoteWith_aside h env (rebuildIgnore_frame h env) a rel sender record staged

theorem forget_aside (a : Actor Id Path) (rel : Path) : Aside a (a.forget rel) :=
  ⟨rfl, rfl, rfl, rfl, rfl, rfl, rfl, fun _ h => h⟩

theorem know_aside (a : Actor Id Path) (rel : Path) (bytes : Bytes) : Aside a (a.know rel bytes) :=
  ⟨rfl, rfl, rfl, rfl, rfl, rfl, rfl, fun _ h => h⟩

theorem tick_aside (a : Actor Id Path) : Aside a a.tick :=
  ⟨rfl, rfl, rfl, rfl, rfl, rfl, rfl, fun _ h => h⟩

theorem commitLocal_aside (a : Actor Id Path) (kind : CommitKind) (rel : Path)
    (record : FileRecord Id) : Aside a (a.commitLocal kind rel record) :=
  ⟨rfl, rfl, rfl, rfl, rfl, rfl, rfl, fun _ h => h⟩

/-- A record of our own takes the place of the last one. -/
theorem commitNext_aside (a : Actor Id Path) (kind : CommitKind) (rel : Path)
    (record : FileRecord Id) (bytes : Bytes) :
    Aside a ((((a.forget rel).pushHistory rel a.files[rel]?).tick.commitLocal kind rel
      record).know rel bytes) := by
  have hpush := (pushHistory_frame (a.forget rel) rel a.files[rel]?).toAside
  exact ((((forget_aside a rel).trans hpush).trans (tick_aside _)).trans
    (commitLocal_aside _ kind rel record)).trans (know_aside _ rel bytes)

theorem commitPublished_aside (a : Actor Id Path) (rel : Path) (p : Published)
    (cause : PublishCause) : Aside a (a.commitPublished env rel p cause) := by
  unfold commitPublished
  dsimp only
  split_ifs
  · exact know_aside a rel p.bytes
  · exact commitNext_aside a _ rel _ p.bytes

theorem commitTombstone_aside (a : Actor Id Path) (rel : Path) :
    Aside a (a.commitTombstone env rel) := by
  unfold commitTombstone
  split
  · exact .refl
  · rename_i prev _
    split
    · exact .refl
    · have hpush := (pushHistory_frame a rel (some prev)).toAside
      exact ((hpush.trans (forget_aside _ rel)).trans (tick_aside _)).trans
        (commitLocal_aside _ .tombstone rel _)

theorem commitRestored_aside (a : Actor Id Path) (rel : Path) (entry : VersionEntry Id)
    (bytes : Bytes) : Aside a (a.commitRestored env rel entry bytes) := by
  unfold commitRestored
  exact commitNext_aside a .restore rel _ bytes

namespace Desk

/-! ## The watch pipeline -/

/-- A task takes the path over, which is marked once more. -/
theorem begin (hd : Desk t ⟨rel :: w, l, u⟩ a) {task : Task Id Path}
    (hw : task.worksOn = some rel) :
    Desk t ⟨w, l, u⟩ (({ a with busy := a.busy.insert rel () } : Actor Id Path).spawn task) :=
  hd.place hw fun _ hp => (Map.contains_insert_iff.mp hp).imp_left Eq.symm

theorem inspect (hd : Desk t ⟨rel :: w, l, u⟩ a) (cause : InspectCause) :
    Desk t ⟨w, l, u⟩ (a.inspect rel cause) :=
  hd.begin rfl

theorem spawnPublish (hd : Desk t ⟨rel :: w, l, u⟩ a) (cause : PublishCause) :
    Desk t ⟨w, l, u⟩ (a.spawnPublish rel cause) :=
  hd.begin rfl

/-- The mark is taken back, and what waited for that comes next. -/
theorem unbusy (hd : Desk t ⟨rel :: w, l, u⟩ a) : Desk t ⟨w, l, u⟩ (a.unbusy h env rel) := by
  have hfree : Desk t ⟨w, l, u⟩ { a with busy := a.busy.erase rel } := by
    refine ⟨fun p hp => ?_, hd.autolocks, hd.acquires, hd.unlocks⟩
    obtain ⟨hne, hp⟩ := Map.contains_erase_iff.mp hp
    exact (hd.busy p hp).imp_left fun hin => (List.mem_cons.mp hin).resolve_left (Ne.symm hne)
  unfold Actor.unbusy
  dsimp only
  have hnext : Desk t ⟨w, l, u⟩
      (takeUp h env { a with busy := a.busy.erase rel } rel) := by
    unfold takeUp
    split
    · exact hfree
    · have hout : Aside { a with busy := a.busy.erase rel }
          { a with busy := a.busy.erase rel, deferred := a.deferred.erase rel } :=
        ⟨rfl, rfl, rfl, rfl, rfl, rfl, rfl, fun _ h => h⟩
      exact (hfree.aside hout).aside (applyRemote_aside h env _ rel _ _ _)
  split
  · refine inspect (.hold (hnext.aside ?_)) .watch
    exact ⟨rfl, rfl, rfl, rfl, rfl, rfl, rfl, fun _ h => h⟩
  · exact hnext

theorem onWatch (hd : Desk t o a) (rel : Path) : Desk t o (a.onWatch h env rel) := by
  have hmuted : Aside a (a.isMuted env rel).1 := ⟨rfl, rfl, rfl, rfl, rfl, rfl, rfl, fun _ h => h⟩
  replace hd := hd.aside hmuted
  obtain ⟨w, l, u⟩ := o
  unfold Actor.onWatch
  generalize a.isMuted env rel = r at hd ⊢
  obtain ⟨b, muted⟩ := r
  dsimp only at hd ⊢
  split
  · exact hd
  split
  · exact hd.aside ⟨rfl, rfl, rfl, rfl, rfl, rfl, rfl, fun _ h => h⟩
  split
  · exact inspect (.hold (hd.aside (rebuildIgnore_frame h env b).toAside)) .watch
  split
  · exact inspect hd.hold .watch
  split
  · split <;> exact hd.aside ⟨rfl, rfl, rfl, rfl, rfl, rfl, rfl, fun _ h => h⟩
  · refine inspect (.hold (hd.aside ?_)) .watch
    exact ⟨rfl, rfl, rfl, rfl, rfl, rfl, rfl, fun _ h => h⟩

theorem finishUnlock (hd : Desk t ⟨w, l, rel :: u⟩ a) (publishedOk : Bool) (r : Nat) :
    Desk t ⟨w, l, u⟩ (a.finishUnlock env rel publishedOk r) := by
  have hdone : Desk t ⟨w, l, u⟩ { a with
      pendingUnlocks := a.pendingUnlocks.erase rel
      locks := a.locks.onRelease rel a.me
      autolockIdle := a.autolockIdle.erase rel } := by
    refine ⟨hd.busy, hd.autolocks, (hd.locks (keepsRounds_onRelease _ rel a.me)).acquires, ?_⟩
    intro hu p hp
    obtain ⟨hne, hp⟩ := Map.contains_erase_iff.mp hp
    exact (hd.unlocks hu p hp).imp_left fun hin =>
      (List.mem_cons.mp hin).resolve_left (Ne.symm hne)
  unfold Actor.finishUnlock
  dsimp only
  have hsent := ((hdone.aside (settleMode_aside _ env rel)).aside
    (broadcast_aside _ (.lock (.lockRelease rel)))).aside (broadcast_aside _ (.lockFreed rel))
  split
  · exact hsent.aside (reply_aside _ r _)
  · exact hsent.aside (reply_aside _ r _)

/-- An edit that was not published is looked at again (`onPublishDone`). -/
def recheckEdit (rel : Path) (a : Actor Id Path) (result : Option Published)
    (cause : PublishCause) : Actor Id Path :=
  match result, cause with
  | none, .edit => { a with recheck := a.recheck.insert rel () }
  | _, _ => a

/-- What was published is committed (`onPublishDone`). -/
def commitResult (env : Env Path) (rel : Path) (cause : PublishCause) (a : Actor Id Path)
    (published : Option Published) : Actor Id Path :=
  match published with
  | none => a
  | some p =>
      if cause = PublishCause.import then
        (a.commitPublished env rel p cause).settleMode env rel
      else a.commitPublished env rel p cause

theorem onPublishDone {cause : PublishCause} {result : Option Published}
    (hd : Desk t ⟨rel :: w, l, (.publishDone rel result cause : Event Id Path).unlocks.toList⟩ a) :
    Desk t ⟨w, l, []⟩ (a.onPublishDone h env rel result cause) := by
  unfold Actor.onPublishDone
  dsimp only
  have hmark : ∀ (result : Option Published) (cause : PublishCause),
      Aside a (recheckEdit rel a result cause) := by
    intro result cause
    unfold recheckEdit
    split
    · exact ⟨rfl, rfl, rfl, rfl, rfl, rfl, rfl, fun _ h => h⟩
    · exact .refl
  have hcommit : ∀ (b : Actor Id Path) (published : Option Published),
      Aside b (commitResult env rel cause b published) := by
    intro b published
    unfold commitResult
    split
    · exact .refl
    · split
      · exact (commitPublished_aside env b rel _ cause).trans (settleMode_aside _ env rel)
      · exact commitPublished_aside env b rel _ cause
  have hfree := unbusy h env ((hd.aside (hmark result cause)).aside (hcommit _
    (if (a.locks.isHeldByMe rel || decide (cause = .import)) = true then result else none)))
  cases cause with
  | edit => exact hfree
  | «import» => exact hfree
  | unlock r => exact finishUnlock env hfree _ r

theorem spawnViolation (hd : Desk t ⟨rel :: w, l, u⟩ a) (quarantineFirst : Bool) :
    Desk t ⟨w, l, u⟩ (a.spawnViolation h env rel quarantineFirst) := by
  unfold Actor.spawnViolation
  split
  · exact unbusy h env hd
  · exact hd.begin rfl

theorem onViolationStaged (hd : Desk t ⟨rel :: w, l, u⟩ a) (result : Option Bytes)
    (quarantined : Option (CopyName Path)) (preserveRequired : Bool) :
    Desk t ⟨w, l, u⟩ (a.onViolationStaged h env rel result quarantined preserveRequired) := by
  unfold Actor.onViolationStaged
  split
  · exact unbusy h env hd
  · refine unbusy h env ?_
    split
    · exact hd
    · rename_i bytes
      have hwrite := (mute_onDisk a env rel).trans (persistTemp_onDisk h env _ rel bytes)
      generalize (a.mute env rel).persistTemp h env rel bytes = r at hwrite ⊢
      obtain ⟨b, ok⟩ := r
      cases ok with
      | false => exact hd.aside hwrite.aside
      | true =>
          have hknow : OnDisk b (b.knowIfIndexed h rel bytes) := by
            unfold knowIfIndexed
            split
            · split <;> exact ⟨_, _, _, _, _, _, rfl⟩
            · exact ⟨_, _, _, _, _, _, rfl⟩
          have hall := hwrite.trans hknow
          dsimp only
          split
          · exact hd.aside (hall.trans (setMode_onDisk _ env rel true)).aside
          · exact hd.aside hall.aside

/-! ## Autolock and rounds -/

/-- The autolock of a path is over, and its path in hand. -/
theorem dropAutolock (hd : Desk t ⟨w, l, u⟩ a) (rel : Path) :
    Desk t ⟨rel :: w, l, u⟩ { a with autolockPending := a.autolockPending.erase rel } := by
  refine ⟨fun p hp => ?_, fun hr p hp => ?_, hd.acquires, hd.unlocks⟩
  · rcases hd.busy p hp with hin | hin | hin
    · exact .inl (List.mem_cons_of_mem _ hin)
    · exact .inr (.inl hin)
    · by_cases heq : rel = p
      · exact .inl (heq ▸ List.mem_cons_self)
      · exact .inr (.inr (Map.contains_erase_iff.mpr ⟨heq, hin⟩))
  · exact hd.autolocks hr p (Map.contains_erase_iff.mp hp).2

theorem autolockFail (quarantined : Option (CopyName Path)) (newFile : Bool)
    (hd : Desk t ⟨rel :: w, l, u⟩ { a with autolockPending := a.autolockPending.erase rel }) :
    Desk t ⟨w, l, u⟩ (a.autolockFail h env rel quarantined newFile) := by
  unfold Actor.autolockFail
  dsimp only
  split
  · exact unbusy h env hd
  · split
    · refine unbusy h env (hd.aside ?_)
      exact ((mute_onDisk _ env rel).trans (removeFile_onDisk h env _ rel)).aside
    · split
      · exact unbusy h env hd
      · exact hd.place rfl fun p hp => .inr hp

/-- `b` is `a` once the round of `rel` is over, except that autolock has not been told. -/
structure RoundOver (rel : Path) (a b : Actor Id Path) : Prop where
  busy : b.busy = a.busy
  autolocks : b.autolockPending = a.autolockPending
  acquires : b.pendingAcquires = a.pendingAcquires.erase rel
  unlocks : b.pendingUnlocks = a.pendingUnlocks
  inbox : b.inbox = a.inbox
  tasks : b.tasks = a.tasks
  locks : ∀ p, rel ≠ p → Pending a.locks.states[p]? → Pending b.locks.states[p]?

theorem RoundOver.of_onlyAt {locks : LockTable Id Path} (ho : OnlyAt rel a.locks locks) :
    RoundOver rel a
      { a with locks, pendingAcquires := a.pendingAcquires.erase rel } :=
  ⟨rfl, rfl, rfl, rfl, rfl, rfl, fun p hp hpend => by rw [ho.get p hp]; exact hpend⟩

theorem RoundOver.broadcast (hover : RoundOver rel a b) (msg : Msg Id Path) :
    RoundOver rel a (b.broadcast msg) :=
  ⟨hover.busy, hover.autolocks, hover.acquires, hover.unlocks, hover.inbox, hover.tasks,
    hover.locks⟩

theorem endRound (hd : Desk t ⟨w, rel :: l, u⟩ a) (hover : RoundOver rel a b) :
    Desk t ⟨rel :: w, l, u⟩ { b with autolockPending := b.autolockPending.erase rel } := by
  have hd' := hd.dropAutolock rel
  refine ⟨fun p hp => ?_, fun hr p hp => ?_, fun hr p hp => ?_, fun hu p hp => ?_⟩
  · simp only [Working, hover.busy, hover.autolocks, hover.inbox, hover.tasks] at hp ⊢
    exact hd'.busy p hp
  · simp only [hover.autolocks, hover.acquires] at hp ⊢
    obtain ⟨hne, hp⟩ := Map.contains_erase_iff.mp hp
    exact Map.contains_erase_iff.mpr ⟨hne, hd.autolocks hr p hp⟩
  · simp only [hover.acquires] at hp ⊢
    obtain ⟨hne, hp⟩ := Map.contains_erase_iff.mp hp
    rcases hd.acquires hr p hp with hin | hpend
    · exact .inl ((List.mem_cons.mp hin).resolve_left (Ne.symm hne))
    · exact .inr (hover.locks p hne hpend)
  · simp only [Unlocking, hover.unlocks, hover.inbox, hover.tasks] at hp ⊢
    exact hd'.unlocks hu p hp

/-- A path without an autolock is not in hand for the sake of one. -/
theorem release (hnone : a.autolockPending[rel]? = none)
    (hd : Desk t ⟨rel :: w, l, u⟩ { a with autolockPending := a.autolockPending.erase rel })
    (hfree : a.busy.contains rel = true → rel ∈ w ∨ a.Working rel) : Desk t ⟨w, l, u⟩ a := by
  have hsame : ∀ p : Path, a.autolockPending.contains p = true →
      (a.autolockPending.erase rel).contains p = true := by
    intro p hp
    refine Map.contains_erase_iff.mpr ⟨?_, hp⟩
    rintro rfl
    rw [Map.contains_eq, hnone] at hp
    cases hp
  refine ⟨fun p hp => ?_, fun hr p hp => hd.autolocks hr p (hsame p hp), hd.acquires, hd.unlocks⟩
  by_cases heq : p = rel
  · subst heq
    exact (hfree hp).imp_right .inl
  · rcases hd.busy p hp with hin | hin | hin
    · exact .inl ((List.mem_cons.mp hin).resolve_left heq)
    · exact .inr (.inl hin)
    · exact .inr (.inr (Map.contains_erase_iff.mp hin).2)

/-- **The end of a round**: autolock is told, or there is none to tell. -/
theorem roundOver (hd : Desk t ⟨w, rel :: l, u⟩ a) (hover : RoundOver rel a b)
    (d : Actor Id Path) (hd' : Aside b d) :
    Desk t ⟨w, l, u⟩ (match b.autolockPending[rel]? with
      | some (quarantined, newFile) => b.autolockFail h env rel quarantined newFile
      | none => d) := by
  have hend := hd.endRound hover
  split
  · exact autolockFail h env _ _ hend
  · rename_i hnone
    refine (release hnone hend fun hbusy => ?_).aside hd'
    rw [hover.busy] at hbusy
    rcases hd.busy rel hbusy with hin | hin | hin
    · exact .inl hin
    · refine .inr ?_
      simpa only [Working, hover.inbox, hover.tasks] using hin
    · rw [← hover.autolocks, Map.contains_eq, hnone] at hin
      cases hin

theorem onAcquireTimeout (hd : Desk t o a) (rel : Path) (lamport : U64) :
    Desk t o (a.onAcquireTimeout h env rel lamport) := by
  obtain ⟨w, l, u⟩ := o
  unfold Actor.onAcquireTimeout
  split
  · exact hd
  · split
    · exact hd
    · have hover := (RoundOver.of_onlyAt (onDeny_onlyAt a.locks rel)).broadcast
        (.lock (.lockRelease rel))
      exact roundOver h env hd.lapse hover _ (replyTo_aside _ _ _)

theorem tieLost (hd : Desk t ⟨w, rel :: l, u⟩ a) :
    Desk t ⟨w, l, u⟩ (a.tieLost h env rel) := by
  have hover : RoundOver rel a { a with pendingAcquires := a.pendingAcquires.erase rel } :=
    .of_onlyAt .refl
  unfold Actor.tieLost
  refine roundOver h env hd hover _ ?_
  split
  · exact replyTo_aside _ _ _
  · exact .refl

theorem roundTimedOut (hd : Desk t ⟨w, rel :: l, u⟩ a) :
    Desk t ⟨w, l, u⟩ (a.roundTimedOut h env rel) := by
  have hover : RoundOver rel a { a.broadcast (.lock (.lockRelease rel)) with
      pendingAcquires := a.pendingAcquires.erase rel } :=
    ⟨rfl, rfl, rfl, rfl, rfl, rfl, fun _ _ hp => hp⟩
  unfold Actor.roundTimedOut
  refine roundOver h env hd hover _ ?_
  split
  · exact replyTo_aside _ _ _
  · exact .refl

/-- A round that is over without autolock having waited for it. -/
theorem dropAcquire (hd : Desk t ⟨w, rel :: l, u⟩ a)
    (hauto : t.rounds → a.autolockPending.contains rel = false) :
    Desk t ⟨w, l, u⟩ { a with pendingAcquires := a.pendingAcquires.erase rel } := by
  refine ⟨hd.busy, fun hr p hp => ?_, fun hr p hp => ?_, hd.unlocks⟩
  · refine Map.contains_erase_iff.mpr ⟨?_, hd.autolocks hr p hp⟩
    rintro rfl
    exact absurd ((hauto hr).symm.trans hp) (by simp)
  · obtain ⟨hne, hp⟩ := Map.contains_erase_iff.mp hp
    exact (hd.acquires hr p hp).imp_left fun hin =>
      (List.mem_cons.mp hin).resolve_left (Ne.symm hne)

/-- A path that nobody acquires has no round to end. -/
theorem unlapse (hd : Desk t ⟨w, rel :: l, u⟩ a) (hnone : a.pendingAcquires[rel]? = none) :
    Desk t ⟨w, l, u⟩ a := by
  refine ⟨hd.busy, hd.autolocks, fun hr p hp => ?_, hd.unlocks⟩
  refine (hd.acquires hr p hp).imp_left fun hin => (List.mem_cons.mp hin).resolve_left ?_
  rintro rfl
  rw [Map.contains_eq, hnone] at hp
  cases hp

/-- A voter is gone, and autolock did not wait for it. -/
theorem abortRound (hd : Desk t ⟨w, rel :: l, u⟩ a)
    (hauto : t.rounds → a.autolockPending.contains rel = false) :
    Desk t ⟨w, l, u⟩ (a.abortRound rel) := by
  have hsent := hd.aside (broadcast_aside a (.lock (.lockRelease rel)))
  unfold Actor.abortRound
  dsimp only
  split
  · rename_i hnone
    exact hsent.unlapse hnone
  · exact (hsent.dropAcquire hauto).aside (replyTo_aside _ _ _)

/-- A round that the table admits is on the desk. -/
theorem startAcquire (hd : Desk t o a) (rel : Path) (waiter : Option Nat) :
    Desk t o (a.startAcquire env rel waiter).1 ∧
      ((a.startAcquire env rel waiter).2 = .ok () →
        (a.startAcquire env rel waiter).1.pendingAcquires.contains rel = true) := by
  have htick : Aside a a.tick := ⟨rfl, rfl, rfl, rfl, rfl, rfl, rfl, fun _ h => h⟩
  replace hd := hd.aside htick
  have hkeep := keepsRounds_startRequest a.tick.locks rel a.tick.lamport
    a.tick.peers.keys.toFinset env.now
  unfold Actor.startAcquire
  dsimp only
  split
  · rename_i locks e hstart
    rw [hstart] at hkeep
    exact ⟨hd.locks hkeep, fun h => by cases h⟩
  · rename_i locks _ hstart
    rw [hstart] at hkeep
    have hlocked := hd.locks hkeep
    have hround : Desk t o { a.tick with
        locks
        pendingAcquires := a.tick.pendingAcquires.insert rel (a.tick.lamport, waiter) } := by
      refine ⟨hlocked.busy, fun hr p hp => ?_, fun hr p hp => ?_, hlocked.unlocks⟩
      · exact Map.contains_insert_iff.mpr (.inr (hlocked.autolocks hr p hp))
      · rcases Map.contains_insert_iff.mp hp with rfl | hp
        · exact .inr (pending_startRequest hstart)
        · exact hlocked.acquires hr p hp
    refine ⟨hround.aside ?_, fun _ => ?_⟩
    · exact ⟨rfl, rfl, rfl, rfl, rfl, rfl, rfl, fun _ h => List.mem_append_left _ h⟩
    · exact Map.contains_insert_iff.mpr (.inl rfl)

theorem beginAutolockAcquire (hd : Desk t ⟨rel :: w, l, u⟩ a)
    (quarantined : Option (CopyName Path)) (newFile : Bool) :
    Desk t ⟨w, l, u⟩ (a.beginAutolockAcquire h env rel quarantined newFile) := by
  have hfail : ∀ {b : Actor Id Path}, Desk t ⟨rel :: w, l, u⟩ b →
      Desk t ⟨w, l, u⟩ (b.autolockFail h env rel quarantined newFile) := by
    intro b hb
    have hdrop := hb.dropAutolock rel
    refine autolockFail h env quarantined newFile ⟨fun p hp => ?_, hdrop.autolocks,
      hdrop.acquires, hdrop.unlocks⟩
    exact (hdrop.busy p hp).imp_left fun hin => by simpa using hin
  have herase : Desk t ⟨rel :: w, l, u⟩ { a with busy := a.busy.erase rel } :=
    ⟨fun p hp => hd.busy p (Map.contains_erase_iff.mp hp).2, hd.autolocks, hd.acquires,
      hd.unlocks⟩
  unfold Actor.beginAutolockAcquire
  dsimp only
  split
  · exact hfail herase
  · have hmark : Desk t ⟨rel :: w, l, u⟩
        { a with busy := (a.busy.erase rel).insert rel () } := by
      refine ⟨fun p hp => ?_, hd.autolocks, hd.acquires, hd.unlocks⟩
      rcases Map.contains_insert_iff.mp hp with rfl | hp
      · exact .inl List.mem_cons_self
      · exact herase.busy p hp
    obtain ⟨hround, hin⟩ := hmark.startAcquire env rel none
    generalize Actor.startAcquire env { a with busy := (a.busy.erase rel).insert rel () } rel none
      = r at hround hin ⊢
    obtain ⟨b, res⟩ := r
    cases res with
    | error e => exact hfail hround
    | ok =>
        refine ⟨fun p hp => ?_, fun hr p hp => ?_, hround.acquires, hround.unlocks⟩
        · by_cases heq : rel = p
          · exact .inr (.inr (Map.contains_insert_iff.mpr (.inl heq)))
          · rcases hround.busy p hp with hin | hin | hin
            · exact .inl ((List.mem_cons.mp hin).resolve_left (Ne.symm heq))
            · exact .inr (.inl hin)
            · exact .inr (.inr (Map.contains_insert_iff.mpr (.inr hin)))
        · rcases Map.contains_insert_iff.mp hp with rfl | hp
          · exact hin rfl
          · exact hround.autolocks hr p hp

/-! ## Inspections -/

theorem onWatchInspected (hd : Desk t ⟨rel :: w, l, u⟩ a) (outcome : Inspection) :
    Desk t ⟨w, l, u⟩ (a.onWatchInspected h env rel outcome) := by
  have hedit : Desk t ⟨w, l, u⟩ ((if a.autolockIdle.contains rel then
      { a with autolockIdle := a.autolockIdle.insert rel (env.now + autolockIdleRelease) }
      else a).spawnPublish rel .edit) := by
    refine spawnPublish (hd.aside ?_) .edit
    split
    · exact ⟨rfl, rfl, rfl, rfl, rfl, rfl, rfl, fun _ h => h⟩
    · exact .refl
  unfold Actor.onWatchInspected
  split
  · exact unbusy h env hd
  · exact hedit
  · exact hedit
  · exact unbusy h env (hd.aside (commitTombstone_aside env a rel))
  · split
    · exact hd.begin rfl
    · exact spawnViolation h env hd true
  · split
    · exact hd.begin rfl
    · exact unbusy h env (hd.aside (violationNewFile_onDisk h env a rel).aside)
  · exact spawnViolation h env hd false

/-- The publish of an unlock keeps its mark. -/
theorem spawnUnlockPublish (hd : Desk t ⟨rel :: w, l, rel :: u⟩ a) (r : Nat) :
    Desk t ⟨w, l, u⟩ (a.spawnPublish rel (.unlock r)) :=
  (spawnPublish hd (.unlock r)).placeUnlock
    (List.mem_append_right _ (List.mem_singleton_self _)) rfl

theorem onUnlockInspected (hd : Desk t ⟨rel :: w, l, rel :: u⟩ a) (outcome : Inspection)
    (r : Nat) : Desk t ⟨w, l, u⟩ (a.onUnlockInspected h env rel outcome r) := by
  unfold Actor.onUnlockInspected
  split
  · exact finishUnlock env (unbusy h env hd) true r
  · exact spawnUnlockPublish hd r
  · exact spawnUnlockPublish hd r
  · exact finishUnlock env (unbusy h env (hd.aside (commitTombstone_aside env a rel))) true r

/-- An inspection for an unlock that fails forgets the unlock. -/
theorem onInspected {outcome : Except String Inspection} {cause : InspectCause}
    (hd : Desk t ⟨rel :: w, l, (.inspected rel outcome cause : Event Id Path).unlocks.toList⟩ a)
    (hok : t.unlocks → ∀ e r, outcome = .error e → cause ≠ .unlock r) :
    Desk t ⟨w, l, []⟩ (a.onInspected h env rel outcome cause) := by
  cases cause with
  | watch =>
      cases outcome with
      | error e => exact unbusy h env hd
      | ok outcome => exact onWatchInspected h env hd outcome
  | unlock r =>
      cases outcome with
      | error e =>
          refine unbusy h env (.aside ⟨hd.busy, hd.autolocks, hd.acquires, fun hu => ?_⟩
            (reply_aside a r _))
          exact absurd rfl (hok hu e r rfl)
      | ok outcome => exact onUnlockInspected h env hd outcome r

/-! ## Requests of the local user -/

theorem handleLock (hd : Desk t o a) (rel : Path) (r : Nat) :
    Desk t o (a.handleLock h env rel r) := by
  have hreply : ∀ resp, Desk t o (a.reply r resp) := fun resp => hd.aside (reply_aside a r resp)
  unfold Actor.handleLock
  split
  · exact hreply _
  split
  · exact hreply _
  split
  · exact hreply _
  split
  · exact hreply _
  split
  · exact hreply _
  split
  · exact hreply _
  · obtain ⟨hround, -⟩ := hd.startAcquire env rel (some r)
    generalize a.startAcquire env rel (some r) = res at hround ⊢
    obtain ⟨b, res⟩ := res
    dsimp only at hround
    split
    · rename_i heq
      cases heq
      exact hround
    · rename_i heq
      cases heq
      exact hround.aside (reply_aside _ r _)
    · rename_i heq
      cases heq
      exact hround.aside (reply_aside _ r _)

theorem handleUnlock (hd : Desk t ⟨w, l, u⟩ a) (rel : Path) (r : Nat) :
    Desk t ⟨w, l, u⟩ (a.handleUnlock h rel r) := by
  have hreply : ∀ resp, Desk t ⟨w, l, u⟩ (a.reply r resp) :=
    fun resp => hd.aside (reply_aside a r resp)
  unfold Actor.handleUnlock
  split
  · exact hreply _
  split
  · exact hreply _
  split
  · exact hreply _
  split
  · exact hreply _
  · have hmark : Desk t ⟨rel :: w, l, rel :: u⟩
        { a with pendingUnlocks := a.pendingUnlocks.insert rel () } := by
      refine ⟨hd.hold.busy, hd.autolocks, hd.acquires, fun hu p hp => ?_⟩
      rcases Map.contains_insert_iff.mp hp with rfl | hp
      · exact .inl List.mem_cons_self
      · exact (hd.unlocks hu p hp).imp_left (List.mem_cons_of_mem _)
    exact (inspect hmark (.unlock r)).placeUnlock
      (List.mem_append_right _ (List.mem_singleton_self _)) rfl

theorem handleLockWait (hd : Desk t o a) (rel : Path) (r : Nat) :
    Desk t o (a.handleLockWait h env rel r) := by
  unfold Actor.handleLockWait
  split
  · exact hd.aside (reply_aside a r _)
  split
  · exact hd.aside (reply_aside a r _)
  split
  · exact hd.aside (reply_aside a r _)
  · exact hd.aside ⟨rfl, rfl, rfl, rfl, rfl, rfl, rfl, fun _ h => h⟩

theorem setHistory (hd : Desk t o a) (rel : Path) (n r : Nat)
    (history : Option (History Id Path)) : Desk t o (a.setHistory h rel n r history) := by
  unfold Actor.setHistory
  split
  · exact hd.aside (reply_aside a r _)
  split
  · exact hd.aside ⟨rfl, rfl, rfl, rfl, rfl, rfl, rfl, fun _ h => h⟩
  · exact hd.aside (reply_aside a r _)

theorem handleRestore (hd : Desk t ⟨w, l, u⟩ a) (rel : Path) (n r : Nat) :
    Desk t ⟨w, l, u⟩ (a.handleRestore h rel n r) := by
  have hreply : ∀ resp, Desk t ⟨w, l, u⟩ (a.reply r resp) :=
    fun resp => hd.aside (reply_aside a r resp)
  unfold Actor.handleRestore
  split
  · exact hreply _
  split
  · exact hreply _
  split
  · exact hreply _
  split
  · exact hreply _
  split
  · exact hreply _
  split
  · exact hreply _
  · exact begin hd.hold rfl

theorem onRestoreStaged (hd : Desk t ⟨rel :: w, l, u⟩ a) (entry : VersionEntry Id)
    (result : Except String Bytes) (r : Nat) :
    Desk t ⟨w, l, u⟩ (a.onRestoreStaged h env rel entry result r) := by
  unfold Actor.onRestoreStaged
  split
  · exact unbusy h env (hd.aside (reply_aside a r _))
  split
  · exact unbusy h env (hd.aside (reply_aside a r _))
  · rename_i bytes
    have hwrite := ((mute_onDisk a env rel).trans (persistTemp_onDisk h env _ rel bytes)).aside
    generalize (a.mute env rel).persistTemp h env rel bytes = res at hwrite ⊢
    obtain ⟨b, ok⟩ := res
    refine unbusy h env ?_
    cases ok with
    | false => exact hd.aside (hwrite.trans (reply_aside b r _))
    | true =>
        have hopen : Aside b (b.openFor rel) := ⟨rfl, rfl, rfl, rfl, rfl, rfl, rfl, fun _ h => h⟩
        exact hd.aside (((hwrite.trans hopen).trans
          (commitRestored_aside env _ rel entry bytes)).trans (reply_aside _ r .ok))

theorem handleConflictApply (hd : Desk t ⟨w, l, u⟩ a) (id : CopyName Path) (rel : Path)
    (r : Nat) : Desk t ⟨w, l, u⟩ (a.handleConflictApply h id rel r) := by
  have hreply : ∀ resp, Desk t ⟨w, l, u⟩ (a.reply r resp) :=
    fun resp => hd.aside (reply_aside a r resp)
  unfold Actor.handleConflictApply
  split
  · exact hreply _
  split
  · exact hreply _
  split
  · exact hreply _
  split
  · exact hreply _
  split
  · exact hreply _
  split
  · exact hreply _
  split
  · exact hreply _
  · exact begin hd.hold rfl

theorem onConflictApplied (hd : Desk t ⟨rel :: w, l, u⟩ a) (result : Except String Bytes)
    (r : Nat) : Desk t ⟨w, l, u⟩ (a.onConflictApplied h env rel result r) := by
  unfold Actor.onConflictApplied
  split
  · exact (unbusy h env hd).aside (reply_aside _ r _)
  split
  · exact (unbusy h env hd).aside (reply_aside _ r _)
  · rename_i bytes _
    have hwrite := ((mute_onDisk a env rel).trans (persistTemp_onDisk h env _ rel bytes)).aside
    generalize (a.mute env rel).persistTemp h env rel bytes = res at hwrite ⊢
    obtain ⟨b, ok⟩ := res
    cases ok with
    | false => exact (unbusy h env (hd.aside hwrite)).aside (reply_aside _ r _)
    | true =>
        refine (unbusy h env (hd.aside (hwrite.trans ?_))).aside (reply_aside _ r .ok)
        split <;> exact ⟨rfl, rfl, rfl, rfl, rfl, rfl, rfl, fun _ h => h⟩

theorem handleConflictDiscard (hd : Desk t o a) (id : CopyName Path) (r : Nat) :
    Desk t o (a.handleConflictDiscard h id r) := by
  unfold Actor.handleConflictDiscard loseCopy
  split
  · split <;> exact hd.aside ⟨rfl, rfl, rfl, rfl, rfl, rfl, rfl, fun _ h => h⟩
  · exact hd.aside (reply_aside a r _)

/-- New timings leave the rounds alone. -/
theorem handleConfigSet (hd : Desk t o a) (key : LiveKey) (r : Nat) :
    Desk t o (a.handleConfigSet key r) := by
  cases key with
  | autolock => exact hd.aside ⟨rfl, rfl, rfl, rfl, rfl, rfl, rfl, fun _ h => h⟩
  | waitTimeout => exact hd.aside ⟨rfl, rfl, rfl, rfl, rfl, rfl, rfl, fun _ h => h⟩
  | leaseTtl => exact ⟨hd.busy, hd.autolocks, hd.acquires, hd.unlocks⟩
  | acquireTimeout => exact ⟨hd.busy, hd.autolocks, hd.acquires, hd.unlocks⟩

theorem onIpc (hd : Desk t ⟨w, l, u⟩ a) (req : IpcRequest Path) (r : Nat) :
    Desk t ⟨w, l, u⟩ (a.onIpc h env req r) := by
  cases req with
  | lock rel => exact hd.handleLock h env rel r
  | unlock rel => exact hd.handleUnlock h rel r
  | lockWait rel => exact hd.handleLockWait h env rel r
  | restore rel n => exact hd.handleRestore h rel n r
  | conflictApply id rel => exact hd.handleConflictApply h id rel r
  | conflictDiscard id => exact hd.handleConflictDiscard h id r
  | tag rel n name => exact hd.setHistory h rel n r _
  | pin rel n pinned => exact hd.setHistory h rel n r _
  | configSet key => exact hd.handleConfigSet key r

end Desk

end Tazamun.Actor
