import Tazamun.Daemon.Run

set_option autoImplicit false

/-! # What happens aside

Most of what a handler does is no business of the operations on single paths. File operations
change the disk and what is noted about it (`OnDisk`). Taking over the records of the peers
changes the index and the pull pipeline, and starts pulls, but the paths that are busy, the
rounds of votes, the unlocks under way and the leases stay what they were (`Aside`).

A record with content is pulled before it is applied, so all that reconciling does at once to
a file is to take it away: no file appears (`Frame`).
-/

namespace Tazamun

variable {Id Path : Type} [LinearOrder Id] [LinearOrder Path]

namespace Actor

/-- Only the disk, the quarantine copies, and what is noted of the files differ. -/
def OnDisk (a b : Actor Id Path) : Prop :=
  ∃ disk conflicts known opened muted journal,
    b = { a with disk, conflicts, known, opened, muted, journal }

/-- Only the pull pipeline differs. -/
def OnPulls (a b : Actor Id Path) : Prop :=
  ∃ tasks pendingPulls pullBacklog pulling journal,
    b = { a with tasks, pendingPulls, pullBacklog, pulling, journal }

/-- The operations on single paths, the rounds and the leases are as they were. Tasks may have
been spawned. -/
structure Aside (a b : Actor Id Path) : Prop where
  me : b.me = a.me
  locks : b.locks = a.locks
  busy : b.busy = a.busy
  acquires : b.pendingAcquires = a.pendingAcquires
  autolocks : b.autolockPending = a.autolockPending
  unlocks : b.pendingUnlocks = a.pendingUnlocks
  inbox : b.inbox = a.inbox
  tasks : ∀ t ∈ a.tasks, t ∈ b.tasks

/-- The same, and no file has appeared. -/
structure Frame (a b : Actor Id Path) : Prop extends Aside a b where
  absent : ∀ q : Path, a.disk[q]? = none → b.disk[q]? = none

namespace OnDisk

variable {a b d : Actor Id Path}

theorem refl : OnDisk a a := ⟨_, _, _, _, _, _, rfl⟩

theorem trans (h : OnDisk a b) (h' : OnDisk b d) : OnDisk a d := by
  obtain ⟨_, _, _, _, _, _, rfl⟩ := h
  obtain ⟨_, _, _, _, _, _, rfl⟩ := h'
  exact ⟨_, _, _, _, _, _, rfl⟩

theorem aside (h : OnDisk a b) : Aside a b := by
  obtain ⟨_, _, _, _, _, _, rfl⟩ := h
  exact ⟨rfl, rfl, rfl, rfl, rfl, rfl, rfl, fun _ h => h⟩

end OnDisk

namespace Aside

variable {a b d : Actor Id Path}

theorem refl : Aside a a := ⟨rfl, rfl, rfl, rfl, rfl, rfl, rfl, fun _ h => h⟩

theorem trans (h : Aside a b) (h' : Aside b d) : Aside a d :=
  ⟨h'.me.trans h.me, h'.locks.trans h.locks, h'.busy.trans h.busy,
    h'.acquires.trans h.acquires, h'.autolocks.trans h.autolocks, h'.unlocks.trans h.unlocks,
    h'.inbox.trans h.inbox, fun t ht => h'.tasks t (h.tasks t ht)⟩

/-- Nothing changes on disk. -/
theorem frame (h : Aside a b) (hdisk : b.disk = a.disk) : Frame a b :=
  ⟨h, fun q hq => by rw [hdisk]; exact hq⟩

end Aside

namespace Frame

variable {a b d : Actor Id Path}

theorem refl : Frame a a := ⟨.refl, fun _ h => h⟩

theorem trans (h : Frame a b) (h' : Frame b d) : Frame a d :=
  ⟨h.toAside.trans h'.toAside, fun q hq => h'.absent q (h.absent q hq)⟩

theorem foldl {α : Type} {f : Actor Id Path → α → Actor Id Path}
    (hf : ∀ a x, Frame a (f a x)) (l : List α) (a : Actor Id Path) : Frame a (l.foldl f a) := by
  induction l generalizing a with
  | nil => exact .refl
  | cons x l ih => exact (hf a x).trans (ih (f a x))

end Frame

/-! ## File operations -/

theorem noteMode_onDisk (a : Actor Id Path) (rel : Path) (readonly : Bool) :
    OnDisk a (a.noteMode rel readonly) := by
  unfold noteMode
  split
  · exact ⟨_, _, _, _, _, _, rfl⟩
  · exact .refl

theorem setMode_onDisk (a : Actor Id Path) (env : Env Path) (rel : Path) (readonly : Bool) :
    OnDisk a (a.setMode env rel readonly).1 := by
  unfold setMode
  split
  · exact noteMode_onDisk a rel readonly
  · rename_i f _
    split
    · have hdisk : OnDisk a { a with disk := a.disk.insert rel { f with readonly } } :=
        ⟨_, _, _, _, _, _, rfl⟩
      exact hdisk.trans (noteMode_onDisk _ rel readonly)
    · exact .refl

theorem mute_onDisk (a : Actor Id Path) (env : Env Path) (rel : Path) :
    OnDisk a (a.mute env rel) :=
  ⟨_, _, _, _, _, _, rfl⟩

theorem noteReplaced_onDisk (h : Host Id Path) (a : Actor Id Path) (rel : Path) :
    OnDisk a (a.noteReplaced h rel) := by
  unfold noteReplaced
  split
  · exact .refl
  · exact ⟨_, _, _, _, _, _, rfl⟩

theorem quarantine_onDisk (a : Actor Id Path) (env : Env Path) (rel : Path) :
    OnDisk a (a.quarantine env rel).1 := by
  unfold quarantine loseCopy
  split
  · exact .refl
  · split
    · dsimp only
      split <;> exact ⟨_, _, _, _, _, _, rfl⟩
    · exact .refl

theorem removeFile_onDisk (h : Host Id Path) (env : Env Path) (a : Actor Id Path) (rel : Path) :
    OnDisk a (a.removeFile h env rel).1 := by
  have hmode := setMode_onDisk a env rel false
  unfold removeFile
  dsimp only
  split
  · exact hmode
  · split
    · exact (hmode.trans (noteReplaced_onDisk h _ rel)).trans ⟨_, _, _, _, _, _, rfl⟩
    · exact hmode

theorem persistTemp_onDisk (h : Host Id Path) (env : Env Path) (a : Actor Id Path) (rel : Path)
    (bytes : Bytes) : OnDisk a (a.persistTemp h env rel bytes).1 := by
  have hmode := setMode_onDisk a env rel false
  unfold persistTemp
  split
  · dsimp only
    split
    · exact (hmode.trans (noteReplaced_onDisk h _ rel)).trans ⟨_, _, _, _, _, _, rfl⟩
    · exact hmode
  · exact .refl

theorem applyToDisk_onDisk (h : Host Id Path) (env : Env Path) (a : Actor Id Path) (rel : Path)
    (record : FileRecord Id) (staged : Option Bytes) :
    OnDisk a (a.applyToDisk h env rel record staged).1 := by
  unfold applyToDisk
  split
  · exact removeFile_onDisk h env a rel
  · split
    · exact .refl
    · rename_i bytes
      have hpersist := persistTemp_onDisk h env a rel bytes
      generalize a.persistTemp h env rel bytes = r at hpersist ⊢
      obtain ⟨b, ok⟩ := r
      cases ok with
      | false => exact hpersist
      | true =>
          dsimp only
          split
          · exact hpersist.trans (setMode_onDisk b env rel true)
          · exact hpersist

theorem violationNewFile_onDisk (h : Host Id Path) (env : Env Path) (a : Actor Id Path)
    (rel : Path) : OnDisk a (a.violationNewFile h env rel) := by
  have hcopy := quarantine_onDisk a env rel
  unfold violationNewFile
  generalize a.quarantine env rel = r at hcopy ⊢
  obtain ⟨b, copy⟩ := r
  cases copy with
  | none => exact hcopy
  | some name =>
      exact (hcopy.trans (mute_onDisk b env rel)).trans (removeFile_onDisk h env _ rel)

theorem setMode_frame (a : Actor Id Path) (env : Env Path) (rel : Path) (readonly : Bool) :
    Frame a (a.setMode env rel readonly).1 := by
  refine ⟨(setMode_onDisk a env rel readonly).aside, fun q hq => ?_⟩
  have hsame : ∀ b : Actor Id Path, (b.noteMode rel readonly).disk = b.disk := by
    intro b
    unfold noteMode
    split <;> rfl
  unfold setMode
  split
  · rw [hsame]
    exact hq
  · rename_i f hf
    split
    · have hne : rel ≠ q := by
        rintro rfl
        rw [hf] at hq
        cases hq
      dsimp only
      rw [hsame]
      exact (Map.get_insert_ne _ _ hne).trans hq
    · exact hq

theorem removeFile_frame (h : Host Id Path) (env : Env Path) (a : Actor Id Path) (rel : Path) :
    Frame a (a.removeFile h env rel).1 := by
  refine ⟨(removeFile_onDisk h env a rel).aside, fun q hq => ?_⟩
  have hmode := (setMode_frame a env rel false).absent q hq
  unfold removeFile
  dsimp only
  split
  · exact hmode
  · split
    · have hsame : ∀ b : Actor Id Path, (b.noteReplaced h rel).disk = b.disk := by
        intro b
        unfold noteReplaced
        split <;> rfl
      show (Std.ExtTreeMap.erase _ rel)[q]? = none
      rw [Map.get_erase]
      split
      · rfl
      · rw [hsame]
        exact hmode
    · exact hmode

theorem quarantine_frame (a : Actor Id Path) (env : Env Path) (rel : Path) :
    Frame a (a.quarantine env rel).1 := by
  refine (quarantine_onDisk a env rel).aside.frame ?_
  unfold quarantine loseCopy
  split
  · rfl
  · split
    · dsimp only
      split <;> rfl
    · rfl

/-! ## Pulls -/

namespace OnPulls

variable {a b d : Actor Id Path}

theorem refl : OnPulls a a := ⟨_, _, _, _, _, rfl⟩

theorem trans (h : OnPulls a b) (h' : OnPulls b d) : OnPulls a d := by
  obtain ⟨_, _, _, _, _, rfl⟩ := h
  obtain ⟨_, _, _, _, _, rfl⟩ := h'
  exact ⟨_, _, _, _, _, rfl⟩

theorem files (h : OnPulls a b) : b.files = a.files := by
  obtain ⟨_, _, _, _, _, rfl⟩ := h
  rfl

theorem history (h : OnPulls a b) : b.history = a.history := by
  obtain ⟨_, _, _, _, _, rfl⟩ := h
  rfl

theorem deferred (h : OnPulls a b) : b.deferred = a.deferred := by
  obtain ⟨_, _, _, _, _, rfl⟩ := h
  rfl

theorem inbox (h : OnPulls a b) : b.inbox = a.inbox := by
  obtain ⟨_, _, _, _, _, rfl⟩ := h
  rfl

theorem me (h : OnPulls a b) : b.me = a.me := by
  obtain ⟨_, _, _, _, _, rfl⟩ := h
  rfl

end OnPulls

theorem startPull_onPulls (a : Actor Id Path) (rel : Path) (sender : Id)
    (record : FileRecord Id) : OnPulls a (a.startPull rel sender record) := by
  unfold startPull
  split <;> exact ⟨_, _, _, _, _, rfl⟩

theorem beginPull_onPulls (a : Actor Id Path) (rel : Path) (sender : Id)
    (record : FileRecord Id) : OnPulls a (a.beginPull rel sender record) :=
  OnPulls.trans ⟨_, _, _, _, _, rfl⟩ (startPull_onPulls _ rel sender record)

theorem enqueuePullBacklog_onPulls (a : Actor Id Path) (rel : Path) (sender : Id)
    (record : FileRecord Id) : OnPulls a (a.enqueuePullBacklog rel sender record) := by
  unfold enqueuePullBacklog
  split
  · exact ⟨_, _, _, _, _, rfl⟩
  · split <;> exact ⟨_, _, _, _, _, rfl⟩

theorem drainLoop_onPulls (n : Nat) (a : Actor Id Path) : OnPulls a (drainLoop n a) := by
  induction n generalizing a with
  | zero => exact .refl
  | succ n ih =>
      unfold drainLoop
      split
      · split
        · exact .refl
        · rename_i i rel sender record _
          have hpicked : OnPulls a { a with pullBacklog := a.pullBacklog.eraseIdx i } :=
            ⟨_, _, _, _, _, rfl⟩
          dsimp only
          split
          · exact (hpicked.trans ⟨_, _, _, _, _, rfl⟩).trans (ih _)
          · exact (hpicked.trans (beginPull_onPulls _ rel sender record)).trans (ih _)
      · exact .refl

theorem nextPull_onPulls (a : Actor Id Path) (rel : Path) : OnPulls a (a.nextPull rel) := by
  unfold nextPull
  split
  · exact .refl
  · rename_i job _
    dsimp only
    have hover : OnPulls a (if a.isPulling rel job.sender job.record then a
        else a.letGo rel job.sender job.record) := by
      split
      · exact .refl
      · exact ⟨_, _, _, _, _, rfl⟩
    have herase : ∀ b : Actor Id Path,
        OnPulls b { b with pendingPulls := b.pendingPulls.erase rel } :=
      fun b => ⟨_, _, _, _, _, rfl⟩
    split
    · exact (hover.trans (herase _)).trans (beginPull_onPulls _ rel _ _)
    · exact hover.trans (herase _)

theorem finishPull_onPulls (a : Actor Id Path) (rel : Path) : OnPulls a (a.finishPull rel) :=
  (nextPull_onPulls a rel).trans (drainLoop_onPulls _ _)

theorem schedulePull_onPulls (a : Actor Id Path) (rel : Path) (sender : Id)
    (record : FileRecord Id) : OnPulls a (a.schedulePull rel sender record) := by
  unfold schedulePull
  split
  · split
    · exact .refl
    · exact ⟨_, _, _, _, _, rfl⟩
  · split
    · exact enqueuePullBacklog_onPulls a rel sender record
    · exact beginPull_onPulls a rel sender record

theorem beginPull_frame (a : Actor Id Path) (rel : Path) (sender : Id)
    (record : FileRecord Id) : Frame a (a.beginPull rel sender record) := by
  have htasks : ∀ t ∈ a.tasks, t ∈ a.tasks ++ [.pull rel sender record] :=
    fun t ht => List.mem_append_left _ ht
  simp only [beginPull, startPull]
  split <;> exact ⟨⟨rfl, rfl, rfl, rfl, rfl, rfl, rfl, htasks⟩, fun _ h => h⟩

theorem enqueuePullBacklog_frame (a : Actor Id Path) (rel : Path) (sender : Id)
    (record : FileRecord Id) : Frame a (a.enqueuePullBacklog rel sender record) := by
  unfold enqueuePullBacklog
  split
  · exact ⟨⟨rfl, rfl, rfl, rfl, rfl, rfl, rfl, fun _ h => h⟩, fun _ h => h⟩
  · split <;> exact ⟨⟨rfl, rfl, rfl, rfl, rfl, rfl, rfl, fun _ h => h⟩, fun _ h => h⟩

theorem drainLoop_frame (n : Nat) (a : Actor Id Path) : Frame a (drainLoop n a) := by
  induction n generalizing a with
  | zero => exact .refl
  | succ n ih =>
      unfold drainLoop
      split
      · split
        · exact .refl
        · rename_i i rel sender record _
          have herase : Frame a { a with pullBacklog := a.pullBacklog.eraseIdx i } :=
            ⟨⟨rfl, rfl, rfl, rfl, rfl, rfl, rfl, fun _ h => h⟩, fun _ h => h⟩
          dsimp only
          split
          · have hgo : Frame a (({ a with pullBacklog := a.pullBacklog.eraseIdx i } :
                Actor Id Path).letGo rel sender record) :=
              ⟨⟨rfl, rfl, rfl, rfl, rfl, rfl, rfl, fun _ h => h⟩, fun _ h => h⟩
            exact hgo.trans (ih _)
          · exact (herase.trans (beginPull_frame _ rel sender record)).trans (ih _)
      · exact .refl

theorem nextPull_frame (a : Actor Id Path) (rel : Path) : Frame a (a.nextPull rel) := by
  unfold nextPull
  split
  · exact .refl
  · rename_i job _
    dsimp only
    have hover : Frame a (if a.isPulling rel job.sender job.record then a
        else a.letGo rel job.sender job.record) := by
      split
      · exact .refl
      · exact ⟨⟨rfl, rfl, rfl, rfl, rfl, rfl, rfl, fun _ h => h⟩, fun _ h => h⟩
    have herase : ∀ b : Actor Id Path,
        Frame b { b with pendingPulls := b.pendingPulls.erase rel } :=
      fun b => ⟨⟨rfl, rfl, rfl, rfl, rfl, rfl, rfl, fun _ h => h⟩, fun _ h => h⟩
    split
    · exact (hover.trans (herase _)).trans (beginPull_frame _ rel _ _)
    · exact hover.trans (herase _)

theorem finishPull_frame (a : Actor Id Path) (rel : Path) : Frame a (a.finishPull rel) :=
  (nextPull_frame a rel).trans (drainLoop_frame _ _)

theorem pushHistory_frame (a : Actor Id Path) (rel : Path) (r : Option (FileRecord Id)) :
    Frame a (a.pushHistory rel r) := by
  cases r <;> exact ⟨⟨rfl, rfl, rfl, rfl, rfl, rfl, rfl, fun _ h => h⟩, fun _ h => h⟩

theorem prepareApply_frame (env : Env Path) (a : Actor Id Path) (rel : Path) :
    Frame a (a.prepareApply env rel) := by
  unfold prepareApply
  have hfirst : Frame a (if a.isWritable rel then (a.quarantine env rel).1 else a) := by
    split
    · exact quarantine_frame a env rel
    · exact .refl
  have hmute : ∀ b : Actor Id Path, Frame b (b.mute env rel) :=
    fun b => (mute_onDisk b env rel).aside.frame rfl
  exact (hfirst.trans (hmute _)).trans (pushHistory_frame _ rel _)

theorem commitApplied_frame (a : Actor Id Path) (rel : Path) (record : FileRecord Id)
    (staged : Option Bytes) : Frame a (a.commitApplied rel record staged) :=
  ⟨⟨rfl, rfl, rfl, rfl, rfl, rfl, rfl, fun _ h => h⟩, fun _ h => h⟩

/-! ## Reconciling -/

section Cycle

variable {rebuild : Actor Id Path → Actor Id Path} (h : Host Id Path) (env : Env Path)
  (hre : ∀ a : Actor Id Path, Frame a (rebuild a))

include hre

/-- A record is applied, or waits because its path is busy. -/
theorem applyRemoteWith_aside (a : Actor Id Path) (rel : Path) (sender : Id)
    (record : FileRecord Id) (staged : Option Bytes) :
    Aside a (a.applyRemoteWith rebuild h env rel sender record staged) := by
  unfold applyRemoteWith
  split
  · exact ⟨rfl, rfl, rfl, rfl, rfl, rfl, rfl, fun _ h => h⟩
  · split
    · exact (finishPull_frame a rel).toAside
    · unfold applyNow
      refine .trans ?_ (finishPull_frame _ rel).toAside
      have hdisk := (prepareApply_frame env a rel).toAside.trans
        (applyToDisk_onDisk h env (a.prepareApply env rel) rel record staged).aside
      split
      · rename_i d hd
        rw [hd] at hdisk
        have hcommit := hdisk.trans (commitApplied_frame d rel record staged).toAside
        dsimp only
        split
        · exact hcommit.trans (hre _).toAside
        · exact hcommit
      · rename_i d hd
        rw [hd] at hdisk
        exact hdisk.trans ⟨rfl, rfl, rfl, rfl, rfl, rfl, rfl, fun _ h => h⟩

/-- A tombstone only takes the file away. -/
theorem applyRemoteWith_frame (a : Actor Id Path) (rel : Path) (sender : Id)
    {record : FileRecord Id} (hdel : record.deleted = true) :
    Frame a (a.applyRemoteWith rebuild h env rel sender record none) := by
  unfold applyRemoteWith
  split
  · exact ⟨⟨rfl, rfl, rfl, rfl, rfl, rfl, rfl, fun _ h => h⟩, fun _ h => h⟩
  · split
    · exact finishPull_frame a rel
    · unfold applyNow
      refine .trans ?_ (finishPull_frame _ rel)
      have hdisk := (prepareApply_frame env a rel).trans
        (removeFile_frame h env (a.prepareApply env rel) rel)
      have happly : (a.prepareApply env rel).applyToDisk h env rel record none
          = (a.prepareApply env rel).removeFile h env rel := by
        rw [applyToDisk, if_pos hdel]
      rw [happly]
      split
      · rename_i d hd
        rw [hd] at hdisk
        have hcommit := hdisk.trans (commitApplied_frame d rel record none)
        dsimp only
        split
        · exact hcommit.trans (hre _)
        · exact hcommit
      · rename_i d hd
        rw [hd] at hdisk
        exact hdisk.trans ⟨⟨rfl, rfl, rfl, rfl, rfl, rfl, rfl, fun _ h => h⟩, fun _ h => h⟩

theorem maybePullWith_frame (a : Actor Id Path) (rel : Path) (sender : Id)
    (record : FileRecord Id) : Frame a (a.maybePullWith rebuild h env rel sender record) := by
  unfold maybePullWith
  split
  · exact ⟨⟨rfl, rfl, rfl, rfl, rfl, rfl, rfl, fun _ h => h⟩, fun _ h => h⟩
  · split
    · rename_i hdel
      have hclear : Frame a { a with unapplied := a.unapplied.erase rel } :=
        ⟨⟨rfl, rfl, rfl, rfl, rfl, rfl, rfl, fun _ h => h⟩, fun _ h => h⟩
      exact hclear.trans (applyRemoteWith_frame h env hre _ rel sender hdel)
    · split
      · unfold hold
        split
        · split <;> exact ⟨⟨rfl, rfl, rfl, rfl, rfl, rfl, rfl, fun _ h => h⟩, fun _ h => h⟩
        · exact ⟨⟨rfl, rfl, rfl, rfl, rfl, rfl, rfl, fun _ h => h⟩, fun _ h => h⟩
      · unfold schedulePull
        split
        · split <;> exact ⟨⟨rfl, rfl, rfl, rfl, rfl, rfl, rfl, fun _ h => h⟩, fun _ h => h⟩
        · split
          · exact enqueuePullBacklog_frame a rel sender record
          · exact beginPull_frame a rel sender record

theorem onConcurrentWith_frame (a : Actor Id Path) (rel : Path) (sender : Id)
    (record : FileRecord Id) :
    Frame a (a.onConcurrentWith rebuild h env rel sender record) := by
  unfold onConcurrentWith
  split
  · split <;> exact ⟨⟨rfl, rfl, rfl, rfl, rfl, rfl, rfl, fun _ h => h⟩, fun _ h => h⟩
  · exact (quarantine_frame a env rel).trans (maybePullWith_frame h env hre _ rel sender record)

theorem reconcileOneWith_frame (a : Actor Id Path) (sender : Id) (rel : Path)
    (record : FileRecord Id) :
    Frame a (a.reconcileOneWith rebuild h env sender rel record) := by
  have hclear : Frame a (a.maybeClearUnapplied rel record) := by
    unfold maybeClearUnapplied
    split <;> exact ⟨⟨rfl, rfl, rfl, rfl, rfl, rfl, rfl, fun _ h => h⟩, fun _ h => h⟩
  unfold reconcileOneWith
  refine hclear.trans ?_
  dsimp only
  split
  · split
    · exact ⟨⟨rfl, rfl, rfl, rfl, rfl, rfl, rfl, fun _ h => h⟩, fun _ h => h⟩
    · exact maybePullWith_frame h env hre _ rel sender record
  · split
    · exact maybePullWith_frame h env hre _ rel sender record
    · exact onConcurrentWith_frame h env hre _ rel sender record
    · exact .refl
    · exact .refl

theorem reconcileWith_frame (a : Actor Id Path) (sender : Id) :
    Frame a (a.reconcileWith rebuild h env sender) := by
  unfold reconcileWith
  split
  · exact .refl
  · rename_i records _
    have hclear : Frame a ((a.clearDeleted records).skipUnknown sender records.toList) :=
      ⟨⟨rfl, rfl, rfl, rfl, rfl, rfl, rfl, fun _ h => h⟩, fun _ h => h⟩
    refine (hclear.trans (Frame.foldl (fun b rel => ?_) _ _)).trans
      (Frame.foldl (fun b rel => ?_) _ _)
    · split
      · exact maybePullWith_frame h env hre b rel sender _
      · exact .refl
    · split
      · exact onConcurrentWith_frame h env hre b rel sender _
      · exact .refl

theorem releaseHeld_frame (a : Actor Id Path) (rel : Path) :
    Frame a (a.releaseHeld rebuild h env rel) := by
  have hclear : Frame a { a with unapplied := a.unapplied.erase rel } :=
    ⟨⟨rfl, rfl, rfl, rfl, rfl, rfl, rfl, fun _ h => h⟩, fun _ h => h⟩
  unfold releaseHeld
  dsimp only
  split
  · exact hclear.trans (reconcileOneWith_frame h env hre _ _ rel _)
  · exact hclear

theorem rebuildIgnoreWith_frame (a : Actor Id Path) :
    Frame a (a.rebuildIgnoreWith rebuild h env) := by
  have hload : Frame a (a.reloadRules h) :=
    ⟨⟨rfl, rfl, rfl, rfl, rfl, rfl, rfl, fun _ h => h⟩, fun _ h => h⟩
  exact hload.trans (Frame.foldl (fun b rel => releaseHeld_frame h env hre b rel) _ _)

end Cycle

/-- The record that was put off for a path that is free again is applied (`unbusy`). -/
def takeUp (h : Host Id Path) (env : Env Path) (a : Actor Id Path) (rel : Path) :
    Actor Id Path :=
  match a.deferred[rel]? with
  | none => a
  | some d =>
      ({ a with deferred := a.deferred.erase rel } : Actor Id Path).applyRemote h env rel
        d.sender d.record d.staged

theorem rebuildIgnore_frame (h : Host Id Path) (env : Env Path) (a : Actor Id Path) :
    Frame a (rebuildIgnore h env a) := by
  have hN : ∀ n (a : Actor Id Path), Frame a (rebuildIgnoreN h env n a) := by
    intro n
    induction n with
    | zero => exact fun _ => .refl
    | succ n ih => exact fun a => rebuildIgnoreWith_frame h env ih a
  exact hN 2 a

end Actor

end Tazamun
