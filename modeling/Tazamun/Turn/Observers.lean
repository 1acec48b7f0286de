import Tazamun.Daemon.Run

set_option autoImplicit false

/-! # The journal is an observer

The journal notes what happens to the records, and nothing that is done with the records
depends on it: two states that differ in their journals only (`Alike`) are alike afterwards.
So what is only noted, such as a record that was turned away, has no other effect.
-/

namespace Tazamun.Actor

variable {Id Path : Type} [LinearOrder Id] [LinearOrder Path]

/-- The states differ in their journals only. -/
def Alike (a b : Actor Id Path) : Prop := ∃ journal, b = { a with journal }

/-- So do the states after an operation, and its result is the same. -/
def AlikeRes {α : Type} (r r' : Actor Id Path × α) : Prop := Alike r.1 r'.1 ∧ r'.2 = r.2

variable {a b : Actor Id Path}

theorem Alike.refl : Alike a a := ⟨_, rfl⟩

theorem Alike.foldl {α : Type} {f : Actor Id Path → α → Actor Id Path}
    (hf : ∀ {a b} x, Alike a b → Alike (f a x) (f b x)) (l : List α) (hab : Alike a b) :
    Alike (l.foldl f a) (l.foldl f b) := by
  induction l generalizing a b with
  | nil => exact hab
  | cons x l ih => exact ih (hf x hab)

/-! ## File operations -/

theorem noteMode_alike (hab : Alike a b) (rel : Path) (readonly : Bool) :
    Alike (a.noteMode rel readonly) (b.noteMode rel readonly) := by
  obtain ⟨j, rfl⟩ := hab
  cases readonly <;> exact ⟨_, rfl⟩

theorem setMode_alike (hab : Alike a b) (env : Env Path) (rel : Path) (readonly : Bool) :
    AlikeRes (a.setMode env rel readonly) (b.setMode env rel readonly) := by
  obtain ⟨j, rfl⟩ := hab
  unfold setMode
  dsimp only
  split
  · exact ⟨noteMode_alike ⟨j, rfl⟩ rel readonly, rfl⟩
  · split
    · exact ⟨noteMode_alike ⟨j, rfl⟩ rel readonly, rfl⟩
    · exact ⟨⟨j, rfl⟩, rfl⟩

theorem quarantine_alike (hab : Alike a b) (env : Env Path) (rel : Path) :
    AlikeRes (a.quarantine env rel) (b.quarantine env rel) := by
  obtain ⟨j, rfl⟩ := hab
  unfold quarantine loseCopy
  dsimp only
  split
  · exact ⟨⟨j, rfl⟩, rfl⟩
  · split
    · split <;> exact ⟨⟨j, rfl⟩, rfl⟩
    · exact ⟨⟨j, rfl⟩, rfl⟩

theorem noteReplaced_alike (h : Host Id Path) (hab : Alike a b) (rel : Path) :
    Alike (a.noteReplaced h rel) (b.noteReplaced h rel) := by
  obtain ⟨j, rfl⟩ := hab
  unfold noteReplaced
  dsimp only
  split
  · exact ⟨j, rfl⟩
  · exact ⟨_, rfl⟩

theorem persistTemp_alike (h : Host Id Path) (env : Env Path) (hab : Alike a b) (rel : Path)
    (bytes : Bytes) :
    AlikeRes (a.persistTemp h env rel bytes) (b.persistTemp h env rel bytes) := by
  obtain ⟨hmode, -⟩ := setMode_alike hab env rel false
  unfold persistTemp
  split
  · dsimp only
    split
    · obtain ⟨j, hj⟩ := noteReplaced_alike h hmode rel
      rw [hj]
      exact ⟨⟨j, rfl⟩, rfl⟩
    · exact ⟨hmode, rfl⟩
  · exact ⟨hab, rfl⟩

theorem removeFile_alike (h : Host Id Path) (env : Env Path) (hab : Alike a b) (rel : Path) :
    AlikeRes (a.removeFile h env rel) (b.removeFile h env rel) := by
  obtain ⟨hmode, -⟩ := setMode_alike hab env rel false
  unfold removeFile
  dsimp only
  generalize (a.setMode env rel false).1 = a at hmode ⊢
  generalize (b.setMode env rel false).1 = b at hmode ⊢
  have hnoted := noteReplaced_alike h hmode rel
  obtain ⟨j, rfl⟩ := hmode
  dsimp only
  split
  · exact ⟨⟨j, rfl⟩, rfl⟩
  · split
    · obtain ⟨j', hj'⟩ := hnoted
      rw [hj']
      exact ⟨⟨j', rfl⟩, rfl⟩
    · exact ⟨⟨j, rfl⟩, rfl⟩

theorem applyToDisk_alike (h : Host Id Path) (env : Env Path) (hab : Alike a b) (rel : Path)
    (record : FileRecord Id) (staged : Option Bytes) :
    AlikeRes (a.applyToDisk h env rel record staged) (b.applyToDisk h env rel record staged) := by
  unfold applyToDisk
  split
  · exact removeFile_alike h env hab rel
  · split
    · exact ⟨hab, rfl⟩
    · rename_i bytes
      obtain ⟨hwritten, hres⟩ := persistTemp_alike h env hab rel bytes
      generalize a.persistTemp h env rel bytes = r at hwritten hres ⊢
      generalize b.persistTemp h env rel bytes = r' at hwritten hres ⊢
      obtain ⟨a, ok⟩ := r
      obtain ⟨b, ok'⟩ := r'
      cases hres
      cases ok with
      | false => exact ⟨hwritten, rfl⟩
      | true =>
          have hclamped := setMode_alike hwritten env rel true
          obtain ⟨j, rfl⟩ := hwritten
          dsimp only
          split
          · exact hclamped
          · exact ⟨⟨j, rfl⟩, rfl⟩

/-! ## Pulls -/

theorem letGo_alike (hab : Alike a b) (rel : Path) (sender : Id) (record : FileRecord Id) :
    Alike (a.letGo rel sender record) (b.letGo rel sender record) := by
  obtain ⟨j, rfl⟩ := hab
  exact ⟨_, rfl⟩

theorem displace_alike (hab : Alike a b) (rel : Path) (old : Option (Id × FileRecord Id))
    (new : FileRecord Id) : Alike (a.displace rel old new) (b.displace rel old new) := by
  obtain ⟨j, rfl⟩ := hab
  exact ⟨_, rfl⟩

theorem startPull_alike (hab : Alike a b) (rel : Path) (sender : Id) (record : FileRecord Id) :
    Alike (a.startPull rel sender record) (b.startPull rel sender record) := by
  obtain ⟨j, rfl⟩ := hab
  unfold startPull
  dsimp only
  split <;> exact ⟨j, rfl⟩

theorem beginPull_alike (hab : Alike a b) (rel : Path) (sender : Id) (record : FileRecord Id) :
    Alike (a.beginPull rel sender record) (b.beginPull rel sender record) := by
  obtain ⟨j, rfl⟩ := hab
  exact startPull_alike ⟨j, rfl⟩ rel sender record

theorem enqueuePullBacklog_alike (hab : Alike a b) (rel : Path) (sender : Id)
    (record : FileRecord Id) :
    Alike (a.enqueuePullBacklog rel sender record) (b.enqueuePullBacklog rel sender record) := by
  obtain ⟨j, rfl⟩ := hab
  unfold enqueuePullBacklog
  dsimp only
  split
  · exact ⟨_, rfl⟩
  · split <;> exact ⟨_, rfl⟩

theorem drainLoop_alike (n : Nat) (hab : Alike a b) : Alike (drainLoop n a) (drainLoop n b) := by
  induction n generalizing a b with
  | zero => exact hab
  | succ n ih =>
      obtain ⟨j, rfl⟩ := hab
      unfold drainLoop pickBacklog
      dsimp only
      split
      · split
        · exact ⟨j, rfl⟩
        · rename_i i rel sender record _
          have hout : Alike { a with pullBacklog := a.pullBacklog.eraseIdx i }
              { a with pullBacklog := a.pullBacklog.eraseIdx i, journal := j } := ⟨j, rfl⟩
          split
          · exact ih (letGo_alike hout rel sender record)
          · exact ih (beginPull_alike hout rel sender record)
      · exact ⟨j, rfl⟩

theorem nextPull_alike (hab : Alike a b) (rel : Path) : Alike (a.nextPull rel) (b.nextPull rel) := by
  obtain ⟨j, rfl⟩ := hab
  unfold nextPull
  dsimp only
  split
  · exact ⟨j, rfl⟩
  · rename_i job _
    have hover : Alike (if a.isPulling rel job.sender job.record then a
          else a.letGo rel job.sender job.record)
        (if ({ a with journal := j } : Actor Id Path).isPulling rel job.sender job.record then
          { a with journal := j }
          else ({ a with journal := j } : Actor Id Path).letGo rel job.sender job.record) := by
      unfold isPulling
      dsimp only
      split
      · exact ⟨j, rfl⟩
      · exact letGo_alike ⟨j, rfl⟩ rel job.sender job.record
    obtain ⟨j', hj'⟩ := hover
    rw [hj']
    split
    · exact beginPull_alike ⟨j', rfl⟩ rel _ _
    · exact ⟨j', rfl⟩

theorem finishPull_alike (hab : Alike a b) (rel : Path) :
    Alike (a.finishPull rel) (b.finishPull rel) := by
  have hnext := nextPull_alike hab rel
  unfold finishPull drainPullBacklog
  have hsame : (b.nextPull rel).pullBacklog.length = (a.nextPull rel).pullBacklog.length := by
    obtain ⟨j, hj⟩ := hnext
    rw [hj]
  rw [hsame]
  exact drainLoop_alike _ hnext

/-! ## Reconciliation -/

theorem pushHistory_alike (hab : Alike a b) (rel : Path) (r : Option (FileRecord Id)) :
    Alike (a.pushHistory rel r) (b.pushHistory rel r) := by
  obtain ⟨j, rfl⟩ := hab
  cases r <;> exact ⟨j, rfl⟩

theorem prepareApply_alike (hab : Alike a b) (env : Env Path) (rel : Path) :
    Alike (a.prepareApply env rel) (b.prepareApply env rel) := by
  unfold prepareApply
  dsimp only
  have hfirst : Alike (if a.isWritable rel then (a.quarantine env rel).1 else a)
      (if b.isWritable rel then (b.quarantine env rel).1 else b) := by
    have hcopied := (quarantine_alike hab env rel).1
    obtain ⟨j, rfl⟩ := hab
    show Alike _ (if a.isWritable rel then _ else _)
    split
    · exact hcopied
    · exact ⟨j, rfl⟩
  obtain ⟨j, hj⟩ := hfirst
  rw [hj]
  exact pushHistory_alike ⟨j, rfl⟩ rel _

theorem commitApplied_alike (hab : Alike a b) (rel : Path) (record : FileRecord Id)
    (staged : Option Bytes) :
    Alike (a.commitApplied rel record staged) (b.commitApplied rel record staged) := by
  obtain ⟨j, rfl⟩ := hab
  exact ⟨_, rfl⟩

section Cycle

variable {rebuild : Actor Id Path → Actor Id Path} (h : Host Id Path) (env : Env Path)
  (hre : ∀ {a b}, Alike a b → Alike (rebuild a) (rebuild b))

include hre

theorem applyNow_alike (hab : Alike a b) (rel : Path) (sender : Id) (record : FileRecord Id)
    (staged : Option Bytes) :
    Alike (a.applyNow rebuild h env rel sender record staged)
      (b.applyNow rebuild h env rel sender record staged) := by
  obtain ⟨hdisk, hres⟩ := applyToDisk_alike h env (prepareApply_alike hab env rel) rel record staged
  unfold applyNow
  dsimp only
  refine finishPull_alike ?_ rel
  generalize (a.prepareApply env rel).applyToDisk h env rel record staged = r at hdisk hres ⊢
  generalize (b.prepareApply env rel).applyToDisk h env rel record staged = r' at hdisk hres ⊢
  obtain ⟨a, ok⟩ := r
  obtain ⟨b, ok'⟩ := r'
  cases hres
  cases ok with
  | false => exact letGo_alike hdisk rel sender record
  | true =>
      have hdone := commitApplied_alike hdisk rel record staged
      dsimp only
      split
      · exact hre hdone
      · exact hdone

theorem applyRemoteWith_alike (hab : Alike a b) (rel : Path) (sender : Id)
    (record : FileRecord Id) (staged : Option Bytes) :
    Alike (a.applyRemoteWith rebuild h env rel sender record staged)
      (b.applyRemoteWith rebuild h env rel sender record staged) := by
  have hnow := applyNow_alike h env hre hab rel sender record staged
  have hover := finishPull_alike hab rel
  obtain ⟨j, rfl⟩ := hab
  unfold applyRemoteWith
  show Alike _ (if a.busy.contains rel then _ else if a.isCurrent rel record then _ else _)
  split
  · exact ⟨_, rfl⟩
  · split
    · exact hover
    · exact hnow

omit hre in
theorem hold_alike (hab : Alike a b) (rel : Path) (record : FileRecord Id) (reason : String) :
    Alike (a.hold rel record reason) (b.hold rel record reason) := by
  obtain ⟨j, rfl⟩ := hab
  unfold hold
  dsimp only
  split
  · split <;> exact ⟨j, rfl⟩
  · exact ⟨j, rfl⟩

omit hre in
theorem schedulePull_alike (hab : Alike a b) (rel : Path) (sender : Id)
    (record : FileRecord Id) :
    Alike (a.schedulePull rel sender record) (b.schedulePull rel sender record) := by
  obtain ⟨j, rfl⟩ := hab
  unfold schedulePull
  dsimp only
  split
  · split <;> exact ⟨_, rfl⟩
  · split
    · exact enqueuePullBacklog_alike ⟨j, rfl⟩ rel sender record
    · exact beginPull_alike ⟨j, rfl⟩ rel sender record

theorem maybePullWith_alike (hab : Alike a b) (rel : Path) (sender : Id)
    (record : FileRecord Id) :
    Alike (a.maybePullWith rebuild h env rel sender record)
      (b.maybePullWith rebuild h env rel sender record) := by
  obtain ⟨j, rfl⟩ := hab
  have hreason : ({ a with journal := j } : Actor Id Path).holdReason h rel record
      = a.holdReason h rel record := rfl
  unfold maybePullWith
  rw [hreason]
  dsimp only
  split
  · exact ⟨_, rfl⟩
  · split
    · exact applyRemoteWith_alike h env hre ⟨j, rfl⟩ rel sender record none
    · split
      · exact hold_alike (letGo_alike ⟨j, rfl⟩ rel sender record) rel record _
      · exact schedulePull_alike ⟨j, rfl⟩ rel sender record

theorem onConcurrentWith_alike (hab : Alike a b) (rel : Path) (sender : Id)
    (record : FileRecord Id) :
    Alike (a.onConcurrentWith rebuild h env rel sender record)
      (b.onConcurrentWith rebuild h env rel sender record) := by
  have hcopied := (quarantine_alike hab env rel).1
  unfold onConcurrentWith
  have hme : b.me = a.me ∧ b.files = a.files := by
    obtain ⟨j, rfl⟩ := hab
    exact ⟨rfl, rfl⟩
  rw [hme.1, hme.2]
  split
  · obtain ⟨j, rfl⟩ := hab
    split
    · exact ⟨_, rfl⟩
    · exact ⟨_, rfl⟩
  · exact maybePullWith_alike h env hre hcopied rel sender record

theorem reconcileOneWith_alike (hab : Alike a b) (sender : Id) (rel : Path)
    (record : FileRecord Id) :
    Alike (a.reconcileOneWith rebuild h env sender rel record)
      (b.reconcileOneWith rebuild h env sender rel record) := by
  have hclear : Alike (a.maybeClearUnapplied rel record) (b.maybeClearUnapplied rel record) := by
    obtain ⟨j, rfl⟩ := hab
    unfold maybeClearUnapplied
    split <;> exact ⟨j, rfl⟩
  unfold reconcileOneWith
  dsimp only
  have hfiles : (b.maybeClearUnapplied rel record).files = (a.maybeClearUnapplied rel record).files := by
    obtain ⟨j, hj⟩ := hclear
    rw [hj]
  rw [hfiles]
  split
  · split
    · obtain ⟨j, hj⟩ := hclear
      rw [hj]
      exact ⟨j, rfl⟩
    · exact maybePullWith_alike h env hre hclear rel sender record
  · split
    · exact maybePullWith_alike h env hre hclear rel sender record
    · exact onConcurrentWith_alike h env hre hclear rel sender record
    · exact hclear
    · exact hclear

theorem reconcileWith_alike (hab : Alike a b) (sender : Id) :
    Alike (a.reconcileWith rebuild h env sender) (b.reconcileWith rebuild h env sender) := by
  obtain ⟨j, rfl⟩ := hab
  unfold reconcileWith
  dsimp only
  split
  · exact ⟨j, rfl⟩
  · rename_i records _
    have hskip : Alike ((a.clearDeleted records).skipUnknown sender records.toList)
        ((({ a with journal := j } : Actor Id Path).clearDeleted records).skipUnknown sender
          records.toList) := ⟨j, rfl⟩
    refine Alike.foldl (fun rel hab => ?_) _ (Alike.foldl (fun rel hab => ?_) _ hskip)
    · split
      · exact onConcurrentWith_alike h env hre hab rel sender _
      · exact hab
    · split
      · exact maybePullWith_alike h env hre hab rel sender _
      · exact hab

theorem releaseHeld_alike (hab : Alike a b) (rel : Path) :
    Alike (a.releaseHeld rebuild h env rel) (b.releaseHeld rebuild h env rel) := by
  obtain ⟨j, rfl⟩ := hab
  unfold releaseHeld
  dsimp only
  split
  · exact reconcileOneWith_alike h env hre ⟨j, rfl⟩ _ rel _
  · exact ⟨j, rfl⟩

theorem rebuildIgnoreWith_alike (hab : Alike a b) :
    Alike (a.rebuildIgnoreWith rebuild h env) (b.rebuildIgnoreWith rebuild h env) := by
  obtain ⟨j, rfl⟩ := hab
  unfold rebuildIgnoreWith
  exact Alike.foldl (fun rel hab => releaseHeld_alike h env hre hab rel) (a.reloadRules h |>.releasable h)
    (b := ({ a with journal := j } : Actor Id Path).reloadRules h) ⟨j, rfl⟩

end Cycle

variable (h : Host Id Path) (env : Env Path)

theorem rebuildIgnore_alike (hab : Alike a b) :
    Alike (a.rebuildIgnore h env) (b.rebuildIgnore h env) := by
  have hN : ∀ n {a b : Actor Id Path}, Alike a b →
      Alike (rebuildIgnoreN h env n a) (rebuildIgnoreN h env n b) := by
    intro n
    induction n with
    | zero => exact fun hab => hab
    | succ n ih => exact fun hab => rebuildIgnoreWith_alike h env ih hab
  exact hN 2 hab

theorem observeLeases_alike (hab : Alike a b) (leases : List (LeaseInfo Id Path)) :
    Alike (a.observeLeases h env leases) (b.observeLeases h env leases) := by
  obtain ⟨j, rfl⟩ := hab
  exact ⟨j, rfl⟩

theorem supersede_alike (hab : Alike a b) (sender : Id) (map : Map Path (FileRecord Id))
    (staged : List (Path × FileRecord Id)) :
    Alike (a.supersede sender map staged) (b.supersede sender map staged) := by
  unfold supersede
  refine Alike.foldl (fun e hab => ?_) staged hab
  dsimp only
  split
  · exact displace_alike hab e.1 _ _
  · exact letGo_alike hab e.1 sender e.2

end Tazamun.Actor
