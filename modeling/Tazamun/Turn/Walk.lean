import Tazamun.Turn.Guard

set_option autoImplicit false

/-! # Every handler is made of moves

The walk through the handlers: whatever every move keeps (`Kept`), every handler keeps, for
an event that has passed the guard. First come the pieces that several handlers share, then
the reconciliation with its cycle, the watch pipeline, the requests of the user, the messages
of the peers, and the timers.
-/

namespace Tazamun.Actor

variable {Id Path : Type} [LinearOrder Id] [LinearOrder Path]
variable {h : Host Id Path} {env : Env Path} {g : Guard Id Path}
variable {P : Actor Id Path → Prop} (k : Kept g P) {a : Actor Id Path}

/-- The path is free, and the record is news. -/
def Takes (a : Actor Id Path) (rel : Path) (record : FileRecord Id) : Prop :=
  a.busy.contains rel = false ∧ a.isCurrent rel record = false

/-! ## Shared pieces -/

theorem mem_of_mem_pruneFrom {depth : Nat} {es : List (VersionEntry Id)}
    {idx : Nat} {e : VersionEntry Id} (he : e ∈ pruneFrom depth idx es) : e ∈ es := by
  induction es generalizing idx with
  | nil => cases he
  | cons x es ih =>
      rw [pruneFrom] at he
      split at he
      · rcases List.mem_cons.mp he with rfl | he
        · exact List.mem_cons_self
        · exact List.mem_cons_of_mem x (ih he)
      · exact List.mem_cons_of_mem x (ih he)

include k

theorem pushHistory_kept (ha : P a) {rel : Path} {r : Option (FileRecord Id)}
    (hr : ∀ x, r = some x → g.content rel x.manifest) : P (a.pushHistory rel r) := by
  cases r with
  | none => exact ha
  | some x =>
      refine k.move ha (.history _ ?_)
      have hold := (k.within ha).history
      unfold History.push
      split
      · exact hold
      · intro p l hl e he
        rw [Map.get_insert] at hl
        split at hl
        · rename_i heq
          subst heq
          cases hl
          rcases List.mem_cons.mp (mem_of_mem_pruneFrom he) with rfl | he
          · exact hr x rfl
          · cases hes : a.history[rel]? with
            | none =>
                rw [hes] at he
                cases he
            | some l =>
                rw [hes] at he
                exact hold rel l hes e he
        · exact hold p l hl e he

/-- The record in the index goes to the history. -/
theorem pushOwn_kept (ha : P a) (rel : Path) : P (a.pushHistory rel a.files[rel]?) :=
  pushHistory_kept k ha fun x hx => ((k.within ha).files rel x hx).2

theorem send_kept (ha : P a) (dst : Id) (msg : Msg Id Path)
    (hmsg : msg.isFileMeta = false) : P (a.send dst msg) := by
  unfold send
  split
  · refine k.move ha (.sends _ fun e he => ?_)
    rcases List.mem_append.mp he with he | he
    · exact .inl he
    · rw [List.mem_singleton.mp he]
      exact .inr hmsg
  · exact ha

theorem broadcast_kept (ha : P a) (msg : Msg Id Path) (hmsg : msg.isFileMeta = false) :
    P (a.broadcast msg) := by
  refine k.move ha (.sends _ fun e he => ?_)
  rcases List.mem_append.mp he with he | he
  · exact .inl he
  · obtain ⟨id, -, rfl⟩ := List.mem_map.mp he
    exact .inr hmsg

theorem reply_kept (ha : P a) (r : Nat) (resp : IpcResponse) : P (a.reply r resp) :=
  k.move ha (.misc ..)

theorem replyTo_kept (ha : P a) (r : Option Nat) (resp : IpcResponse) :
    P (a.replyTo r resp) := by
  cases r with
  | none => exact ha
  | some r => exact reply_kept k ha r resp

theorem letGo_kept (ha : P a) (rel : Path) (sender : Id) (record : FileRecord Id) :
    P (a.letGo rel sender record) :=
  k.move ha (.misc ..)

theorem displace_kept (ha : P a) (rel : Path) (old : Option (Id × FileRecord Id))
    (new : FileRecord Id) : P (a.displace rel old new) :=
  k.move ha (.misc ..)

theorem tick_kept (ha : P a) : P a.tick := k.move ha (.misc ..)

theorem settleMode_kept (ha : P a) (env : Env Path) (rel : Path) : P (a.settleMode env rel) :=
  k.onDisk ha (setMode_onDisk a env rel _)

theorem setMode_kept (ha : P a) (env : Env Path) (rel : Path) (readonly : Bool) :
    P (a.setMode env rel readonly).1 :=
  k.onDisk ha (setMode_onDisk a env rel readonly)

theorem know_kept (ha : P a) (rel : Path) (bytes : Bytes) : P (a.know rel bytes) :=
  k.move ha (.misc ..)

theorem forget_kept (ha : P a) (rel : Path) : P (a.forget rel) := k.move ha (.misc ..)

/-- A content of our own is committed. -/
theorem commitOwn_kept (ha : P a) {rel : Path} (hp : g.path rel) (kind : CommitKind)
    {record : FileRecord Id} (hv : record.vv = VClock.inc (a.vvOf rel) a.me)
    (hm : g.content rel record.manifest) (hc : record.deleted = true ∨ g.commit rel) :
    P (a.tick.commitLocal kind rel record) :=
  k.move (tick_kept k ha) (.committed kind rel record hp hv hm hc)

/-! ## Reconciliation -/

section Cycle

variable {rebuild : Actor Id Path → Actor Id Path} (hre : ∀ {a}, P a → P (rebuild a))

include hre

omit hre in
theorem prepareApply_kept (ha : P a) (env : Env Path) (rel : Path) :
    P (a.prepareApply env rel) := by
  unfold prepareApply
  dsimp only
  refine pushOwn_kept k (k.onDisk ?_ (mute_onDisk _ env rel)) rel
  split
  · exact k.onDisk ha (quarantine_onDisk a env rel)
  · exact ha

theorem applyNow_kept (ha : P a) {rel : Path} {sender : Id} {record : FileRecord Id}
    {staged : Option Bytes} (hr : g.record rel record) (hap : g.apply rel record) :
    P (a.applyNow rebuild h env rel sender record staged) := by
  have hprepared := prepareApply_kept k ha env rel
  have hdisk := applyToDisk_onDisk h env (a.prepareApply env rel) rel record staged
  unfold applyNow
  refine k.move ?_ (.finish rel)
  split
  · rename_i b hb
    rw [hb] at hdisk
    have hdone := k.move (k.onDisk hprepared hdisk) (.applied rel record staged hr hap)
    dsimp only
    split
    · exact hre hdone
    · exact hdone
  · rename_i b hb
    rw [hb] at hdisk
    exact letGo_kept k (k.onDisk hprepared hdisk) rel sender record

theorem applyRemoteWith_kept (ha : P a) {rel : Path} {sender : Id} {record : FileRecord Id}
    {staged : Option Bytes} (hr : g.record rel record)
    (hap : a.Takes rel record ∨ g.release rel → g.apply rel record) :
    P (a.applyRemoteWith rebuild h env rel sender record staged) := by
  unfold applyRemoteWith
  split
  · exact k.move (displace_kept k ha rel _ record)
      (.defer rel ⟨sender, record, staged⟩ hr fun hrel => hap (.inr hrel))
  · rename_i hfree
    split
    · exact k.move ha (.finish rel)
    · rename_i hnews
      exact applyNow_kept k hre ha hr 
        (hap (.inl ⟨eq_false_of_ne_true hfree, eq_false_of_ne_true hnews⟩))

theorem maybePullWith_kept (ha : P a) {rel : Path} {sender : Id} {record : FileRecord Id}
    (hr : g.record rel record) : P (a.maybePullWith rebuild h env rel sender record) := by
  have hp := g.path_of_record hr
  unfold maybePullWith
  split
  · exact letGo_kept k ha rel sender record
  · split
    · rename_i hdel
      exact applyRemoteWith_kept k hre (k.move ha (.unapplied _ (.erase rel))) hr
        fun _ => g.apply_tombstone hr hdel
    · split
      · have hgone := letGo_kept k ha rel sender record
        unfold hold
        split
        · split
          · exact hgone
          · exact k.move hgone (.unapplied _ (.insert hp _))
        · exact k.move hgone (.unapplied _ (.insert hp _))
      · exact k.move ha (.schedule rel sender record hr)

theorem onConcurrentWith_kept (ha : P a) {rel : Path} {sender : Id} {record : FileRecord Id}
    (hr : g.record rel record) : P (a.onConcurrentWith rebuild h env rel sender record) := by
  unfold onConcurrentWith
  split
  · split
    · exact letGo_kept k ha rel sender record
    · rename_i mine hmine
      exact k.move (tick_kept k ha) (.reasserted rel mine record env.nowMs hmine hr)
  · exact maybePullWith_kept k hre (k.onDisk ha (quarantine_onDisk a env rel)) hr

theorem reconcileOneWith_kept (ha : P a) {rel : Path} {sender : Id} {record : FileRecord Id}
    (hr : g.record rel record) : P (a.reconcileOneWith rebuild h env sender rel record) := by
  have hclear : P (a.maybeClearUnapplied rel record) := by
    unfold maybeClearUnapplied
    split
    · exact k.move ha (.unapplied _ (.erase rel))
    · exact ha
  unfold reconcileOneWith
  dsimp only
  split
  · split
    · exact k.move hclear (.misc ..)
    · exact maybePullWith_kept k hre hclear hr
  · split
    · exact maybePullWith_kept k hre hclear hr
    · exact onConcurrentWith_kept k hre hclear hr
    · exact hclear
    · exact hclear

/-- What is done with a record of the index, if there is one (`reconcile`). -/
def atRecord (records : Map Path (FileRecord Id))
    (f : Actor Id Path → Path → FileRecord Id → Actor Id Path) (b : Actor Id Path) (rel : Path) :
    Actor Id Path :=
  match records[rel]? with
  | some r => f b rel r
  | none => b

theorem reconcileWith_kept (ha : P a) (sender : Id) :
    P (a.reconcileWith rebuild h env sender) := by
  unfold reconcileWith
  split
  · exact ha
  · rename_i records hrecords
    have hrec := (k.within ha).index sender records hrecords
    have hclear : P (a.clearDeleted records) := k.move ha (.unapplied _ (.filter _))
    have hskip : P ((a.clearDeleted records).skipUnknown sender records.toList) :=
      k.move hclear (.misc ..)
    have hstep : ∀ (f : Actor Id Path → Path → FileRecord Id → Actor Id Path)
        (_ : ∀ {b rel r}, P b → g.record rel r → P (f b rel r)) (l : List Path)
        {b : Actor Id Path}, P b → P (l.foldl (atRecord records f) b) := by
      intro f hf l b hb
      refine Kept.foldl hb fun b rel _ hb => ?_
      unfold atRecord
      split
      · rename_i r hr
        exact hf hb (hrec rel r hr)
      · exact hb
    exact hstep (fun b rel r => b.onConcurrentWith rebuild h env rel sender r)
      (fun hb hr => onConcurrentWith_kept k hre hb hr) _
      (hstep (fun b rel r => b.maybePullWith rebuild h env rel sender r)
        (fun hb hr => maybePullWith_kept k hre hb hr) _ hskip)

theorem releaseHeld_kept (ha : P a) (rel : Path) : P (a.releaseHeld rebuild h env rel) := by
  have hclear : P { a with unapplied := a.unapplied.erase rel } :=
    k.move ha (.unapplied _ (.erase rel))
  unfold releaseHeld
  dsimp only
  split
  · rename_i sender record hfound
    obtain ⟨e, he, hr⟩ := List.exists_of_findSome?_eq_some hfound
    obtain ⟨r, hr, heq⟩ := Option.map_eq_some_iff.mp hr
    cases heq
    exact reconcileOneWith_kept k hre hclear
      ((k.within ha).index e.1 e.2 (Map.mem_toList.mp he) rel record hr)
  · exact hclear

theorem rebuildIgnoreWith_kept (ha : P a) : P (a.rebuildIgnoreWith rebuild h env) := by
  unfold rebuildIgnoreWith
  have hload : P (a.reloadRules h) := k.move ha (.misc ..)
  exact Kept.foldl hload fun b rel _ hb => releaseHeld_kept k hre hb rel

end Cycle

theorem rebuildIgnore_kept (ha : P a) : P (a.rebuildIgnore h env) := by
  have hN : ∀ n {a : Actor Id Path}, P a → P (rebuildIgnoreN h env n a) := by
    intro n
    induction n with
    | zero => exact fun ha => ha
    | succ n ih => exact fun ha => rebuildIgnoreWith_kept k ih ha
  exact hN 2 ha

theorem applyRemote_kept (ha : P a) {rel : Path} {sender : Id} {record : FileRecord Id}
    {staged : Option Bytes} (hr : g.record rel record)
    (hap : a.Takes rel record ∨ g.release rel → g.apply rel record) :
    P (a.applyRemote h env rel sender record staged) :=
  applyRemoteWith_kept k (rebuildIgnore_kept k) ha hr hap

theorem onPullStaged_kept (ha : P a) {rel : Path} {sender : Id} {record : FileRecord Id}
    {result : Option Bytes} (hr : g.record rel record)
    (hap : result.isSome = true → a.Takes rel record ∨ g.release rel → g.apply rel record) :
    P (a.onPullStaged h env rel sender record result) := by
  unfold onPullStaged
  split
  · exact applyRemote_kept k ha hr (hap rfl)
  · split
    · exact k.move (letGo_kept k ha rel sender record) (.finish rel)
    · rename_i job hjob
      have hretried := k.move ha (.retried rel job hjob)
      dsimp only
      split
      · exact k.move (displace_kept k hretried rel _ _)
          (.spawn (.pullTimer rel) (g.path_of_record hr))
      · exact k.move (letGo_kept k hretried rel sender record) (.finish rel)

theorem onPullRetry_kept (ha : P a) (rel : Path) : P (a.onPullRetry rel) := by
  unfold onPullRetry
  split
  · rename_i job hjob
    exact k.move ha (.restart rel job hjob)
  · exact ha

/-! ## The watch pipeline -/

theorem inspect_kept (ha : P a) {rel : Path} (hp : g.path rel) (cause : InspectCause) :
    P (a.inspect rel cause) :=
  k.begun ha hp (t := .inspect rel _ cause) hp

theorem onWatch_kept (ha : P a) {rel : Path} (hp : g.path rel) : P (a.onWatch h env rel) := by
  unfold onWatch
  have hmuted : P (a.isMuted env rel).1 := k.move ha (.misc ..)
  generalize a.isMuted env rel = r at hmuted ⊢
  obtain ⟨b, muted⟩ := r
  dsimp only at hmuted ⊢
  split
  · exact hmuted
  · split
    · exact k.move hmuted (.marks _ _ .refl (.insert hp _))
    · split
      · exact inspect_kept k (rebuildIgnore_kept k hmuted) hp .watch
      · split
        · exact inspect_kept k hmuted hp .watch
        · split
          · split <;> exact k.move hmuted (.misc ..)
          · exact inspect_kept k (k.move hmuted (.misc ..)) hp .watch

/-- The operation on a path that this turn may release is over. -/
theorem unbusy_kept (ha : P a) {rel : Path} (hp : g.path rel) (hrel : g.release rel) :
    P (a.unbusy h env rel) := by
  unfold unbusy
  have hfree : P { a with busy := a.busy.erase rel } := k.marked ha (.erase rel)
  have htaken : P (takeUp h env { a with busy := a.busy.erase rel } rel) := by
    unfold takeUp
    split
    · exact hfree
    · rename_i d hd
      exact applyRemote_kept k (k.move hfree (.takeUp rel)) ((k.within ha).deferred rel d hd)
        fun _ => k.release ha rel d hd hrel
  dsimp only at htaken ⊢
  split
  · exact inspect_kept k (k.move htaken (.marks _ _ .refl (.erase rel))) hp .watch
  · exact htaken

theorem spawnPublish_kept (ha : P a) {rel : Path} (hp : g.path rel) (cause : PublishCause) :
    P (a.spawnPublish rel cause) :=
  k.begun ha hp (t := .publish rel cause) hp

theorem locksAt_kept (ha : P a) {rel : Path} (hp : g.path rel) {locks : LockTable Id Path}
    (ho : LockTable.OnlyAt rel a.locks locks) : P { a with locks } := by
  refine k.move ha (.locks locks fun p hin => ?_)
  by_cases heq : rel = p
  · subst heq
    exact .inr hp
  · rw [Map.contains_eq, ho.get p heq, ← Map.contains_eq] at hin
    exact .inl hin

theorem finishUnlock_kept (ha : P a) {rel : Path} (hp : g.path rel) (ok : Bool) (r : Nat) :
    P (a.finishUnlock env rel ok r) := by
  unfold finishUnlock
  have hreleased : P { a with
      pendingUnlocks := a.pendingUnlocks.erase rel
      locks := a.locks.onRelease rel a.me
      autolockIdle := a.autolockIdle.erase rel } :=
    k.move (locksAt_kept k ha hp (LockTable.onRelease_onlyAt a.locks rel a.me)) (.misc ..)
  have hsent := broadcast_kept k (broadcast_kept k (settleMode_kept k hreleased env rel)
    (.lock (.lockRelease rel)) rfl) (.lockFreed rel) rfl
  dsimp only at hsent ⊢
  split
  · exact reply_kept k hsent r _
  · exact reply_kept k hsent r _

/-- The record in the index is replaced by one of our own that goes on from it. -/
theorem commitNext_kept (ha : P a) {rel : Path} (hp : g.path rel) (hc : g.commit rel)
    {kind : CommitKind} {record : FileRecord Id} (bytes : Bytes)
    (hv : record.vv = VClock.inc (match a.files[rel]? with | some r => r.vv | none => ∅) a.me)
    (hm : g.content rel record.manifest) :
    P ((((a.forget rel).pushHistory rel a.files[rel]?).tick.commitLocal kind rel record).know
      rel bytes) := by
  have hpushed : P ((a.forget rel).pushHistory rel a.files[rel]?) :=
    pushOwn_kept k (forget_kept k ha rel) rel
  have hsame : ∀ r : Option (FileRecord Id), VClock.inc (a.vvOf rel) a.me =
      VClock.inc (((a.forget rel).pushHistory rel r).vvOf rel)
        ((a.forget rel).pushHistory rel r).me := by
    intro r
    cases r <;> rfl
  exact know_kept k (commitOwn_kept k hpushed hp kind (hv.trans (hsame _)) hm (.inr hc)) rel bytes

/-- Nothing of our own is committed unless there is content. -/
theorem commitPublished_kept (ha : P a) {rel : Path} (hp : g.path rel) {p : Published}
    (hm : g.content rel p.manifest) (hc : g.commit rel) (cause : PublishCause) :
    P (a.commitPublished env rel p cause) := by
  unfold commitPublished
  dsimp only
  split_ifs
  · exact know_kept k ha rel p.bytes
  · exact commitNext_kept k ha hp hc p.bytes rfl hm

/-- The end of a publish: the path is free, and an unlock that waited for it goes on. -/
theorem publishOver_kept (ha : P a) {rel : Path} (hp : g.path rel) (hrel : g.release rel)
    (cause : PublishCause) (ok : Bool) :
    P (match cause with
      | .unlock r => (a.unbusy h env rel).finishUnlock env rel ok r
      | _ => a.unbusy h env rel) := by
  have hfree : P (a.unbusy h env rel) := unbusy_kept k ha hp hrel
  cases cause with
  | unlock r => exact finishUnlock_kept k hfree hp ok r
  | edit => exact hfree
  | «import» => exact hfree

theorem onPublishDone_kept (ha : P a) {rel : Path} (hp : g.path rel) (hrel : g.release rel)
    {result : Option Published} {cause : PublishCause}
    (hc : ∀ p, result = some p → a.locks.isHeldByMe rel = true ∨ cause = .import →
      g.content rel p.manifest ∧ g.commit rel) :
    P (a.onPublishDone h env rel result cause) := by
  unfold onPublishDone
  dsimp only
  cases result with
  | none =>
      simp only [ite_self]
      refine publishOver_kept k ?_ hp hrel cause _
      split
      · exact k.move ha (.marks _ _ .refl (.insert hp _))
      · exact ha
  | some p =>
      by_cases hallowed : (a.locks.isHeldByMe rel || decide (cause = .import)) = true
      · rw [if_pos hallowed]
        obtain ⟨hm, hcommit⟩ := hc p rfl (by simpa using hallowed)
        have hdone : P (a.commitPublished env rel p cause) :=
          commitPublished_kept k ha hp hm hcommit cause
        refine publishOver_kept k ?_ hp hrel cause _
        dsimp only
        split
        · exact settleMode_kept k hdone env rel
        · exact hdone
      · rw [if_neg hallowed]
        exact publishOver_kept k ha hp hrel cause _

theorem commitTombstone_kept (ha : P a) {rel : Path} (hp : g.path rel) :
    P (a.commitTombstone env rel) := by
  unfold commitTombstone
  split
  · exact ha
  · rename_i prev hprev
    split
    · exact ha
    · have hpushed : P (a.pushHistory rel (some prev)) :=
        pushHistory_kept k ha fun x hx => by
          cases hx
          exact ((k.within ha).files rel prev hprev).2
      refine commitOwn_kept k (forget_kept k hpushed rel) hp .tombstone ?_ (g.content_empty hp)
        (.inl rfl)
      unfold vvOf
      rw [show ((a.pushHistory rel (some prev)).forget rel).files[rel]? = some prev from hprev]
      rfl

theorem spawnViolation_kept (ha : P a) {rel : Path} (hp : g.path rel) (hrel : g.release rel)
    (quarantineFirst : Bool) : P (a.spawnViolation h env rel quarantineFirst) := by
  unfold spawnViolation
  split
  · exact unbusy_kept k ha hp hrel
  · exact k.begun ha hp (t := .violation rel _ quarantineFirst) hp

theorem knowIfIndexed_kept (ha : P a) (rel : Path) (bytes : Bytes) :
    P (a.knowIfIndexed h rel bytes) := by
  unfold knowIfIndexed
  split
  · split
    · exact know_kept k ha rel bytes
    · exact forget_kept k ha rel
  · exact forget_kept k ha rel

theorem onViolationStaged_kept (ha : P a) {rel : Path} (hp : g.path rel) (hrel : g.release rel)
    (result : Option Bytes) (quarantined : Option (CopyName Path)) (preserveRequired : Bool) :
    P (a.onViolationStaged h env rel result quarantined preserveRequired) := by
  unfold onViolationStaged
  split
  · exact unbusy_kept k ha hp hrel
  · refine unbusy_kept k ?_ hp hrel
    split
    · exact ha
    · rename_i bytes
      have hwritten : P ((a.mute env rel).persistTemp h env rel bytes).1 :=
        k.onDisk (k.onDisk ha (mute_onDisk a env rel)) (persistTemp_onDisk h env _ rel bytes)
      split
      · rename_i b hb
        rw [hb] at hwritten
        exact hwritten
      · rename_i b hb
        rw [hb] at hwritten
        have hknown := knowIfIndexed_kept (h := h) k hwritten rel bytes
        dsimp only
        split
        · exact setMode_kept k hknown env rel true
        · exact hknown

theorem violationNewFile_kept (ha : P a) (rel : Path) : P (a.violationNewFile h env rel) :=
  k.onDisk ha (violationNewFile_onDisk h env a rel)

/-! ## Autolock -/

theorem spawnAutolock_kept (ha : P a) {rel : Path} (hp : g.path rel) (newFile : Bool) :
    P (a.spawnAutolock rel newFile) :=
  k.begun ha hp (t := .autolock rel newFile) hp

theorem autolockFail_kept (ha : P a) {rel : Path} (hp : g.path rel) (hrel : g.release rel)
    (quarantined : Option (CopyName Path)) (newFile : Bool) :
    P (a.autolockFail h env rel quarantined newFile) := by
  have hforgot : P { a with autolockPending := a.autolockPending.erase rel } :=
    k.move ha (.rounds _ _ .refl (.erase rel))
  unfold autolockFail
  dsimp only
  split
  · exact unbusy_kept k hforgot hp hrel
  · rename_i copy
    split
    · exact unbusy_kept k (k.onDisk (k.onDisk hforgot (mute_onDisk _ env rel))
        (removeFile_onDisk h env _ rel)) hp hrel
    · split
      · exact unbusy_kept k hforgot hp hrel
      · exact k.move hforgot (.spawn (.revert rel _ copy) hp)

theorem startAcquire_kept (ha : P a) {rel : Path} (hp : g.path rel) (waiter : Option Nat) :
    P (a.startAcquire env rel waiter).1 := by
  have hticked := tick_kept k ha
  have honly := LockTable.startRequest_onlyAt a.tick.locks rel a.tick.lamport
    a.tick.peers.keys.toFinset env.now
  unfold startAcquire
  dsimp only
  split
  · rename_i locks e hr
    rw [hr] at honly
    exact locksAt_kept k hticked hp honly
  · rename_i locks hr
    rw [hr] at honly
    have hpending := k.move (locksAt_kept k hticked hp honly)
      (.rounds _ a.tick.autolockPending
        (.insert hp (a.tick.lamport, waiter)) .refl)
    exact k.move (broadcast_kept k hpending _ rfl) (.spawn (.acquireTimer rel _) hp)

theorem beginAutolockAcquire_kept (ha : P a) {rel : Path} (hp : g.path rel)
    (hrel : g.release rel) (quarantined : Option (CopyName Path)) (newFile : Bool) :
    P (a.beginAutolockAcquire h env rel quarantined newFile) := by
  have hfree : P { a with busy := a.busy.erase rel } := k.marked ha (.erase rel)
  unfold beginAutolockAcquire
  dsimp only
  split
  · exact autolockFail_kept k hfree hp hrel quarantined newFile
  · have hbusy := k.marked hfree (.insert hp ())
    have hstarted : P (Actor.startAcquire env
        { a with busy := (a.busy.erase rel).insert rel () } rel none).1 :=
      startAcquire_kept k hbusy hp none
    split
    · rename_i b e hb
      rw [hb] at hstarted
      exact autolockFail_kept k hstarted hp hrel quarantined newFile
    · rename_i b hb
      rw [hb] at hstarted
      exact k.move hstarted (.rounds _ _ .refl (.insert hp _))

theorem autolockSucceed_kept (ha : P a) (rel : Path) : P (a.autolockSucceed env rel) := by
  unfold autolockSucceed
  split
  · exact ha
  · rename_i e he
    have hp := (k.within ha).autolocks.of_get he
    have hround := k.move ha (.rounds _ _ .refl (.erase rel))
    exact spawnPublish_kept k (k.move hround (.misc ..)) hp .edit

theorem onWatchInspected_kept (ha : P a) {rel : Path} (hp : g.path rel) (hrel : g.release rel)
    (outcome : Inspection) : P (a.onWatchInspected h env rel outcome) := by
  have hedit : P ((if a.autolockIdle.contains rel then
      { a with autolockIdle := a.autolockIdle.insert rel (env.now + autolockIdleRelease) }
      else a).spawnPublish rel .edit) := by
    refine spawnPublish_kept k ?_ hp .edit
    split
    · exact k.move ha (.misc ..)
    · exact ha
  unfold onWatchInspected
  cases outcome with
  | clean => exact unbusy_kept k ha hp hrel
  | differs =>
      cases a.locks.isHeldByMe rel with
      | true => exact hedit
      | false =>
          dsimp only
          split
          · exact spawnAutolock_kept k ha hp false
          · exact spawnViolation_kept k ha hp hrel true
  | missingIndexed =>
      cases a.locks.isHeldByMe rel with
      | true => exact unbusy_kept k (commitTombstone_kept k ha hp) hp hrel
      | false => exact spawnViolation_kept k ha hp hrel false
  | unindexed =>
      cases a.locks.isHeldByMe rel with
      | true => exact hedit
      | false =>
          dsimp only
          split
          · exact spawnAutolock_kept k ha hp true
          · exact unbusy_kept k (violationNewFile_kept k ha rel) hp hrel

theorem onInspected_kept (ha : P a) {rel : Path} (hp : g.path rel) (hrel : g.release rel)
    (outcome : Except String Inspection) (cause : InspectCause) :
    P (a.onInspected h env rel outcome cause) := by
  unfold onInspected
  split
  · exact unbusy_kept k (reply_kept k ha _ _) hp hrel
  · exact unbusy_kept k ha hp hrel
  · exact onWatchInspected_kept k ha hp hrel _
  · unfold onUnlockInspected
    split
    · exact finishUnlock_kept k (unbusy_kept k ha hp hrel) hp true _
    · exact spawnPublish_kept k ha hp _
    · exact spawnPublish_kept k ha hp _
    · exact finishUnlock_kept k (unbusy_kept k (commitTombstone_kept k ha hp) hp hrel) hp true _

end Tazamun.Actor
