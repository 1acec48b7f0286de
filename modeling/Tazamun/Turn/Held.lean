import Tazamun.Turn.Spares

set_option autoImplicit false

/-! # What a turn leaves alone

The operations that handlers are made of, up to the result of an inspection, with a path that
they do not work on. Most of them spare it whatever they do; those that take a file away, or
publish one, spare every path but their own. A peer's tombstone is applied only where there is
a record, so it takes away the file of a path with a record at most.
-/

namespace Tazamun.Actor

variable {Id Path : Type} [LinearOrder Id] [LinearOrder Path]

variable {q : Path} {g : Prop} {a b : Actor Id Path} (hb : Spares q g a b)

include hb

/-! ## Notes and messages -/

theorem letGo_spares (rel : Path) (sender : Id) (record : FileRecord Id) :
    Spares q g a (b.letGo rel sender record) := by
  refine hb.losses (l := b.loss rel sender record) (fun e he => ?_) rfl rfl rfl rfl rfl
  unfold loss at he
  split at he
  · cases he
  · rw [List.mem_singleton.mp he]
    rfl

theorem displace_spares (rel : Path) (old : Option (Id × FileRecord Id))
    (new : FileRecord Id) : Spares q g a (b.displace rel old new) := by
  unfold displace
  split
  · exact hb.same rfl rfl (List.append_nil _) rfl rfl
  · rename_i sender record
    split
    · exact hb.same rfl rfl (List.append_nil _) rfl rfl
    · exact hb.same rfl rfl (List.append_nil _) rfl rfl
    · exact letGo_spares hb rel sender record
    · exact letGo_spares hb rel sender record

theorem note_spares {e : Effect Id Path} (he : e.isEntry = false) :
    Spares q g a (b.note e) := by
  refine hb.change (l := [e]) id rfl rfl (fun x hx => ?_) id rfl
  rw [List.mem_singleton.mp hx]
  exact Effect.publishes_of_isEntry he q

theorem tick_spares : Spares q g a b.tick :=
  note_spares (hb.same rfl rfl rfl rfl rfl : Spares q g a { b with lamport := b.lamport + 1 }) rfl

theorem reply_spares (r : Nat) (resp : IpcResponse) : Spares q g a (b.reply r resp) :=
  hb.same rfl rfl rfl rfl rfl

theorem replyTo_spares (r : Option Nat) (resp : IpcResponse) :
    Spares q g a (b.replyTo r resp) := by
  cases r with
  | none => exact hb
  | some r => exact reply_spares hb r resp

theorem send_spares (dst : Id) (msg : Msg Id Path) : Spares q g a (b.send dst msg) := by
  unfold send
  split
  · exact hb.same rfl rfl rfl rfl rfl
  · exact hb

theorem broadcast_spares (msg : Msg Id Path) : Spares q g a (b.broadcast msg) :=
  hb.same rfl rfl rfl rfl rfl

/-! ## Files -/

theorem noteMode_spares (rel : Path) (readonly : Bool) :
    Spares q g a (b.noteMode rel readonly) := by
  unfold noteMode
  split
  · exact hb.same rfl rfl rfl rfl rfl
  · exact hb

theorem setMode_spares (env : Env Path) (rel : Path) (readonly : Bool) :
    Spares q g a (b.setMode env rel readonly).1 := by
  unfold setMode
  split
  · exact noteMode_spares hb rel readonly
  · rename_i f hf
    split
    · refine noteMode_spares (hb.change (l := [])
        (d := { b with disk := b.disk.insert rel { f with readonly } }) id rfl
        (List.append_nil _).symm (by simp) (fun hin => ?_) rfl) rel readonly
      exact Map.contains_insert_iff.mpr (.inr hin)
    · exact hb

theorem settleMode_spares (env : Env Path) (rel : Path) : Spares q g a (b.settleMode env rel) :=
  setMode_spares hb env rel _

theorem noteReplaced_spares (h : Host Id Path) (rel : Path) :
    Spares q g a (b.noteReplaced h rel) := by
  unfold noteReplaced
  split
  · exact hb
  · exact note_spares hb rfl

theorem quarantine_spares (env : Env Path) (rel : Path) :
    Spares q g a (b.quarantine env rel).1 := by
  unfold quarantine loseCopy
  split
  · exact hb
  · split
    · dsimp only
      split <;> exact hb.same rfl rfl rfl rfl rfl
    · exact hb

theorem persistTemp_spares (h : Host Id Path) (env : Env Path) (rel : Path) (bytes : Bytes) :
    Spares q g a (b.persistTemp h env rel bytes).1 := by
  have hmode := setMode_spares hb env rel false
  unfold persistTemp
  split
  · dsimp only
    split
    · refine (noteReplaced_spares hmode h rel).change (l := []) id rfl
        (List.append_nil _).symm (by simp) (fun hin => ?_) rfl
      exact Map.contains_insert_iff.mpr (.inr hin)
    · exact hmode
  · exact hb

/-- A file is removed, which leaves the others alone, or the removal fails. -/
theorem removeFile_spares (h : Host Id Path) (env : Env Path) (rel : Path)
    (hrel : rel ≠ q ∨ (b.removeFile h env rel).2 = false) :
    Spares q g a (b.removeFile h env rel).1 := by
  have hmode := setMode_spares hb env rel false
  unfold removeFile at hrel ⊢
  dsimp only at hrel ⊢
  cases hfound : (b.setMode env rel false).1.disk[rel]? with
  | none => exact hmode
  | some f =>
      simp only [hfound] at hrel ⊢
      by_cases hio : env.io.remove rel = true
      · simp only [hio, if_true] at hrel ⊢
        have hne : rel ≠ q := hrel.resolve_right (by simp)
        refine (noteReplaced_spares hmode h rel).change (l := []) id rfl
          (List.append_nil _).symm (by simp) (fun hin => ?_) rfl
        exact Map.contains_erase_iff.mpr ⟨hne, hin⟩
      · simp only [hio]
        exact hmode

omit hb in
/-- What a removal notes is no publish. -/
theorem removeFile_journal (h : Host Id Path) (env : Env Path) (b : Actor Id Path)
    (rel : Path) : ∃ es, (b.removeFile h env rel).1.journal = b.journal ++ es ∧
      ∀ e ∈ es, e.publishes q = false := by
  have hmode := setMode_spares (Spares.refl (q := q) (g := True) (a := b)) env rel false
  have hnoted := noteReplaced_spares hmode h rel
  obtain ⟨es, hes, hquiet, -⟩ := hmode.effects
  obtain ⟨es', hes', hquiet', -⟩ := hnoted.effects
  unfold removeFile
  dsimp only
  split
  · exact ⟨es, hes, hquiet⟩
  · split
    · exact ⟨es', hes', hquiet'⟩
    · exact ⟨es, hes, hquiet⟩

/-! ## Pulls -/

theorem startPull_spares (rel : Path) (sender : Id) (record : FileRecord Id) :
    Spares q g a (b.startPull rel sender record) := by
  unfold startPull
  refine Spares.spawn ?_ fun _ => nofun
  split
  · exact hb
  · exact hb.same rfl rfl rfl rfl rfl

theorem beginPull_spares (rel : Path) (sender : Id) (record : FileRecord Id) :
    Spares q g a (b.beginPull rel sender record) := by
  have hjob : Spares q g a
      { b with pendingPulls := b.pendingPulls.insert rel ⟨sender, record, 0, none⟩ } :=
    hb.same rfl rfl rfl rfl rfl
  exact startPull_spares hjob rel sender record

theorem enqueuePullBacklog_spares (rel : Path) (sender : Id) (record : FileRecord Id) :
    Spares q g a (b.enqueuePullBacklog rel sender record) := by
  unfold enqueuePullBacklog
  split
  · exact (displace_spares hb rel _ record).same rfl rfl rfl rfl rfl
  · split
    · exact hb.same rfl rfl rfl rfl rfl
    · exact letGo_spares hb rel sender record

theorem drainLoop_spares (n : Nat) : Spares q g a (drainLoop n b) := by
  induction n generalizing b with
  | zero => exact hb
  | succ n ih =>
      unfold drainLoop
      split
      · split
        · exact hb
        · rename_i i rel sender record _
          have hpop : Spares q g a { b with pullBacklog := b.pullBacklog.eraseIdx i } :=
            hb.same rfl rfl rfl rfl rfl
          dsimp only
          split
          · exact ih (letGo_spares hpop rel sender record)
          · exact ih (beginPull_spares hpop rel sender record)
      · exact hb

theorem finishPull_spares (rel : Path) : Spares q g a (b.finishPull rel) := by
  refine drainLoop_spares ?_ _
  unfold nextPull
  split
  · exact hb
  · rename_i job _
    have hover : Spares q g a (if b.isPulling rel job.sender job.record then b
        else b.letGo rel job.sender job.record) := by
      split
      · exact hb
      · exact letGo_spares hb rel job.sender job.record
    generalize (if b.isPulling rel job.sender job.record then b
      else b.letGo rel job.sender job.record) = d at hover ⊢
    have hout : Spares q g a { d with pendingPulls := d.pendingPulls.erase rel } :=
      hover.same rfl rfl rfl rfl rfl
    dsimp only
    split
    · exact beginPull_spares hout rel _ _
    · exact hout

theorem schedulePull_spares (rel : Path) (sender : Id) (record : FileRecord Id) :
    Spares q g a (b.schedulePull rel sender record) := by
  unfold schedulePull
  split
  · split
    · exact hb
    · exact (displace_spares hb rel _ record).same rfl rfl rfl rfl rfl
  · split
    · exact enqueuePullBacklog_spares hb rel sender record
    · exact beginPull_spares hb rel sender record

/-! ## Applying and reconciling -/

theorem mute_spares (env : Env Path) (rel : Path) : Spares q g a (b.mute env rel) :=
  hb.same rfl rfl rfl rfl rfl

theorem pushHistory_spares (rel : Path) (r : Option (FileRecord Id)) :
    Spares q g a (b.pushHistory rel r) := by
  cases r with
  | none => exact hb
  | some r => exact hb.same rfl rfl rfl rfl rfl

omit hb in
theorem revival_publishes (b : Actor Id Path) (rel : Path) (record : FileRecord Id) :
    ∀ e ∈ b.revival rel record, e.publishes q = false := by
  intro e he
  unfold revival at he
  dsimp only at he
  split at he
  · rw [List.mem_singleton.mp he]
    rfl
  · cases he

theorem commitApplied_spares {rel : Path} (hrel : rel ≠ q) (record : FileRecord Id)
    (staged : Option Bytes) : Spares q g a (b.commitApplied rel record staged) := by
  refine hb.change (d := b.commitApplied rel record staged)
    (l := .applied rel record b.files[rel]? (b.locks.isHeldByMe rel) :: b.revival rel record)
    id (congrArg Option.isSome (Map.get_insert_ne _ _ hrel)) rfl (fun e he => ?_) id rfl
  rcases List.mem_cons.mp he with rfl | he
  · rfl
  · exact revival_publishes b rel record e he

/-- A commit spares the other paths, and publishes nothing if it is a tombstone or goes on
from a live record. -/
theorem commitLocal_spares {kind : CommitKind} {rel : Path} {record : FileRecord Id}
    (hrel : rel ≠ q ∨ b.files[rel]?.isSome = true ∧
      (record.deleted = true ∨ FileRecord.isLive b.files[rel]? = true)) :
    Spares q g a (b.commitLocal kind rel record) := by
  have hquiet : ∀ e ∈ Effect.committed kind rel record b.files[rel]? (b.locks.isHeldByMe rel) ::
      b.revival rel record, e.publishes q = false := by
    intro e he
    rcases List.mem_cons.mp he with rfl | he
    · show (decide (rel = q) && !record.deleted && !FileRecord.isLive b.files[rel]?) = false
      rcases hrel with hne | ⟨-, hdel | hlive⟩
      · rw [decide_eq_false hne]
        rfl
      · rw [hdel]
        simp
      · rw [hlive]
        simp
    · exact revival_publishes b rel record e he
  refine hb.change (d := b.commitLocal kind rel record) id ?_ rfl hquiet id rfl
  change (b.files.insert rel record)[q]?.isSome = b.files[q]?.isSome
  rw [Map.get_insert]
  split
  · rename_i heq
    obtain ⟨hsome, -⟩ := hrel.resolve_left (not_not_intro heq)
    rw [← heq, hsome]
    rfl
  · rfl

theorem prepareApply_spares (env : Env Path) (rel : Path) :
    Spares q g a (b.prepareApply env rel) := by
  unfold prepareApply
  dsimp only
  refine pushHistory_spares (mute_spares ?_ env rel) rel _
  split
  · exact quarantine_spares hb env rel
  · exact hb

theorem applyToDisk_spares (h : Host Id Path) (env : Env Path) {rel : Path}
    {record : FileRecord Id} {staged : Option Bytes}
    (hrel : rel ≠ q ∨ (b.applyToDisk h env rel record staged).2 = false) :
    Spares q g a (b.applyToDisk h env rel record staged).1 := by
  unfold applyToDisk at hrel ⊢
  by_cases hdel : record.deleted = true
  · simp only [hdel, if_true] at hrel ⊢
    exact removeFile_spares hb h env rel hrel
  · rw [if_neg hdel]
    cases staged with
    | none => exact hb
    | some bytes =>
        have hwritten := persistTemp_spares hb h env rel bytes
        dsimp only
        split
        · rename_i d hd
          rw [hd] at hwritten
          exact hwritten
        · rename_i d hd
          rw [hd] at hwritten
          dsimp only at hwritten
          split
          · exact setMode_spares hwritten env rel true
          · exact hwritten

section Cycle

variable {h : Host Id Path} {env : Env Path} {rebuild : Actor Id Path → Actor Id Path}
  (hre : ∀ d, Spares q g d (rebuild d))

include hre

/-- A tombstone is applied to the path only if there is a record. -/
theorem applyNow_spares {rel : Path} {sender : Id} {record : FileRecord Id}
    {staged : Option Bytes}
    (hrel : rel = q → record.deleted = true ∧ b.files[q]?.isSome = true) :
    Spares q g a (b.applyNow rebuild h env rel sender record staged) := by
  have hprepared := prepareApply_spares hb env rel
  have hletgo : ∀ d, (b.prepareApply env rel).applyToDisk h env rel record staged = (d, false) →
      Spares q g a d := fun d hd => by
    have hkept := applyToDisk_spares hprepared h env (.inr (congrArg Prod.snd hd))
    rw [hd] at hkept
    exact hkept
  have happlied : ∀ d, (b.prepareApply env rel).applyToDisk h env rel record staged = (d, true) →
      Spares q g a (d.commitApplied rel record staged) := fun d hd => by
    by_cases hne : rel = q
    · obtain ⟨hdel, hsome⟩ := hrel hne
      subst hne
      unfold applyToDisk at hd
      rw [if_pos hdel] at hd
      -- the removal and the commit count as one change
      obtain ⟨es, hes, hquiet⟩ := removeFile_journal (q := rel) h env (b.prepareApply env rel) rel
      obtain ⟨_, _, _, _, _, _, hout⟩ := removeFile_onDisk h env (b.prepareApply env rel) rel
      rw [hd] at hes hout
      change d = _ at hout
      have hfiles : (b.prepareApply env rel).files[rel]?.isSome = true :=
        (prepareApply_spares (Spares.refl (q := rel) (g := g) (a := b)) env rel).indexed hsome
      refine hprepared.bury (d := d.commitApplied rel record staged)
        (l := es ++ (.applied rel record d.files[rel]? (d.locks.isHeldByMe rel) ::
          d.revival rel record)) hfiles (fun hr => ?_) ?_ ?_ (fun e he => ?_)
        (List.mem_append_right _ List.mem_cons_self) ?_ (show d.tasks = _ by rw [hout])
      · change d.autolockPending[rel]? = none
        rw [hout]
        exact hr
      · change (d.files.insert rel _)[rel]?.isSome = true
        rw [Map.get_insert_self]
        rfl
      · rw [← List.append_assoc, ← hes]
        rfl
      · rcases List.mem_append.mp he with he | he
        · exact hquiet e he
        · rcases List.mem_cons.mp he with rfl | he
          · rfl
          · exact revival_publishes d rel record e he
      · show (decide (rel = rel) && record.deleted) = true
        rw [hdel]
        simp
    · have hkept : Spares q g a
          ((b.prepareApply env rel).applyToDisk h env rel record staged).1 :=
        applyToDisk_spares hprepared h env (.inl hne)
      rw [hd] at hkept
      exact commitApplied_spares hkept hne record staged
  unfold applyNow
  refine finishPull_spares ?_ rel
  split
  · rename_i d hd
    dsimp only
    split
    · exact (happlied d hd).trans (hre _)
    · exact happlied d hd
  · rename_i d hd
    exact letGo_spares (hletgo d hd) rel sender record

theorem applyRemoteWith_spares {rel : Path} {sender : Id} {record : FileRecord Id}
    {staged : Option Bytes}
    (hrel : rel = q → record.deleted = true ∧ b.files[q]?.isSome = true) :
    Spares q g a (b.applyRemoteWith rebuild h env rel sender record staged) := by
  unfold applyRemoteWith
  split
  · exact (displace_spares hb rel _ record).same rfl rfl rfl rfl rfl
  · split
    · exact finishPull_spares hb rel
    · exact applyNow_spares hb hre hrel

theorem maybePullWith_spares {rel : Path} {sender : Id} {record : FileRecord Id}
    (hrel : rel = q → record.deleted = true → b.files[q]?.isSome = true) :
    Spares q g a (b.maybePullWith rebuild h env rel sender record) := by
  unfold maybePullWith
  split
  · exact letGo_spares hb rel sender record
  · split
    · rename_i hdel
      have hclear : Spares q g a { b with unapplied := b.unapplied.erase rel } :=
        hb.same rfl rfl rfl rfl rfl
      exact applyRemoteWith_spares hclear hre fun heq => ⟨hdel, hrel heq hdel⟩
    · split
      · have hgone := letGo_spares hb rel sender record
        unfold hold
        split
        · split
          · exact hgone
          · exact hgone.same rfl rfl rfl rfl rfl
        · exact hgone.same rfl rfl rfl rfl rfl
      · exact schedulePull_spares hb rel sender record

theorem onConcurrentWith_spares {rel : Path} {sender : Id} {record : FileRecord Id}
    (hrel : rel = q → b.files[q]?.isSome = true) :
    Spares q g a (b.onConcurrentWith rebuild h env rel sender record) := by
  unfold onConcurrentWith
  split
  · split
    · exact letGo_spares hb rel sender record
    · rename_i mine hmine
      refine commitLocal_spares (tick_spares hb) (.inr ⟨?_, ?_⟩)
      · change b.files[rel]?.isSome = true
        rw [hmine]
        rfl
      · change mine.deleted = true ∨ FileRecord.isLive b.files[rel]? = true
        rw [hmine]
        cases hdel : mine.deleted with
        | true => exact .inl rfl
        | false => exact .inr (by simp [FileRecord.isLive, hdel])
  · refine maybePullWith_spares (quarantine_spares hb env rel) hre fun heq _ => ?_
    exact (quarantine_spares (Spares.refl (q := q) (g := g) (a := b)) env rel).indexed (hrel heq)

theorem reconcileOneWith_spares {rel : Path} {sender : Id} {record : FileRecord Id} :
    Spares q g a (b.reconcileOneWith rebuild h env sender rel record) := by
  have hclear : Spares q g a (b.maybeClearUnapplied rel record) := by
    unfold maybeClearUnapplied
    split
    · exact hb.same rfl rfl rfl rfl rfl
    · exact hb
  unfold reconcileOneWith
  dsimp only
  cases hmine : (b.maybeClearUnapplied rel record).files[rel]? with
  | none =>
      dsimp only
      split
      · exact hclear.same rfl rfl rfl rfl rfl
      · rename_i hlive
        exact maybePullWith_spares hclear hre fun _ hdel => absurd hdel hlive
  | some mine =>
      have hknown : rel = q → (b.maybeClearUnapplied rel record).files[q]?.isSome = true := by
        rintro rfl
        rw [hmine]
        rfl
      dsimp only
      split
      · exact maybePullWith_spares hclear hre fun heq _ => hknown heq
      · exact onConcurrentWith_spares hclear hre hknown
      · exact hclear
      · exact hclear

omit hb hre in
/-- A tombstone that is news, and a conflict, are about a record that is there. -/
theorem diff_known {records : Map Path (FileRecord Id)} {record : FileRecord Id}
    (hrecord : records[q]? = some record) :
    (q ∈ (diff b.files records.toList).pull → record.deleted = true →
      b.files[q]?.isSome = true) ∧
    (q ∈ (diff b.files records.toList).conflicts → b.files[q]?.isSome = true) := by
  rw [diff_eq]
  refine ⟨fun hpull hdel => ?_, fun hconflict => ?_⟩
  · obtain ⟨⟨p, r⟩, he, rfl⟩ := List.mem_map.mp hpull
    obtain ⟨hin, hnews⟩ := List.mem_filter.mp he
    obtain rfl : record = r := Option.some.inj (hrecord.symm.trans (Map.mem_toList.mp hin))
    simp only [isNews] at hnews
    split at hnews
    · rw [hdel] at hnews
      cases hnews
    · rename_i hmine
      exact Option.isSome_of_mem hmine
  · obtain ⟨⟨p, r⟩, he, rfl⟩ := List.mem_map.mp hconflict
    obtain ⟨-, hconc⟩ := List.mem_filter.mp he
    simp only [isConflict] at hconc
    split at hconc
    · cases hconc
    · rename_i hmine
      exact Option.isSome_of_mem hmine

theorem reconcileWith_spares (sender : Id) :
    Spares q g a (b.reconcileWith rebuild h env sender) := by
  refine hb.trans ?_
  unfold reconcileWith
  cases hbooks : b.peerIndex[sender]? with
  | none => exact .refl
  | some records =>
      have hskip : Spares q g b ((b.clearDeleted records).skipUnknown sender records.toList) :=
        Spares.refl.same rfl rfl rfl rfl rfl
      -- what is known before the first record is known before each of them
      refine Spares.foldl (Spares.foldl hskip fun d rel hmem hd => ?_) fun d rel hmem hd => ?_
      · cases hrecord : records[rel]? with
        | none => exact hd
        | some record =>
            refine maybePullWith_spares hd hre ?_
            rintro rfl hdel
            exact hd.indexed ((diff_known hrecord).1 hmem hdel)
      · cases hrecord : records[rel]? with
        | none => exact hd
        | some record =>
            refine onConcurrentWith_spares hd hre ?_
            rintro rfl
            exact hd.indexed ((diff_known hrecord).2 hmem)

theorem releaseHeld_spares (rel : Path) : Spares q g a (b.releaseHeld rebuild h env rel) := by
  have hclear : Spares q g a { b with unapplied := b.unapplied.erase rel } :=
    hb.same rfl rfl rfl rfl rfl
  unfold releaseHeld
  dsimp only
  split
  · exact reconcileOneWith_spares hclear hre
  · exact hclear

theorem rebuildIgnoreWith_spares : Spares q g a (b.rebuildIgnoreWith rebuild h env) := by
  have hload : Spares q g a (b.reloadRules h) := hb.same rfl rfl rfl rfl rfl
  exact Spares.foldl hload fun d rel _ hd => releaseHeld_spares hd hre rel

end Cycle

variable (h : Host Id Path) (env : Env Path)

theorem rebuildIgnore_spares : Spares q g a (b.rebuildIgnore h env) := by
  have hN : ∀ n (d : Actor Id Path), Spares q g d (rebuildIgnoreN h env n d) := by
    intro n
    induction n with
    | zero => exact fun d => .refl
    | succ n ih => exact fun d => rebuildIgnoreWith_spares .refl ih
  exact hb.trans (hN 2 b)

theorem reconcileOne_spares (sender : Id) (rel : Path) (record : FileRecord Id) :
    Spares q g a (b.reconcileOne h env sender rel record) :=
  reconcileOneWith_spares hb fun _ => rebuildIgnore_spares .refl h env

theorem reconcile_spares (sender : Id) : Spares q g a (b.reconcile h env sender) :=
  reconcileWith_spares hb (fun _ => rebuildIgnore_spares .refl h env) sender

theorem applyRemote_spares {rel : Path} (hrel : rel ≠ q) (sender : Id)
    (record : FileRecord Id) (staged : Option Bytes) :
    Spares q g a (b.applyRemote h env rel sender record staged) :=
  applyRemoteWith_spares hb (fun _ => rebuildIgnore_spares .refl h env) fun heq =>
    absurd heq hrel

theorem onPullStaged_spares {rel : Path} (hrel : rel ≠ q) (sender : Id)
    (record : FileRecord Id) (result : Option Bytes) :
    Spares q g a (b.onPullStaged h env rel sender record result) := by
  unfold onPullStaged
  split
  · exact applyRemote_spares hb h env hrel sender record _
  · split
    · exact finishPull_spares (letGo_spares hb rel sender record) rel
    · rename_i job hjob
      have hretried : Spares q g a { b with
          pendingPulls := b.pendingPulls.insert rel { job with attempts := job.attempts + 1 } } :=
        hb.same rfl rfl rfl rfl rfl
      dsimp only
      split
      · exact (displace_spares hretried rel _ _).spawn fun _ => nofun
      · exact finishPull_spares (letGo_spares hretried rel sender record) rel

theorem onPullRetry_spares (rel : Path) : Spares q g a (b.onPullRetry rel) := by
  unfold onPullRetry
  split
  · exact startPull_spares hb rel _ _
  · exact hb

/-! ## The watch pipeline -/

omit [LinearOrder Path] hb in
/-- A task that works on another path. -/
theorem worksOn_ne {t : Task Id Path} {rel : Path} (ht : t.worksOn = some rel)
    (hrel : g → rel ≠ q) : g → t.worksOn ≠ some q := fun hg heq =>
  hrel hg (Option.some.inj (ht.symm.trans heq))

theorem recheck_spares (recheck : Map Path Unit) : Spares q g a { b with recheck } :=
  hb.same rfl rfl rfl rfl rfl

theorem busy_spares (busy : Map Path Unit) : Spares q g a { b with busy } :=
  hb.same rfl rfl rfl rfl rfl

theorem inspect_spares {rel : Path} (hrel : g → rel ≠ q) (cause : InspectCause) :
    Spares q g a (b.inspect rel cause) :=
  (busy_spares hb _).spawn (worksOn_ne rfl hrel)

/-- A watch event does nothing to a file but look at it, and to a held one not even that. -/
theorem onWatch_spares (rel : Path)
    (hrel : g → rel = q → rel ≠ h.ignoreFile ∧ FileRecord.isLive b.files[rel]? = false ∧
      (b.verdict h rel (b.sizeOnDisk rel)).isSome = true) :
    Spares q g a (b.onWatch h env rel) := by
  have hmuted : Spares q g a (b.isMuted env rel).1 := hb.same rfl rfl rfl rfl rfl
  obtain ⟨muted, hout⟩ : ∃ muted, (b.isMuted env rel).1 = { b with muted } := ⟨_, rfl⟩
  unfold onWatch
  generalize b.isMuted env rel = r at hmuted hout ⊢
  obtain ⟨d, now⟩ := r
  dsimp only at hmuted hout ⊢
  have hfiles : d.files = b.files := by rw [hout]
  have hverdict : d.verdict h rel (d.sizeOnDisk rel) = b.verdict h rel (b.sizeOnDisk rel) := by
    rw [hout]
    rfl
  split
  · exact hmuted
  · split
    · exact hmuted.same rfl rfl rfl rfl rfl
    · split
      · rename_i hrules
        exact inspect_spares (rebuildIgnore_spares hmuted h env)
          (fun hg heq => (hrel hg heq).1 hrules) .watch
      · split
        · rename_i hlive
          rw [hfiles] at hlive
          refine inspect_spares hmuted (fun hg heq => ?_) .watch
          rw [(hrel hg heq).2.1] at hlive
          cases hlive
        · split
          · split <;> exact hmuted.same rfl rfl rfl rfl rfl
          · rename_i hsync
            rw [hverdict] at hsync
            have hseen : Spares q g a { d with heldLocal := d.heldLocal.erase rel } :=
              hmuted.same rfl rfl rfl rfl rfl
            refine inspect_spares hseen (fun hg heq => ?_) .watch
            have hheld := (hrel hg heq).2.2
            rw [hsync] at hheld
            cases hheld

/-- The operation on another path is over. -/
theorem unbusy_spares {rel : Path} (hrel : rel ≠ q) : Spares q g a (b.unbusy h env rel) := by
  unfold unbusy
  have hfree : Spares q g a { b with busy := b.busy.erase rel } := hb.same rfl rfl rfl rfl rfl
  have htaken : Spares q g a
      (takeUp h env { b with busy := b.busy.erase rel } rel) := by
    unfold takeUp
    split
    · exact hfree
    · have hout : Spares q g a
          { b with busy := b.busy.erase rel, deferred := b.deferred.erase rel } :=
        hfree.same rfl rfl rfl rfl rfl
      exact applyRemote_spares hout h env hrel _ _ _
  dsimp only at htaken ⊢
  split
  · exact inspect_spares (recheck_spares htaken _) (fun _ => hrel) .watch
  · exact htaken

theorem spawnPublish_spares {rel : Path} (hrel : g → rel ≠ q) (cause : PublishCause) :
    Spares q g a (b.spawnPublish rel cause) :=
  (busy_spares hb _).spawn (worksOn_ne rfl hrel)

theorem finishUnlock_spares (rel : Path) (ok : Bool) (r : Nat) :
    Spares q g a (b.finishUnlock env rel ok r) := by
  unfold finishUnlock
  have hreleased : Spares q g a { b with
      pendingUnlocks := b.pendingUnlocks.erase rel
      locks := b.locks.onRelease rel b.me
      autolockIdle := b.autolockIdle.erase rel } := hb.same rfl rfl rfl rfl rfl
  have hsent := broadcast_spares (broadcast_spares (settleMode_spares hreleased env rel)
    (.lock (.lockRelease rel))) (.lockFreed rel)
  dsimp only at hsent ⊢
  split
  · exact reply_spares hsent r _
  · exact reply_spares hsent r _

theorem commitPublished_spares {rel : Path} (hrel : rel ≠ q) (p : Published)
    (cause : PublishCause) : Spares q g a (b.commitPublished env rel p cause) := by
  unfold commitPublished
  dsimp only
  split_ifs
  · exact hb.same rfl rfl rfl rfl rfl
  · have hforgot : Spares q g a (b.forget rel) := hb.same rfl rfl rfl rfl rfl
    have hpushed := pushHistory_spares hforgot rel b.files[rel]?
    exact (commitLocal_spares (tick_spares hpushed) (.inl hrel)).same rfl rfl rfl rfl rfl

theorem commitTombstone_spares (rel : Path) : Spares q g a (b.commitTombstone env rel) := by
  unfold commitTombstone
  split
  · exact hb
  · rename_i prev hprev
    split
    · exact hb
    · have hpushed : Spares q g a ((b.pushHistory rel (some prev)).forget rel) :=
        (pushHistory_spares hb rel (some prev)).same rfl rfl rfl rfl rfl
      refine commitLocal_spares (tick_spares hpushed) (.inr ⟨?_, .inl rfl⟩)
      change b.files[rel]?.isSome = true
      rw [hprev]
      rfl

/-- The end of a publish of another path. -/
theorem publishOver_spares {rel : Path} (hrel : rel ≠ q) (cause : PublishCause) (ok : Bool) :
    Spares q g a (match cause with
      | .unlock r => (b.unbusy h env rel).finishUnlock env rel ok r
      | _ => b.unbusy h env rel) := by
  have hfree := unbusy_spares hb h env hrel
  cases cause with
  | unlock r => exact finishUnlock_spares hfree env rel ok r
  | edit => exact hfree
  | «import» => exact hfree

theorem onPublishDone_spares {rel : Path} (hrel : rel ≠ q) (result : Option Published)
    (cause : PublishCause) : Spares q g a (b.onPublishDone h env rel result cause) := by
  unfold onPublishDone
  dsimp only
  cases result with
  | none =>
      simp only [ite_self]
      refine publishOver_spares ?_ h env hrel cause _
      split
      · exact hb.same rfl rfl rfl rfl rfl
      · exact hb
  | some p =>
      by_cases hallowed : (b.locks.isHeldByMe rel || decide (cause = .import)) = true
      · rw [if_pos hallowed]
        have hdone := commitPublished_spares hb env hrel p cause
        refine publishOver_spares ?_ h env hrel cause _
        dsimp only
        split
        · exact settleMode_spares hdone env rel
        · exact hdone
      · rw [if_neg hallowed]
        exact publishOver_spares hb h env hrel cause _

theorem spawnViolation_spares {rel : Path} (hrel : rel ≠ q) (quarantineFirst : Bool) :
    Spares q g a (b.spawnViolation h env rel quarantineFirst) := by
  unfold spawnViolation
  split
  · exact unbusy_spares hb h env hrel
  · exact (busy_spares hb _).spawn (worksOn_ne rfl fun _ => hrel)

theorem knowIfIndexed_spares (rel : Path) (bytes : Bytes) :
    Spares q g a (b.knowIfIndexed h rel bytes) := by
  unfold knowIfIndexed
  split
  · split <;> exact hb.same rfl rfl rfl rfl rfl
  · exact hb.same rfl rfl rfl rfl rfl

theorem onViolationStaged_spares {rel : Path} (hrel : rel ≠ q) (result : Option Bytes)
    (quarantined : Option (CopyName Path)) (preserveRequired : Bool) :
    Spares q g a (b.onViolationStaged h env rel result quarantined preserveRequired) := by
  unfold onViolationStaged
  split
  · exact unbusy_spares hb h env hrel
  · refine unbusy_spares ?_ h env hrel
    split
    · exact hb
    · rename_i bytes
      have hwritten := persistTemp_spares (mute_spares hb env rel) h env rel bytes
      split
      · rename_i d hd
        rw [hd] at hwritten
        exact hwritten
      · rename_i d hd
        rw [hd] at hwritten
        have hknown := knowIfIndexed_spares hwritten h rel bytes
        dsimp only
        split
        · exact setMode_spares hknown env rel true
        · exact hknown

theorem violationNewFile_spares {rel : Path} (hrel : rel ≠ q) :
    Spares q g a (b.violationNewFile h env rel) := by
  have hcopied := quarantine_spares hb env rel
  unfold violationNewFile
  split
  · rename_i d hd
    rw [hd] at hcopied
    exact hcopied
  · rename_i d _ hd
    rw [hd] at hcopied
    exact removeFile_spares (mute_spares hcopied env rel) h env rel (.inl hrel)

/-! ## Autolock -/

theorem spawnAutolock_spares {rel : Path} (hrel : rel ≠ q) (newFile : Bool) :
    Spares q g a (b.spawnAutolock rel newFile) :=
  (busy_spares hb _).spawn (worksOn_ne rfl fun _ => hrel)

theorem autolockFail_spares {rel : Path} (hrel : rel ≠ q)
    (quarantined : Option (CopyName Path)) (newFile : Bool) :
    Spares q g a (b.autolockFail h env rel quarantined newFile) := by
  have hforgot : Spares q g a { b with autolockPending := b.autolockPending.erase rel } :=
    hb.change (l := []) (fun hr => (Map.get_erase_ne _ hrel).trans hr) rfl
      (List.append_nil _).symm (by simp) id rfl
  unfold autolockFail
  dsimp only
  split
  · exact unbusy_spares hforgot h env hrel
  · split
    · exact unbusy_spares (removeFile_spares (mute_spares hforgot env rel) h env rel
        (.inl hrel)) h env hrel
    · split
      · exact unbusy_spares hforgot h env hrel
      · exact hforgot.spawn (worksOn_ne rfl fun _ => hrel)

theorem startAcquire_spares (rel : Path) (waiter : Option Nat) :
    Spares q g a (b.startAcquire env rel waiter).1 := by
  have hticked := tick_spares hb
  unfold startAcquire
  dsimp only
  split
  · exact hticked.same rfl rfl rfl rfl rfl
  · rename_i locks _ _
    have hpending : Spares q g a { b.tick with
        locks, pendingAcquires := b.tick.pendingAcquires.insert rel (b.tick.lamport, waiter) } :=
      hticked.same rfl rfl rfl rfl rfl
    exact (broadcast_spares hpending _).spawn fun _ => nofun

theorem beginAutolockAcquire_spares {rel : Path} (hrel : rel ≠ q)
    (quarantined : Option (CopyName Path)) (newFile : Bool) :
    Spares q g a (b.beginAutolockAcquire h env rel quarantined newFile) := by
  have hfree : Spares q g a { b with busy := b.busy.erase rel } := hb.same rfl rfl rfl rfl rfl
  have hbusy : Spares q g a { b with busy := (b.busy.erase rel).insert rel () } :=
    hb.same rfl rfl rfl rfl rfl
  have hstarted := startAcquire_spares hbusy env rel none
  unfold beginAutolockAcquire
  dsimp only
  split
  · exact autolockFail_spares hfree h env hrel quarantined newFile
  · split
    · rename_i d e hd
      rw [hd] at hstarted
      exact autolockFail_spares hstarted h env hrel quarantined newFile
    · rename_i d hd
      rw [hd] at hstarted
      exact hstarted.change (l := []) (fun hr => (Map.get_insert_ne _ _ hrel).trans hr) rfl
        (List.append_nil _).symm (by simp) id rfl

omit hb in
/-- As long as `q` has no autolock round, a round is one of another path. -/
theorem ne_of_round (hb : Spares q g a b) (hfree : a.autolockPending[q]? = none)
    {rel : Path} {round : Option (CopyName Path) × Bool}
    (hround : b.autolockPending[rel]? = some round) : rel ≠ q := by
  rintro rfl
  rw [hb.rounds hfree] at hround
  cases hround

theorem autolockSucceed_spares (hfree : a.autolockPending[q]? = none) (rel : Path) :
    Spares q g a (b.autolockSucceed env rel) := by
  unfold autolockSucceed
  split
  · exact hb
  · rename_i hround
    have hne := ne_of_round hb hfree hround
    have hover : Spares q g a { b with
        autolockPending := b.autolockPending.erase rel
        autolockIdle := b.autolockIdle.insert rel (env.now + autolockIdleRelease) } :=
      hb.change (l := []) (fun hr => (Map.get_erase_ne _ hne).trans hr) rfl
        (List.append_nil _).symm (by simp) id rfl
    exact spawnPublish_spares hover (fun _ => hne) .edit

/-- An autolock round that has ended fails, which is none of `q` as long as `q` has none. -/
theorem roundOver_spares (hfree : a.autolockPending[q]? = none) {rel : Path}
    {f : Actor Id Path} (hf : Spares q g a f) :
    Spares q g a (match b.autolockPending[rel]? with
      | some (quarantined, newFile) => b.autolockFail h env rel quarantined newFile
      | none => f) := by
  cases hround : b.autolockPending[rel]? with
  | none => exact hf
  | some round =>
      exact autolockFail_spares hb h env (ne_of_round hb hfree hround) round.1 round.2

/-! ## The result of an inspection -/

theorem onWatchInspected_spares {rel : Path} (hrel : rel ≠ q) (outcome : Inspection) :
    Spares q g a (b.onWatchInspected h env rel outcome) := by
  have hedit : Spares q g a ((if b.autolockIdle.contains rel then
      { b with autolockIdle := b.autolockIdle.insert rel (env.now + autolockIdleRelease) }
      else b).spawnPublish rel .edit) := by
    refine spawnPublish_spares ?_ (fun _ => hrel) .edit
    split
    · exact hb.same rfl rfl rfl rfl rfl
    · exact hb
  unfold onWatchInspected
  cases outcome with
  | clean => exact unbusy_spares hb h env hrel
  | differs =>
      cases b.locks.isHeldByMe rel with
      | true => exact hedit
      | false =>
          dsimp only
          split
          · exact spawnAutolock_spares hb hrel false
          · exact spawnViolation_spares hb h env hrel true
  | missingIndexed =>
      cases b.locks.isHeldByMe rel with
      | true => exact unbusy_spares (commitTombstone_spares hb env rel) h env hrel
      | false => exact spawnViolation_spares hb h env hrel false
  | unindexed =>
      cases b.locks.isHeldByMe rel with
      | true => exact hedit
      | false =>
          dsimp only
          split
          · exact spawnAutolock_spares hb hrel true
          · exact unbusy_spares (violationNewFile_spares hb h env hrel) h env hrel

theorem onInspected_spares {rel : Path} (hrel : rel ≠ q) (outcome : Except String Inspection)
    (cause : InspectCause) : Spares q g a (b.onInspected h env rel outcome cause) := by
  unfold onInspected
  split
  · exact unbusy_spares (reply_spares hb _ _) h env hrel
  · exact unbusy_spares hb h env hrel
  · exact onWatchInspected_spares hb h env hrel _
  · unfold onUnlockInspected
    split
    · exact finishUnlock_spares (unbusy_spares hb h env hrel) env rel true _
    · exact spawnPublish_spares hb (fun _ => hrel) _
    · exact spawnPublish_spares hb (fun _ => hrel) _
    · exact finishUnlock_spares (unbusy_spares (commitTombstone_spares hb env rel) h env hrel)
        env rel true _

end Tazamun.Actor
