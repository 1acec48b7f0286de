import Tazamun.Turn.Runs

set_option autoImplicit false

/-! # What an apply leaves on disk

`apply_remote` finds a writable file where a settled one would be read-only: the file carries
an edit without a lease. It copies the bytes to quarantine and then overwrites or removes the
file. This module is about the case where the copy fails. The code warns and goes on, so the
bytes stay only if something else stops the apply: the path is busy and the record is
deferred, the own record is as new, or the overwriting itself fails.

A file is `Untouched` if its bytes are the same and the journal has no entry that says they
were replaced; a rewrite with the same bytes is a replacement too.
-/

namespace Tazamun

open Lib

variable {Id Path : Type} [LinearOrder Id] [LinearOrder Path]

/-- The entry says that the file at `rel` was overwritten or removed. -/
def Effect.replaces (rel : Path) : Effect Id Path → Bool
  | .replaced p _ _ _ => decide (p = rel)
  | _ => false

namespace Actor

/-- Between `a` and `b` the file at `rel` was neither overwritten nor removed. -/
structure Untouched (a b : Actor Id Path) (rel : Path) : Prop where
  bytes : b.disk[rel]?.map DiskFile.bytes = a.disk[rel]?.map DiskFile.bytes
  journal : ∃ es, b.journal = a.journal ++ es ∧ ∀ e ∈ es, e.replaces rel = false

/-- The overwriting or the removal of the file itself fails. -/
def diskStepFails (env : Env Path) (rel : Path) (record : FileRecord Id)
    (staged : Option Bytes) : Bool :=
  if record.deleted then !env.io.remove rel
  else staged.isNone || !env.io.createDir rel || !env.io.persist rel

/-! ## Steps that leave files alone -/

namespace Untouched

variable {a b d : Actor Id Path} {rel : Path}

theorem refl : Untouched a a rel := ⟨rfl, [], by simp, by simp⟩

theorem trans (h : Untouched a b rel) (h' : Untouched b d rel) : Untouched a d rel := by
  obtain ⟨es, he, hes⟩ := h.journal
  obtain ⟨es', he', hes'⟩ := h'.journal
  refine ⟨h'.bytes.trans h.bytes, es ++ es', ?_, ?_⟩
  · rw [he', he, List.append_assoc]
  · intro e hmem
    rcases List.mem_append.mp hmem with hmem | hmem
    · exact hes e hmem
    · exact hes' e hmem

/-- The disk is the same, and the journal notes losses at most. -/
theorem of_losses {es : List (Effect Id Path)} (hdisk : b.disk = a.disk)
    (hjournal : b.journal = a.journal ++ es) (hes : ∀ e ∈ es, e.isLoss = true) :
    Untouched a b rel := by
  refine ⟨by rw [hdisk], es, hjournal, ?_⟩
  intro e he
  have hloss := hes e he
  cases e with
  | replaced p bytes preserved undisturbed => cases hloss
  | _ => rfl

theorem of_eq (hdisk : b.disk = a.disk) (hjournal : b.journal = a.journal) :
    Untouched a b rel :=
  of_losses hdisk (by rw [hjournal, List.append_nil]) (by simp)

/-- An entry that says the file was replaced rules it out. -/
theorem not_of_replaced {e : Effect Id Path} (he : e.replaces rel = true)
    (hjournal : a.journal ++ [e] <+: b.journal) : ¬ Untouched a b rel := by
  rintro ⟨-, es, hes, hno⟩
  obtain ⟨rest, hrest⟩ := hjournal
  rw [hes, List.append_assoc] at hrest
  have heq : [e] ++ rest = es := List.append_cancel_left hrest
  have hmem : e ∈ es := by rw [← heq]; exact List.mem_cons_self
  rw [hno e hmem] at he
  cases he

end Untouched

theorem letGo_untouched (a : Actor Id Path) (rel p : Path) (sender : Id)
    (record : FileRecord Id) : Untouched a (a.letGo p sender record) rel := by
  refine .of_losses rfl rfl ?_
  intro e he
  unfold loss at he
  split at he
  · cases he
  · rw [List.mem_singleton.mp he]
    rfl

theorem displace_untouched (a : Actor Id Path) (rel p : Path) (old : Option (Id × FileRecord Id))
    (new : FileRecord Id) : Untouched a (a.displace p old new) rel := by
  unfold displace
  split
  · exact .of_eq rfl (by simp)
  · rename_i sender record
    split
    · exact .of_eq rfl (by simp)
    · exact .of_eq rfl (by simp)
    · exact letGo_untouched a rel p sender record
    · exact letGo_untouched a rel p sender record

theorem beginPull_untouched (a : Actor Id Path) (rel p : Path) (sender : Id)
    (record : FileRecord Id) : Untouched a (a.beginPull p sender record) rel := by
  unfold beginPull startPull
  dsimp only
  split <;> exact .of_eq rfl rfl

theorem drainLoop_untouched (n : Nat) (a : Actor Id Path) (rel : Path) :
    Untouched a (drainLoop n a) rel := by
  induction n generalizing a with
  | zero => exact .refl
  | succ n ih =>
      unfold drainLoop
      split
      · split
        · exact .refl
        · rename_i i p sender record _
          -- taking the entry off the backlog changes neither disk nor journal
          have hpop : Untouched a { a with pullBacklog := a.pullBacklog.eraseIdx i } rel :=
            .of_eq rfl rfl
          dsimp only
          split
          · exact (hpop.trans (letGo_untouched _ rel p sender record)).trans (ih _)
          · exact (hpop.trans (beginPull_untouched _ rel p sender record)).trans (ih _)
      · exact .refl

theorem nextPull_untouched (a : Actor Id Path) (rel p : Path) :
    Untouched a (a.nextPull p) rel := by
  unfold nextPull
  split
  · exact .refl
  · rename_i job _
    have hgo : Untouched a
        (if a.isPulling p job.sender job.record then a
          else a.letGo p job.sender job.record) rel := by
      split
      · exact .refl
      · exact letGo_untouched a rel p job.sender job.record
    dsimp only
    generalize (if a.isPulling p job.sender job.record then a
      else a.letGo p job.sender job.record) = b at hgo ⊢
    have hend : Untouched a { b with pendingPulls := b.pendingPulls.erase p } rel :=
      hgo.trans (.of_eq rfl rfl)
    split
    · rename_i sender record _
      exact hend.trans (beginPull_untouched _ rel p sender record)
    · exact hend

theorem finishPull_untouched (a : Actor Id Path) (rel p : Path) :
    Untouched a (a.finishPull p) rel :=
  (nextPull_untouched a rel p).trans (drainLoop_untouched _ _ rel)

@[simp] theorem noteMode_disk (a : Actor Id Path) (rel : Path) (readonly : Bool) :
    (a.noteMode rel readonly).disk = a.disk := by
  unfold noteMode
  split <;> rfl

@[simp] theorem noteMode_journal (a : Actor Id Path) (rel : Path) (readonly : Bool) :
    (a.noteMode rel readonly).journal = a.journal := by
  unfold noteMode
  split <;> rfl

theorem setMode_journal (env : Env Path) (a : Actor Id Path) (rel : Path) (readonly : Bool) :
    (a.setMode env rel readonly).1.journal = a.journal := by
  unfold setMode
  split
  · exact noteMode_journal a rel readonly
  · split
    · exact noteMode_journal _ rel readonly
    · rfl

theorem setMode_untouched (a : Actor Id Path) (env : Env Path) (rel : Path) (readonly : Bool) :
    Untouched a (a.setMode env rel readonly).1 rel := by
  refine ⟨?_, [], by rw [setMode_journal, List.append_nil], by simp⟩
  unfold setMode
  split
  · rw [noteMode_disk]
  · rename_i f hf
    split
    · dsimp only
      rw [noteMode_disk, Map.get_insert_self, hf]
      rfl
    · rfl

/-! ## The failed copy -/

/-- A copy that fails leaves everything as it was. -/
theorem quarantine_failed (a : Actor Id Path) (env : Env Path) (rel : Path)
    (hq : env.io.quarantine rel = false) : (a.quarantine env rel).1 = a := by
  unfold quarantine
  split
  · rfl
  · rw [if_neg (by simp [hq])]

/-- Up to the overwriting only the mute and the history change. -/
theorem prepareApply_failed (a : Actor Id Path) (env : Env Path) (rel : Path)
    (hq : env.io.quarantine rel = false) :
    (a.prepareApply env rel).disk = a.disk ∧ (a.prepareApply env rel).journal = a.journal := by
  have hcopy : (if a.isWritable rel then (a.quarantine env rel).1 else a) = a := by
    rw [quarantine_failed a env rel hq, ite_self]
  unfold prepareApply
  rw [hcopy]
  unfold pushHistory mute
  dsimp only
  split <;> exact ⟨rfl, rfl⟩

section Disk

variable (h : Host Id Path) (env : Env Path) {a : Actor Id Path} {rel : Path} {f : DiskFile}

/-- A file that is there is there with the same bytes after `set_writable`. -/
theorem setMode_disk (hf : a.disk[rel]? = some f) (readonly : Bool) :
    ∃ f', (a.setMode env rel readonly).1.disk[rel]? = some f' ∧ f'.bytes = f.bytes := by
  have hbytes := (setMode_untouched a env rel readonly).bytes
  rw [hf, Option.map_some] at hbytes
  exact Option.map_eq_some_iff.mp hbytes

theorem noteReplaced_journal (hf : a.disk[rel]? = some f) :
    ∃ e, e.replaces rel = true ∧ (a.noteReplaced h rel).journal = a.journal ++ [e] := by
  unfold noteReplaced
  rw [hf]
  refine ⟨_, ?_, rfl⟩
  exact decide_eq_true rfl

/-- The disk step fails and the file stays, or it notes that the file was replaced. -/
theorem applyToDisk_cases (hf : a.disk[rel]? = some f) (record : FileRecord Id)
    (staged : Option Bytes) :
    (diskStepFails env rel record staged = true ∧
      (a.applyToDisk h env rel record staged).2 = false ∧
      Untouched a (a.applyToDisk h env rel record staged).1 rel) ∨
    (diskStepFails env rel record staged = false ∧
      ∃ e, e.replaces rel = true ∧
        (a.applyToDisk h env rel record staged).1.journal = a.journal ++ [e]) := by
  obtain ⟨f', hf', -⟩ := setMode_disk env hf false
  obtain ⟨e, he, hje⟩ := noteReplaced_journal h hf'
  rw [setMode_journal] at hje
  have hmode := setMode_untouched a env rel false
  unfold applyToDisk diskStepFails
  by_cases hdel : record.deleted = true
  · -- a tombstone removes the file
    simp only [hdel, if_true, removeFile, hf']
    cases hrem : env.io.remove rel with
    | false => exact .inl ⟨rfl, rfl, hmode⟩
    | true => exact .inr ⟨rfl, e, he, hje⟩
  · simp only [hdel, Bool.false_eq_true, if_false]
    cases staged with
    | none => exact .inl ⟨rfl, rfl, .refl⟩
    | some bytes =>
        unfold persistTemp
        cases hdir : env.io.createDir rel with
        | false => exact .inl ⟨by simp, rfl, .refl⟩
        | true =>
            cases hper : env.io.persist rel with
            | false => exact .inl ⟨by simp, rfl, hmode⟩
            | true =>
                refine .inr ⟨by simp, e, he, ?_⟩
                simp only [if_true]
                split
                · rw [setMode_journal]
                  exact hje
                · exact hje

end Disk

/-- **What a failed copy costs.** A writable file whose quarantine copy fails survives the
apply of a peer's record exactly if something else stops the apply. -/
theorem applyRemote_untouched_iff (h : Host Id Path) (env : Env Path) (a : Actor Id Path)
    (rel : Path) (sender : Id) (record : FileRecord Id) (staged : Option Bytes) (f : DiskFile)
    (hf : a.disk[rel]? = some f) (_hwritable : f.readonly = false)
    (hq : env.io.quarantine rel = false) :
    Untouched a (a.applyRemote h env rel sender record staged) rel ↔
      a.busy.contains rel = true ∨ a.isCurrent rel record = true ∨
        diskStepFails env rel record staged = true := by
  unfold applyRemote applyRemoteWith
  by_cases hbusy : a.busy.contains rel = true
  · rw [if_pos hbusy]
    refine iff_of_true ?_ (.inl hbusy)
    exact (displace_untouched a rel rel _ record).trans (.of_eq rfl rfl)
  rw [if_neg hbusy]
  by_cases hcur : a.isCurrent rel record = true
  · rw [if_pos hcur]
    exact iff_of_true (finishPull_untouched a rel rel) (.inr (.inl hcur))
  rw [if_neg hcur]
  obtain ⟨hdisk, hjournal⟩ := prepareApply_failed a env rel hq
  unfold applyNow
  dsimp only
  generalize a.prepareApply env rel = b at hdisk hjournal ⊢
  have hprep : Untouched a b rel := .of_eq hdisk hjournal
  rcases applyToDisk_cases h env (hdisk ▸ hf) record staged with
    ⟨hfail, hres, hsame⟩ | ⟨hfail, e, he, hje⟩
  · -- the disk step fails, and the record is let go
    refine iff_of_true ?_ (.inr (.inr hfail))
    generalize b.applyToDisk h env rel record staged = r at hres hsame ⊢
    obtain ⟨d, ok⟩ := r
    cases hres
    exact ((hprep.trans hsame).trans (letGo_untouched d rel rel sender record)).trans
      (finishPull_untouched _ rel rel)
  · -- the entry that the disk step makes is still there at the end
    refine iff_of_false ?_ (by simp [hbusy, hcur, hfail])
    rw [hjournal] at hje
    refine Untouched.not_of_replaced he ?_
    generalize b.applyToDisk h env rel record staged = r at hje ⊢
    obtain ⟨d, ok⟩ := r
    have hd : a.journal ++ [e] <+: d.journal := by rw [← hje]
    have hend : ∀ d' : Actor Id Path, d'.journal <+: (d'.finishPull rel).journal := fun d' =>
      (@finishPull_steps _ _ _ _ (ctx h Terms.none env) [] d' rel).journal_extends
    refine hd.trans ?_
    cases ok with
    | false => exact (List.prefix_append _ _).trans (hend (d.letGo rel sender record))
    | true =>
        have hcommit : d.journal <+: (d.commitApplied rel record staged).journal :=
          List.prefix_append _ _
        dsimp only
        split
        · have hre := (@rebuildIgnore_steps _ _ _ _ (ctx h Terms.none env) []
            (d.commitApplied rel record staged)).journal_extends
          exact (hcommit.trans hre).trans (hend _)
        · exact hcommit.trans (hend _)

/-- The one file of the small daemon, made writable and edited. -/
def editedStart : Actor Nat Nat :=
  { plainStart with disk := plainStart.disk.insert 1 ⟨[9], false⟩ }

/-- Copies to quarantine fail, and so does the rename, unless `persist`. -/
def failingEnv (persist : Bool) : Env Nat :=
  { plainEnv 0 with
    io := { (plainEnv 0).io with quarantine := fun _ => false, persist := fun _ => persist } }

/-- The newer version that node 1 has of path 1. -/
def newerRecord : FileRecord Nat := plainRecord 8 (((∅ : VClock Nat).insert 0 1).insert 1 1)

/-- On a full disk the rename fails too, and the edit survives. -/
theorem applyRemote_untouched_full :
    Untouched editedStart
      (editedStart.applyRemote plainHost (failingEnv false) 1 1 newerRecord (some [8])) 1 :=
  (applyRemote_untouched_iff plainHost (failingEnv false) editedStart 1 1 newerRecord (some [8])
    ⟨[9], false⟩ (by decide +kernel) rfl rfl).mpr (.inr (.inr (by decide +kernel)))

/-- The copy fails, the rename does not, and the bytes of the edit are gone from the disk. -/
theorem edit_overwritten_uncopied :
    ∃ (a : Actor Nat Nat) (env : Env Nat) (rel : Nat) (sender : Nat) (record : FileRecord Nat)
      (staged : Option Bytes) (f : DiskFile),
      a.disk[rel]? = some f ∧ f.readonly = false ∧ env.io.quarantine rel = false ∧
        (a.applyRemote plainHost env rel sender record staged).disk[rel]?.map DiskFile.bytes ≠
          some f.bytes :=
  ⟨editedStart, failingEnv true, 1, 1, newerRecord, some [8], ⟨[9], false⟩, by decide +kernel⟩

end Actor

end Tazamun
