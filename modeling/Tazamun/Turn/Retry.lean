import Tazamun.Turn.Apply
import Tazamun.Turn.Aside

set_option autoImplicit false

/-! # An apply that fails

`apply_remote` pushes the version it is about to replace onto the history, then writes the
file, and only then takes the record over. When the file operation fails, the record is not
taken over, but the push has happened: the history begins with a version that was not
replaced. The record is not lost, so the same apply is tried again, and every try pushes the
current version once more, until it fills the history and nothing else is left of it.

At its end the apply starts the pulls that were waiting for it, and each of them writes its
resume marker. `SparesIndex` says when both are harmless.
-/

namespace Tazamun

variable {Id Path : Type} [LinearOrder Id] [LinearOrder Path]

namespace Actor

/-- Records, history and resume markers are the same. -/
structure Intact (a b : Actor Id Path) : Prop where
  files : b.files = a.files
  history : b.history = a.history
  pulling : b.pulling = a.pulling

theorem Intact.refl (a : Actor Id Path) : Intact a a := ⟨rfl, rfl, rfl⟩

theorem Intact.trans {a b d : Actor Id Path} (h : Intact a b) (h' : Intact b d) : Intact a d :=
  ⟨h'.files.trans h.files, h'.history.trans h.history, h'.pulling.trans h.pulling⟩

theorem Intact.symm {a b : Actor Id Path} (h : Intact a b) : Intact b a :=
  ⟨h.files.symm, h.history.symm, h.pulling.symm⟩

/-! ## The pulls that start at the end of a job -/

/-- What the loop over the backlog starts. -/
def drainStarts : Nat → Actor Id Path → List (Path × FileRecord Id)
  | 0, _ => []
  | n + 1, a =>
      if a.pendingPulls.size < maxConcurrentPulls then
        match a.pickBacklog with
        | none => []
        | some (i, rel, sender, record) =>
            let a := { a with pullBacklog := a.pullBacklog.eraseIdx i }
            if a.pendingPulls.contains rel || a.locks.isHeldByMe rel then
              drainStarts n (a.letGo rel sender record)
            else (rel, record) :: drainStarts n (a.beginPull rel sender record)
      else []

/-- The record that is queued behind the running pull of `rel`. -/
def queuedNext (a : Actor Id Path) (rel : Path) : List (Path × FileRecord Id) :=
  match a.pendingPulls[rel]? with
  | none => []
  | some job =>
      match job.queued with
      | some (_, record) => [(rel, record)]
      | none => []

/-- The pulls that `finish_pull` starts. -/
def finishStarts (a : Actor Id Path) (rel : Path) : List (Path × FileRecord Id) :=
  a.queuedNext rel ++ drainStarts (a.nextPull rel).pullBacklog.length (a.nextPull rel)

/-- A pull that starts leaves its resume marker. -/
theorem beginPull_pulling (a : Actor Id Path) (rel : Path) (sender : Id)
    (record : FileRecord Id) (p : Path) :
    (a.beginPull rel sender record).pulling[p]? =
      if rel = p then some record else a.pulling[p]? := by
  unfold beginPull startPull
  dsimp only
  split
  · rename_i hsame
    split
    · rename_i hp
      rw [← hp]
      exact hsame
    · rfl
  · exact Map.get_insert _ _ _ _

theorem beginPull_pending (a : Actor Id Path) (rel : Path) (sender : Id)
    (record : FileRecord Id) :
    (a.beginPull rel sender record).pendingPulls =
      a.pendingPulls.insert rel ⟨sender, record, 0, none⟩ := by
  unfold beginPull startPull
  dsimp only
  split <;> rfl

/-- A path with a pull under way is not started again. -/
theorem not_mem_drainStarts (n : Nat) {a : Actor Id Path} {p : Path}
    (hp : a.pendingPulls.contains p = true) (r : FileRecord Id) : (p, r) ∉ drainStarts n a := by
  induction n generalizing a with
  | zero => exact List.not_mem_nil
  | succ n ih =>
      rw [drainStarts]
      split
      · split
        · exact List.not_mem_nil
        · rename_i i rel sender record _
          dsimp only
          split
          · exact ih hp
          · rename_i hfree
            have hne : p ≠ rel := by
              rintro rfl
              exact hfree (by rw [hp, Bool.true_or])
            rw [List.mem_cons, not_or]
            refine ⟨fun heq => hne (Prod.ext_iff.mp heq).1, ih ?_⟩
            rw [beginPull_pending, Std.ExtTreeMap.contains_insert, hp, Bool.or_true]
      · exact List.not_mem_nil

/-- The loop over the backlog sets the markers of what it starts, and no others. -/
theorem drainLoop_pulling (n : Nat) (a : Actor Id Path) (p : Path) :
    (∀ r, (p, r) ∈ drainStarts n a → (drainLoop n a).pulling[p]? = some r) ∧
      ((∀ r, (p, r) ∉ drainStarts n a) → (drainLoop n a).pulling[p]? = a.pulling[p]?) := by
  induction n generalizing a with
  | zero => exact ⟨fun r hr => absurd hr List.not_mem_nil, fun _ => rfl⟩
  | succ n ih =>
      rw [drainStarts, drainLoop]
      by_cases hroom : a.pendingPulls.size < maxConcurrentPulls
      · simp only [if_pos hroom]
        cases a.pickBacklog with
        | none => exact ⟨fun r hr => absurd hr List.not_mem_nil, fun _ => rfl⟩
        | some e =>
            obtain ⟨i, rel, sender, record⟩ := e
            dsimp only
            by_cases hbusy : a.pendingPulls.contains rel || a.locks.isHeldByMe rel
            · simp only [if_pos hbusy]
              exact ih _
            · simp only [if_neg hbusy]
              have hbegun := beginPull_pulling
                { a with pullBacklog := a.pullBacklog.eraseIdx i } rel sender record p
              have hpend := beginPull_pending
                { a with pullBacklog := a.pullBacklog.eraseIdx i } rel sender record
              generalize ({ a with pullBacklog := a.pullBacklog.eraseIdx i } :
                Actor Id Path).beginPull rel sender record = b at hbegun hpend ⊢
              obtain ⟨hin, hout⟩ := ih b
              have hlater : ∀ r, (rel, r) ∉ drainStarts n b := by
                refine fun r => not_mem_drainStarts n ?_ r
                rw [hpend, Std.ExtTreeMap.contains_insert]
                simp
              refine ⟨fun r hr => ?_, fun hno => ?_⟩
              · rcases List.mem_cons.mp hr with heq | hr
                · cases heq
                  rw [hout hlater, hbegun, if_pos rfl]
                · exact hin r hr
              · have hne : rel ≠ p := by
                  rintro rfl
                  exact hno record List.mem_cons_self
                rw [hout fun r hr => hno r (List.mem_cons_of_mem _ hr), hbegun, if_neg hne]
      · rw [if_neg hroom, if_neg hroom]
        exact ⟨fun r hr => absurd hr List.not_mem_nil, fun _ => rfl⟩

/-- The end of the job of `rel` sets the marker of the record queued behind it. -/
theorem nextPull_pulling (a : Actor Id Path) (rel p : Path) :
    (∀ r, (p, r) ∈ a.queuedNext rel → (a.nextPull rel).pulling[p]? = some r ∧
      (a.nextPull rel).pendingPulls.contains p = true) ∧
      ((∀ r, (p, r) ∉ a.queuedNext rel) → (a.nextPull rel).pulling[p]? = a.pulling[p]?) := by
  unfold queuedNext nextPull
  cases a.pendingPulls[rel]? with
  | none => exact ⟨fun r hr => absurd hr List.not_mem_nil, fun _ => rfl⟩
  | some job =>
      have hover : (if a.isPulling rel job.sender job.record then a
          else a.letGo rel job.sender job.record).pulling[p]? = a.pulling[p]? := by
        split <;> rfl
      dsimp only
      generalize (if a.isPulling rel job.sender job.record then a
        else a.letGo rel job.sender job.record) = b at hover ⊢
      cases job.queued with
      | none => exact ⟨fun r hr => absurd hr List.not_mem_nil, fun _ => hover⟩
      | some next =>
          obtain ⟨sender, record⟩ := next
          dsimp only
          refine ⟨fun r hr => ?_, fun hno => ?_⟩
          · cases List.mem_singleton.mp hr
            rw [beginPull_pulling, if_pos rfl, beginPull_pending, Std.ExtTreeMap.contains_insert]
            simp
          · have hne : rel ≠ p := by
              rintro rfl
              exact hno record (List.mem_singleton_self _)
            rw [beginPull_pulling, if_neg hne]
            exact hover

/-- **The end of a job leaves the markers alone** exactly if the pulls it starts have theirs
already. -/
theorem finishPull_pulling_iff (a : Actor Id Path) (rel : Path) :
    (a.finishPull rel).pulling = a.pulling ↔
      ∀ e ∈ a.finishStarts rel, a.pulling[e.1]? = some e.2 := by
  have hget : ∀ p, (∀ r, (p, r) ∈ a.finishStarts rel → (a.finishPull rel).pulling[p]? = some r) ∧
      ((∀ r, (p, r) ∉ a.finishStarts rel) →
        (a.finishPull rel).pulling[p]? = a.pulling[p]?) := by
    intro p
    obtain ⟨hnext, hnext'⟩ := nextPull_pulling a rel p
    obtain ⟨hdrain, hdrain'⟩ :=
      drainLoop_pulling (a.nextPull rel).pullBacklog.length (a.nextPull rel) p
    unfold finishPull drainPullBacklog finishStarts
    refine ⟨fun r hr => ?_, fun hno => ?_⟩
    · rcases List.mem_append.mp hr with hr | hr
      · obtain ⟨hmark, hpend⟩ := hnext r hr
        rw [hdrain' (not_mem_drainStarts _ hpend), hmark]
      · exact hdrain r hr
    · rw [hdrain' fun r hr => hno r (List.mem_append_right _ hr),
        hnext' fun r hr => hno r (List.mem_append_left _ hr)]
  constructor
  · intro heq e he
    rw [← heq]
    exact (hget e.1).1 e.2 he
  · intro hall
    refine Std.ExtTreeMap.ext_getElem? fun p => ?_
    by_cases hp : ∃ r, (p, r) ∈ a.finishStarts rel
    · obtain ⟨r, hr⟩ := hp
      rw [(hget p).1 r hr]
      exact (hall (p, r) hr).symm
    · exact (hget p).2 fun r hr => hp ⟨r, hr⟩

/-! ## One try -/

/-- The apply gets as far as the file operations, and one of them fails. -/
structure ApplyFails (h : Host Id Path) (env : Env Path) (a : Actor Id Path) (rel : Path)
    (record : FileRecord Id) (staged : Option Bytes) : Prop where
  free : a.busy.contains rel = false
  news : a.isCurrent rel record = false
  disk : ((a.prepareApply env rel).applyToDisk h env rel record staged).2 = false

/-- The push of the current version leaves the history as it is, and the pulls that start
have their markers already. -/
structure SparesIndex (a : Actor Id Path) (rel : Path) : Prop where
  history : (a.pushHistory rel a.files[rel]?).history = a.history
  markers : ∀ e ∈ a.finishStarts rel, a.pulling[e.1]? = some e.2

/-! ### What the file operations leave alone -/

/-- What `finish_pull` reads is the same. -/
structure SameQueues (a b : Actor Id Path) : Prop where
  pendingPulls : b.pendingPulls = a.pendingPulls
  pullBacklog : b.pullBacklog = a.pullBacklog
  locks : b.locks = a.locks
  waits : b.myWaits = a.myWaits
  acquires : b.pendingAcquires = a.pendingAcquires

namespace SameQueues

variable {a b d : Actor Id Path}

theorem refl : SameQueues a a := ⟨rfl, rfl, rfl, rfl, rfl⟩

theorem trans (h : SameQueues a b) (h' : SameQueues b d) : SameQueues a d :=
  ⟨h'.pendingPulls.trans h.pendingPulls, h'.pullBacklog.trans h.pullBacklog,
    h'.locks.trans h.locks, h'.waits.trans h.waits, h'.acquires.trans h.acquires⟩

theorem pick (h : SameQueues a b) : b.pickBacklog = a.pickBacklog := by
  unfold pickBacklog
  rw [h.pullBacklog, h.waits, h.acquires]

theorem begin (h : SameQueues a b) (rel : Path) (sender : Id) (record : FileRecord Id) :
    SameQueues (a.beginPull rel sender record) (b.beginPull rel sender record) := by
  have hothers : ∀ d : Actor Id Path, (d.beginPull rel sender record).pullBacklog = d.pullBacklog ∧
      (d.beginPull rel sender record).locks = d.locks ∧
      (d.beginPull rel sender record).myWaits = d.myWaits ∧
      (d.beginPull rel sender record).pendingAcquires = d.pendingAcquires := by
    intro d
    unfold beginPull startPull
    dsimp only
    split <;> exact ⟨rfl, rfl, rfl, rfl⟩
  obtain ⟨hback, hlocks, hwaits, hacq⟩ := hothers a
  obtain ⟨hback', hlocks', hwaits', hacq'⟩ := hothers b
  refine ⟨?_, ?_, ?_, ?_, ?_⟩
  · rw [beginPull_pending, beginPull_pending, h.pendingPulls]
  · rw [hback, hback', h.pullBacklog]
  · rw [hlocks, hlocks', h.locks]
  · rw [hwaits, hwaits', h.waits]
  · rw [hacq, hacq', h.acquires]

theorem drainStarts (h : SameQueues a b) (n : Nat) :
    Actor.drainStarts n b = Actor.drainStarts n a := by
  induction n generalizing a b with
  | zero => rfl
  | succ n ih =>
      rw [Actor.drainStarts, Actor.drainStarts, h.pick]
      refine if_congr (by rw [h.pendingPulls]) ?_ rfl
      cases a.pickBacklog with
      | none => rfl
      | some e =>
          obtain ⟨i, rel, sender, record⟩ := e
          have hpop : SameQueues { a with pullBacklog := a.pullBacklog.eraseIdx i }
              { b with pullBacklog := b.pullBacklog.eraseIdx i } :=
            ⟨h.pendingPulls, by rw [h.pullBacklog], h.locks, h.waits, h.acquires⟩
          have hgo : SameQueues
              (({ a with pullBacklog := a.pullBacklog.eraseIdx i } : Actor Id Path).letGo rel sender
                record)
              (({ b with pullBacklog := b.pullBacklog.eraseIdx i } : Actor Id Path).letGo rel sender
                record) :=
            ⟨hpop.pendingPulls, hpop.pullBacklog, hpop.locks, hpop.waits, hpop.acquires⟩
          refine if_congr (by rw [h.pendingPulls, h.locks]) (ih hgo) ?_
          rw [ih (hpop.begin rel sender record)]

theorem nextPull (h : SameQueues a b) (rel : Path) :
    SameQueues (a.nextPull rel) (b.nextPull rel) := by
  unfold Actor.nextPull
  rw [h.pendingPulls]
  cases a.pendingPulls[rel]? with
  | none => exact h
  | some job =>
      have hgo : SameQueues
          (if a.isPulling rel job.sender job.record then a
            else a.letGo rel job.sender job.record)
          (if b.isPulling rel job.sender job.record then b
            else b.letGo rel job.sender job.record) := by
        split <;> split <;>
          exact ⟨h.pendingPulls, h.pullBacklog, h.locks, h.waits, h.acquires⟩
      dsimp only
      generalize (if a.isPulling rel job.sender job.record then a
        else a.letGo rel job.sender job.record) = a' at hgo ⊢
      generalize (if b.isPulling rel job.sender job.record then b
        else b.letGo rel job.sender job.record) = b' at hgo ⊢
      have herase : SameQueues { a' with pendingPulls := a'.pendingPulls.erase rel }
          { b' with pendingPulls := b'.pendingPulls.erase rel } :=
        ⟨by rw [hgo.pendingPulls], hgo.pullBacklog, hgo.locks, hgo.waits, hgo.acquires⟩
      split
      · exact herase.begin rel _ _
      · exact herase

theorem finishStarts (h : SameQueues a b) (rel : Path) :
    b.finishStarts rel = a.finishStarts rel := by
  have hnext := h.nextPull rel
  unfold Actor.finishStarts queuedNext
  rw [h.pendingPulls, hnext.pullBacklog, hnext.drainStarts]

end SameQueues

/-- The file operations change neither the index nor the queues. -/
theorem OnDisk.intact {a b : Actor Id Path} (h : OnDisk a b) : Intact a b := by
  obtain ⟨_, _, _, _, _, _, rfl⟩ := h
  exact ⟨rfl, rfl, rfl⟩

theorem OnDisk.queues {a b : Actor Id Path} (h : OnDisk a b) : SameQueues a b := by
  obtain ⟨_, _, _, _, _, _, rfl⟩ := h
  exact ⟨rfl, rfl, rfl, rfl, rfl⟩

/-- What comes before the file operations pushes the current version onto the history. -/
theorem prepareApply_eq (env : Env Path) (a : Actor Id Path) (rel : Path) :
    ∃ b : Actor Id Path, OnDisk a b ∧ a.prepareApply env rel = b.pushHistory rel b.files[rel]? := by
  have hcopy : OnDisk a (if a.isWritable rel then (a.quarantine env rel).1 else a) := by
    split
    · exact quarantine_onDisk a env rel
    · exact .refl
  unfold prepareApply
  exact ⟨_, hcopy.trans (mute_onDisk _ env rel), rfl⟩

theorem pushHistory_queues (a : Actor Id Path) (rel : Path) (replaced : Option (FileRecord Id)) :
    SameQueues a (a.pushHistory rel replaced) ∧
      (a.pushHistory rel replaced).files = a.files ∧
      (a.pushHistory rel replaced).pulling = a.pulling := by
  unfold pushHistory
  split
  · exact ⟨.refl, rfl, rfl⟩
  · exact ⟨⟨rfl, rfl, rfl, rfl, rfl⟩, rfl, rfl⟩

/-! ### What is left after it -/

/-- **One failed apply leaves the index alone** exactly if the push and the pulls that follow
do. -/
theorem applyRemote_intact_iff {h : Host Id Path} {env : Env Path} {a : Actor Id Path}
    {rel : Path} (sender : Id) {record : FileRecord Id} {staged : Option Bytes}
    (hfail : ApplyFails h env a rel record staged) :
    Intact a (a.applyRemote h env rel sender record staged) ↔ a.SparesIndex rel := by
  obtain ⟨b, hb, hprep⟩ := prepareApply_eq env a rel
  have hdisk := applyToDisk_onDisk h env (a.prepareApply env rel) rel record staged
  have hres := hfail.disk
  unfold applyRemote applyRemoteWith
  rw [if_neg (by simp [hfail.free]), if_neg (by simp [hfail.news])]
  unfold applyNow
  dsimp only
  generalize (a.prepareApply env rel).applyToDisk h env rel record staged = r at hdisk hres ⊢
  obtain ⟨d, ok⟩ := r
  cases hres
  dsimp only at hdisk ⊢
  obtain ⟨hqueues, hfiles, hpulling⟩ := pushHistory_queues b rel b.files[rel]?
  have hhist : (b.pushHistory rel b.files[rel]?).history =
      (a.pushHistory rel a.files[rel]?).history := by
    obtain ⟨_, _, _, _, _, _, rfl⟩ := hb
    unfold pushHistory
    dsimp only
    cases a.files[rel]? <;> rfl
  rw [hprep] at hdisk
  -- all that differs from `a` before the end of the job is the history
  have hgo : SameQueues a (d.letGo rel sender record) :=
    (hb.queues.trans (hqueues.trans hdisk.queues)).trans ⟨rfl, rfl, rfl, rfl, rfl⟩
  have hmarkers := finishPull_pulling_iff (d.letGo rel sender record) rel
  have hpull : (d.letGo rel sender record).pulling = a.pulling :=
    (hdisk.intact.pulling.trans hpulling).trans hb.intact.pulling
  rw [hgo.finishStarts, hpull] at hmarkers
  have hpulls := finishPull_onPulls (d.letGo rel sender record) rel
  have hh : ((d.letGo rel sender record).finishPull rel).history =
      (a.pushHistory rel a.files[rel]?).history :=
    hpulls.history.trans (hdisk.intact.history.trans hhist)
  have hf : ((d.letGo rel sender record).finishPull rel).files = a.files :=
    hpulls.files.trans ((hdisk.intact.files.trans hfiles).trans hb.intact.files)
  constructor
  · intro hin
    exact ⟨hh.symm.trans hin.history, hmarkers.mp hin.pulling⟩
  · intro hsp
    exact ⟨hf, hh.trans hsp.history, hmarkers.mpr hsp.markers⟩

/-! ## Any number of tries -/

/-- The same record is applied again and again, each time with an environment and a staged
file of its own. -/
def retryApply (h : Host Id Path) (a : Actor Id Path) (rel : Path) (sender : Id)
    (record : FileRecord Id) (tries : List (Env Path × Option Bytes)) : Actor Id Path :=
  tries.foldl (fun b t => b.applyRemote h t.1 rel sender record t.2) a

theorem retryApply_concat (h : Host Id Path) (a : Actor Id Path) (rel : Path) (sender : Id)
    (record : FileRecord Id) (tries : List (Env Path × Option Bytes))
    (t : Env Path × Option Bytes) :
    a.retryApply h rel sender record (tries ++ [t]) =
      (a.retryApply h rel sender record tries).applyRemote h t.1 rel sender record t.2 := by
  unfold retryApply
  rw [List.foldl_append]
  rfl

/-- **Failed tries leave the index alone** exactly if each of them finds a state in which the
push changes nothing and every pull that starts has its marker. -/
theorem retryApply_intact_iff (h : Host Id Path) (a : Actor Id Path) (rel : Path) (sender : Id)
    (record : FileRecord Id) (tries : List (Env Path × Option Bytes))
    (hfail : ∀ k (hk : k < tries.length), ApplyFails h tries[k].1
      (a.retryApply h rel sender record (tries.take k)) rel record tries[k].2) :
    (∀ k ≤ tries.length, Intact a (a.retryApply h rel sender record (tries.take k))) ↔
      ∀ k < tries.length, (a.retryApply h rel sender record (tries.take k)).SparesIndex rel := by
  have hnext : ∀ k (hk : k < tries.length),
      Intact (a.retryApply h rel sender record (tries.take k))
          (a.retryApply h rel sender record (tries.take (k + 1))) ↔
        (a.retryApply h rel sender record (tries.take k)).SparesIndex rel := by
    intro k hk
    rw [← List.take_concat_get' tries k hk, retryApply_concat]
    exact applyRemote_intact_iff sender (hfail k hk)
  constructor
  · intro hall k hk
    refine (hnext k hk).mp ?_
    exact (hall k hk.le).symm.trans (hall (k + 1) hk)
  · intro hall k hk
    induction k with
    | zero => exact .refl a
    | succ k ih => exact (ih (by omega)).trans ((hnext k hk).mpr (hall k hk))

/-- A path without a record has no version to push. -/
theorem SparesIndex.of_absent {a : Actor Id Path} {rel : Path} (hnone : a.files[rel]? = none)
    (hstarts : a.finishStarts rel = []) : a.SparesIndex rel := by
  refine ⟨?_, ?_⟩
  · rw [hnone]
    rfl
  · rw [hstarts]
    exact fun e he => absurd he List.not_mem_nil

/-- The rename of a new path fails twice, and nothing of it is in the index. -/
theorem retryApply_new_path :
    Intact plainStart (plainStart.retryApply plainHost 2 1 newerRecord
      [(failingEnv false, some [8]), (failingEnv false, some [8])]) :=
  (retryApply_intact_iff plainHost plainStart 2 1 newerRecord
      [(failingEnv false, some [8]), (failingEnv false, some [8])] (by
        intro k hk
        match k, hk with
        | 0, _ =>
            show ApplyFails plainHost (failingEnv false) plainStart 2 newerRecord (some [8])
            exact ⟨by decide +kernel, by decide +kernel, by decide +kernel⟩
        | 1, _ =>
            show ApplyFails plainHost (failingEnv false)
              (plainStart.applyRemote plainHost (failingEnv false) 2 1 newerRecord (some [8])) 2
              newerRecord (some [8])
            exact ⟨by decide +kernel, by decide +kernel, by decide +kernel⟩)).mpr (by
    intro k hk
    match k, hk with
    | 0, _ => exact .of_absent (by decide +kernel) (by decide +kernel)
    | 1, _ => exact .of_absent (by decide +kernel) (by decide +kernel)) 2 le_rfl

/-- The rename over the version of path 1 fails, and that version is in the history although
it is still the current one. -/
theorem failed_apply_pushes :
    ∃ (a : Actor Nat Nat) (env : Env Nat) (rel sender : Nat) (record : FileRecord Nat)
      (staged : Option Bytes), ApplyFails plainHost env a rel record staged ∧
        ¬ Intact a (a.applyRemote plainHost env rel sender record staged) := by
  refine ⟨plainStart, failingEnv false, 1, 1, newerRecord, some [8],
    ⟨by decide +kernel, by decide +kernel, by decide +kernel⟩, fun hin => ?_⟩
  have hnone : plainStart.history[(1 : Nat)]? = none := by decide +kernel
  have hpushed : ((plainStart.applyRemote plainHost (failingEnv false) 1 1 newerRecord
      (some [8])).history[(1 : Nat)]?).isSome = true := by decide +kernel
  rw [hin.history, hnone] at hpushed
  cases hpushed

end Actor

end Tazamun
