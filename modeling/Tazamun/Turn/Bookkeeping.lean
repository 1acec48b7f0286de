import Tazamun.Turn.Marks

set_option autoImplicit false

/-! # The bookkeeping of acquires and unlocks

What the marks of `Turn.Desk` are good for. While no round of an autolock is ended by the loss
of a voter, a path waits for an acquire exactly as long as the lock table has a round for it,
and every busy path has something under way whose completion frees the path or brings its
operation further. While no inspection for an unlock fails, an unlock is pending only until it
is answered, and the next request for an idle path is accepted.

Each of the two slips leaves a mark that no later event takes back: a path that stays busy, and
a lease that cannot be given up by hand.
-/

namespace Tazamun

open Lib Mesh

variable {Id Path : Type} [LinearOrder Id] [LinearOrder Path]

/-! ## Operations end -/

/-- An operation is inspected first, may then be preserved for autolock, and ends with the
stages that follow these. -/
def Task.stage : Task Id Path → Nat
  | .inspect _ _ _ => 3
  | .autolock _ _ => 2
  | _ => 1

def Event.stage : Event Id Path → Nat
  | .inspected _ _ _ => 3
  | .autolockReady _ _ _ => 2
  | _ => 1

namespace Actor

variable {a b : Actor Id Path} {rel : Path} {k : Nat}

/-- The operation on `rel` has come further than stage `k`: the path is free, is inspected anew
because of what happened meanwhile, has a task for a later stage, or waits for votes. -/
def Advances (k : Nat) (rel : Path) (b : Actor Id Path) : Prop :=
  b.busy.contains rel = false ∨ (∃ record, Task.inspect rel record .watch ∈ b.tasks) ∨
    (∃ t ∈ b.tasks, t.worksOn = some rel ∧ t.stage < k) ∨
    (1 < k ∧ b.autolockPending.contains rel = true)

theorem Advances.aside (hd : Advances k rel a) (h : Aside a b) : Advances k rel b := by
  rcases hd with hfree | ⟨record, hin⟩ | ⟨t, ht, hw⟩ | ⟨hk, hauto⟩
  · exact .inl (by rw [h.busy]; exact hfree)
  · exact .inr (.inl ⟨record, h.tasks _ hin⟩)
  · exact .inr (.inr (.inl ⟨t, h.tasks t ht, hw⟩))
  · exact .inr (.inr (.inr ⟨hk, by rw [h.autolocks]; exact hauto⟩))

theorem Advances.of_spawn (a : Actor Id Path) {t : Task Id Path} (hw : t.worksOn = some rel)
    (hk : t.stage < k) : Advances k rel (a.spawn t) :=
  .inr (.inr (.inl ⟨t, List.mem_append_right _ (List.mem_singleton_self _), hw, hk⟩))

variable (h : Host Id Path) (env : Env Path)

theorem unbusy_advances (a : Actor Id Path) (rel : Path) (k : Nat) :
    Advances k rel (a.unbusy h env rel) := by
  have hfree : Advances k rel { a with busy := a.busy.erase rel } :=
    .inl (Bool.eq_false_iff.mpr fun hin => (Map.contains_erase_iff.mp hin).1 rfl)
  unfold unbusy
  dsimp only
  split
  · exact .inr (.inl ⟨_, List.mem_append_right _ (List.mem_singleton_self _)⟩)
  · split
    · exact hfree
    · have hout : Aside { a with busy := a.busy.erase rel }
          { a with busy := a.busy.erase rel, deferred := a.deferred.erase rel } :=
        ⟨rfl, rfl, rfl, rfl, rfl, rfl, rfl, fun _ h => h⟩
      exact (hfree.aside hout).aside (applyRemote_aside h env _ rel _ _ _)

theorem finishUnlock_advances {a : Actor Id Path} (hd : Advances k rel a) (publishedOk : Bool)
    (r : Nat) : Advances k rel (a.finishUnlock env rel publishedOk r) := by
  have hdone : Advances k rel { a with
      pendingUnlocks := a.pendingUnlocks.erase rel
      locks := a.locks.onRelease rel a.me
      autolockIdle := a.autolockIdle.erase rel } := hd
  unfold finishUnlock
  dsimp only
  have hsent := ((hdone.aside (settleMode_aside _ env rel)).aside
    (broadcast_aside _ (.lock (.lockRelease rel)))).aside (broadcast_aside _ (.lockFreed rel))
  split
  · exact hsent.aside (reply_aside _ r _)
  · exact hsent.aside (reply_aside _ r _)

theorem spawnViolation_advances (a : Actor Id Path) (quarantineFirst : Bool) (hk : 1 < k) :
    Advances k rel (a.spawnViolation h env rel quarantineFirst) := by
  unfold spawnViolation
  split
  · exact unbusy_advances h env a rel k
  · exact .of_spawn _ rfl hk

theorem autolockFail_advances (a : Actor Id Path) (quarantined : Option (CopyName Path))
    (newFile : Bool) (hk : 1 < k) :
    Advances k rel (a.autolockFail h env rel quarantined newFile) := by
  unfold autolockFail
  dsimp only
  split
  · exact unbusy_advances h env _ rel k
  split
  · exact unbusy_advances h env _ rel k
  split
  · exact unbusy_advances h env _ rel k
  · exact .of_spawn _ rfl hk

/-- **What is under way ends**: whatever comes of it, its event brings the operation further or
frees the path. -/
theorem handle_advances (a : Actor Id Path) {ev : Event Id Path} (hw : ev.worksOn = some rel) :
    Advances ev.stage rel (a.handle h env ev) := by
  have hfree := unbusy_advances h env
  cases ev with
  | inspected p outcome cause =>
      cases hw
      show Advances 3 rel (a.onInspected h env rel outcome cause)
      unfold onInspected
      split
      · exact hfree _ rel 3
      · exact hfree _ rel 3
      · unfold onWatchInspected
        split
        · exact hfree a rel 3
        · exact .of_spawn _ rfl (by simp [Task.stage])
        · exact .of_spawn _ rfl (by simp [Task.stage])
        · exact hfree _ rel 3
        · split
          · exact .of_spawn _ rfl (by simp [Task.stage])
          · exact spawnViolation_advances h env a true (by decide)
        · split
          · exact .of_spawn _ rfl (by simp [Task.stage])
          · exact hfree _ rel 3
        · exact spawnViolation_advances h env a false (by decide)
      · unfold onUnlockInspected
        split
        · exact finishUnlock_advances env (hfree a rel 3) true _
        · exact .of_spawn _ rfl (by simp [Task.stage])
        · exact .of_spawn _ rfl (by simp [Task.stage])
        · exact finishUnlock_advances env (hfree _ rel 3) true _
  | publishDone p result cause =>
      cases hw
      show Advances 1 rel (a.onPublishDone h env rel result cause)
      unfold onPublishDone
      cases cause with
      | edit => exact hfree _ rel 1
      | «import» => exact hfree _ rel 1
      | unlock r => exact finishUnlock_advances env (hfree _ rel 1) _ r
  | violationStaged p result quarantined preserveRequired =>
      cases hw
      show Advances 1 rel (a.onViolationStaged h env rel result quarantined preserveRequired)
      unfold onViolationStaged
      split
      · exact hfree a rel 1
      · exact hfree _ rel 1
  | autolockReady p quarantined newFile =>
      cases hw
      show Advances 2 rel (a.beginAutolockAcquire h env rel quarantined newFile)
      unfold beginAutolockAcquire
      dsimp only
      split
      · exact autolockFail_advances h env _ quarantined newFile (by decide)
      · split
        · exact autolockFail_advances h env _ quarantined newFile (by decide)
        · exact .inr (.inr (.inr ⟨by decide, Map.contains_insert_iff.mpr (.inl rfl)⟩))
  | restoreStaged p entry result reply =>
      cases hw
      show Advances 1 rel (a.onRestoreStaged h env rel entry result reply)
      unfold onRestoreStaged
      split
      · exact hfree _ rel 1
      split
      · exact hfree _ rel 1
      · exact hfree _ rel 1
  | conflictApplied p result reply =>
      cases hw
      show Advances 1 rel (a.onConflictApplied h env rel result reply)
      unfold onConflictApplied
      split
      · exact (hfree a rel 1).aside (reply_aside _ _ _)
      split
      · exact (hfree a rel 1).aside (reply_aside _ _ _)
      split
      · exact (hfree _ rel 1).aside (reply_aside _ _ _)
      · exact (hfree _ rel 1).aside (reply_aside _ _ _)
  | _ => cases hw

/-! ## Acquires -/

/-- The marks of acquires and of operations are in order. -/
structure AcquiresBooked (a : Actor Id Path) : Prop where
  autolock : ∀ p : Path, a.autolockPending.contains p = true →
    a.pendingAcquires.contains p = true ∧ Pending a.locks.states[p]?
  acquire : ∀ p : Path, a.pendingAcquires.contains p = true → Pending a.locks.states[p]?
  busy : ∀ p : Path, a.busy.contains p = true →
    a.Working p ∨ a.autolockPending.contains p = true

/-- The step ends no round of an autolock by the loss of a voter. -/
def AutolocksSpared (a : Actor Id Path) (s : Env Path × Act Id Path) : Prop :=
  match a.handled s.2 with
  | some ev => a.SparesAutolocks ev
  | none => True

/-- **Acquires are booked.** In every run in which no voter goes while an autolock waits for
its vote, the marks are in order, and the operations that are under way end. -/
theorem acquires_booked {me : Id} {p : Persisted Id Path} {founding : Bool}
    (hrun : Reaches (step h) AutolocksSpared (Actor.boot h env me p founding) a) :
    a.AcquiresBooked ∧ ∀ (env : Env Path) (ev : Event Id Path) (rel : Path),
      ev.worksOn = some rel → Advances ev.stage rel (a.handle h env ev) := by
  have hdesk : Desk ⟨True, False⟩ ⟨[], [], []⟩ a := by
    refine hrun.invariant (I := Desk ⟨True, False⟩ ⟨[], [], []⟩) (boot_desk h env me p founding) ?_
    intro v s w hd hok hstep
    refine step_desk h hd (fun _ ev hev => ?_) False.elim hstep
    rw [AutolocksSpared, hev] at hok
    exact hok
  have hacquire : ∀ p : Path, a.pendingAcquires.contains p = true →
      Pending a.locks.states[p]? := fun p hp =>
    (hdesk.acquires trivial p hp).resolve_left List.not_mem_nil
  refine ⟨⟨fun p hp => ?_, hacquire, fun p hp => ?_⟩, fun env ev rel hw => ?_⟩
  · have hin := hdesk.autolocks trivial p hp
    exact ⟨hin, hacquire p hin⟩
  · exact (hdesk.busy p hp).resolve_left List.not_mem_nil
  · exact handle_advances h env a hw

instance (a : Actor Id Path) (ev : Event Id Path) : Decidable (a.SparesAutolocks ev) := by
  unfold SparesAutolocks
  split <;> infer_instance

instance (a : Actor Id Path) (s : Env Path × Act Id Path) : Decidable (a.AutolocksSpared s) :=
  decidableHandled (P := a.SparesAutolocks) (a.handled s.2)

/-- Path 1 is edited without a lease, and autolock asks node 1 for it. -/
def autolockEdit : List (Env Nat × Act Nat Nat) :=
  now [.event (.authed 1 0 true), .event (.msg 1 (.index 0 [] [])),
    .event (.ipc (.configSet (.autolock true)) 0), .write 1 [8], .event (.watch 1),
    .task 0 none, .inbox 0, .task 0 none, .inbox 0]

/-- The edit is in quarantine, and the vote of node 1 is awaited. -/
theorem acquires_booked_autolock : ∃ a : Actor Nat Nat,
    Reaches (step plainHost) AutolocksSpared plainStart a ∧
      a.autolockPending.contains 1 = true ∧ a.AcquiresBooked := by
  have hexec : (executeChecked (step plainHost) (fun a s => decide (AutolocksSpared a s))
      autolockEdit plainStart).any (fun a => a.autolockPending.contains 1) = true := by
    decide +kernel
  obtain ⟨a, hok, hp⟩ := exists_reaches_of_executeChecked hexec
  have hrun : Reaches (step plainHost) AutolocksSpared plainStart a :=
    hok.mono fun _ _ h => of_decide_eq_true h
  exact ⟨a, hrun, hp, (acquires_booked plainHost (plainEnv 0) hrun).1⟩

/-- Node 1 goes before it votes. The acquire is over and its timer has run, nothing is under
way any more, and path 1 is busy for good. -/
theorem autolock_left_behind : ∃ a : Actor Nat Nat,
    Reaches (step plainHost) anyStep plainStart a ∧ a.tasks = [] ∧ a.inbox = [] ∧
      a.busy.contains 1 = true ∧ a.autolockPending.contains 1 = true ∧
      a.pendingAcquires.contains 1 = false ∧ ¬ a.AcquiresBooked := by
  have hexec : (execute (step plainHost) (autolockEdit ++
      now [.event (.gone 1 0), .task 0 none, .inbox 0]) plainStart).any
      (fun a => a.tasks.isEmpty && a.inbox.isEmpty && a.busy.contains 1 &&
        a.autolockPending.contains 1 && !a.pendingAcquires.contains 1) = true := by
    decide +kernel
  obtain ⟨a, hrun, hp⟩ := exists_reaches_of_execute anyStep (fun _ _ _ => trivial) hexec
  simp only [Bool.and_eq_true, Bool.not_eq_true', List.isEmpty_iff] at hp
  obtain ⟨⟨⟨⟨htasks, hinbox⟩, hbusy⟩, hauto⟩, hacquire⟩ := hp
  refine ⟨a, hrun, htasks, hinbox, hbusy, hauto, hacquire, fun hbooked => ?_⟩
  exact absurd (hacquire.symm.trans (hbooked.autolock 1 hauto).1) (by simp)

/-! ## Unlocks -/

/-- An unlock is pending only while its inspection or its publish is under way, so a request
for a path that is idle and held is accepted. -/
structure UnlocksBooked (h : Host Id Path) (a : Actor Id Path) : Prop where
  pending : ∀ p : Path, a.pendingUnlocks.contains p = true → a.Unlocking p
  accepted : ∀ (p : Path) (r : Nat), h.sanitize p = true → a.roleEditGuard = none →
    a.locks.isHeldByMe p = true → a.busy.contains p = false → ¬ a.Unlocking p →
    a.handleUnlock h p r =
      ({ a with pendingUnlocks := a.pendingUnlocks.insert p () } : Actor Id Path).inspect p
        (.unlock r)

/-- The step handles no failed inspection for an unlock. -/
def UnlocksInspected (a : Actor Id Path) (s : Env Path × Act Id Path) : Prop :=
  match a.handled s.2 with
  | some ev => ev.UnlockInspected
  | none => True

/-- **Unlocks are booked** in every run in which no inspection for an unlock fails. -/
theorem unlocks_booked {me : Id} {p : Persisted Id Path} {founding : Bool}
    (hrun : Reaches (step h) UnlocksInspected (Actor.boot h env me p founding) a) :
    a.UnlocksBooked h := by
  have hdesk : Desk ⟨False, True⟩ ⟨[], [], []⟩ a := by
    refine hrun.invariant (I := Desk ⟨False, True⟩ ⟨[], [], []⟩) (boot_desk h env me p founding) ?_
    intro v s w hd hok hstep
    refine step_desk h hd False.elim (fun _ ev hev => ?_) hstep
    rw [UnlocksInspected, hev] at hok
    exact hok
  have hpending : ∀ p : Path, a.pendingUnlocks.contains p = true → a.Unlocking p := fun p hp =>
    (hdesk.unlocks trivial p hp).resolve_left List.not_mem_nil
  refine ⟨hpending, fun p r hsan hrole hheld hidle hno => ?_⟩
  have hnone : a.pendingUnlocks.contains p = false := by
    by_contra hin
    exact hno (hpending p (by simpa using hin))
  simp [handleUnlock, hsan, hrole, hheld, hidle, hnone]

instance (ev : Event Id Path) : Decidable ev.UnlockInspected := by
  unfold Event.UnlockInspected
  split <;> infer_instance

instance (a : Actor Id Path) (s : Env Path × Act Id Path) : Decidable (a.UnlocksInspected s) :=
  decidableHandled (P := Event.UnlockInspected) (a.handled s.2)

/-- Node 0 has the lease of path 1, and the user gives it up. -/
def unlockHeld : List (Env Nat × Act Nat Nat) :=
  askLease ++ now [grantLease, .event (.ipc (.unlock 1) 1)]

/-- The unlock waits for its inspection. -/
theorem unlocks_booked_pending : ∃ a : Actor Nat Nat,
    Reaches (step plainHost) UnlocksInspected plainStart a ∧
      a.pendingUnlocks.contains 1 = true ∧ a.UnlocksBooked plainHost := by
  have hexec : (executeChecked (step plainHost) (fun a s => decide (UnlocksInspected a s))
      unlockHeld plainStart).any (fun a => a.pendingUnlocks.contains 1) = true := by
    decide +kernel
  obtain ⟨a, hok, hp⟩ := exists_reaches_of_executeChecked hexec
  have hrun : Reaches (step plainHost) UnlocksInspected plainStart a :=
    hok.mono fun _ _ h => of_decide_eq_true h
  exact ⟨a, hrun, hp, unlocks_booked plainHost (plainEnv 0) hrun⟩

/-- The file cannot be read, and the user is told so. The next request for the path, which is
held and idle, is refused as busy. -/
theorem unlock_left_behind : ∃ a : Actor Nat Nat,
    Reaches (step plainHost) anyStep plainStart a ∧ a.locks.isHeldByMe 1 = true ∧
      a.busy.contains 1 = false ∧ ¬ a.Unlocking 1 ∧
      a.handleUnlock plainHost 1 2 =
        a.reply 2 (.err "busy" "your edit is still syncing; retry in a moment") ∧
      ¬ a.UnlocksBooked plainHost := by
  have hexec : (execute (step plainHost) (unlockHeld ++ now [.task 1 (some "denied"), .inbox 0])
      plainStart).any (fun a => a.locks.isHeldByMe 1 && !a.busy.contains 1 &&
        a.pendingUnlocks.contains 1 && a.inbox.isEmpty && a.config.role.canEdit &&
        a.tasks.all fun t => decide (t.unlocks ≠ some 1)) = true := by
    decide +kernel
  obtain ⟨a, hrun, hp⟩ := exists_reaches_of_execute anyStep (fun _ _ _ => trivial) hexec
  simp only [Bool.and_eq_true, Bool.not_eq_true', List.isEmpty_iff, List.all_eq_true] at hp
  obtain ⟨⟨⟨⟨⟨hheld, hidle⟩, hpending⟩, hinbox⟩, hrole⟩, htasks⟩ := hp
  have hnone : ¬ a.Unlocking 1 := by
    rintro (⟨t, ht, hw⟩ | ⟨ev, hev, -⟩)
    · exact absurd hw (of_decide_eq_true (htasks t ht))
    · rw [hinbox] at hev
      cases hev
  refine ⟨a, hrun, hheld, hidle, hnone, ?_, fun hbooked => hnone (hbooked.pending 1 hpending)⟩
  have hedit : a.roleEditGuard = none := by rw [roleEditGuard, if_pos hrole]
  have hsan : plainHost.sanitize 1 = true := rfl
  simp [handleUnlock, hsan, hedit, hheld, hidle, hpending]

end Actor

end Tazamun
