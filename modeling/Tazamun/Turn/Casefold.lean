import Tazamun.Turn.Runs
import Tazamun.Turn.Steady

set_option autoImplicit false

/-! # Paths that differ only by case

A file system that ignores case has one file for two paths with the same lower-case form. On
Windows the daemon holds a record back whose path collides with that of a live one
(`portability_reason`). It does so when the record arrives. The content arrives later, or even
later, when the path is free again, and is then written without a second look.

So the paths in the index stay apart exactly as long as the look would still have passed at
the moment of writing. `Event.brings` has the paths that an event may make live: the one whose
content it delivers, and those whose deferred record it takes up. A collision that is there
by then gets into the index with the record, in every case in which the write succeeds.
-/

namespace Tazamun

open Lib

variable {Id Path : Type} [LinearOrder Id] [LinearOrder Path]

/-- No two live paths have the same lower-case form. -/
def FoldsApart (fold : Path → String) (files : Map Path (FileRecord Id)) : Prop :=
  ∀ (p q : Path) r s, files[p]? = some r → files[q]? = some s → r.deleted = false →
    s.deleted = false → fold p = fold q → p = q

/-- The guard for a turn in which the given paths may be live, and the deferred records of some
may be taken up. -/
def Guard.live (may : Path → Prop) (frees : Path → Prop) : Guard Id Path where
  path _ := True
  record _ _ := True
  content _ _ := True
  apply p r := r.deleted = true ∨ may p
  commit := may
  release := frees
  path_of_record _ := trivial
  content_of_record _ := trivial
  content_empty _ := trivial
  apply_tombstone _ h := .inl h

/-- The paths on which the event may end an operation. -/
def Event.frees (env : Env Path) (a : Actor Id Path) : Event Id Path → List Path
  | .inspected rel _ _ | .publishDone rel _ _ | .violationStaged rel _ _ _
  | .autolockReady rel _ _ | .restoreStaged rel _ _ _ | .conflictApplied rel _ _
  | .acquireTimeout rel _ => [rel]
  | .msg _ (.lock m) => if m.endsRound then [m.path] else []
  | .sweep => (a.locks.sweep env.now).2.timedOut
  | _ => []

/-- The path whose content the event delivers, if it is taken over. -/
def Event.writes (a : Actor Id Path) : Event Id Path → List Path
  | .pullStaged rel _ record (some _) =>
      if record.deleted || a.busy.contains rel || a.isCurrent rel record then [] else [rel]
  | .publishDone rel (some _) cause =>
      if a.locks.isHeldByMe rel || decide (cause = .import) then [rel] else []
  | .restoreStaged rel _ (.ok _) _ => if a.locks.isHeldByMe rel then [rel] else []
  | _ => []

namespace Actor

/-- A record with content waits until the path is free. -/
def awaits (a : Actor Id Path) (rel : Path) : Bool :=
  match a.deferred[rel]? with
  | some d => !d.record.deleted
  | none => false

/-- The case-fold part of `portability_reason`. -/
def collides (h : Host Id Path) (a : Actor Id Path) (rel : Path) : Bool :=
  a.files.toList.any fun e => !e.2.deleted && decide (e.1 ≠ rel) &&
    decide (h.toLowercase e.1 = h.toLowercase rel)

end Actor

/-- The paths that the event may make live. -/
def Event.brings (env : Env Path) (a : Actor Id Path) (ev : Event Id Path) : List Path :=
  ev.writes a ++ (ev.frees env a).filter a.awaits

namespace Actor

variable {h : Host Id Path} {env : Env Path} {a b : Actor Id Path}

/-- A path without other faults is held back exactly if it collides. -/
theorem portabilityReason_isSome {rel : Path} (hok : h.portabilityViolation rel = none) :
    (a.portabilityReason h rel).isSome = a.collides h rel := by
  unfold portabilityReason collides
  rw [hok]
  dsimp only
  rw [Option.isSome_map, Bool.eq_iff_iff, List.find?_isSome, List.any_eq_true]

/-- The paths that the event brings collide neither with a live path nor with each other. -/
def KeepsApart (h : Host Id Path) (env : Env Path) (a : Actor Id Path) (ev : Event Id Path) :
    Prop :=
  ∀ q ∈ ev.brings env a, a.collides h q = false ∧
    ∀ q' ∈ ev.brings env a, h.toLowercase q' = h.toLowercase q → q' = q

/-- So it is with every event that a step handles. -/
def StepsApart (h : Host Id Path) (a : Actor Id Path) (s : Env Path × Act Id Path) : Prop :=
  match a.handled s.2 with
  | some ev => a.KeepsApart h s.1 ev
  | none => True

/-- A path that may be live in the turn: it is live at its beginning, or the event brings it. -/
def MayLive (env : Env Path) (a : Actor Id Path) (ev : Event Id Path) (p : Path) : Prop :=
  FileRecord.isLive a.files[p]? = true ∨ p ∈ ev.brings env a

/-! ## One turn -/

/-- All live paths are among those that may be. -/
def LiveWithin (may : Path → Prop) (a : Actor Id Path) : Prop :=
  ∀ (p : Path) r, a.files[p]? = some r → r.deleted = false → may p

theorem LiveWithin.insert {may : Path → Prop} (hl : LiveWithin may a) {rel : Path}
    {record : FileRecord Id} (hr : record.deleted = true ∨ may rel) :
    ∀ (p : Path) r, (a.files.insert rel record)[p]? = some r → r.deleted = false → may p := by
  intro p r hp hlive
  rw [Map.get_insert] at hp
  split at hp
  · rename_i heq
    subst heq
    cases hp
    rcases hr with hdel | hmay
    · rw [hdel] at hlive
      cases hlive
    · exact hmay
  · exact hl p r hp hlive

/-- Moves make no other path live than the guard allows. -/
theorem LiveWithin.move {may frees : Path → Prop} (hl : LiveWithin may a)
    (hm : Move (Guard.live may frees) a b) : LiveWithin may b := by
  cases hm with
  | applied rel record staged hr ha => exact LiveWithin.insert hl ha
  | committed kind rel record hp hv hm hc => exact hl.insert hc
  | reasserted rel mine record updatedAtMs hf hr =>
      refine LiveWithin.insert hl ?_
      cases hdel : mine.deleted with
      | true => exact .inl rfl
      | false => exact .inr (hl rel mine hf hdel)
  | schedule rel sender record hr =>
      unfold LiveWithin
      rw [(schedulePull_onPulls a rel sender record).files]
      exact hl
  | finish rel =>
      unfold LiveWithin
      rw [(finishPull_onPulls a rel).files]
      exact hl
  | restart rel job hj =>
      unfold LiveWithin
      rw [(startPull_onPulls a rel job.sender job.record).files]
      exact hl
  | _ => exact hl

/-- Everything is in order with the paths, so all states have passed the guard. -/
theorem within_live (may frees : Path → Prop) (a : Actor Id Path) :
    Within (Guard.live may frees) a where
  files _ _ _ := ⟨trivial, trivial⟩
  history _ _ _ _ _ := trivial
  unapplied _ _ := trivial
  pulling _ _ := trivial
  index _ _ _ _ _ _ := trivial
  staging _ _ _ _ _ _ := trivial
  pending _ _ _ := ⟨trivial, fun _ _ => trivial⟩
  backlog _ _ := trivial
  deferred _ _ _ := trivial
  busy _ _ := trivial
  recheck _ _ := trivial
  acquires _ _ := trivial
  autolocks _ _ := trivial
  interest _ _ := trivial
  locks _ _ := trivial
  tasks t _ := by cases t <;> first | exact trivial | exact ⟨trivial, trivial⟩

/-- An event passes the guard of the paths that it may bring. -/
theorem passes_live (env : Env Path) (a : Actor Id Path) (ev : Event Id Path) :
    ev.Passes (Guard.live (MayLive env a ev) fun p => p ∈ ev.frees env a) h env a := by
  have hself : ∀ {p : Path} {l : List Path}, p ∈ p :: l := fun {_ _} => List.mem_cons_self
  cases ev with
  | msg id m =>
      cases m with
      | lock m =>
          refine fun _ => ⟨trivial, fun hends => ?_⟩
          show m.path ∈ if m.endsRound then [m.path] else []
          rw [if_pos hends]
          exact hself
      | index lamport files leases => exact ⟨fun _ _ _ _ => trivial, fun _ _ _ => trivial⟩
      | indexPart seq last lamport files leases =>
          exact ⟨fun _ _ _ _ => trivial, fun _ _ _ => trivial⟩
      | fileMeta rel record lamport => exact fun _ _ => trivial
      | lockInterest rel => exact fun _ => trivial
      | _ => exact trivial
  | ipc req reply => cases req <;> first | exact trivial | exact fun _ => trivial
  | sweep => exact fun rel hrel => hrel
  | inspected rel | violationStaged rel | autolockReady rel | conflictApplied rel =>
      exact ⟨trivial, hself⟩
  | publishDone rel result cause =>
      refine ⟨⟨trivial, hself⟩, fun p hp hmay => ⟨trivial, .inr ?_⟩⟩
      subst hp
      refine List.mem_append_left _ ?_
      show rel ∈ if a.locks.isHeldByMe rel || decide (cause = .import) then [rel] else []
      rw [if_pos (by simpa using hmay)]
      exact hself
  | pullStaged rel sender record result =>
      refine ⟨trivial, fun hsome hwhen => ?_⟩
      rcases hwhen with ⟨hfree, hnews⟩ | hno
      · cases hdel : record.deleted with
        | true => exact .inl hdel
        | false =>
            obtain ⟨bytes, rfl⟩ := Option.isSome_iff_exists.mp hsome
            refine .inr (.inr (List.mem_append_left _ ?_))
            show rel ∈ if record.deleted || a.busy.contains rel || a.isCurrent rel record then []
              else [rel]
            rw [hdel, hfree, hnews]
            exact hself
      · cases hno
  | restoreStaged rel entry result reply =>
      refine ⟨⟨trivial, hself⟩, fun bytes hok hheld => ⟨trivial, .inr ?_⟩⟩
      subst hok
      refine List.mem_append_left _ ?_
      show rel ∈ if a.locks.isHeldByMe rel then [rel] else []
      rw [if_pos hheld]
      exact hself
  | acquireTimeout rel lamport => exact hself
  | _ => exact trivial

/-- What an event makes live it has brought. -/
theorem liveWithin_handle (h : Host Id Path) (env : Env Path) (a : Actor Id Path)
    (ev : Event Id Path) : LiveWithin (MayLive env a ev) (a.handle h env ev) := by
  have hmay : MayRelease (Guard.live (MayLive env a ev) fun p => p ∈ ev.frees env a) a := by
    intro p d hd hfree
    cases hdel : d.record.deleted with
    | true => exact .inl hdel
    | false =>
        refine .inr (.inr (List.mem_append_right _ (List.mem_filter.mpr ⟨hfree, ?_⟩)))
        simp [awaits, hd, hdel]
  have hstart : LiveWithin (MayLive env a ev) a := by
    intro p r hr hlive
    refine .inl ?_
    simp [FileRecord.isLive, hr, hlive]
  exact (handle_kept (.of fun _ hl hm => LiveWithin.move hl hm)
    ⟨⟨within_live _ _ a, hmay⟩, hstart⟩ (passes_live env a ev)).2

theorem exists_of_isLive {files : Map Path (FileRecord Id)} {p : Path}
    (hp : FileRecord.isLive files[p]? = true) :
    ∃ r, files[p]? = some r ∧ r.deleted = false := by
  cases hr : files[p]? with
  | none =>
      rw [hr] at hp
      cases hp
  | some r =>
      rw [hr] at hp
      exact ⟨r, rfl, by simpa [FileRecord.isLive] using hp⟩

/-- **A turn that brings no collision makes none.** -/
theorem FoldsApart.handle (ha : FoldsApart h.toLowercase a.files) {ev : Event Id Path}
    (hok : a.KeepsApart h env ev) : FoldsApart h.toLowercase (a.handle h env ev).files := by
  have hclear : ∀ {p q : Path} {r : FileRecord Id}, a.files[p]? = some r → r.deleted = false →
      q ∈ ev.brings env a → h.toLowercase p = h.toLowercase q → p = q := by
    intro p q r hp hlive hq hfold
    by_contra hne
    have hno := (hok q hq).1
    rw [← Bool.not_eq_true] at hno
    refine hno (List.any_eq_true.mpr ⟨(p, r), Map.mem_toList.mpr hp, ?_⟩)
    simp [hlive, hne, hfold]
  intro p q r s hp hq hr hs hfold
  rcases liveWithin_handle h env a ev p r hp hr with hplive | hpnew
  · obtain ⟨r₀, hp₀, hr₀⟩ := exists_of_isLive hplive
    rcases liveWithin_handle h env a ev q s hq hs with hqlive | hqnew
    · obtain ⟨s₀, hq₀, hs₀⟩ := exists_of_isLive hqlive
      exact ha p q r₀ s₀ hp₀ hq₀ hr₀ hs₀ hfold
    · exact hclear hp₀ hr₀ hqnew hfold
  · rcases liveWithin_handle h env a ev q s hq hs with hqlive | hqnew
    · obtain ⟨s₀, hq₀, hs₀⟩ := exists_of_isLive hqlive
      exact (hclear hq₀ hs₀ hpnew hfold.symm).symm
    · exact (hok q hqnew).2 p hpnew hfold

/-- Tasks leave the index alone. -/
theorem runTask_files (a : Actor Id Path) (failure : Option String) (t : Task Id Path) :
    (a.runTask h env failure t).1.files = a.files := by
  have hcopy : ∀ rel, (a.quarantine env rel).1.files = a.files := by
    intro rel
    obtain ⟨_, _, _, _, _, _, hb⟩ := quarantine_onDisk a env rel
    rw [hb]
  cases t with
  | violation rel record quarantineFirst =>
      cases quarantineFirst with
      | true => exact hcopy rel
      | false => rfl
  | autolock rel newFile => exact hcopy rel
  | _ => rfl

/-- **Paths stay apart** in every run in which no event brings a collision. -/
theorem foldsApart_reached {me : Id} {p : Persisted Id Path} {founding : Bool}
    (hstart : FoldsApart h.toLowercase p.files)
    (hrun : Reaches (step h) (StepsApart h) (boot h env me p founding) a) :
    FoldsApart h.toLowercase a.files := by
  refine hrun.invariant (I := fun b => FoldsApart h.toLowercase b.files) ?_
    fun b s d hb hok hstep => ?_
  · -- nothing is committed or taken up while the daemon starts
    let may : Path → Prop := fun q => FileRecord.isLive p.files[q]? = true
    have hmoves : Kept (Guard.live may fun _ : Path => True) fun b : Actor Id Path =>
        (Within (Guard.live may fun _ => True) b ∧ MayRelease (Guard.live may fun _ => True) b) ∧
          LiveWithin may b :=
      .of fun _ hl hm => LiveWithin.move hl hm
    have hload : LiveWithin may (load h me p) := by
      intro q r hr hlive
      change p.files[q]? = some r at hr
      show FileRecord.isLive p.files[q]? = true
      simp [FileRecord.isLive, hr, hlive]
    have hkept := @boot_kept _ _ _ _ h env _ _ hmoves (fun _ => trivial) p
      ⟨fun _ _ _ => ⟨trivial, trivial⟩, fun _ _ _ _ _ => trivial, fun _ _ => trivial,
        fun _ _ => trivial, fun _ _ _ => trivial⟩ me
      ⟨⟨within_live _ _ _, fun q d hd => by simp [load] at hd⟩, hload⟩ founding
    intro q q' r s hq hq' hr hs hfold
    obtain ⟨r₀, hq₀, hr₀⟩ := exists_of_isLive (hkept.2 q r hq hr)
    obtain ⟨s₀, hq₀', hs₀⟩ := exists_of_isLive (hkept.2 q' s hq' hs)
    exact hstart q q' r₀ s₀ hq₀ hq₀' hr₀ hs₀ hfold
  · obtain ⟨env, act⟩ := s
    unfold StepsApart at hok
    cases act with
    | event ev =>
        simp only [Actor.step] at hstep
        split at hstep
        · cases hstep
          exact FoldsApart.handle hb hok
        · cases hstep
    | inbox n =>
        simp only [Actor.step] at hstep
        split at hstep
        · cases hstep
        · rename_i ev hev
          cases hstep
          simp only [handled, hev] at hok
          exact FoldsApart.handle (a := { b with inbox := b.inbox.eraseIdx n }) hb hok
    | task n failure =>
        simp only [Actor.step] at hstep
        split at hstep
        · cases hstep
        · rename_i t ht
          cases hstep
          show FoldsApart h.toLowercase (Actor.runTask h env { b with
            tasks := b.tasks.eraseIdx n } failure t).1.files
          rw [runTask_files]
          exact hb
    | write rel bytes =>
        simp only [Actor.step] at hstep
        cases hstep
        exact hb
    | delete rel =>
        simp only [Actor.step] at hstep
        cases hstep
        exact hb
    | chmod rel readonly =>
        simp only [Actor.step] at hstep
        split at hstep
        · cases hstep
        · cases hstep
          exact hb

/-! ## The condition is needed -/

/-- The file operations on the path succeed. -/
structure Writable (env : Env Path) (rel : Path) : Prop where
  createDir : env.io.createDir rel = true
  persist : env.io.persist rel = true
  setMode : env.io.setMode rel = true

/-- Content is written where the file operations succeed. -/
theorem applyToDisk_writable {rel : Path} (hw : Writable env rel) (a : Actor Id Path)
    {record : FileRecord Id} (hlive : record.deleted = false) (bytes : Bytes) :
    (a.applyToDisk h env rel record (some bytes)).2 = true := by
  have hmode : ∀ b : Actor Id Path, (b.setMode env rel true).2 = true := by
    intro b
    unfold setMode
    rw [hw.setMode]
    split <;> rfl
  have hpersist : (a.persistTemp h env rel bytes).2 = true := by
    unfold persistTemp
    rw [hw.createDir, hw.persist]
    rfl
  unfold applyToDisk
  rw [hlive, if_neg Bool.false_ne_true]
  dsimp only
  rw [show a.persistTemp h env rel bytes = ((a.persistTemp h env rel bytes).1, true) from
    Prod.ext rfl hpersist]
  dsimp only
  split
  · exact hmode _
  · rfl

/-- **A collision that is there when the content arrives gets into the index.** -/
theorem not_foldsApart_of_collides {rel : Path} {sender : Id} {record : FileRecord Id}
    (bytes : Bytes) (hlive : record.deleted = false) (htakes : a.Takes rel record)
    (hw : Writable env rel) (hrules : rel ≠ h.ignoreFile) (hc : a.collides h rel = true) :
    ¬ FoldsApart h.toLowercase
      (a.handle h env (.pullStaged rel sender record (some bytes))).files := by
  obtain ⟨hfree, hnews⟩ := htakes
  have hdisk := applyToDisk_onDisk h env (a.prepareApply env rel) rel record (some bytes)
  have hok := applyToDisk_writable (h := h) hw (a.prepareApply env rel) hlive bytes
  have hfiles : ((a.prepareApply env rel).applyToDisk h env rel record (some bytes)).1.files
      = a.files := by
    obtain ⟨_, _, _, _, _, _, hb⟩ := hdisk
    rw [hb]
    exact (prepareApply_keeps env a rel).files
  have hafter : ∃ vv, (a.handle h env (.pullStaged rel sender record (some bytes))).files
      = a.files.insert rel { record with vv } := by
    apply Exists.intro
    show (a.applyRemoteWith (rebuildIgnore h env) h env rel sender record (some bytes)).files = _
    unfold applyRemoteWith
    rw [hfree, hnews, if_neg Bool.false_ne_true, if_neg Bool.false_ne_true]
    unfold applyNow
    dsimp only
    rw [(finishPull_onPulls _ rel).files]
    rw [show (a.prepareApply env rel).applyToDisk h env rel record (some bytes) =
      (((a.prepareApply env rel).applyToDisk h env rel record (some bytes)).1, true) from
        Prod.ext rfl hok]
    dsimp only
    rw [if_neg hrules]
    unfold commitApplied
    dsimp only
    rw [hfiles]
  obtain ⟨vv, hafter⟩ := hafter
  obtain ⟨e, he, hcol⟩ := List.any_eq_true.mp hc
  simp only [Bool.and_eq_true, Bool.not_eq_true', decide_eq_true_eq] at hcol
  obtain ⟨⟨helive, hne⟩, hfold⟩ := hcol
  intro hapart
  rw [hafter] at hapart
  have hother : (a.files.insert rel { record with vv })[e.1]? = some e.2 :=
    (Map.get_insert_ne _ _ (Ne.symm hne)).trans (Map.mem_toList.mp he)
  exact hne (hapart e.1 rel e.2 { record with vv } hother (Map.get_insert_self _ _ _) helive hlive
    hfold)

/-- **Paths that differ only by case** stay apart in every run in which each path that an event
brings still passes the case-fold check at that moment; where content arrives for one that
does not, the two are in the index together. -/
theorem casefold_apart (h : Host Id Path) (me : Id) :
    (∀ (env : Env Path) (p : Persisted Id Path) (founding : Bool) (a : Actor Id Path),
      FoldsApart h.toLowercase p.files →
      Reaches (step h) (StepsApart h) (boot h env me p founding) a →
      FoldsApart h.toLowercase a.files) ∧
    ∀ (env : Env Path) (a : Actor Id Path) (rel : Path) (sender : Id) (record : FileRecord Id)
      (bytes : Bytes), record.deleted = false → a.Takes rel record → Writable env rel →
      rel ≠ h.ignoreFile → a.collides h rel = true → ¬ FoldsApart h.toLowercase
        (a.handle h env (.pullStaged rel sender record (some bytes))).files :=
  ⟨fun _ _ _ _ hstart hrun => foldsApart_reached hstart hrun,
    fun _ _ _ _ _ bytes hlive htakes hw hrules hc =>
      not_foldsApart_of_collides bytes hlive htakes hw hrules hc⟩

/-! ## A folder with `a` and `A` -/

/-- A Windows node; paths 5 and 105 have the same lower-case form. -/
def windowsHost : Host Nat Nat :=
  { plainHost with windows := true, toLowercase := fun p => if p % 100 = 5 then "a" else "b" }

def windowsStart : Actor Nat Nat := boot windowsHost (plainEnv 0) 0 plainState false

/-- Node 1 announces a new file. -/
def announceFile (path : Nat) : Act Nat Nat :=
  .event (.msg 1 (.fileMeta path (plainRecord 8 ((∅ : VClock Nat).insert 1 1)) 0))

/-- Two paths that collide are announced while neither is there, and both are pulled. -/
theorem casefold_overwrite : ∃ a : Actor Nat Nat,
    Reaches (step windowsHost) anyStep windowsStart a ∧
      ¬ FoldsApart windowsHost.toLowercase a.files := by
  have hexec : (execute (step windowsHost) (now [.event (.authed 1 0 true), announceFile 5,
      announceFile 105, .task 0 none, .task 0 none, .inbox 0, .inbox 0]) windowsStart).any
      (fun a => FileRecord.isLive a.files[5]? && FileRecord.isLive a.files[105]?) = true := by
    decide +kernel
  obtain ⟨a, hrun, hp⟩ := exists_reaches_of_execute anyStep (fun _ _ _ => trivial) hexec
  obtain ⟨hsmall, hlarge⟩ := Bool.and_eq_true_iff.mp hp
  obtain ⟨r, hr, hrlive⟩ := exists_of_isLive hsmall
  obtain ⟨s, hs, hslive⟩ := exists_of_isLive hlarge
  refine ⟨a, hrun, fun hapart => ?_⟩
  exact absurd (hapart 5 105 r s hr hs hrlive hslive rfl) (by decide)

instance (a : Actor Id Path) (ev : Event Id Path) : Decidable (a.KeepsApart h env ev) := by
  unfold KeepsApart
  infer_instance

instance (a : Actor Id Path) (s : Env Path × Act Id Path) : Decidable (a.StepsApart h s) :=
  decidableHandled (P := a.KeepsApart h s.1) (a.handled s.2)

theorem plainState_apart (fold : Nat → String) : FoldsApart fold plainState.files := by
  intro p q r s hp hq _ _ _
  rw [(plainState_files hp).1, (plainState_files hq).1]

/-- One after the other, the second is held back; and the collision of the first theorem is
one of content that arrives. -/
theorem casefold_apart_held : ∃ a : Actor Nat Nat,
    FileRecord.isLive a.files[5]? = true ∧ a.unapplied.contains 105 = true ∧
      FoldsApart windowsHost.toLowercase a.files ∧
      ¬ FoldsApart windowsHost.toLowercase (a.handle windowsHost (plainEnv 0)
        (.pullStaged 105 1 (plainRecord 8 ((∅ : VClock Nat).insert 1 1)) (some [8]))).files := by
  have hexec : (executeChecked (step windowsHost) (fun a s => decide (StepsApart windowsHost a s))
      (now [.event (.authed 1 0 true), announceFile 5, .task 0 none, .inbox 0, announceFile 105])
      windowsStart).any (fun a => FileRecord.isLive a.files[5]? && a.unapplied.contains 105 &&
        decide (a.busy.contains 105 = false) && decide (a.files[105]? = none) &&
        a.collides windowsHost 105) = true := by
    decide +kernel
  obtain ⟨a, hok, hp⟩ := exists_reaches_of_executeChecked hexec
  simp only [Bool.and_eq_true, decide_eq_true_eq] at hp
  obtain ⟨⟨⟨⟨hlive, hheld⟩, hfree⟩, hnew⟩, hcol⟩ := hp
  have hrun : Reaches (step windowsHost) (StepsApart windowsHost) windowsStart a :=
    hok.mono fun _ _ h => of_decide_eq_true h
  obtain ⟨hkept, hneeded⟩ := casefold_apart windowsHost 0
  refine ⟨a, hlive, hheld, hkept (plainEnv 0) plainState false a (plainState_apart _) hrun, ?_⟩
  refine hneeded (plainEnv 0) a 105 1 _ [8] rfl ⟨hfree, ?_⟩ ⟨rfl, rfl, rfl⟩ (by decide) hcol
  unfold isCurrent
  rw [hnew]

end Actor

end Tazamun
