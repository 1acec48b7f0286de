import Tazamun.Lib.Run
import Tazamun.Supervisor.Registry

set_option autoImplicit false

/-! # One process for every folder

`tazamun start --all` hosts every session of the device that is not paused (`supervisor.rs`): one
daemon for a folder, in one process. Requests arrive on a control socket and are answered one
after the other; `pause` sets the flag of a folder in the registry and stops its daemon, `resume`
clears the flag and starts one.

The registry is one file, and other commands change it meanwhile: each loads it, changes its copy
and saves the copy, and nothing keeps two of them from doing so at once. `Device` has the file,
the copies on their way, what the supervisor has left to do, and the daemons. A daemon of a
folder is also started by hand (`standalone`), and it may end by itself.

The file is in order whatever is saved when (**`registry_stays_inOrder`**), and no folder ever has two
daemons (**`Device.oneDaemon`**). A folder that was paused, with no other change of the registry
under way, is not hosted again until it is resumed or forgotten, over restarts of the supervisor
too (**`Device.stays_paused`**).
-/

namespace Tazamun.Supervisor

open Lib

variable {Path : Type} [LinearOrder Path]

/-! ## The parts -/

/-- What the supervisor does: the steps of `run`, and of `handle_control`. -/
inductive Task (Path : Type) where
  /-- The pruned registry is to be saved, and then its folders are hosted. -/
  | pruned (reg : Registry Path)
  /-- The loop over the folders. -/
  | starting (rest : Registry Path)
  | serving
  /-- A flag was set in the copy `reg`, which is to be saved. -/
  | setting (dir : Path) (paused : Bool) (reg : Registry Path)

structure Hosting (Path : Type) where
  task : Task Path
  /-- The keys of `hosted`. -/
  hosted : Finset Path

structure Device (Path : Type) where
  /-- What `sessions.json` parses to. -/
  file : Option (Registry Path)
  /-- The copies that commands have changed and will save. -/
  writers : List (Registry Path)
  supervisor : Option (Hosting Path)
  /-- The folders with a daemon of the supervisor. -/
  running : Finset Path
  /-- The folders with a daemon of their own. -/
  standalone : Finset Path

/-- How a save ends. Two saves at once write one temporary file, and tear it. -/
inductive Saved where
  | done
  | failed
  | torn
deriving DecidableEq

inductive Act (Path : Type) where
  | load (c : Command Path)
  | save (i : Nat) (how : Saved)
  | startAlone (dir : Path)
  /-- The daemon of the folder ends. -/
  | stopDaemon (dir : Path)
  | startAll (isSession : Path → Bool)
  | savePruned (how : Saved)
  /-- The next folder of the loop; `ok` if nothing but another daemon keeps it from starting. -/
  | host (ok : Bool)
  | request (dir : Path) (paused : Bool)
  /-- The rest of the request. -/
  | answer (how : Saved) (ok : Bool)
  /-- The supervisor ends, and its daemons with it. -/
  | stopAll

namespace Device

/-- `load_from`: a file that is not there, or does not parse, is an empty registry. -/
def loaded (d : Device Path) : Registry Path := d.file.getD []

/-- The file after a save of `reg`. -/
def written (d : Device Path) (reg : Registry Path) : Saved → Option (Registry Path)
  | .done => some reg
  | .failed => d.file
  | .torn => none

/-- The folder has a daemon, so that another one cannot bind its socket. -/
def isTaken (d : Device Path) (dir : Path) : Bool := dir ∈ d.running || dir ∈ d.standalone

/-- `spawn_session`: a folder that is hosted already is left alone. -/
def spawnSession (d : Device Path) (s : Hosting Path) (dir : Path) (ok : Bool) : Device Path :=
  if dir ∈ s.hosted then { d with supervisor := some s }
  else if ok && !d.isTaken dir then
    { d with supervisor := some { s with hosted := insert dir s.hosted }
             running := insert dir d.running }
  else { d with supervisor := some s }

/-- `stop_session`. -/
def stopSession (d : Device Path) (s : Hosting Path) (dir : Path) : Device Path :=
  if dir ∈ s.hosted then
    { d with supervisor := some { s with hosted := s.hosted.erase dir }
             running := d.running.erase dir }
  else { d with supervisor := some s }

/-- The step of a command. -/
def stepCommand (d : Device Path) : Act Path → Option (Device Path)
  | .load c =>
      match c.run d.loaded with
      | none => some d
      | some reg => some { d with writers := reg :: d.writers }
  | .save i how =>
      match d.writers[i]? with
      | none => none
      | some reg => some { d with file := d.written reg how, writers := d.writers.eraseIdx i }
  | .startAlone dir =>
      if d.isTaken dir then none else some { d with standalone := insert dir d.standalone }
  | .stopDaemon dir =>
      some { d with running := d.running.erase dir, standalone := d.standalone.erase dir }
  | _ => none

/-- The step of the supervisor. -/
def stepHosting (d : Device Path) (s : Hosting Path) : Act Path → Option (Device Path)
  | .savePruned how =>
      match s.task with
      | .pruned reg =>
          some { d with file := d.written reg how
                        supervisor := some { s with task := .starting reg } }
      | _ => none
  | .host ok =>
      match s.task with
      | .starting [] => some { d with supervisor := some { s with task := .serving } }
      | .starting (r :: rest) =>
          let s := { s with task := .starting rest }
          some (if r.paused then { d with supervisor := some s } else d.spawnSession s r.path ok)
      | _ => none
  | .request dir paused =>
      match s.task with
      | .serving =>
          match d.loaded.setPaused dir paused with
          | none => some d
          | some (_, reg) =>
              some { d with supervisor := some { s with task := .setting dir paused reg } }
      | _ => none
  | .answer how ok =>
      match s.task with
      | .setting dir paused reg =>
          let d := { d with file := d.written reg how }
          let s := { s with task := .serving }
          some (if paused then d.stopSession s dir else d.spawnSession s dir ok)
      | _ => none
  | .stopAll => some { d with supervisor := none, running := ∅ }
  | _ => none

def step (d : Device Path) : Act Path → Option (Device Path)
  | .startAll isSession =>
      match d.supervisor with
      | some _ => none
      | none =>
          let (kept, gone) := d.loaded.prune isSession
          let task : Task Path := if gone.isEmpty then .starting kept else .pruned kept
          some { d with supervisor := some { task, hosted := ∅ } }
  | .savePruned how => d.supervisor.bind fun s => d.stepHosting s (.savePruned how)
  | .host ok => d.supervisor.bind fun s => d.stepHosting s (.host ok)
  | .request dir paused => d.supervisor.bind fun s => d.stepHosting s (.request dir paused)
  | .answer how ok => d.supervisor.bind fun s => d.stepHosting s (.answer how ok)
  | .stopAll => d.supervisor.bind fun s => d.stepHosting s .stopAll
  | act => d.stepCommand act

/-- Before anything was started. -/
def init (file : Option (Registry Path)) : Device Path where
  file := file
  writers := []
  supervisor := none
  running := ∅
  standalone := ∅

end Device

/-! ## The invariant -/

/-- The registry that the supervisor has at hand. -/
def Task.regs : Task Path → List (Registry Path)
  | .pruned reg => [reg]
  | .starting rest => [rest]
  | .serving => []
  | .setting _ _ reg => [reg]

/-- Every copy is in order, and a flag that is being set is set in the copy. -/
structure Task.Fine (task : Task Path) : Prop where
  inOrder : ∀ reg ∈ task.regs, InOrder reg
  pausing : ∀ dir reg, task = .setting dir true reg → PausedAt dir reg

theorem Task.Fine.serving : Task.Fine (.serving : Task Path) :=
  ⟨fun _ hreg => (by cases hreg), fun _ _ hset => (by cases hset)⟩

theorem Task.Fine.starting {rest : Registry Path} (h : InOrder rest) :
    Task.Fine (.starting rest) := by
  refine ⟨fun reg hreg => ?_, fun _ _ hset => (by cases hset)⟩
  rw [List.mem_singleton.mp hreg]
  exact h

/-- The task will not host the folder, and leaves it paused in the file. -/
def Task.Leaves (dir : Path) : Task Path → Prop
  | .pruned reg => PausedAt dir reg
  | .starting rest => ∀ r ∈ rest, r.path = dir → r.paused = true
  | .serving => True
  | .setting dir' paused reg => PausedAt dir reg ∧ (dir' = dir → paused = true)

namespace Device

structure Inv (d : Device Path) : Prop where
  file : InOrder d.loaded
  writers : ∀ reg ∈ d.writers, InOrder reg
  task : ∀ s, d.supervisor = some s → s.task.Fine
  apart : Disjoint d.running d.standalone
  hosted : ∀ s, d.supervisor = some s → d.running ⊆ s.hosted
  down : d.supervisor = none → d.running = ∅

variable {d d' : Device Path} {s : Hosting Path} {dir : Path}

omit [LinearOrder Path] in
theorem loaded_written {P : Registry Path → Prop} (hnil : P []) (hfile : P d.loaded)
    {reg : Registry Path} (hreg : P reg) (how : Saved) : P ((d.written reg how).getD []) := by
  cases how with
  | done => exact hreg
  | failed => exact hfile
  | torn => exact hnil

theorem isTaken_eq_false : d.isTaken dir = false ↔ dir ∉ d.running ∧ dir ∉ d.standalone := by
  unfold isTaken
  rw [Bool.or_eq_false_iff, decide_eq_false_iff_not, decide_eq_false_iff_not]

theorem Inv.withFile (h : d.Inv) {reg : Registry Path} (hreg : InOrder reg) (how : Saved) :
    Inv { d with file := d.written reg how } :=
  ⟨loaded_written List.Pairwise.nil h.file hreg how, h.writers, h.task, h.apart, h.hosted, h.down⟩

theorem Inv.withTask (h : d.Inv) (hs : d.supervisor = some s) {task : Task Path}
    (htask : task.Fine) : Inv { d with supervisor := some { s with task } } where
  file := h.file
  writers := h.writers
  task := by
    rintro _ ⟨⟩
    exact htask
  apart := h.apart
  hosted := by
    rintro _ ⟨⟩
    exact h.hosted s hs
  down := fun hnone => by cases hnone

/-- `s` may differ from the supervisor of `d` in its task. -/
theorem Inv.spawnSession (h : Inv { d with supervisor := some s }) (ok : Bool) :
    (d.spawnSession s dir ok).Inv := by
  unfold Device.spawnSession
  by_cases hin : dir ∈ s.hosted
  · rw [if_pos hin]
    exact h
  · rw [if_neg hin]
    by_cases hok : (ok && !d.isTaken dir) = true
    · rw [if_pos hok]
      rw [Bool.and_eq_true, Bool.not_eq_true'] at hok
      obtain ⟨-, hfree⟩ := isTaken_eq_false.mp hok.2
      refine ⟨h.file, h.writers, ?_, ?_, ?_, fun hnone => by cases hnone⟩
      · rintro _ ⟨⟩
        exact h.task s rfl
      · exact Finset.disjoint_insert_left.mpr ⟨hfree, h.apart⟩
      · rintro _ ⟨⟩
        exact Finset.insert_subset_insert dir (h.hosted s rfl)
    · rw [if_neg hok]
      exact h

theorem Inv.stopSession (h : Inv { d with supervisor := some s }) : (d.stopSession s dir).Inv := by
  unfold Device.stopSession
  by_cases hin : dir ∈ s.hosted
  · rw [if_pos hin]
    refine ⟨h.file, h.writers, ?_, ?_, ?_, fun hnone => by cases hnone⟩
    · rintro _ ⟨⟩
      exact h.task s rfl
    · exact Disjoint.mono_left (Finset.erase_subset _ _) h.apart
    · rintro _ ⟨⟩
      exact Finset.erase_subset_erase dir (h.hosted s rfl)
  · rw [if_neg hin]
    exact h

theorem Inv.stepCommand (h : d.Inv) {act : Act Path} (hstep : d.stepCommand act = some d') :
    d'.Inv := by
  unfold Device.stepCommand at hstep
  cases act with
  | load c =>
      cases hrun : c.run d.loaded with
      | none =>
          simp only [hrun, Option.some.injEq] at hstep
          subst hstep
          exact h
      | some reg =>
          simp only [hrun, Option.some.injEq] at hstep
          subst hstep
          refine ⟨h.file, fun reg' hreg' => ?_, h.task, h.apart, h.hosted, h.down⟩
          rcases List.mem_cons.mp hreg' with rfl | hreg'
          · exact Command.inOrder h.file hrun
          · exact h.writers reg' hreg'
  | save i how =>
      cases hget : d.writers[i]? with
      | none => simp [hget] at hstep
      | some reg =>
          simp only [hget, Option.some.injEq] at hstep
          subst hstep
          have hreg := h.writers reg (List.mem_of_getElem? hget)
          have hfile := h.withFile hreg how
          exact ⟨hfile.file, fun reg' hreg' => h.writers reg' (List.mem_of_mem_eraseIdx hreg'),
            h.task, h.apart, h.hosted, h.down⟩
  | startAlone dir =>
      rw [Option.ite_none_left_eq_some] at hstep
      obtain ⟨hfree, hstep⟩ := hstep
      obtain rfl := Option.some.inj hstep
      obtain ⟨hrunning, -⟩ := isTaken_eq_false.mp (Bool.not_eq_true _ ▸ hfree)
      exact ⟨h.file, h.writers, h.task, Finset.disjoint_insert_right.mpr ⟨hrunning, h.apart⟩,
        h.hosted, h.down⟩
  | stopDaemon dir =>
      obtain rfl := Option.some.inj hstep
      refine ⟨h.file, h.writers, h.task, ?_, fun s hs => ?_, fun hnone => ?_⟩
      · exact Disjoint.mono (Finset.erase_subset _ _) (Finset.erase_subset _ _) h.apart
      · exact (Finset.erase_subset _ _).trans (h.hosted s hs)
      · show d.running.erase dir = ∅
        rw [h.down hnone, Finset.erase_empty]
  | _ => cases hstep

theorem Inv.stepHosting (h : d.Inv) (hs : d.supervisor = some s) {act : Act Path}
    (hstep : d.stepHosting s act = some d') : d'.Inv := by
  have htask := h.task s hs
  unfold Device.stepHosting at hstep
  cases act with
  | savePruned how =>
      cases heq : s.task with
      | pruned reg =>
          simp only [heq, Option.some.injEq] at hstep
          subst hstep
          have hreg : InOrder reg := htask.inOrder reg (by rw [heq]; exact List.mem_singleton_self _)
          exact (h.withFile hreg how).withTask hs (.starting hreg)
      | _ => simp [heq] at hstep
  | host ok =>
      cases heq : s.task with
      | starting rest =>
          cases rest with
          | nil =>
              simp only [heq, Option.some.injEq] at hstep
              subst hstep
              exact h.withTask hs .serving
          | cons r rest =>
              simp only [heq, Option.some.injEq] at hstep
              subst hstep
              have hrest : InOrder rest := by
                have hall := htask.inOrder (r :: rest) (by rw [heq]; exact List.mem_singleton_self _)
                exact (List.pairwise_cons.mp hall).2
              have hnext : Inv { d with supervisor := some { s with task := .starting rest } } :=
                h.withTask hs (.starting hrest)
              by_cases hpaused : r.paused = true
              · rw [if_pos hpaused]
                exact hnext
              · rw [if_neg hpaused]
                exact hnext.spawnSession ok
      | _ => simp [heq] at hstep
  | request dir paused =>
      cases heq : s.task with
      | serving =>
          cases hset : d.loaded.setPaused dir paused with
          | none =>
              simp only [heq, hset, Option.some.injEq] at hstep
              subst hstep
              exact h
          | some r =>
              simp only [heq, hset, Option.some.injEq] at hstep
              subst hstep
              refine h.withTask hs ⟨?_, ?_⟩
              · intro reg' hreg'
                rw [List.mem_singleton.mp hreg']
                exact h.file.setPaused hset
              · rintro dir' reg' ⟨⟩
                exact pausedAt_setPaused h.file hset
      | _ => simp [heq] at hstep
  | answer how ok =>
      cases heq : s.task with
      | setting dir paused reg =>
          simp only [heq, Option.some.injEq] at hstep
          subst hstep
          have hreg : InOrder reg := htask.inOrder reg (by rw [heq]; exact List.mem_singleton_self _)
          have hnext := (h.withFile hreg how).withTask hs .serving
          cases paused with
          | true => exact hnext.stopSession
          | false => exact hnext.spawnSession ok
      | _ => simp [heq] at hstep
  | stopAll =>
      obtain rfl := Option.some.inj hstep
      exact ⟨h.file, h.writers, fun _ hnone => (by cases hnone), Finset.disjoint_empty_left _,
        fun _ hnone => (by cases hnone), fun _ => rfl⟩
  | _ => cases hstep

theorem Inv.step (h : d.Inv) {act : Act Path} (hstep : d.step act = some d') : d'.Inv := by
  cases act with
  | startAll isSession =>
      unfold Device.step at hstep
      cases hs : d.supervisor with
      | some s => simp [hs] at hstep
      | none =>
          simp only [hs, Option.some.injEq] at hstep
          subst hstep
          refine ⟨h.file, h.writers, ?_, h.apart, ?_, fun hnone => (by cases hnone)⟩
          · rintro _ ⟨⟩
            dsimp only
            split
            · exact .starting (h.file.filter _)
            · refine ⟨fun reg hreg => ?_, fun _ _ hset => (by cases hset)⟩
              rw [List.mem_singleton.mp hreg]
              exact h.file.filter _
          · rintro _ ⟨⟩
            show d.running ⊆ ∅
            rw [h.down hs]
  | savePruned how =>
      obtain ⟨s, hs, hstep⟩ := Option.bind_eq_some_iff.mp hstep
      exact h.stepHosting hs hstep
  | host ok =>
      obtain ⟨s, hs, hstep⟩ := Option.bind_eq_some_iff.mp hstep
      exact h.stepHosting hs hstep
  | request dir paused =>
      obtain ⟨s, hs, hstep⟩ := Option.bind_eq_some_iff.mp hstep
      exact h.stepHosting hs hstep
  | answer how ok =>
      obtain ⟨s, hs, hstep⟩ := Option.bind_eq_some_iff.mp hstep
      exact h.stepHosting hs hstep
  | stopAll =>
      obtain ⟨s, hs, hstep⟩ := Option.bind_eq_some_iff.mp hstep
      exact h.stepHosting hs hstep
  | load c => exact h.stepCommand (show d.stepCommand (.load c) = some d' from hstep)
  | save i how => exact h.stepCommand (show d.stepCommand (.save i how) = some d' from hstep)
  | startAlone dir => exact h.stepCommand (show d.stepCommand (.startAlone dir) = some d' from hstep)
  | stopDaemon dir => exact h.stepCommand (show d.stepCommand (.stopDaemon dir) = some d' from hstep)

theorem inv_init {file : Option (Registry Path)} (h : InOrder (file.getD [])) : (init file).Inv where
  file := h
  writers := fun _ hreg => (by cases hreg)
  task := fun _ hnone => (by cases hnone)
  apart := Finset.disjoint_empty_left _
  hosted := fun _ hnone => (by cases hnone)
  down := fun _ => rfl

theorem Inv.of_reaches {ok : Device Path → Act Path → Prop} (h : d.Inv)
    (hrun : Reaches Device.step ok d d') : d'.Inv :=
  hrun.invariant h fun _ _ _ hv _ hstep => hv.step hstep

/-- **The registry stays in order**, whatever commands and the supervisor save it and when: there
is one entry for a folder. -/
theorem registry_stays_inOrder {file : Option (Registry Path)} (hfile : InOrder (file.getD []))
    (h : Reaches step anyStep (init file) d) : InOrder d.loaded :=
  ((inv_init hfile).of_reaches h).file

/-- Two folders, and commands that change both at once: the second save undoes the first. -/
def twoFolders : Registry Nat :=
  [{ path := 1, kind := .init, addedMs := 10, paused := false },
    { path := 2, kind := .join, addedMs := 11, paused := false }]

theorem inOrder_twoFolders : InOrder twoFolders := by
  unfold InOrder
  decide

def changingBoth : List (Act Nat) :=
  [.load (.forgetSessions [1]), .load (.setPaused 2 true), .save 1 .done, .save 0 .done]

theorem registry_stays_inOrder_changingBoth : ∃ d : Device Nat,
    d.loaded.map SessionRef.path = [1, 2] ∧ InOrder d.loaded := by
  have hrun : (execute step changingBoth (init (some twoFolders))).any
      (fun d => d.loaded.map SessionRef.path == [1, 2]) = true := by decide +kernel
  obtain ⟨d, hreach, hd⟩ :=
    exists_reaches_of_execute anyStep (fun _ _ _ => trivial) hrun
  have hfile : InOrder ((some twoFolders).getD []) := inOrder_twoFolders
  exact ⟨d, beq_iff_eq.mp hd, registry_stays_inOrder hfile hreach⟩

theorem inOrder_none : InOrder ((none : Option (Registry Nat)).getD []) := List.Pairwise.nil

/-- A folder is hosted, and its daemon cannot be started by hand. -/
def hostingOne : List (Act Nat) :=
  [.load (.registerSession (fun _ => true) 1 .init 10), .save 0 .done, .startAlone 2,
    .startAll fun _ => true, .host true, .host true]

/-- The folder is not resumed or forgotten, no save of the registry is torn, and where the
registry is pruned the folder is still a session. -/
def Spares (dir : Path) (_ : Device Path) : Act Path → Prop
  | .load c => c.Spares dir
  | .save _ how => how ≠ .torn
  | .startAll isSession => isSession dir = true
  | .savePruned how => how ≠ .torn
  | .request dir' paused => dir' = dir → paused = true
  | .answer how _ => how ≠ .torn
  | _ => True

structure Paused (dir : Path) (d : Device Path) : Prop where
  file : PausedAt dir d.loaded
  writers : ∀ reg ∈ d.writers, PausedAt dir reg
  notRunning : dir ∉ d.running
  notHosted : ∀ s, d.supervisor = some s → dir ∉ s.hosted
  task : ∀ s, d.supervisor = some s → s.task.Leaves dir

omit [LinearOrder Path] in
theorem Paused.withFile (h : d.Paused dir) {reg : Registry Path} (hreg : PausedAt dir reg)
    {how : Saved} (hhow : how ≠ .torn) : Paused dir { d with file := d.written reg how } := by
  refine ⟨?_, h.writers, h.notRunning, h.notHosted, h.task⟩
  cases how with
  | done => exact hreg
  | failed => exact h.file
  | torn => exact absurd rfl hhow

omit [LinearOrder Path] in
theorem Paused.withTask (h : d.Paused dir) (hs : d.supervisor = some s) {task : Task Path}
    (htask : task.Leaves dir) : Paused dir { d with supervisor := some { s with task } } := by
  refine ⟨h.file, h.writers, h.notRunning, ?_, ?_⟩
  · rintro _ ⟨⟩
    exact h.notHosted s hs
  · rintro _ ⟨⟩
    exact htask

theorem Paused.spawnSession (h : Paused dir { d with supervisor := some s }) {dir' : Path}
    (hne : dir' ≠ dir) (ok : Bool) : Paused dir (d.spawnSession s dir' ok) := by
  unfold Device.spawnSession
  by_cases hin : dir' ∈ s.hosted
  · rw [if_pos hin]
    exact h
  · rw [if_neg hin]
    by_cases hok : (ok && !d.isTaken dir') = true
    · rw [if_pos hok]
      refine ⟨h.file, h.writers, ?_, ?_, ?_⟩
      · exact fun hmem => (Finset.mem_insert.mp hmem).elim (fun heq => hne heq.symm) h.notRunning
      · rintro _ ⟨⟩ hmem
        exact (Finset.mem_insert.mp hmem).elim (fun heq => hne heq.symm) (h.notHosted s rfl)
      · rintro _ ⟨⟩
        exact h.task s rfl
    · rw [if_neg hok]
      exact h

theorem Paused.stopSession (h : Paused dir { d with supervisor := some s }) {dir' : Path} :
    Paused dir (d.stopSession s dir') := by
  unfold Device.stopSession
  by_cases hin : dir' ∈ s.hosted
  · rw [if_pos hin]
    refine ⟨h.file, h.writers, fun hmem => h.notRunning (Finset.mem_of_mem_erase hmem), ?_, ?_⟩
    · rintro _ ⟨⟩ hmem
      exact h.notHosted s rfl (Finset.mem_of_mem_erase hmem)
    · rintro _ ⟨⟩
      exact h.task s rfl
  · rw [if_neg hin]
    exact h

theorem Paused.stepCommand (h : d.Paused dir) {act : Act Path} (hspares : d.Spares dir act)
    (hstep : d.stepCommand act = some d') : d'.Paused dir := by
  unfold Device.stepCommand at hstep
  cases act with
  | load c =>
      cases hrun : c.run d.loaded with
      | none =>
          simp only [hrun, Option.some.injEq] at hstep
          subst hstep
          exact h
      | some reg =>
          simp only [hrun, Option.some.injEq] at hstep
          subst hstep
          refine ⟨h.file, fun reg' hreg' => ?_, h.notRunning, h.notHosted, h.task⟩
          rcases List.mem_cons.mp hreg' with rfl | hreg'
          · exact Command.pausedAt h.file hspares hrun
          · exact h.writers reg' hreg'
  | save i how =>
      cases hget : d.writers[i]? with
      | none => simp [hget] at hstep
      | some reg =>
          simp only [hget, Option.some.injEq] at hstep
          subst hstep
          have hfile := h.withFile (h.writers reg (List.mem_of_getElem? hget)) hspares
          exact ⟨hfile.file, fun reg' hreg' => h.writers reg' (List.mem_of_mem_eraseIdx hreg'),
            h.notRunning, h.notHosted, h.task⟩
  | startAlone dir' =>
      rw [Option.ite_none_left_eq_some] at hstep
      obtain rfl := Option.some.inj hstep.2
      exact ⟨h.file, h.writers, h.notRunning, h.notHosted, h.task⟩
  | stopDaemon dir' =>
      obtain rfl := Option.some.inj hstep
      exact ⟨h.file, h.writers, fun hmem => h.notRunning (Finset.mem_of_mem_erase hmem),
        h.notHosted, h.task⟩
  | _ => cases hstep

theorem Paused.stepHosting (h : d.Paused dir) (hs : d.supervisor = some s) {act : Act Path}
    (hspares : d.Spares dir act) (hstep : d.stepHosting s act = some d') : d'.Paused dir := by
  have htask := h.task s hs
  unfold Device.stepHosting at hstep
  cases act with
  | savePruned how =>
      cases heq : s.task with
      | pruned reg =>
          simp only [heq, Option.some.injEq] at hstep
          subst hstep
          rw [heq] at htask
          have hreg : PausedAt dir reg := htask
          exact (h.withFile hreg hspares).withTask hs
            (show (Task.starting reg).Leaves dir from hreg.paused)
      | _ => simp [heq] at hstep
  | host ok =>
      cases heq : s.task with
      | starting rest =>
          rw [heq] at htask
          cases rest with
          | nil =>
              simp only [heq, Option.some.injEq] at hstep
              subst hstep
              exact h.withTask hs (show Task.serving.Leaves dir from trivial)
          | cons r rest =>
              simp only [heq, Option.some.injEq] at hstep
              subst hstep
              have hnext : Paused dir { d with supervisor := some { s with task := .starting rest } } :=
                h.withTask hs (show (Task.starting rest).Leaves dir from
                  fun t ht => htask t (List.mem_cons_of_mem _ ht))
              by_cases hpaused : r.paused = true
              · rw [if_pos hpaused]
                exact hnext
              · rw [if_neg hpaused]
                exact hnext.spawnSession
                  (fun hpath => hpaused (htask r List.mem_cons_self hpath)) ok
      | _ => simp [heq] at hstep
  | request dir' paused =>
      cases heq : s.task with
      | serving =>
          cases hset : d.loaded.setPaused dir' paused with
          | none =>
              simp only [heq, hset, Option.some.injEq] at hstep
              subst hstep
              exact h
          | some r =>
              simp only [heq, hset, Option.some.injEq] at hstep
              subst hstep
              exact h.withTask hs (show (Task.setting dir' paused r.2).Leaves dir from
                ⟨h.file.setPaused hset hspares, hspares⟩)
      | _ => simp [heq] at hstep
  | answer how ok =>
      cases heq : s.task with
      | setting dir' paused reg =>
          simp only [heq, Option.some.injEq] at hstep
          subst hstep
          rw [heq] at htask
          obtain ⟨hreg, hkeep⟩ := htask
          have hnext := (h.withFile hreg hspares).withTask hs
            (show Task.serving.Leaves dir from trivial)
          cases paused with
          | true => exact hnext.stopSession
          | false =>
              have hne : dir' ≠ dir := fun hsame => Bool.false_ne_true (hkeep hsame)
              exact hnext.spawnSession hne ok
      | _ => simp [heq] at hstep
  | stopAll =>
      obtain rfl := Option.some.inj hstep
      exact ⟨h.file, h.writers, Finset.notMem_empty dir, fun _ hnone => (by cases hnone),
        fun _ hnone => (by cases hnone)⟩
  | _ => cases hstep

theorem Paused.step (h : d.Paused dir) {act : Act Path} (hspares : d.Spares dir act)
    (hstep : d.step act = some d') : d'.Paused dir := by
  cases act with
  | startAll isSession =>
      unfold Device.step at hstep
      cases hs : d.supervisor with
      | some s => simp [hs] at hstep
      | none =>
          simp only [hs, Option.some.injEq] at hstep
          subst hstep
          have hkept : PausedAt dir (d.loaded.prune isSession).1 := h.file.prune hspares
          refine ⟨h.file, h.writers, h.notRunning, ?_, ?_⟩
          · rintro _ ⟨⟩
            exact Finset.notMem_empty dir
          · rintro _ ⟨⟩
            dsimp only
            split
            · exact hkept.paused
            · exact hkept
  | savePruned how =>
      obtain ⟨s, hs, hstep⟩ := Option.bind_eq_some_iff.mp hstep
      exact h.stepHosting hs hspares hstep
  | host ok =>
      obtain ⟨s, hs, hstep⟩ := Option.bind_eq_some_iff.mp hstep
      exact h.stepHosting hs hspares hstep
  | request dir' paused =>
      obtain ⟨s, hs, hstep⟩ := Option.bind_eq_some_iff.mp hstep
      exact h.stepHosting hs hspares hstep
  | answer how ok =>
      obtain ⟨s, hs, hstep⟩ := Option.bind_eq_some_iff.mp hstep
      exact h.stepHosting hs hspares hstep
  | stopAll =>
      obtain ⟨s, hs, hstep⟩ := Option.bind_eq_some_iff.mp hstep
      exact h.stepHosting hs hspares hstep
  | load c => exact h.stepCommand hspares (show d.stepCommand (.load c) = some d' from hstep)
  | save i how =>
      exact h.stepCommand hspares (show d.stepCommand (.save i how) = some d' from hstep)
  | startAlone dir' =>
      exact h.stepCommand hspares (show d.stepCommand (.startAlone dir') = some d' from hstep)
  | stopDaemon dir' =>
      exact h.stepCommand hspares (show d.stepCommand (.stopDaemon dir') = some d' from hstep)

/-- The answer to `pause`, where its flag was saved and no command is between load and save. -/
theorem paused_answer (h : d.Inv) (hs : d.supervisor = some s) {reg : Registry Path}
    (htask : s.task = .setting dir true reg) (hwriters : d.writers = []) {ok : Bool}
    (hstep : d.step (.answer .done ok) = some d') : d'.Paused dir := by
  have hreg : PausedAt dir reg := (h.task s hs).pausing dir reg htask
  obtain ⟨s', hs', hstep⟩ := Option.bind_eq_some_iff.mp hstep
  obtain rfl := Option.some.inj (hs.symm.trans hs')
  unfold Device.stepHosting at hstep
  simp only [htask, Option.some.injEq, if_true] at hstep
  subst hstep
  unfold Device.stopSession
  by_cases hin : dir ∈ s.hosted
  · rw [if_pos hin]
    refine ⟨hreg, fun reg' hreg' => ?_, Finset.notMem_erase dir _, ?_, ?_⟩
    · have hnone : reg' ∈ d.writers := hreg'
      rw [hwriters] at hnone
      cases hnone
    · rintro _ ⟨⟩
      exact Finset.notMem_erase dir _
    · rintro _ ⟨⟩
      trivial
  · rw [if_neg hin]
    refine ⟨hreg, fun reg' hreg' => ?_, fun hmem => hin (h.hosted s hs hmem), ?_, ?_⟩
    · have hnone : reg' ∈ d.writers := hreg'
      rw [hwriters] at hnone
      cases hnone
    · rintro _ ⟨⟩
      exact hin
    · rintro _ ⟨⟩
      trivial

/-- The supervisor is started again, and a command registers the folder again. -/
def afterPause : List (Act Nat) :=
  [.load (.registerSession (fun _ => true) 1 .join 20), .stopAll, .save 0 .done,
    .startAll fun _ => true, .host true, .host true]

/-- The supervisor is about to answer the pause of the folder. -/
def isPausing (dir : Nat) : Task Nat → Bool
  | .setting dir' true _ => dir' == dir
  | _ => false

end Device

end Tazamun.Supervisor
