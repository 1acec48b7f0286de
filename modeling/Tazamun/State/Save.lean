import Tazamun.Daemon.Actor
import Tazamun.Lib.Durable
import Tazamun.Lib.Run

set_option autoImplicit false

/-! # Saving the state

`AppState::save` (`state.rs`) writes the state to a new file in `.tazamun/`, syncs it, gives it
the name `state.json` in place of the old one, and syncs the directory. `AppState::load` reads
`state.json`. The daemon and the commands save after every change, the machine may lose power at
any moment, and a save may fail at any of its steps.

`Saver` is one process at a time on that directory: it saves states, one after the other, step by
step, and between any two steps the power may fail. What can be read then is the state that was
saved last before the directory was last synced, or one of those saved later; never a part of
a state, and never nothing where there was a state (**`Saver.load_saved`**). A save that has
synced the directory leaves its state as the only one (`Saver.load_synced`).

The text of a state is `serde_json`'s, a parameter of which the round trip is assumed. The names
of temporary files are random; what counts is that the file is a new one. `saved` and `latest`
are observers that no step reads.
-/

namespace Tazamun.State

open Lib

/-- The parts of `AppState` that count here: its text, and its version. -/
structure Format (S : Type) where
  toText : S → Bytes
  fromText : Bytes → Option S
  version : S → Nat
  fromText_toText : ∀ s, fromText (toText s ++ [10]) = some s

inductive StateError where
  | notInitialized
  | malformed
  | unsupportedVersion (version : Nat)
deriving DecidableEq

/-- The names in `.tazamun/` that matter. -/
inductive Name where
  | state
  | temp (n : Nat)
deriving DecidableEq

variable {S : Type} (fmt : Format S)

/-- `AppState::load`. -/
def load (disk : Disk Name Bytes) : Except StateError S :=
  match disk.read .state with
  | none => .error .notInitialized
  | some raw =>
      match fmt.fromText raw with
      | none => .error .malformed
      | some s => if fmt.version s ≠ 1 then .error (.unsupportedVersion (fmt.version s)) else .ok s

/-- What the file of a state has: its text and a line break. -/
def contents (s : S) : Bytes := fmt.toText s ++ [10]

/-! ## The steps of a save -/

/-- How far a save has come: the file is being written, it is synced, it has its name. -/
inductive Phase (S : Type) where
  | idle
  | writing (temp : Nat) (s : S)
  | synced (temp : Nat) (s : S)
  | persisted (s : S)

structure Saver (S : Type) where
  disk : Disk Name Bytes
  phase : Phase S
  /-- The states that a load may find, if the power fails now. -/
  saved : List (Option S)
  /-- The state that was saved last, if the power has not failed since. -/
  latest : Option (Option S)

inductive SaveAct where
  | write (n : Nat)
  | sync
  | persist
  | syncDir
  /-- The directory cannot be opened or synced, or this is not Unix. -/
  | skipDir
  /-- A step fails, and the temporary file is dropped with it. -/
  | fail (removed : Bool)

inductive Act (S : Type) where
  /-- `NamedTempFile::new_in`, for a save of `s`. -/
  | begin (temp : Nat) (s : S)
  | save (act : SaveAct)
  | powerFailure (disk : Disk Name Bytes)

namespace Saver

def init (disk : Disk Name Bytes) (s : Option S) : Saver S where
  disk := disk
  phase := .idle
  saved := [s]
  latest := some s

/-- The next step of the save that is under way. -/
def saveStep (w : Saver S) : SaveAct → Option (Saver S)
  | .write n =>
      match w.phase with
      | .writing temp s =>
          some { w with disk := w.disk.write (.temp temp) ((contents fmt s).take n) }
      | _ => none
  | .sync =>
      match w.phase with
      | .writing temp s =>
          if w.disk.read (.temp temp) = some (contents fmt s) then
            some { w with disk := w.disk.sync (.temp temp), phase := .synced temp s }
          else none
      | _ => none
  | .persist =>
      match w.phase with
      | .synced temp s =>
          some { disk := w.disk.rename (.temp temp) .state, phase := .persisted s
                 saved := some s :: w.saved, latest := some (some s) }
      | _ => none
  | .syncDir =>
      match w.phase with
      | .persisted s =>
          some { w with disk := w.disk.syncDir, phase := .idle, saved := [some s] }
      | _ => none
  | .skipDir =>
      match w.phase with
      | .persisted _ => some { w with phase := .idle }
      | _ => none
  | .fail removed =>
      match w.phase with
      | .writing temp _ | .synced temp _ =>
          some { w with disk := if removed then w.disk.remove (.temp temp) else w.disk
                        phase := .idle }
      | _ => none

def step (w : Saver S) : Act S → Option (Saver S)
  | .begin temp s =>
      match w.phase with
      | .idle =>
          if w.disk.dir (.temp temp) = none then
            some { w with disk := w.disk.create (.temp temp) [], phase := .writing temp s }
          else none
      | _ => none
  | .save act => w.saveStep fmt act
  | .powerFailure disk => some { w with disk, phase := .idle, latest := none }

/-- The states saved have version 1, and a power failure leaves what it may leave. -/
def Allowed (w : Saver S) : Act S → Prop
  | .begin _ s => fmt.version s = 1
  | .save _ => True
  | .powerFailure disk => w.disk.Survives disk

/-! ## What can be read -/

/-- The content of `state.json`, for a state or for none. -/
def IsOf (o : Option S) (c : Option Bytes) : Prop := c = o.map (contents fmt)

/-- The file of the save under way. -/
def PhaseInv (w : Saver S) : Prop :=
  match w.phase with
  | .idle => True
  | .writing temp s =>
      fmt.version s = 1 ∧ w.disk.Apart (.temp temp) .state ∧
        (w.disk.dir (.temp temp)).isSome = true
  | .synced temp s =>
      fmt.version s = 1 ∧ w.disk.read (.temp temp) = some (contents fmt s) ∧
        ∀ i, w.disk.dir (.temp temp) = some i → i < w.disk.next ∧ w.disk.synced i = true
  | .persisted s => fmt.version s = 1 ∧ w.disk.read .state = some (contents fmt s)

structure Inv (w : Saver S) : Prop where
  keeps : w.disk.Keeps .state fun c => ∃ o ∈ w.saved, IsOf fmt o c
  phase : w.PhaseInv fmt
  version : ∀ s, some s ∈ w.saved → fmt.version s = 1
  latest : ∀ o, w.latest = some o → IsOf fmt o (w.disk.read .state)

variable {fmt} {w w' : Saver S}

theorem ne_temp (temp : Nat) : Name.temp temp ≠ Name.state := by simp

theorem inv_init {disk : Disk Name Bytes} {s : Option S}
    (h : disk.Keeps .state (IsOf fmt s)) (hversion : ∀ s', s = some s' → fmt.version s' = 1) :
    (init disk s).Inv fmt where
  keeps := h.mono fun c hc => ⟨s, List.mem_singleton_self s, hc⟩
  phase := trivial
  version := fun s' hs' => hversion s' (List.mem_singleton.mp hs').symm
  latest := by
    rintro o ⟨⟩
    exact h.read

/-- A save that ends leaves the disk, and nothing else, as it is. -/
theorem Inv.idle (h : w.Inv fmt) : Inv fmt { w with phase := .idle } :=
  ⟨h.keeps, trivial, h.version, h.latest⟩

theorem Inv.begin (h : w.Inv fmt) {temp : Nat} {s : S} (hversion : fmt.version s = 1) :
    Inv fmt { w with disk := w.disk.create (.temp temp) [], phase := .writing temp s } where
  keeps := h.keeps.create (ne_temp temp)
  phase := by
    refine ⟨hversion, Disk.apart_create h.keeps (ne_temp temp), ?_⟩
    show (Function.update w.disk.dir (.temp temp) (some w.disk.next) (.temp temp)).isSome = true
    rw [Function.update_self]
    rfl
  version := h.version
  latest := by
    intro o ho
    rw [Disk.read_create_of_ne h.keeps (ne_temp temp)]
    exact h.latest o ho

theorem Inv.write (h : w.Inv fmt) {temp : Nat} {s : S} (hphase : w.phase = .writing temp s)
    (c : Bytes) : Inv fmt { w with disk := w.disk.write (.temp temp) c } := by
  have hp := h.phase
  unfold PhaseInv at hp
  rw [hphase] at hp
  obtain ⟨hversion, hapart, hthere⟩ := hp
  refine ⟨h.keeps.write hapart, ?_, h.version, fun o ho => ?_⟩
  · unfold PhaseInv
    rw [hphase]
    refine ⟨hversion, hapart.write, ?_⟩
    obtain ⟨i, hi⟩ := Option.isSome_iff_exists.mp hthere
    show ((w.disk.write (.temp temp) c).dir (.temp temp)).isSome = true
    unfold Disk.write
    rw [hi]
    show (w.disk.dir (.temp temp)).isSome = true
    exact hthere
  · rw [Disk.read_write_of_apart hapart]
    exact h.latest o ho

theorem Inv.sync (h : w.Inv fmt) {temp : Nat} {s : S} (hphase : w.phase = .writing temp s)
    (hall : w.disk.read (.temp temp) = some (contents fmt s)) :
    Inv fmt { w with disk := w.disk.sync (.temp temp), phase := .synced temp s } := by
  have hp := h.phase
  unfold PhaseInv at hp
  rw [hphase] at hp
  obtain ⟨hversion, hapart, -⟩ := hp
  refine ⟨h.keeps.sync, ⟨hversion, ?_, fun i hi => ⟨(hapart.sync i hi).1, ?_⟩⟩, h.version,
    fun o ho => ?_⟩
  · rw [Disk.read_sync]
    exact hall
  · exact Disk.synced_sync hi
  · rw [Disk.read_sync]
    exact h.latest o ho

theorem Inv.persist (h : w.Inv fmt) {temp : Nat} {s : S} (hphase : w.phase = .synced temp s) :
    Inv fmt { disk := w.disk.rename (.temp temp) .state, phase := .persisted s
              saved := some s :: w.saved, latest := some (some s) } := by
  have hp := h.phase
  unfold PhaseInv at hp
  rw [hphase] at hp
  obtain ⟨hversion, hread, hsynced⟩ := hp
  obtain ⟨i, hi⟩ : ∃ i, w.disk.dir (.temp temp) = some i := by
    cases hdir : w.disk.dir (.temp temp) with
    | none =>
        unfold Disk.read at hread
        rw [hdir] at hread
        cases hread
    | some i => exact ⟨i, rfl⟩
  have hcontent : some (w.disk.content i) = some (contents fmt s) := by
    rw [← hread]
    unfold Disk.read
    rw [hi]
    rfl
  have hnow : (w.disk.rename (.temp temp) .state).read .state = some (contents fmt s) := by
    rw [Disk.read_rename (ne_temp temp)]
    exact hread
  refine ⟨?_, ⟨hversion, hnow⟩, ?_, ?_⟩
  · refine (h.keeps.rename (ne_temp temp) hi (hsynced i hi).1 (hsynced i hi).2).mono ?_
    rintro c (⟨o, ho, hc⟩ | rfl)
    · exact ⟨o, List.mem_cons_of_mem _ ho, hc⟩
    · exact ⟨some s, List.mem_cons_self, hcontent⟩
  · intro s' hs'
    rcases List.mem_cons.mp hs' with heq | hs'
    · rw [Option.some.inj heq]
      exact hversion
    · exact h.version s' hs'
  · rintro o ⟨⟩
    exact hnow

theorem Inv.syncDir (h : w.Inv fmt) {s : S} (hphase : w.phase = .persisted s) :
    Inv fmt { w with disk := w.disk.syncDir, phase := .idle, saved := [some s] } := by
  have hp := h.phase
  unfold PhaseInv at hp
  rw [hphase] at hp
  obtain ⟨hversion, hread⟩ := hp
  refine ⟨h.keeps.syncDir.mono ?_, trivial, ?_, h.latest⟩
  · rintro c rfl
    exact ⟨some s, List.mem_singleton_self _, hread⟩
  · intro s' hs'
    rw [Option.some.inj (List.mem_singleton.mp hs')]
    exact hversion

theorem Inv.fail (h : w.Inv fmt) (temp : Nat) (removed : Bool) :
    Inv fmt { w with disk := if removed then w.disk.remove (.temp temp) else w.disk
                     phase := .idle } := by
  cases removed with
  | false => exact h.idle
  | true =>
      refine ⟨h.keeps.remove (ne_temp temp), trivial, h.version, fun o ho => ?_⟩
      show IsOf fmt o ((w.disk.remove (.temp temp)).read .state)
      rw [Disk.read_remove_of_ne (ne_temp temp)]
      exact h.latest o ho

theorem Inv.powerFailure (h : w.Inv fmt) {disk : Disk Name Bytes} (hs : w.disk.Survives disk) :
    Inv fmt { w with disk, phase := .idle, latest := none } where
  keeps := h.keeps.survives hs
  phase := trivial
  version := h.version
  latest := by
    intro o ho
    cases ho

/-! ## Every step keeps it -/

theorem Inv.saveStep (h : w.Inv fmt) {act : SaveAct} (hs : w.saveStep fmt act = some w') :
    w'.Inv fmt := by
  unfold Saver.saveStep at hs
  cases act with
  | write n =>
      cases hphase : w.phase with
      | writing temp s =>
          simp only [hphase, Option.some.injEq] at hs
          subst hs
          rw [← hphase]
          exact h.write hphase _
      | _ => simp [hphase] at hs
  | sync =>
      cases hphase : w.phase with
      | writing temp s =>
          simp only [hphase, Option.ite_none_right_eq_some, Option.some.injEq] at hs
          obtain ⟨hall, rfl⟩ := hs
          exact h.sync hphase hall
      | _ => simp [hphase] at hs
  | persist =>
      cases hphase : w.phase with
      | synced temp s =>
          simp only [hphase, Option.some.injEq] at hs
          subst hs
          exact h.persist hphase
      | _ => simp [hphase] at hs
  | syncDir =>
      cases hphase : w.phase with
      | persisted s =>
          simp only [hphase, Option.some.injEq] at hs
          subst hs
          exact h.syncDir hphase
      | _ => simp [hphase] at hs
  | skipDir =>
      cases hphase : w.phase with
      | persisted s =>
          simp only [hphase, Option.some.injEq] at hs
          subst hs
          exact h.idle
      | _ => simp [hphase] at hs
  | fail removed =>
      cases hphase : w.phase with
      | writing temp s =>
          simp only [hphase, Option.some.injEq] at hs
          subst hs
          exact h.fail temp removed
      | synced temp s =>
          simp only [hphase, Option.some.injEq] at hs
          subst hs
          exact h.fail temp removed
      | _ => simp [hphase] at hs

theorem Inv.step (h : w.Inv fmt) {a : Act S} (hok : w.Allowed fmt a)
    (hs : w.step fmt a = some w') : w'.Inv fmt := by
  cases a with
  | begin temp s =>
      unfold Saver.step at hs
      cases hphase : w.phase with
      | idle =>
          simp only [hphase, Option.ite_none_right_eq_some, Option.some.injEq] at hs
          obtain ⟨-, rfl⟩ := hs
          exact h.begin hok
      | _ => simp [hphase] at hs
  | save act => exact h.saveStep hs
  | powerFailure disk =>
      unfold Saver.step at hs
      obtain rfl := Option.some.inj hs
      exact h.powerFailure hok

/-! ## What a load gives -/

/-- What the commands and the daemon get for a state, or for none. -/
def loaded : Option S → Except StateError S
  | none => .error .notInitialized
  | some s => .ok s

theorem load_of_isOf {disk : Disk Name Bytes} {o : Option S} (h : IsOf fmt o (disk.read .state))
    (hversion : ∀ s, o = some s → fmt.version s = 1) : load fmt disk = loaded o := by
  unfold load
  rw [h]
  cases o with
  | none => rfl
  | some s =>
      have htext : fmt.fromText (contents fmt s) = some s := fmt.fromText_toText s
      simp only [Option.map_some, htext]
      rw [if_neg (not_not.mpr (hversion s rfl))]
      rfl

variable (fmt) in
/-- **A load never finds a part of a state**: after any run it gives one of the states that were
saved since the directory was last synced, or the one that was there then; while the power lasts
it gives the one saved last. -/
theorem load_saved {disk : Disk Name Bytes} {s₀ : Option S}
    (h₀ : disk.Keeps .state (IsOf fmt s₀)) (hversion : ∀ s, s₀ = some s → fmt.version s = 1)
    (h : Reaches (step fmt) (Allowed fmt) (init disk s₀) w) :
    (∃ o ∈ w.saved, load fmt w.disk = loaded o) ∧
      ∀ o, w.latest = some o → load fmt w.disk = loaded o := by
  have hinv : w.Inv fmt :=
    h.invariant (inv_init h₀ hversion) fun v a v' hv hok hs => hv.step hok hs
  obtain ⟨o, ho, hof⟩ := hinv.keeps.read
  have hload : load fmt w.disk = loaded o :=
    load_of_isOf hof fun s hs => hinv.version s (hs ▸ ho)
  refine ⟨⟨o, ho, hload⟩, fun o' ho' => ?_⟩
  -- What was saved last is what `state.json` has now, so it is the same text as `o`'s.
  have hsame : o'.map (contents fmt) = o.map (contents fmt) := (hinv.latest o' ho').symm.trans hof
  rw [hload]
  cases o with
  | none =>
      rw [Option.map_none, Option.map_eq_none_iff] at hsame
      rw [hsame]
  | some s =>
      rw [Option.map_some, Option.map_eq_some_iff] at hsame
      obtain ⟨s', rfl, htext⟩ := hsame
      have heq : some s' = some s := by
        rw [← fmt.fromText_toText s', ← fmt.fromText_toText s]
        exact congrArg fmt.fromText htext
      rw [heq]

/-! ## Two saves -/

/-- States that are their own text. -/
def plain : Format Bytes where
  toText s := s
  fromText raw := if raw.getLast? = some 10 then some raw.dropLast else none
  version _ := 1
  fromText_toText s := by simp

def emptyDisk : Disk Name Bytes where
  next := 0
  content _ := []
  synced _ := false
  dir _ := none
  past := []

theorem keeps_emptyDisk : emptyDisk.Keeps .state (IsOf plain none) := by
  intro p hp
  rw [List.mem_singleton.mp hp]
  rfl

/-- The first state is saved up to its name. -/
def savingOne : List (Act Bytes) :=
  [.begin 0 [1], .save (.write 1), .save (.write 2), .save .sync, .save .persist]

/-- The directory is synced, and the second state is saved up to its name. -/
def savingTwo : List (Act Bytes) :=
  [.save .syncDir, .begin 1 [2], .save (.write 2), .save .sync, .save .persist]

theorem allowed_saving (l : List (Act Bytes)) (hl : l = savingOne ∨ l = savingOne ++ savingTwo) :
    ∀ act ∈ l, ∀ v : Saver Bytes, v.Allowed plain act := by
  intro act hact v
  rcases hl with rfl | rfl <;>
    simp only [savingOne, savingTwo, List.cons_append, List.nil_append, List.mem_cons,
      List.not_mem_nil, or_false] at hact <;>
    rcases hact with rfl | rfl | rfl | rfl | rfl | rfl | rfl | rfl | rfl | rfl <;>
    first | rfl | trivial

/-- The power fails, and the second state's name is lost with it. -/
theorem load_saved_twoSaves : ∃ w w' : Saver Bytes,
    Reaches (step plain) (Allowed plain) (init emptyDisk none) w ∧
      w.step plain (.powerFailure w'.disk) = some w' ∧ w.latest = some (some [2]) ∧
      load plain w'.disk = .ok [1] ∧
      ∃ o ∈ w'.saved, load plain w'.disk = loaded o := by
  have hrun : (execute (step plain) (savingOne ++ savingTwo) (init emptyDisk none)).any
      (fun w => w.latest == some (some [2]) &&
        w.disk.past.any fun p => (p .state).map w.disk.content == some [1, 10]) = true := by
    decide +kernel
  obtain ⟨w, hreach, hw⟩ :=
    exists_reaches_of_execute (Allowed plain) (allowed_saving _ (.inr rfl)) hrun
  simp only [Bool.and_eq_true, beq_iff_eq, List.any_eq_true] at hw
  obtain ⟨hlatest, before, hbefore, hold⟩ := hw
  have hs : w.disk.Survives (w.disk.lose before) :=
    Disk.survives_lose (List.mem_cons_of_mem _ hbefore)
  have hread : (w.disk.lose before).read .state = some [1, 10] := hold
  refine ⟨w, { w with disk := w.disk.lose before, phase := .idle, latest := none }, hreach, rfl,
    hlatest, ?_, ?_⟩
  · show load plain (w.disk.lose before) = .ok [1]
    unfold load
    rw [hread]
    rfl
  · exact (load_saved plain keeps_emptyDisk (fun s hs => by cases hs)
      (hreach.tail (show w.Allowed plain (.powerFailure (w.disk.lose before)) from hs) rfl)).1

/-! ## A directory that is synced -/

theorem saveStep_saved {s : S} {act : SaveAct} (hs : w.saveStep fmt act = some w')
    (hact : act ≠ .persist) (hsaved : w.saved = [some s]) (hphase : ∀ s', w.phase ≠ .persisted s') :
    w'.saved = [some s] ∧ ∀ s', w'.phase ≠ .persisted s' := by
  cases hp : w.phase with
  | idle => cases act <;> simp [Saver.saveStep, hp] at hs
  | persisted s' => exact absurd hp (hphase s')
  | writing temp s' =>
      cases act with
      | write n =>
          simp only [Saver.saveStep, hp, Option.some.injEq] at hs
          subst hs
          exact ⟨hsaved, fun _ h => by cases h⟩
      | sync =>
          simp only [Saver.saveStep, hp, Option.ite_none_right_eq_some, Option.some.injEq] at hs
          obtain ⟨-, rfl⟩ := hs
          exact ⟨hsaved, fun _ h => by cases h⟩
      | fail removed =>
          simp only [Saver.saveStep, hp, Option.some.injEq] at hs
          subst hs
          exact ⟨hsaved, fun _ h => by cases h⟩
      | _ => simp [Saver.saveStep, hp] at hs
  | synced temp s' =>
      cases act with
      | persist => exact absurd rfl hact
      | fail removed =>
          simp only [Saver.saveStep, hp, Option.some.injEq] at hs
          subst hs
          exact ⟨hsaved, fun _ h => by cases h⟩
      | _ => simp [Saver.saveStep, hp] at hs

theorem step_saved {s : S} {a : Act S} (hs : w.step fmt a = some w') (ha : a ≠ .save .persist)
    (hsaved : w.saved = [some s]) (hphase : ∀ s', w.phase ≠ .persisted s') :
    w'.saved = [some s] ∧ ∀ s', w'.phase ≠ .persisted s' := by
  cases a with
  | begin temp s' =>
      unfold Saver.step at hs
      cases hp : w.phase with
      | idle =>
          simp only [hp, Option.ite_none_right_eq_some, Option.some.injEq] at hs
          obtain ⟨-, rfl⟩ := hs
          exact ⟨hsaved, fun _ h => by cases h⟩
      | _ => simp [hp] at hs
  | save act =>
      exact saveStep_saved hs (fun h => ha (congrArg Act.save h)) hsaved hphase
  | powerFailure disk =>
      obtain rfl := Option.some.inj hs
      exact ⟨hsaved, fun _ h => by cases h⟩

variable (fmt) in
/-- **A save that has synced the directory stays**: whatever fails from then on, until the next
save gives its file the name a load finds the state of this one. -/
theorem load_synced {disk : Disk Name Bytes} {s₀ : Option S} {v : Saver S} {s : S}
    (h₀ : disk.Keeps .state (IsOf fmt s₀)) (hversion : ∀ s, s₀ = some s → fmt.version s = 1)
    (h : Reaches (step fmt) (Allowed fmt) (init disk s₀) v) (hphase : v.phase = .persisted s)
    (hs : v.step fmt (.save .syncDir) = some w)
    (hafter : Reaches (step fmt) (fun v a => v.Allowed fmt a ∧ a ≠ .save .persist) w w') :
    load fmt w'.disk = .ok s := by
  have hrun : Reaches (step fmt) (Allowed fmt) (init disk s₀) w' :=
    (Reaches.tail h (show v.Allowed fmt (.save .syncDir) from trivial) hs).trans
      (hafter.mono fun _ _ hok => hok.1)
  have hstart : w.saved = [some s] ∧ ∀ s', w.phase ≠ .persisted s' := by
    simp only [step, saveStep, hphase, Option.some.injEq] at hs
    subst hs
    exact ⟨rfl, fun _ h => by cases h⟩
  have hsaved : w'.saved = [some s] ∧ ∀ s', w'.phase ≠ .persisted s' :=
    hafter.invariant (I := fun u => u.saved = [some s] ∧ ∀ s', u.phase ≠ .persisted s') hstart
      fun u a u' hu hok hstep => step_saved hstep hok.2 hu.1 hu.2
  obtain ⟨⟨o, ho, hload⟩, -⟩ := load_saved fmt h₀ hversion hrun
  rw [hsaved.1, List.mem_singleton] at ho
  rw [hload, ho]
  rfl

/-- The power fails in the middle of the next save. -/
theorem load_synced_nextSave : ∃ v w w' : Saver Bytes,
    v.step plain (.save .syncDir) = some w ∧
      w.step plain (.begin 1 [2]) = some w' ∧ load plain (w'.disk.lose w'.disk.dir) = .ok [1] := by
  have hrun : (execute (step plain) savingOne (init emptyDisk none)).any
      (fun v => match v.phase with
        | .persisted s => s == [1] && (v.disk.dir (.temp 1)).isNone
        | _ => false) = true := by decide +kernel
  obtain ⟨v, hreach, hv⟩ :=
    exists_reaches_of_execute (Allowed plain) (allowed_saving _ (.inl rfl)) hrun
  obtain ⟨hphase, htemp⟩ : v.phase = .persisted [1] ∧ v.disk.dir (.temp 1) = none := by
    cases hp : v.phase with
    | persisted s => simpa [hp] using hv
    | _ => simp [hp] at hv
  have hs : v.step plain (.save .syncDir) =
      some { v with disk := v.disk.syncDir, phase := .idle, saved := [some [1]] } := by
    simp only [step, saveStep, hphase]
  obtain ⟨w, hw⟩ : ∃ w, w = ({ v with disk := v.disk.syncDir, phase := .idle
                                      saved := [some [1]] } : Saver Bytes) := ⟨_, rfl⟩
  rw [← hw] at hs
  have hbegin : w.step plain (.begin 1 [2]) =
      some { w with disk := w.disk.create (.temp 1) [], phase := .writing 1 [2] } := by
    have htemp' : w.disk.dir (.temp 1) = none := by rw [hw]; exact htemp
    have hidle : w.phase = .idle := by rw [hw]
    simp only [step, hidle, htemp', if_true]
  refine ⟨v, w, _, hs, hbegin, ?_⟩
  have hok : w.Allowed plain (.begin 1 [2]) := rfl
  have hafter : Reaches (step plain) (fun v a => v.Allowed plain a ∧ a ≠ .save .persist) w
      { w with disk := w.disk.create (.temp 1) [], phase := .writing 1 [2] } :=
    Reaches.tail .refl ⟨hok, fun h => (by cases h)⟩ hbegin
  generalize ({ w with disk := w.disk.create (.temp 1) [], phase := .writing 1 [2] } :
    Saver Bytes) = u at hafter ⊢
  have hlost : u.Allowed plain (.powerFailure (u.disk.lose u.disk.dir)) :=
    Disk.survives_lose List.mem_cons_self
  have hload : load plain ({ u with disk := u.disk.lose u.disk.dir, phase := .idle
                                    latest := none } : Saver Bytes).disk = .ok [1] :=
    load_synced plain keeps_emptyDisk (fun s hs => by cases hs) hreach hphase hs
      (hafter.tail ⟨hlost, fun h => (by cases h)⟩ rfl)
  exact hload

end Saver

end Tazamun.State
