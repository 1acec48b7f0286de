import Mathlib.Logic.Function.Basic
import Mathlib.Tactic

set_option autoImplicit false

/-! # Files across a power failure

Programs see a directory of files as they have left it. The medium follows later: the content of
a file is there once the file has been synced, and an entry of the directory is there once the
directory has been synced. After a power failure each name has one of the files that it had since
the directory was last synced, each name for itself, and a file that was not synced has any
content (`Survives`).

`Keeps d n A` says that whatever happens to `d`, the name `n` has, then as now, a synced file
whose content satisfies `A`, or none if `A` allows that. The operations on other names leave it
alone, renaming a synced file to `n` adds its content, and syncing the directory reduces it to
what there is. A program that replaces a file is verified with these rules, step by step.
-/

namespace Lib

/-- The files made so far are numbered. `past` has the directory as it was before each change
since it was last synced. -/
structure Disk (ν β : Type) where
  next : Nat
  content : Nat → β
  synced : Nat → Bool
  dir : ν → Option Nat
  past : List (ν → Option Nat)

namespace Disk

variable {ν β : Type}

def read (d : Disk ν β) (n : ν) : Option β := (d.dir n).map d.content

/-! ## Operations -/

/-- A new file. -/
def create [DecidableEq ν] (d : Disk ν β) (n : ν) (c : β) : Disk ν β where
  next := d.next + 1
  content := Function.update d.content d.next c
  synced := Function.update d.synced d.next false
  dir := Function.update d.dir n (some d.next)
  past := d.dir :: d.past

def write (d : Disk ν β) (n : ν) (c : β) : Disk ν β :=
  match d.dir n with
  | none => d
  | some i => { d with content := Function.update d.content i c
                       synced := Function.update d.synced i false }

/-- `fsync` of a file. -/
def sync (d : Disk ν β) (n : ν) : Disk ν β :=
  match d.dir n with
  | none => d
  | some i => { d with synced := Function.update d.synced i true }

def rename [DecidableEq ν] (d : Disk ν β) (m n : ν) : Disk ν β :=
  { d with dir := Function.update (Function.update d.dir n (d.dir m)) m none
           past := d.dir :: d.past }

def remove [DecidableEq ν] (d : Disk ν β) (n : ν) : Disk ν β :=
  { d with dir := Function.update d.dir n none, past := d.dir :: d.past }

/-- `fsync` of the directory. -/
def syncDir (d : Disk ν β) : Disk ν β := { d with past := [] }

/-- `d'` may be left of `d` by a power failure. -/
structure Survives (d d' : Disk ν β) : Prop where
  next : d'.next = d.next
  content : ∀ i, d.synced i = true → d'.content i = d.content i
  synced : ∀ i, d'.synced i = true
  dir : ∀ n, ∃ p ∈ d.dir :: d.past, d'.dir n = p n
  past : d'.past = []

/-- All that was written is there, with such a directory. -/
def lose (d : Disk ν β) (p : ν → Option Nat) : Disk ν β :=
  { d with synced := fun _ => true, dir := p, past := [] }

theorem survives_lose {d : Disk ν β} {p : ν → Option Nat} (h : p ∈ d.dir :: d.past) :
    d.Survives (d.lose p) where
  next := rfl
  content _ _ := rfl
  synced _ := rfl
  dir _ := ⟨p, h, rfl⟩
  past := rfl

/-! ## What a name keeps -/

/-- In the directory `p` the name has a synced file with such a content. -/
def Holds (d : Disk ν β) (A : Option β → Prop) : Option Nat → Prop
  | none => A none
  | some i => i < d.next ∧ d.synced i = true ∧ A (some (d.content i))

def Keeps (d : Disk ν β) (n : ν) (A : Option β → Prop) : Prop :=
  ∀ p ∈ d.dir :: d.past, d.Holds A (p n)

/-- The file of `m` was never one of `n`. -/
def Apart (d : Disk ν β) (m n : ν) : Prop :=
  ∀ i, d.dir m = some i → i < d.next ∧ ∀ p ∈ d.dir :: d.past, p n ≠ some i

variable {d d' : Disk ν β} {m n : ν} {A B : Option β → Prop} {c : β}

theorem Holds.mono {o : Option Nat} (h : d.Holds A o) (hAB : ∀ c, A c → B c) : d.Holds B o := by
  cases o with
  | none => exact hAB _ h
  | some i => exact ⟨h.1, h.2.1, hAB _ h.2.2⟩

theorem Keeps.mono (h : d.Keeps n A) (hAB : ∀ c, A c → B c) : d.Keeps n B :=
  fun p hp => (h p hp).mono hAB

theorem Keeps.read (h : d.Keeps n A) : A (d.read n) := by
  have hnow := h d.dir List.mem_cons_self
  unfold Disk.read
  cases hdir : d.dir n with
  | none =>
      rw [hdir] at hnow
      exact hnow
  | some i =>
      rw [hdir] at hnow
      exact hnow.2.2

/-- **A power failure** leaves what was kept. -/
theorem Keeps.survives (h : d.Keeps n A) (hs : d.Survives d') : d'.Keeps n A := by
  intro p hp
  rw [hs.past, List.mem_singleton] at hp
  subst hp
  obtain ⟨p, hp, hdir⟩ := hs.dir n
  have hold := h p hp
  rw [hdir]
  cases hpn : p n with
  | none =>
      rw [hpn] at hold
      exact hold
  | some i =>
      rw [hpn] at hold
      obtain ⟨hlt, hsynced, hA⟩ := hold
      refine ⟨by rw [hs.next]; exact hlt, hs.synced i, ?_⟩
      rw [hs.content i hsynced]
      exact hA

/-- A change to files that were never those of the name. -/
theorem Keeps.of_same (h : d.Keeps n A) (hnext : d.next ≤ d'.next)
    (hdir : ∀ p ∈ d'.dir :: d'.past, ∃ q ∈ d.dir :: d.past, p n = q n)
    (hfile : ∀ i, (∃ p ∈ d.dir :: d.past, p n = some i) → i < d.next → d.synced i = true →
      d'.synced i = true ∧ d'.content i = d.content i) : d'.Keeps n A := by
  intro p hp
  obtain ⟨q, hq, hpq⟩ := hdir p hp
  have hold := h q hq
  rw [hpq]
  cases hqn : q n with
  | none =>
      rw [hqn] at hold
      exact hold
  | some i =>
      rw [hqn] at hold
      obtain ⟨hlt, hsynced, hA⟩ := hold
      obtain ⟨hsynced', hcontent⟩ := hfile i ⟨q, hq, hqn⟩ hlt hsynced
      refine ⟨by omega, hsynced', ?_⟩
      rw [hcontent]
      exact hA

theorem Keeps.create [DecidableEq ν] (h : d.Keeps n A) (hne : m ≠ n) :
    (d.create m c).Keeps n A := by
  refine h.of_same (Nat.le_succ d.next) ?_ ?_
  · intro p hp
    rcases List.mem_cons.mp hp with rfl | hp
    · exact ⟨d.dir, List.mem_cons_self, Function.update_of_ne hne.symm _ _⟩
    · exact ⟨p, hp, rfl⟩
  · intro i _ hlt hsynced
    have hi : i ≠ d.next := by omega
    exact ⟨(Function.update_of_ne hi _ _).trans hsynced, Function.update_of_ne hi _ _⟩

theorem Keeps.write (h : d.Keeps n A) (hapart : d.Apart m n) : (d.write m c).Keeps n A := by
  unfold Disk.write
  cases hm : d.dir m with
  | none => exact h
  | some j =>
      refine h.of_same (Nat.le_refl d.next) ?_ ?_
      · intro p hp
        exact ⟨p, hp, rfl⟩
      · rintro i ⟨p, hp, hpn⟩ _ hsynced
        have hi : i ≠ j := by
          rintro rfl
          exact (hapart i hm).2 p hp hpn
        exact ⟨(Function.update_of_ne hi _ _).trans hsynced, Function.update_of_ne hi _ _⟩

theorem Keeps.sync (h : d.Keeps n A) : (d.sync m).Keeps n A := by
  unfold Disk.sync
  cases hm : d.dir m with
  | none => exact h
  | some j =>
      refine h.of_same (Nat.le_refl d.next) ?_ ?_
      · intro p hp
        exact ⟨p, hp, rfl⟩
      · intro i _ _ hsynced
        refine ⟨?_, rfl⟩
        by_cases hi : i = j
        · subst hi
          exact Function.update_self _ _ _
        · exact (Function.update_of_ne hi _ _).trans hsynced

theorem Keeps.remove [DecidableEq ν] (h : d.Keeps n A) (hne : m ≠ n) :
    (d.remove m).Keeps n A := by
  refine h.of_same (Nat.le_refl d.next) ?_ ?_
  · intro p hp
    rcases List.mem_cons.mp hp with rfl | hp
    · exact ⟨d.dir, List.mem_cons_self, Function.update_of_ne hne.symm _ _⟩
    · exact ⟨p, hp, rfl⟩
  · intro i _ _ hsynced
    exact ⟨hsynced, rfl⟩

/-- **A synced file takes the place of the old one**: either of them is there afterwards. -/
theorem Keeps.rename [DecidableEq ν] (h : d.Keeps n A) (hne : m ≠ n) {i : Nat}
    (hm : d.dir m = some i) (hlt : i < d.next) (hsynced : d.synced i = true) :
    (d.rename m n).Keeps n fun o => A o ∨ o = some (d.content i) := by
  intro p hp
  rcases List.mem_cons.mp hp with rfl | hp
  · have hn : (d.rename m n).dir n = some i := by
      show Function.update (Function.update d.dir n (d.dir m)) m none n = some i
      rw [Function.update_of_ne hne.symm, Function.update_self, hm]
    rw [hn]
    exact ⟨hlt, hsynced, .inr rfl⟩
  · exact Holds.mono (h p hp) fun o ho => Or.inl ho

/-- Once the directory is synced there is only what is there now. -/
theorem Keeps.syncDir (h : d.Keeps n A) : d.syncDir.Keeps n fun o => o = d.read n := by
  intro p hp
  obtain rfl : p = d.dir := List.mem_singleton.mp hp
  have hnow := h d.dir List.mem_cons_self
  unfold Disk.read
  cases hdir : d.dir n with
  | none => rfl
  | some i =>
      rw [hdir] at hnow
      exact ⟨hnow.1, hnow.2.1, rfl⟩

/-! ## A file of its own -/

theorem apart_create [DecidableEq ν] (h : d.Keeps n A) (hne : m ≠ n) :
    (d.create m c).Apart m n := by
  intro i hi
  obtain rfl : d.next = i := by
    have hself : (d.create m c).dir m = some d.next := Function.update_self _ _ _
    rw [hself] at hi
    exact Option.some.inj hi
  refine ⟨Nat.lt_succ_self _, fun p hp hpn => ?_⟩
  have hq : ∃ q ∈ d.dir :: d.past, q n = some d.next := by
    rcases List.mem_cons.mp hp with rfl | hp
    · refine ⟨d.dir, List.mem_cons_self, ?_⟩
      rw [← hpn]
      exact (Function.update_of_ne hne.symm _ _).symm
    · exact ⟨p, hp, hpn⟩
  obtain ⟨q, hq, hqn⟩ := hq
  have hold := h q hq
  rw [hqn] at hold
  exact absurd hold.1 (lt_irrefl _)

theorem Apart.write (h : d.Apart m n) : (d.write m c).Apart m n := by
  unfold Disk.write
  cases hm : d.dir m with
  | none => exact h
  | some j => exact h

theorem Apart.sync (h : d.Apart m n) : (d.sync m).Apart m n := by
  unfold Disk.sync
  cases hm : d.dir m with
  | none => exact h
  | some j => exact h

theorem read_create [DecidableEq ν] : (d.create m c).read m = some c := by
  show (Function.update d.dir m (some d.next) m).map (Function.update d.content d.next c) = some c
  rw [Function.update_self, Option.map_some, Function.update_self]

theorem read_write {o : β} (h : d.read m = some o) : (d.write m c).read m = some c := by
  unfold Disk.read at h
  unfold Disk.write
  cases hm : d.dir m with
  | none =>
      rw [hm] at h
      cases h
  | some i =>
      show (d.dir m).map (Function.update d.content i c) = some c
      rw [hm, Option.map_some, Function.update_self]

/-- A file that was just synced. -/
theorem synced_sync {i : Nat} (h : (d.sync m).dir m = some i) : (d.sync m).synced i = true := by
  unfold Disk.sync at h ⊢
  cases hm : d.dir m with
  | none =>
      rw [hm] at h
      rw [hm] at h
      cases h
  | some j =>
      rw [hm] at h
      obtain rfl : j = i := by
        have hdir : d.dir m = some i := h
        rw [hm] at hdir
        exact Option.some.inj hdir
      exact Function.update_self _ _ _

theorem read_rename [DecidableEq ν] (hne : m ≠ n) : (d.rename m n).read n = d.read m := by
  show (Function.update (Function.update d.dir n (d.dir m)) m none n).map d.content = _
  rw [Function.update_of_ne hne.symm, Function.update_self]
  rfl

/-! ## What programs see of the name meanwhile -/

theorem read_create_of_ne [DecidableEq ν] (h : d.Keeps n A) (hne : m ≠ n) :
    (d.create m c).read n = d.read n := by
  have hnow := h d.dir List.mem_cons_self
  show (Function.update d.dir m (some d.next) n).map (Function.update d.content d.next c) = _
  rw [Function.update_of_ne hne.symm]
  unfold Disk.read
  cases hdir : d.dir n with
  | none => rfl
  | some i =>
      rw [hdir] at hnow
      have hi : i ≠ d.next := Nat.ne_of_lt hnow.1
      rw [Option.map_some, Option.map_some, Function.update_of_ne hi]

theorem read_write_of_apart (h : d.Apart m n) : (d.write m c).read n = d.read n := by
  unfold Disk.write
  cases hm : d.dir m with
  | none => rfl
  | some j =>
      show (d.dir n).map (Function.update d.content j c) = (d.dir n).map d.content
      cases hdir : d.dir n with
      | none => rfl
      | some i =>
          have hi : i ≠ j := by
            rintro rfl
            exact (h i hm).2 d.dir List.mem_cons_self hdir
          rw [Option.map_some, Option.map_some, Function.update_of_ne hi]

theorem read_sync : (d.sync m).read n = d.read n := by
  unfold Disk.sync
  cases hm : d.dir m <;> rfl

theorem read_remove_of_ne [DecidableEq ν] (hne : m ≠ n) : (d.remove m).read n = d.read n := by
  show (Function.update d.dir m none n).map d.content = _
  rw [Function.update_of_ne hne.symm]
  rfl

end Disk

end Lib
