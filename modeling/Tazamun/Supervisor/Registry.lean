import Tazamun.Basic.Types
import Mathlib.Data.List.Sort
import Mathlib.Tactic

set_option autoImplicit false

/-! # The registry of sessions

`registry.rs` keeps one small file for the whole device: the folders that are sessions, how each
came to be, when, and whether the user paused it. Commands load it, change their copy and save
the copy; a file that is missing or does not parse counts as an empty registry.

A registry in order has one entry for a folder, and its entries ascend (`InOrder`). Every command
keeps that (`Command.inOrder`), and what a command does to the flag of a folder is said once:
only `setPaused` clears it, and only forgetting a folder, or finding that it is no session any
more, drops its entry (`Command.pausedAt`).
-/

namespace Tazamun.Supervisor

variable {Path : Type} [LinearOrder Path]

inductive SessionKind where
  | init
  | join
deriving DecidableEq

structure SessionRef (Path : Type) where
  path : Path
  kind : SessionKind
  addedMs : U64
  paused : Bool
deriving DecidableEq

abbrev Registry (Path : Type) : Type := List (SessionRef Path)

namespace Registry

/-! ## Operations -/

/-- The flag that is on record for a folder. -/
def flag (reg : Registry Path) (dir : Path) : Bool :=
  ((List.find? (fun s => s.path == dir) reg).map SessionRef.paused).getD false

/-- `register`: the flag of an entry that is replaced is kept. -/
def register (reg : Registry Path) (dir : Path) (kind : SessionKind) (nowMs : U64) :
    Registry Path :=
  let entry : SessionRef Path := { path := dir, kind, addedMs := nowMs, paused := reg.flag dir }
  ((List.filter (fun s => s.path != dir) reg) ++ [entry]).mergeSort fun a b => a.path ≤ b.path

/-- `set_paused`: the previous flag with the changed registry. -/
def setPaused (dir : Path) (paused : Bool) : Registry Path → Option (Bool × Registry Path)
  | [] => none
  | s :: rest =>
      if s.path = dir then some (s.paused, { s with paused } :: rest)
      else (setPaused dir paused rest).map fun r => (r.1, s :: r.2)

def isPaused (reg : Registry Path) (dir : Path) : Bool := reg.any fun s => s.path == dir && s.paused

def forget (reg : Registry Path) (dir : Path) : Registry Path := reg.filter fun s => s.path != dir

/-- `prune`: what is left, and the paths that are gone. -/
def prune (isSession : Path → Bool) (reg : Registry Path) : Registry Path × List Path :=
  (reg.filter fun s => isSession s.path,
    (reg.filter fun s => !isSession s.path).map SessionRef.path)

end Registry

/-! ## Commands -/

/-- What the commands do with the registry that they load. -/
inductive Command (Path : Type) where
  /-- `register_session`, of `init` and `join`. -/
  | registerSession (isSession : Path → Bool) (dir : Path) (kind : SessionKind) (nowMs : U64)
  /-- `forget_session`, and the screen that forgets all. -/
  | forgetSessions (dirs : List Path)
  /-- `pause` and `resume`, where no supervisor answers. -/
  | setPaused (dir : Path) (paused : Bool)
  /-- The pruning before a listing; the manager saves in any case. -/
  | prune (isSession : Path → Bool) (always : Bool)
  | ensureRegistered (dir : Path) (nowMs : U64)

/-- What is to be saved, if anything. -/
def Command.run (reg : Registry Path) : Command Path → Option (Registry Path)
  | .registerSession isSession dir kind nowMs =>
      some ((reg.prune isSession).1.register dir kind nowMs)
  | .forgetSessions dirs => some (dirs.foldl Registry.forget reg)
  | .setPaused dir paused =>
      match reg.setPaused dir paused with
      | none => some reg
      | some (_, reg) => some reg
  | .prune isSession always =>
      let (kept, gone) := reg.prune isSession
      if always || !gone.isEmpty then some kept else none
  | .ensureRegistered dir nowMs =>
      if reg.any fun s => s.path == dir then none else some (reg.register dir .init nowMs)

/-! ## Order -/

/-- The paths ascend, so there is one entry for each. -/
def InOrder (reg : Registry Path) : Prop := reg.Pairwise fun a b => a.path < b.path

variable {reg reg' : Registry Path} {dir : Path}

theorem InOrder.filter (h : InOrder reg) (p : SessionRef Path → Bool) : InOrder (reg.filter p) :=
  List.Pairwise.filter p h

theorem Registry.mem_register {s : SessionRef Path} {kind : SessionKind} {nowMs : U64} :
    s ∈ reg.register dir kind nowMs ↔ (s ∈ reg ∧ s.path ≠ dir) ∨
      s = { path := dir, kind := kind, addedMs := nowMs, paused := reg.flag dir } := by
  unfold Registry.register
  simp only [List.mem_mergeSort, List.mem_append, List.mem_filter, List.mem_singleton, bne_iff_ne]

theorem InOrder.register (h : InOrder reg) (dir : Path) (kind : SessionKind) (nowMs : U64) :
    InOrder (reg.register dir kind nowMs) := by
  have hle : (reg.register dir kind nowMs).Pairwise fun a b => a.path ≤ b.path := by
    unfold Registry.register
    refine (List.pairwise_mergeSort ?_ ?_ _).imp fun hab => by simpa using hab
    · intro a b c hab hbc
      simp only [decide_eq_true_eq] at hab hbc ⊢
      exact hab.trans hbc
    · intro a b
      simp only [Bool.or_eq_true, decide_eq_true_eq]
      exact le_total a.path b.path
  have hdistinct : (reg.register dir kind nowMs).Pairwise fun a b => a.path ≠ b.path := by
    unfold Registry.register
    rw [List.Perm.pairwise_iff (fun hab => Ne.symm hab) (List.mergeSort_perm _ _)]
    rw [List.pairwise_append]
    refine ⟨(h.filter _).imp fun hab => ne_of_lt hab, List.pairwise_singleton _ _, ?_⟩
    intro a ha b hb
    rw [List.mem_singleton.mp hb]
    simpa using (List.mem_filter.mp ha).2
  exact (hle.and hdistinct).imp fun hab => lt_of_le_of_ne hab.1 hab.2

theorem Registry.paths_setPaused {paused prev : Bool}
    (h : reg.setPaused dir paused = some (prev, reg')) :
    reg'.map SessionRef.path = reg.map SessionRef.path := by
  induction reg generalizing reg' with
  | nil => cases h
  | cons s rest ih =>
      unfold Registry.setPaused at h
      by_cases hs : s.path = dir
      · rw [if_pos hs] at h
        obtain ⟨-, rfl⟩ := Prod.mk.inj (Option.some.inj h)
        rfl
      · rw [if_neg hs] at h
        obtain ⟨⟨prev', rest'⟩, hrest, heq⟩ := Option.map_eq_some_iff.mp h
        obtain ⟨rfl, rfl⟩ := Prod.mk.inj heq
        rw [List.map_cons, List.map_cons, ih hrest]

theorem inOrder_iff_paths : InOrder reg ↔ (reg.map SessionRef.path).Pairwise (· < ·) :=
  List.pairwise_map.symm

theorem InOrder.setPaused (h : InOrder reg) {paused prev : Bool}
    (hset : reg.setPaused dir paused = some (prev, reg')) : InOrder reg' := by
  rw [inOrder_iff_paths, Registry.paths_setPaused hset, ← inOrder_iff_paths]
  exact h

theorem InOrder.forget (h : InOrder reg) (dirs : List Path) :
    InOrder (dirs.foldl Registry.forget reg) := by
  induction dirs generalizing reg with
  | nil => exact h
  | cons dir dirs ih => exact ih (h.filter _)

/-- **Every command keeps the registry in order.** -/
theorem Command.inOrder (h : InOrder reg) {c : Command Path} (hrun : c.run reg = some reg') :
    InOrder reg' := by
  cases c with
  | registerSession isSession dir kind nowMs =>
      obtain rfl := Option.some.inj hrun
      exact (h.filter _).register dir kind nowMs
  | forgetSessions dirs =>
      obtain rfl := Option.some.inj hrun
      exact h.forget dirs
  | setPaused dir paused =>
      unfold Command.run at hrun
      cases hset : reg.setPaused dir paused with
      | none =>
          simp only [hset, Option.some.injEq] at hrun
          subst hrun
          exact h
      | some r =>
          simp only [hset, Option.some.injEq] at hrun
          subst hrun
          exact h.setPaused hset
  | prune isSession always =>
      unfold Command.run at hrun
      dsimp only [Registry.prune] at hrun
      rw [Option.ite_none_right_eq_some] at hrun
      obtain rfl := Option.some.inj hrun.2
      exact h.filter _
  | ensureRegistered dir nowMs =>
      unfold Command.run at hrun
      rw [Option.ite_none_left_eq_some] at hrun
      obtain rfl := Option.some.inj hrun.2
      exact h.register dir .init nowMs

/-! ## A folder that is paused -/

/-- The folder is on record as paused. -/
structure PausedAt (dir : Path) (reg : Registry Path) : Prop where
  listed : ∃ s ∈ reg, s.path = dir
  paused : ∀ s ∈ reg, s.path = dir → s.paused = true

omit [LinearOrder Path] in
theorem PausedAt.filter (h : PausedAt dir reg) {p : SessionRef Path → Bool}
    (hp : ∀ s, s.path = dir → p s = true) : PausedAt dir (reg.filter p) where
  listed := by
    obtain ⟨s, hs, hpath⟩ := h.listed
    exact ⟨s, List.mem_filter.mpr ⟨hs, hp s hpath⟩, hpath⟩
  paused := fun s hs => h.paused s (List.mem_filter.mp hs).1

theorem PausedAt.flag (h : PausedAt dir reg) : reg.flag dir = true := by
  unfold Registry.flag
  obtain ⟨s, hs, hpath⟩ := h.listed
  cases hfind : List.find? (fun s => s.path == dir) reg with
  | none =>
      have hnot := List.find?_eq_none.mp hfind s hs
      exact absurd (beq_iff_eq.mpr hpath) hnot
  | some t =>
      have ht := List.find?_some hfind
      exact h.paused t (List.mem_of_find?_eq_some hfind) (beq_iff_eq.mp ht)

/-- Whatever is registered, the flag is kept. -/
theorem PausedAt.register (h : PausedAt dir reg) (dir' : Path) (kind : SessionKind) (nowMs : U64) :
    PausedAt dir (reg.register dir' kind nowMs) := by
  by_cases heq : dir' = dir
  · subst heq
    refine ⟨⟨_, Registry.mem_register.mpr (.inr rfl), rfl⟩, fun s hs hpath => ?_⟩
    rcases Registry.mem_register.mp hs with ⟨-, hne⟩ | rfl
    · exact absurd hpath hne
    · exact h.flag
  · obtain ⟨s, hs, hpath⟩ := h.listed
    have hne : s.path ≠ dir' := by
      rw [hpath]
      exact fun hsame => heq hsame.symm
    refine ⟨⟨s, Registry.mem_register.mpr (.inl ⟨hs, hne⟩), hpath⟩, fun t ht htpath => ?_⟩
    rcases Registry.mem_register.mp ht with ⟨ht, -⟩ | rfl
    · exact h.paused t ht htpath
    · exact absurd htpath heq

theorem Registry.mem_setPaused {dir' : Path} {paused prev : Bool} {s : SessionRef Path}
    (h : reg.setPaused dir' paused = some (prev, reg')) (hs : s ∈ reg') :
    s ∈ reg ∨ ∃ t ∈ reg, t.path = dir' ∧ s = { t with paused } := by
  induction reg generalizing reg' with
  | nil => cases h
  | cons t rest ih =>
      unfold Registry.setPaused at h
      by_cases ht : t.path = dir'
      · rw [if_pos ht] at h
        obtain ⟨-, rfl⟩ := Prod.mk.inj (Option.some.inj h)
        rcases List.mem_cons.mp hs with rfl | hs
        · exact .inr ⟨t, List.mem_cons_self, ht, rfl⟩
        · exact .inl (List.mem_cons_of_mem _ hs)
      · rw [if_neg ht] at h
        obtain ⟨⟨prev', rest'⟩, hrest, heq⟩ := Option.map_eq_some_iff.mp h
        obtain ⟨rfl, rfl⟩ := Prod.mk.inj heq
        rcases List.mem_cons.mp hs with rfl | hs
        · exact .inl List.mem_cons_self
        · rcases ih hrest hs with hs | ⟨u, hu, hpath, rfl⟩
          · exact .inl (List.mem_cons_of_mem _ hs)
          · exact .inr ⟨u, List.mem_cons_of_mem _ hu, hpath, rfl⟩

/-- Another folder's flag is set, or this one's again. -/
theorem PausedAt.setPaused (h : PausedAt dir reg) {dir' : Path} {paused prev : Bool}
    (hset : reg.setPaused dir' paused = some (prev, reg')) (hkeep : dir' = dir → paused = true) :
    PausedAt dir reg' where
  listed := by
    obtain ⟨s, hs, hpath⟩ := h.listed
    have hmem : dir ∈ reg'.map SessionRef.path := by
      rw [Registry.paths_setPaused hset]
      exact List.mem_map.mpr ⟨s, hs, hpath⟩
    exact List.mem_map.mp hmem
  paused := by
    intro s hs hpath
    rcases Registry.mem_setPaused hset hs with hs | ⟨t, -, htpath, rfl⟩
    · exact h.paused s hs hpath
    · exact hkeep (htpath.symm.trans hpath)

/-- **The folder is paused** once its flag is set. -/
theorem pausedAt_setPaused (h : InOrder reg) {prev : Bool}
    (hset : reg.setPaused dir true = some (prev, reg')) : PausedAt dir reg' := by
  induction reg generalizing reg' with
  | nil => cases hset
  | cons s rest ih =>
      obtain ⟨hfirst, hrest⟩ := List.pairwise_cons.mp h
      unfold Registry.setPaused at hset
      by_cases hs : s.path = dir
      · rw [if_pos hs] at hset
        obtain ⟨-, rfl⟩ := Prod.mk.inj (Option.some.inj hset)
        refine ⟨⟨_, List.mem_cons_self, hs⟩, fun t ht htpath => ?_⟩
        rcases List.mem_cons.mp ht with rfl | ht
        · rfl
        · exact absurd (hs.trans htpath.symm) (ne_of_lt (hfirst t ht))
      · rw [if_neg hs] at hset
        obtain ⟨⟨prev', rest'⟩, hrest', heq⟩ := Option.map_eq_some_iff.mp hset
        obtain ⟨rfl, rfl⟩ := Prod.mk.inj heq
        have hih := ih hrest hrest'
        obtain ⟨t, ht, htpath⟩ := hih.listed
        refine ⟨⟨t, List.mem_cons_of_mem _ ht, htpath⟩, fun u hu hupath => ?_⟩
        rcases List.mem_cons.mp hu with rfl | hu
        · exact absurd hupath hs
        · exact hih.paused u hu hupath

/-- The commands that leave a paused folder alone: they do not resume it, do not forget it, and
find that it is a session. -/
def Command.Spares (dir : Path) : Command Path → Prop
  | .registerSession isSession _ _ _ => isSession dir = true
  | .forgetSessions dirs => dir ∉ dirs
  | .setPaused dir' paused => dir' = dir → paused = true
  | .prune isSession _ => isSession dir = true
  | .ensureRegistered _ _ => True

theorem PausedAt.forget (h : PausedAt dir reg) {dirs : List Path} (hdirs : dir ∉ dirs) :
    PausedAt dir (dirs.foldl Registry.forget reg) := by
  induction dirs generalizing reg with
  | nil => exact h
  | cons dir' dirs ih =>
      rw [List.mem_cons, not_or] at hdirs
      obtain ⟨hne, hrest⟩ := hdirs
      refine ih (h.filter fun s hpath => ?_) hrest
      rw [hpath, bne_iff_ne]
      exact hne

omit [LinearOrder Path] in
theorem PausedAt.prune (h : PausedAt dir reg) {isSession : Path → Bool}
    (hsession : isSession dir = true) : PausedAt dir (reg.prune isSession).1 :=
  h.filter fun s hpath => by
    rw [hpath]
    exact hsession

theorem Command.pausedAt (h : PausedAt dir reg) {c : Command Path} (hspares : c.Spares dir)
    (hrun : c.run reg = some reg') : PausedAt dir reg' := by
  cases c with
  | registerSession isSession dir' kind nowMs =>
      obtain rfl := Option.some.inj hrun
      exact (h.prune hspares).register dir' kind nowMs
  | forgetSessions dirs =>
      obtain rfl := Option.some.inj hrun
      exact h.forget hspares
  | setPaused dir' paused =>
      unfold Command.run at hrun
      cases hset : reg.setPaused dir' paused with
      | none =>
          simp only [hset, Option.some.injEq] at hrun
          subst hrun
          exact h
      | some r =>
          simp only [hset, Option.some.injEq] at hrun
          subst hrun
          exact h.setPaused hset hspares
  | prune isSession always =>
      unfold Command.run at hrun
      dsimp only at hrun
      rw [Option.ite_none_right_eq_some] at hrun
      obtain rfl := Option.some.inj hrun.2
      exact h.prune hspares
  | ensureRegistered dir' nowMs =>
      unfold Command.run at hrun
      rw [Option.ite_none_left_eq_some] at hrun
      obtain rfl := Option.some.inj hrun.2
      exact h.register dir' .init nowMs

end Tazamun.Supervisor
