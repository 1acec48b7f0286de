import Tazamun.Turn.Clocks
import Tazamun.Turn.Slots

set_option autoImplicit false

/-! # How many pulls run

There are never more jobs than `maxConcurrentPulls`: a job is begun when there is room, or in
the place of the one that ends. The cap is on the jobs, though, and the work is done by the
tasks. A job can end before its task does, when a tombstone of the path is applied or an
older task of the path delivers, and the room it leaves is given away while the task still
runs.

As long as every running task belongs to the job of its path, and no path has two, the cap on
the jobs is one on the tasks.
-/

namespace Tazamun

open Lib

variable {Id Path : Type} [LinearOrder Id] [LinearOrder Path]

/-- Distinct keys of a map are at most as many as its entries. -/
theorem Map.length_le_size {κ ν : Type} [LinearOrder κ] {m : Map κ ν} {l : List κ}
    (hnodup : l.Nodup) (hkeys : ∀ k ∈ l, m.contains k = true) : l.length ≤ m.size := by
  have hsub : l ⊆ m.keys := fun k hk => by
    rw [Std.ExtTreeMap.mem_keys]
    exact Std.ExtTreeMap.contains_iff_mem.mp (hkeys k hk)
  calc l.length ≤ m.keys.length := (hnodup.subperm hsub).length_le
    _ = m.size := Std.ExtTreeMap.length_keys

/-! ## The cap on the jobs -/

/-- There is room for every job. -/
def Actor.Capped (a : Actor Id Path) : Prop := a.pendingPulls.size ≤ maxConcurrentPulls

theorem Micro.capped {c : Ctx Id Path} {hand hand' : List (Advert Id Path)}
    {a a' : Actor Id Path} (h : Micro c (hand, a) (hand', a')) (ha : a.Capped) : a'.Capped := by
  cases h with
  | shift _ _ _ _ _ _ _ _ hs hb => exact hs.cap ha
  | replaced rel =>
      unfold Actor.noteReplaced
      split
      · exact ha
      · exact ha
  | _ => exact ha

theorem Steps.capped {c : Ctx Id Path} {s t : List (Advert Id Path) × Actor Id Path}
    (h : Steps c s t) (hs : s.2.Capped) : t.2.Capped :=
  h.induct (P := fun _ a => a.Capped) Micro.capped hs

namespace Actor

variable {h : Host Id Path} {a : Actor Id Path}

/-- **There are never more jobs than the cap.** -/
theorem capped_reached {ok : Actor Id Path → Env Path × Act Id Path → Prop} {env : Env Path}
    {me : Id} {p : Persisted Id Path} {founding : Bool}
    (hrun : Reaches (step h) ok (Actor.boot h env me p founding) a) : a.Capped :=
  reached_of_steps (P := Capped) (by simp [Capped, load])
    (fun _ _ _ _ _ hsteps hc => Steps.capped hsteps hc) (fun _ _ _ _ _ _ hc => hc) hrun

/-! ## The tasks -/

/-- The paths of the pulls that are running. -/
def pullPaths (a : Actor Id Path) : List Path :=
  a.tasks.filterMap fun
    | .pull rel _ _ => some rel
    | _ => none

/-- Every running pull belongs to the job of its path, and no path has two. -/
structure OwnsPulls (a : Actor Id Path) : Prop where
  single : a.pullPaths.Nodup
  owned : ∀ rel ∈ a.pullPaths, a.pendingPulls.contains rel = true

/-- A new version of path 1, and 32 new paths. -/
def manyFiles : List (Nat × FileRecord Nat) :=
  (List.range 33).map fun i => (i + 1, nthRecord 1)

/-- Node 1 advertises them all. -/
def advertiseMany : List (Env Nat × Act Nat Nat) :=
  now [.event (.authed 1 0 true), .event (.msg 1 (.index 0 manyFiles []))]

end Actor

end Tazamun
