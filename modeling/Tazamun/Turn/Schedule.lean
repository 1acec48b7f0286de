import Tazamun.Turn.Running
import Tazamun.Turn.Steady

set_option autoImplicit false

/-! # The pull scheduler wastes no slot

A record that is to be pulled gets a job while there are fewer than `maxConcurrentPulls`, and
waits in the backlog otherwise. A job that ends gives its slot to the record queued behind it
or, if there is none, to the backlog, entry after entry until the slots are full again.

`Scheduled` says that this works out: no path waits twice, none waits that has a job, and
nothing waits while a slot is free. In the middle of `finish_pull` only the last part fails
(`Draining`), and draining the backlog restores it. All other moves of the handlers leave the
scheduler alone, so it holds after every event of every run.
-/

namespace Tazamun

open Lib

variable {Id Path : Type} [LinearOrder Id] [LinearOrder Path]

namespace Actor

/-- The bounds are kept, and the paths in the backlog are distinct and without a job. -/
structure Draining (a : Actor Id Path) : Prop where
  slots : a.pendingPulls.size ≤ maxConcurrentPulls
  room : a.pullBacklog.length ≤ maxPullBacklog
  nodup : (a.pullBacklog.map Prod.fst).Nodup
  apart : ∀ e ∈ a.pullBacklog, a.pendingPulls.contains e.1 = false

/-- Besides, nothing waits while a slot is free. -/
structure Scheduled (a : Actor Id Path) : Prop extends Draining a where
  full : a.pullBacklog ≠ [] → a.pendingPulls.size = maxConcurrentPulls

variable {a : Actor Id Path} {rel : Path} {sender : Id} {record : FileRecord Id}

theorem startPull_pulls (a : Actor Id Path) (rel : Path) (sender : Id) (record : FileRecord Id) :
    (a.startPull rel sender record).pendingPulls = a.pendingPulls ∧
      (a.startPull rel sender record).pullBacklog = a.pullBacklog := by
  unfold startPull
  split <;> exact ⟨rfl, rfl⟩

theorem beginPull_pulls (a : Actor Id Path) (rel : Path) (sender : Id) (record : FileRecord Id) :
    (a.beginPull rel sender record).pendingPulls =
        a.pendingPulls.insert rel ⟨sender, record, 0, none⟩ ∧
      (a.beginPull rel sender record).pullBacklog = a.pullBacklog :=
  startPull_pulls _ rel sender record

/-! ## Single operations -/

/-- Only the tables of the scheduler matter. -/
theorem Scheduled.of_eq {b : Actor Id Path} (h : Scheduled a)
    (hp : b.pendingPulls = a.pendingPulls) (hb : b.pullBacklog = a.pullBacklog) :
    Scheduled b := by
  obtain ⟨⟨hslots, hroom, hnodup, hapart⟩, hfull⟩ := h
  refine ⟨⟨?_, ?_, ?_, ?_⟩, ?_⟩
  · rw [hp]
    exact hslots
  · rw [hb]
    exact hroom
  · rw [hb]
    exact hnodup
  · rw [hp, hb]
    exact hapart
  · rw [hp, hb]
    exact hfull

/-- A job that is rewritten keeps its slot. -/
theorem Scheduled.rewrite (h : Scheduled a) {old : PullJob Id}
    (hold : a.pendingPulls[rel]? = some old) (job : PullJob Id) :
    Scheduled { a with pendingPulls := a.pendingPulls.insert rel job } := by
  have hsize : (a.pendingPulls.insert rel job).size = a.pendingPulls.size :=
    Map.size_insert_of_get hold job
  have hkeys : ∀ p : Path, a.pendingPulls.contains p = false →
      (a.pendingPulls.insert rel job).contains p = false := by
    intro p hno
    rw [← Bool.not_eq_true, Map.contains_insert_iff, not_or]
    refine ⟨?_, by rw [hno]; exact Bool.false_ne_true⟩
    rintro rfl
    rw [Map.contains_of_get hold] at hno
    cases hno
  exact ⟨⟨hsize.trans_le h.slots, h.room, h.nodup, fun e he => hkeys e.1 (h.apart e he)⟩,
    fun hne => hsize.trans (h.full hne)⟩

/-- A job for a path that does not wait takes a free slot. -/
theorem Draining.begin (h : Draining a) (hfree : a.pendingPulls.size < maxConcurrentPulls)
    (hout : ∀ e ∈ a.pullBacklog, e.1 ≠ rel) : Draining (a.beginPull rel sender record) := by
  obtain ⟨hp, hb⟩ := beginPull_pulls a rel sender record
  refine ⟨?_, ?_, ?_, ?_⟩
  · rw [hp]
    calc (a.pendingPulls.insert rel ⟨sender, record, 0, none⟩).size
        ≤ a.pendingPulls.size + 1 := Std.ExtTreeMap.size_insert_le
      _ ≤ maxConcurrentPulls := hfree
  · rw [hb]
    exact h.room
  · rw [hb]
    exact h.nodup
  · rw [hp, hb]
    intro e he
    rw [← Bool.not_eq_true, Map.contains_insert_iff, not_or]
    exact ⟨fun heq => hout e he heq.symm, by rw [h.apart e he]; exact Bool.false_ne_true⟩

/-- With a free slot nothing waits. -/
theorem Scheduled.idle (h : Scheduled a) (hfree : a.pendingPulls.size < maxConcurrentPulls) :
    a.pullBacklog = [] := by
  by_contra hne
  have hfull := h.full hne
  omega

theorem Scheduled.enqueue (h : Scheduled a) (hfull : maxConcurrentPulls ≤ a.pendingPulls.size)
    (hnew : a.pendingPulls[rel]? = none) :
    Scheduled (a.enqueuePullBacklog rel sender record) := by
  have hsize : a.pendingPulls.size = maxConcurrentPulls := le_antisymm h.slots hfull
  have hno : a.pendingPulls.contains rel = false := by
    rw [Map.contains_eq, hnew]
    rfl
  unfold enqueuePullBacklog
  split
  · rename_i i hfound
    obtain ⟨hlt, hrel, -⟩ := List.findIdx?_eq_some_iff_getElem.mp hfound
    have hrel : (a.pullBacklog.get ⟨i, hlt⟩).1 = rel := of_decide_eq_true hrel
    -- the entry that is refreshed is one of the same path
    have hkeys : (a.pullBacklog.set i (rel, sender, record)).map Prod.fst
        = a.pullBacklog.map Prod.fst := by
      rw [List.map_set]
      refine List.ext_getElem (by simp) fun j hj _ => ?_
      rw [List.getElem_set]
      split
      · rename_i heq
        subst heq
        rw [List.getElem_map]
        exact hrel.symm
      · rfl
    refine ⟨⟨h.slots, ?_, ?_, fun e he => ?_⟩, fun _ => hsize⟩
    · exact (List.length_set ..).trans_le h.room
    · show ((a.pullBacklog.set i (rel, sender, record)).map Prod.fst).Nodup
      rw [hkeys]
      exact h.nodup
    · rcases List.mem_or_eq_of_mem_set he with he | rfl
      · exact h.apart e he
      · exact hno
  · rename_i hfound
    have hout : ∀ e ∈ a.pullBacklog, e.1 ≠ rel := by
      intro e he heq
      have hno := List.findIdx?_eq_none_iff.mp hfound e he
      simp [heq] at hno
    split
    · rename_i hlt
      refine ⟨⟨h.slots, ?_, ?_, fun e he => ?_⟩, fun _ => hsize⟩
      · show (a.pullBacklog ++ [(rel, sender, record)]).length ≤ maxPullBacklog
        rw [List.length_append, List.length_singleton]
        omega
      · show ((a.pullBacklog ++ [(rel, sender, record)]).map Prod.fst).Nodup
        rw [List.map_append, List.nodup_append]
        refine ⟨h.nodup, List.nodup_singleton _, fun p hp q hq => ?_⟩
        obtain ⟨e, he, rfl⟩ := List.mem_map.mp hp
        rw [List.mem_singleton.mp hq]
        exact hout e he
      · rcases List.mem_append.mp he with he | he
        · exact h.apart e he
        · rw [List.mem_singleton.mp he]
          exact hno
    · exact h.of_eq rfl rfl

theorem Scheduled.schedule (h : Scheduled a) (rel : Path) (sender : Id) (record : FileRecord Id) :
    Scheduled (a.schedulePull rel sender record) := by
  unfold schedulePull
  split
  · rename_i job hjob
    split
    · exact h
    · exact (h.of_eq rfl rfl : Scheduled (a.displace rel job.queued record)).rewrite hjob _
  · rename_i hnew
    split
    · rename_i hfull
      exact h.enqueue hfull hnew
    · rename_i hfree
      have hidle := h.idle (Nat.lt_of_not_le hfree)
      have hbegun : Draining (a.beginPull rel sender record) :=
        h.toDraining.begin (Nat.lt_of_not_le hfree) (by rw [hidle]; rintro e ⟨⟩)
      refine ⟨hbegun, fun hne => absurd ?_ hne⟩
      rw [(beginPull_pulls a rel sender record).2, hidle]

/-! ## Draining the backlog -/

theorem pickBacklog_none (h : a.pickBacklog = none) : a.pullBacklog = [] := by
  unfold pickBacklog at h
  cases hb : a.pullBacklog with
  | nil => rfl
  | cons e es =>
      rw [hb, minByKey] at h
      split at h
      · cases h
      · split at h <;> cases h

/-- An entry that is taken off the backlog leaves the rest in order. -/
theorem Draining.pick (h : Draining a) {i : Nat} {e : Path × Id × FileRecord Id}
    (he : a.pullBacklog[i]? = some e) :
    Draining { a with pullBacklog := a.pullBacklog.eraseIdx i } ∧
      ∀ e' ∈ a.pullBacklog.eraseIdx i, e'.1 ≠ e.1 := by
  obtain ⟨hlt, hget⟩ := List.getElem?_eq_some_iff.mp he
  refine ⟨⟨h.slots, ?_, ?_, fun e' he' => h.apart e' (List.mem_of_mem_eraseIdx he')⟩, ?_⟩
  · show (a.pullBacklog.eraseIdx i).length ≤ maxPullBacklog
    rw [List.length_eraseIdx_of_lt hlt]
    have hroom := h.room
    omega
  · show ((a.pullBacklog.eraseIdx i).map Prod.fst).Nodup
    rw [← List.eraseIdx_map]
    exact h.nodup.eraseIdx i
  · intro e' he' heq
    obtain ⟨j, hne, hj⟩ := List.mem_eraseIdx_iff_getElem?.mp he'
    obtain ⟨hjlt, hjget⟩ := List.getElem?_eq_some_iff.mp hj
    have hsame : (a.pullBacklog.map Prod.fst)[j]? = (a.pullBacklog.map Prod.fst)[i]? := by
      rw [List.getElem?_map, List.getElem?_map, hj, he, Option.map_some, Option.map_some, heq]
    exact hne ((List.getElem?_inj (by simpa using hjlt) h.nodup).mp hsame)

/-- **Draining fills the slots**: every round takes an entry off, so the length of the backlog
is enough of them. -/
theorem Draining.drain (n : Nat) (h : Draining a) (hn : a.pullBacklog.length ≤ n) :
    Scheduled (drainLoop n a) := by
  induction n generalizing a with
  | zero =>
      refine ⟨h, fun hne => absurd (List.length_eq_zero_iff.mp (Nat.le_zero.mp hn)) hne⟩
  | succ n ih =>
      unfold drainLoop
      split
      · rename_i hfree
        split
        · rename_i hpick
          exact ⟨h, fun hne => absurd (pickBacklog_none hpick) hne⟩
        · rename_i i rel sender record hpick
          have hin := Within.mem_of_minByKey hpick
          obtain ⟨hlt, -⟩ := List.getElem?_eq_some_iff.mp hin
          obtain ⟨hrest, hother⟩ := h.pick hin
          have hless : (a.pullBacklog.eraseIdx i).length ≤ n := by
            rw [List.length_eraseIdx_of_lt hlt]
            omega
          dsimp only
          split
          · exact ih (a := ({ a with pullBacklog := a.pullBacklog.eraseIdx i } :
              Actor Id Path).letGo rel sender record)
              ⟨hrest.slots, hrest.room, hrest.nodup, hrest.apart⟩ hless
          · refine ih (hrest.begin hfree hother) ?_
            rw [(beginPull_pulls _ rel sender record).2]
            exact hless
      · rename_i hfull
        exact ⟨h, fun _ => le_antisymm h.slots (Nat.le_of_not_lt hfull)⟩

/-- The job ends, and the record queued behind it gets its slot. -/
theorem Scheduled.next (h : Scheduled a) (rel : Path) : Draining (a.nextPull rel) := by
  unfold nextPull
  split
  · exact h.toDraining
  · rename_i job hjob
    have hover : ∀ b : Actor Id Path, b.pendingPulls = a.pendingPulls →
        b.pullBacklog = a.pullBacklog →
        Draining { b with pendingPulls := b.pendingPulls.erase rel } ∧
          (b.pendingPulls.erase rel).size < maxConcurrentPulls := by
      intro b hp hb
      have hlt : (b.pendingPulls.erase rel).size < a.pendingPulls.size := by
        rw [hp]
        exact Map.size_erase_lt hjob
      have hslots := h.slots
      refine ⟨⟨by show (b.pendingPulls.erase rel).size ≤ _; omega, ?_, ?_, fun e he => ?_⟩,
        by omega⟩
      · show b.pullBacklog.length ≤ maxPullBacklog
        rw [hb]
        exact h.room
      · show (b.pullBacklog.map Prod.fst).Nodup
        rw [hb]
        exact h.nodup
      · change e ∈ b.pullBacklog at he
        rw [hb] at he
        have hno := h.apart e he
        rw [← hp, ← Bool.not_eq_true] at hno
        show (b.pendingPulls.erase rel).contains e.1 = false
        rw [← Bool.not_eq_true, Map.contains_erase_iff]
        exact fun hin => hno hin.2
    have hout : ∀ e ∈ a.pullBacklog, e.1 ≠ rel := by
      rintro e he rfl
      exact absurd ((h.apart e he).symm.trans (Map.contains_of_get hjob)) Bool.false_ne_true
    have hlet : (if a.isPulling rel job.sender job.record then a
          else a.letGo rel job.sender job.record).pendingPulls = a.pendingPulls ∧
        (if a.isPulling rel job.sender job.record then a
          else a.letGo rel job.sender job.record).pullBacklog = a.pullBacklog := by
      split <;> exact ⟨rfl, rfl⟩
    obtain ⟨hended, hfree⟩ := hover _ hlet.1 hlet.2
    dsimp only
    split
    · refine hended.begin hfree fun e he => hout e ?_
      rw [← hlet.2]
      exact he
    · exact hended

theorem Scheduled.finish (h : Scheduled a) (rel : Path) : Scheduled (a.finishPull rel) :=
  (h.next rel).drain _ le_rfl

/-! ## Runs -/

theorem scheduled_held : Held (Guard.all : Guard Id Path) Scheduled where
  move _ hs hm := by
    cases hm with
    | schedule rel sender record _ => exact hs.schedule rel sender record
    | finish rel => exact hs.finish rel
    | retried rel job hj => exact hs.rewrite hj _
    | restart rel job hj =>
        obtain ⟨hp, hb⟩ := startPull_pulls _ rel job.sender job.record
        exact hs.of_eq hp hb
    | _ => exact hs.of_eq rfl rfl
  queues _ _ hs := hs.of_eq rfl rfl

theorem scheduled_load (h : Host Id Path) (me : Id) (p : Persisted Id Path) :
    Scheduled (load h me p) := by
  refine ⟨⟨?_, ?_, ?_, ?_⟩, ?_⟩ <;> simp [load]

/-- **No slot is free while something waits**, after every event of every run: there are at
most `maxConcurrentPulls` jobs and `maxPullBacklog` paths behind them, these are distinct and
have no job, and if there are any, all slots are taken. -/
theorem scheduled_reached {h : Host Id Path} {env : Env Path} {me : Id}
    {p : Persisted Id Path} {founding : Bool}
    (hrun : Reaches (step h) anyStep (boot h env me p founding) a) : Scheduled a := by
  exact (reached_steady scheduled_held Guard.all_steady (fun _ _ _ => trivial)
    (fun b s _ => admits_all b s) (Persisted.within_all h p) (scheduled_load h me p) hrun).holds

/-- Of 33 new paths one waits, and 32 are pulled. -/
theorem scheduled_reached_full : ∃ a : Actor Nat Nat,
    Reaches (step plainHost) anyStep plainStart a ∧ a.pullBacklog.length = 1 ∧
      Scheduled a := by
  have hexec : (execute (step plainHost) advertiseMany plainStart).any
      (fun a => decide (a.pullBacklog.length = 1)) = true := by
    decide +kernel
  obtain ⟨a, hrun, hp⟩ := exists_reaches_of_execute anyStep (fun _ _ _ => trivial) hexec
  exact ⟨a, hrun, of_decide_eq_true hp, scheduled_reached hrun⟩

end Actor

end Tazamun
