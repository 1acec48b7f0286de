import Tazamun.Locks.Table

set_option autoImplicit false

/-! # The size of the lease table

`max_leases` is meant to bound the number of paths that a table tracks: a new path at capacity
is refused, one that is tracked already still updates. Two operations ask
`at_capacity_for_new` before they insert, `on_remote_request` and `observe_lease`. A local
`start_request` inserts as well, and does not ask.

`bounded_iff`: over any run from the empty table, the bound holds in every state exactly if no
local request is started for a new path at capacity (`Checked`). Nothing else can break it.
-/

namespace Tazamun

variable {Id Path : Type} [LinearOrder Id] [LinearOrder Path]

namespace LockTable

/-! ## Operations and runs -/

/-- The operations on a table, with their arguments. -/
inductive Op (Id Path : Type) where
  | startRequest (path : Path) (lamport : U64) (voters : Finset Id) (now : Nat)
  | onGrant (path : Path) (sender : Id) (now : Nat)
  | onDeny (path : Path)
  | onRemoteRequest (path : Path) (holder : Id) (lamport ttlMs : U64) (now : Nat)
  | onRelease (path : Path) (sender : Id)
  | onRenew (path : Path) (sender : Id) (ttlMs : U64) (now : Nat)
  | renewOwn (path : Path) (now : Nat)
  | observeLease (path : Path) (holder : Id) (lamport expiresInMs : U64) (now : Nat)
  | onPeerDown (id : Id)
  | sweep (now : Nat)
  | setTimings (timings : LockTimings)

/-- The table after an operation. -/
def applyOp (t : LockTable Id Path) : Op Id Path → LockTable Id Path
  | .startRequest path lamport voters now => (t.startRequest path lamport voters now).1
  | .onGrant path sender now => (t.onGrant path sender now).1
  | .onDeny path => (t.onDeny path).1
  | .onRemoteRequest path holder lamport ttlMs now =>
      (t.onRemoteRequest path holder lamport ttlMs now).1
  | .onRelease path sender => t.onRelease path sender
  | .onRenew path sender ttlMs now => t.onRenew path sender ttlMs now
  | .renewOwn path now => t.renewOwn path now
  | .observeLease path holder lamport expiresInMs now =>
      t.observeLease path holder lamport expiresInMs now
  | .onPeerDown id => (t.onPeerDown id).1
  | .sweep now => (t.sweep now).1
  | .setTimings timings => t.setTimings timings

def runOps (t : LockTable Id Path) (ops : List (Op Id Path)) : LockTable Id Path :=
  ops.foldl applyOp t

theorem runOps_append_one (t : LockTable Id Path) (ops : List (Op Id Path)) (op : Op Id Path) :
    t.runOps (ops ++ [op]) = (t.runOps ops).applyOp op := by
  rw [runOps, List.foldl_append]
  rfl

/-- A local request for a new path finds room, once an expired lease is dropped. -/
def Checked (t : LockTable Id Path) : Op Id Path → Prop
  | .startRequest path _ _ now => (t.pruneExpired path now).atCapacityForNew path = false
  | _ => True

/-- The table tracks no more paths than it may. -/
def InBound (t : LockTable Id Path) : Prop := t.states.size ≤ t.maxLeases

/-! ## Sizes -/

variable {t t' : LockTable Id Path}

/-- `t'` tracks no more paths than `t`, under the same bound. -/
structure NoLarger (t t' : LockTable Id Path) : Prop where
  maxLeases : t'.maxLeases = t.maxLeases
  size : t'.states.size ≤ t.states.size

theorem NoLarger.refl : NoLarger t t := ⟨rfl, le_rfl⟩

theorem NoLarger.inBound (h : NoLarger t t') (ht : InBound t) : InBound t' := by
  rw [InBound, h.maxLeases]
  exact h.size.trans ht

theorem noLarger_drop (path : Path) : NoLarger t (t.drop path) :=
  ⟨rfl, Std.ExtTreeMap.size_erase_le⟩

/-- Writing to a path that is tracked. -/
theorem noLarger_put {path : Path} {s : LockState Id} (st : LockState Id)
    (h : t.states[path]? = some s) : NoLarger t (t.put path st) :=
  ⟨rfl, (Map.size_insert_of_get h st).le⟩

theorem pruneExpired_noLarger (t : LockTable Id Path) (path : Path) (now : Nat) :
    NoLarger t (t.pruneExpired path now) := by
  unfold pruneExpired
  split
  · split
    · exact noLarger_drop path
    · exact .refl
  · exact .refl

/-- **There is room for a path** that is tracked, or was found to be below capacity. -/
theorem put_inBound (ht : InBound t) {path : Path} (h : t.atCapacityForNew path = false)
    (st : LockState Id) : InBound (t.put path st) := by
  show (t.states.insert path st).size ≤ t.maxLeases
  rw [InBound] at ht
  rw [Std.ExtTreeMap.size_insert]
  rw [atCapacityForNew, Bool.and_eq_false_iff, Bool.not_eq_false'] at h
  split
  · exact ht
  · rename_i hnew
    rcases h with h | h
    · exact absurd h hnew
    · rw [decide_eq_false_iff_not] at h
      omega

/-! ## One operation -/

theorem startRequest_inBound (ht : InBound t) {path : Path} {lamport : U64} {voters : Finset Id}
    {now : Nat} (h : (t.pruneExpired path now).atCapacityForNew path = false) :
    InBound (t.startRequest path lamport voters now).1 := by
  have hp := (pruneExpired_noLarger t path now).inBound ht
  unfold startRequest
  dsimp only
  split
  · exact hp
  · exact hp
  · exact put_inBound hp h _

/-- A request that finds no room takes the place that is not there. -/
theorem startRequest_overflow {path : Path} {lamport : U64} {voters : Finset Id} {now : Nat}
    (h : (t.pruneExpired path now).atCapacityForNew path = true) :
    ¬ InBound (t.startRequest path lamport voters now).1 := by
  rw [atCapacityForNew, Bool.and_eq_true, Bool.not_eq_true', decide_eq_true_eq] at h
  obtain ⟨hnew, hfull⟩ := h
  rw [startRequest, Map.get_eq_none hnew]
  show ¬ ((t.pruneExpired path now).states.insert path _).size ≤ (t.pruneExpired path now).maxLeases
  rw [Std.ExtTreeMap.size_insert, hnew]
  exact not_le.mpr (Nat.lt_succ_of_le hfull)

theorem onGrant_noLarger (path : Path) (sender : Id) (now : Nat) :
    NoLarger t (t.onGrant path sender now).1 := by
  unfold onGrant
  split
  · rename_i hget
    split
    · dsimp only
      split
      · exact noLarger_put _ hget
      · exact noLarger_put _ hget
    · exact .refl
  · exact .refl

theorem onDeny_noLarger (path : Path) : NoLarger t (t.onDeny path).1 := by
  unfold onDeny
  split
  · exact noLarger_drop path
  · exact .refl

theorem onRemoteRequest_inBound (ht : InBound t) (path : Path) (holder : Id)
    (lamport ttlMs : U64) (now : Nat) :
    InBound (t.onRemoteRequest path holder lamport ttlMs now).1 := by
  have hp := (pruneExpired_noLarger t path now).inBound ht
  unfold onRemoteRequest
  dsimp only
  split
  · exact hp
  · rename_i hroom
    rw [Bool.not_eq_true] at hroom
    split
    · split
      · exact put_inBound hp hroom _
      · exact hp
    · split
      · exact put_inBound hp hroom _
      · exact hp
    · exact put_inBound hp hroom _

theorem onRelease_noLarger (path : Path) (sender : Id) : NoLarger t (t.onRelease path sender) := by
  unfold onRelease
  split
  · split
    · exact noLarger_drop path
    · exact .refl
  · exact .refl

theorem onRenew_noLarger (path : Path) (sender : Id) (ttlMs : U64) (now : Nat) :
    NoLarger t (t.onRenew path sender ttlMs now) := by
  unfold onRenew
  split
  · rename_i hget
    split
    · exact noLarger_put _ hget
    · exact .refl
  · exact .refl

theorem renewOwn_noLarger (path : Path) (now : Nat) : NoLarger t (t.renewOwn path now) := by
  unfold renewOwn
  split
  · rename_i hget
    split
    · exact noLarger_put _ hget
    · exact .refl
  · exact .refl

theorem observeLease_inBound (ht : InBound t) (path : Path) (holder : Id)
    (lamport expiresInMs : U64) (now : Nat) :
    InBound (t.observeLease path holder lamport expiresInMs now) := by
  have hp := (pruneExpired_noLarger t path now).inBound ht
  unfold observeLease
  dsimp only
  split
  · exact hp
  · rename_i hroom
    rw [Bool.not_eq_true] at hroom
    split
    · exact put_inBound hp hroom _
    · split
      · exact put_inBound hp hroom _
      · exact hp
    · exact hp

theorem onPeerDown_noLarger (id : Id) : NoLarger t (t.onPeerDown id).1 :=
  ⟨rfl, Std.ExtTreeMap.size_filter_le_size⟩

theorem sweep_noLarger (now : Nat) : NoLarger t (t.sweep now).1 :=
  ⟨rfl, Std.ExtTreeMap.size_filter_le_size⟩

/-- **One operation**: it keeps the bound if and only if it is checked. -/
theorem applyOp_inBound_iff (ht : InBound t) (op : Op Id Path) :
    InBound (t.applyOp op) ↔ Checked t op := by
  cases op with
  | startRequest path lamport voters now =>
      constructor
      · intro h
        by_contra hfull
        exact startRequest_overflow (Bool.not_eq_false _ ▸ hfull) h
      · exact startRequest_inBound ht
  | onGrant path sender now => exact iff_of_true ((onGrant_noLarger _ _ _).inBound ht) trivial
  | onDeny path => exact iff_of_true ((onDeny_noLarger _).inBound ht) trivial
  | onRemoteRequest path holder lamport ttlMs now =>
      exact iff_of_true (onRemoteRequest_inBound ht _ _ _ _ _) trivial
  | onRelease path sender => exact iff_of_true ((onRelease_noLarger _ _).inBound ht) trivial
  | onRenew path sender ttlMs now =>
      exact iff_of_true ((onRenew_noLarger _ _ _ _).inBound ht) trivial
  | renewOwn path now => exact iff_of_true ((renewOwn_noLarger _ _).inBound ht) trivial
  | observeLease path holder lamport expiresInMs now =>
      exact iff_of_true (observeLease_inBound ht _ _ _ _ _) trivial
  | onPeerDown id => exact iff_of_true ((onPeerDown_noLarger _).inBound ht) trivial
  | sweep now => exact iff_of_true ((sweep_noLarger _).inBound ht) trivial
  | setTimings timings => exact iff_of_true ht trivial

theorem applyOp_maxLeases (t : LockTable Id Path) (op : Op Id Path) :
    (t.applyOp op).maxLeases = t.maxLeases := by
  cases op with
  | startRequest path lamport voters now => exact (startRequest_onlyAt t _ _ _ _).maxLeases
  | onGrant path sender now => exact (onGrant_onlyAt t _ _ _).maxLeases
  | onDeny path => exact (onDeny_onlyAt t _).maxLeases
  | onRemoteRequest path holder lamport ttlMs now =>
      exact (onRemoteRequest_onlyAt t _ _ _ _ _).maxLeases
  | onRelease path sender => exact (onRelease_onlyAt t _ _).maxLeases
  | onRenew path sender ttlMs now => exact (onRenew_onlyAt t _ _ _ _).maxLeases
  | renewOwn path now => exact (renewOwn_onlyAt t _ _).maxLeases
  | observeLease path holder lamport expiresInMs now =>
      exact (observeLease_onlyAt t _ _ _ _ _).maxLeases
  | onPeerDown id => rfl
  | sweep now => rfl
  | setTimings timings => rfl

/-! ## Runs -/

theorem runOps_maxLeases (t : LockTable Id Path) (ops : List (Op Id Path)) :
    (t.runOps ops).maxLeases = t.maxLeases := by
  induction ops generalizing t with
  | nil => rfl
  | cons op ops ih => exact (ih (t.applyOp op)).trans (applyOp_maxLeases t op)

/-- The empty table, with any bound. -/
def empty (me : Id) (timings : LockTimings) (maxLeases : Nat) : LockTable Id Path :=
  ⟨me, timings, ∅, maxLeases⟩

theorem empty_inBound (me : Id) (timings : LockTimings) (maxLeases : Nat) :
    InBound (empty me timings maxLeases : LockTable Id Path) :=
  Nat.zero_le _

theorem empty_runOps_inBound (me : Id) (timings : LockTimings) (maxLeases : Nat)
    (ops : List (Op Id Path)) :
    InBound ((empty me timings maxLeases).runOps ops) ↔
      ((empty me timings maxLeases).runOps ops).states.size ≤ maxLeases := by
  rw [InBound, runOps_maxLeases]
  rfl

/-- **The bound holds over a run** from the empty table exactly if every operation of the run
was checked. -/
theorem bounded_iff (me : Id) (timings : LockTimings) (maxLeases : Nat)
    (ops : List (Op Id Path)) :
    (∀ before, before <+: ops →
        ((empty me timings maxLeases).runOps before).states.size ≤ maxLeases) ↔
      ∀ before op, before ++ [op] <+: ops →
        Checked ((empty me timings maxLeases).runOps before) op := by
  simp only [← empty_runOps_inBound]
  constructor
  · intro h before op hpre
    have hbefore := h before ((List.prefix_append before [op]).trans hpre)
    have hafter := h (before ++ [op]) hpre
    rw [runOps_append_one] at hafter
    exact (applyOp_inBound_iff hbefore op).mp hafter
  · intro h before
    -- from the empty table, one operation of the prefix after the other
    induction before using List.reverseRecOn with
    | nil =>
        intro _
        exact empty_inBound me timings maxLeases
    | append_singleton before op ih =>
        intro hpre
        have hbefore := ih ((List.prefix_append before [op]).trans hpre)
        rw [runOps_append_one]
        exact (applyOp_inBound_iff hbefore op).mpr (h before op hpre)

/-! ## A table over its bound -/

/-- A request of node 0 for each of the paths below `n`, to be voted on by node 1. -/
def requests (n : Nat) : List (Op Nat Nat) :=
  (List.range n).map fun path => .startRequest path 1 {1} 0

/-- They are all pending. -/
theorem requests_states (timings : LockTimings) (n : Nat) :
    (∀ path, n ≤ path →
      ((new 0 timings).runOps (requests n)).states[path]? = none) ∧
    ((new 0 timings).runOps (requests n)).states.size = n := by
  induction n with
  | zero => exact ⟨fun path _ => Std.ExtTreeMap.getElem?_empty, rfl⟩
  | succ n ih =>
      obtain ⟨hfree, hsize⟩ := ih
      have hnew := hfree n le_rfl
      have hlive : Live 0 ((new 0 timings).runOps (requests n)).states[n]? := by
        rw [hnew]
        trivial
      have hstates : ((new 0 timings).runOps (requests (n + 1))).states =
          ((new 0 timings).runOps (requests n)).states.insert n
            (.pendingLocal 1 {1} ∅
              (0 + ((new 0 timings).runOps (requests n)).timings.acquireTimeout)) := by
        rw [requests, List.range_succ, List.map_append, List.map_singleton, runOps_append_one,
          ← requests]
        show (startRequest _ n 1 {1} 0).1.states = _
        rw [startRequest, pruneExpired_of_live hlive, hnew]
        rfl
      rw [hstates]
      constructor
      · intro path hpath
        rw [Map.get_insert_ne _ _ (by omega)]
        exact hfree path (by omega)
      · rw [Std.ExtTreeMap.size_insert, Map.contains_eq, hnew, hsize]
        rfl

/-- **Local requests overrun the bound**: after 4097 of them a table with the bound of the
daemon tracks 4097 paths. -/
theorem requests_overrun :
    ¬ ∀ ops : List (Op Nat Nat),
      ((new 0 ⟨90000, 30000, 10000⟩).runOps ops).states.size ≤ maxTrackedLeases := by
  intro h
  have hsize := (requests_states ⟨90000, 30000, 10000⟩ (maxTrackedLeases + 1)).2
  have hle := h (requests (maxTrackedLeases + 1))
  omega

end LockTable

end Tazamun
