import Tazamun.Locks.Pair
import Tazamun.Turn.Aside

set_option autoImplicit false

/-! # Operations under way

A path is marked busy while an operation on it is under way, in `pendingAcquires` while we
collect votes for it, in `autolockPending` while autolock does so, and in `pendingUnlocks`
while an unlock waits for the last edit. Every mark is set by one handler and taken back by
another, which runs when a task has posted its event, a vote has come in, or time is up.

`Desk` says that no mark is left behind: a busy path has a task, an event, or an autolock
round, every round is known to the lock table, and every unlock has its inspection or its
publish. A handler that has taken an event out of the inbox has the path of the event in its
hand until it has dealt with it, and so have the handlers that end several rounds at once.

Two handlers forget a mark. When a voter goes, its rounds are ended without a look at
`autolockPending`, and an inspection that fails is answered without a look at
`pendingUnlocks`. `DeskTerms` has a term for each of the two.
-/

namespace Tazamun

open Mesh

variable {Id Path : Type} [LinearOrder Id] [LinearOrder Path]

/-! ## Rounds in the lock table -/

namespace LockTable

variable {t t' t'' : LockTable Id Path}

/-- The rounds that are under way stay under way. -/
def KeepsRounds (t t' : LockTable Id Path) : Prop :=
  ∀ p : Path, Pending t.states[p]? → Pending t'.states[p]?

namespace KeepsRounds

theorem refl : KeepsRounds t t := fun _ h => h

theorem trans (h : KeepsRounds t t') (h' : KeepsRounds t' t'') : KeepsRounds t t'' :=
  fun p hp => h' p (h p hp)

theorem of_onlyAt {path : Path} (ho : OnlyAt path t t')
    (hat : Pending t.states[path]? → Pending t'.states[path]?) : KeepsRounds t t' := by
  intro p hp
  by_cases heq : path = p
  · subst heq
    exact hat hp
  · rw [ho.get p heq]
    exact hp

end KeepsRounds

omit [LinearOrder Id] in
theorem pending_iff {e : Option (LockState Id)} :
    Pending e ↔ ∃ lamport needed granted deadline,
      e = some (.pendingLocal lamport needed granted deadline) := by
  constructor
  · intro h
    unfold Pending at h
    split at h
    · exact ⟨_, _, _, _, rfl⟩
    · exact h.elim
  · rintro ⟨_, _, _, _, rfl⟩
    exact trivial

theorem keepsRounds_pruneExpired (t : LockTable Id Path) (path : Path) (now : Nat) :
    KeepsRounds t (t.pruneExpired path now) := by
  refine .of_onlyAt (pruneExpired_onlyAt t path now) fun hp => ?_
  obtain ⟨l, n, g, d, he⟩ := pending_iff.mp hp
  rw [pruneExpired_get_self, he]
  exact trivial

theorem keepsRounds_startRequest (t : LockTable Id Path) (path : Path) (lamport : U64)
    (voters : Finset Id) (now : Nat) :
    KeepsRounds t (t.startRequest path lamport voters now).1 := by
  refine .of_onlyAt (startRequest_onlyAt t path lamport voters now) fun hp => ?_
  have hpruned := keepsRounds_pruneExpired t path now path hp
  unfold startRequest
  dsimp only
  split
  · exact hpruned
  · exact hpruned
  · rename_i hnone
    rw [hnone] at hpruned
    exact hpruned.elim

/-- A request that starts a round is in the table. -/
theorem pending_startRequest {path : Path} {lamport : U64} {voters : Finset Id} {now : Nat}
    (h : t.startRequest path lamport voters now = (t', .ok ())) : Pending t'.states[path]? := by
  unfold startRequest at h
  dsimp only at h
  split at h
  · cases h
  · cases h
  · cases h
    rw [put_get_self]
    exact trivial

theorem keepsRounds_onGrant {path : Path} {sender : Id} {now : Nat}
    (h : t.onGrant path sender now = (t', false)) : KeepsRounds t t' := by
  have ho := onGrant_onlyAt t path sender now
  rw [h] at ho
  refine .of_onlyAt ho fun hp => ?_
  obtain ⟨l, n, g, d, he⟩ := pending_iff.mp hp
  unfold onGrant at h
  simp only [he] at h
  split at h
  · split at h
    · cases h
    · cases h
      rw [put_get_self]
      exact trivial
  · cases h
    exact hp

theorem keepsRounds_onDeny {path : Path} (h : t.onDeny path = (t', false)) :
    KeepsRounds t t' := by
  have ho := onDeny_onlyAt t path
  rw [h] at ho
  refine .of_onlyAt ho fun hp => ?_
  obtain ⟨l, n, g, d, he⟩ := pending_iff.mp hp
  unfold onDeny at h
  simp only [he] at h
  cases h

theorem keepsRounds_onRemoteRequest {path : Path} {holder : Id} {lamport ttlMs : U64}
    {now : Nat} {decision : Decision Id} (hne : decision ≠ .grantAndAbortMine)
    (h : t.onRemoteRequest path holder lamport ttlMs now = (t', decision)) :
    KeepsRounds t t' := by
  have ho := onRemoteRequest_onlyAt t path holder lamport ttlMs now
  rw [h] at ho
  refine .of_onlyAt ho fun hp => ?_
  have hpruned := keepsRounds_pruneExpired t path now path hp
  obtain ⟨l, n, g, d, he⟩ := pending_iff.mp hpruned
  unfold onRemoteRequest at h
  dsimp only at h
  split at h
  · cases h
    exact hpruned
  · simp only [he] at h
    split at h
    · cases h
      exact absurd rfl hne
    · cases h
      exact hpruned

theorem keepsRounds_onRelease (t : LockTable Id Path) (path : Path) (sender : Id) :
    KeepsRounds t (t.onRelease path sender) := by
  refine .of_onlyAt (onRelease_onlyAt t path sender) fun hp => ?_
  obtain ⟨l, n, g, d, he⟩ := pending_iff.mp hp
  simp only [onRelease, he]
  exact trivial

theorem keepsRounds_onRenew (t : LockTable Id Path) (path : Path) (sender : Id) (ttlMs : U64)
    (now : Nat) : KeepsRounds t (t.onRenew path sender ttlMs now) := by
  refine .of_onlyAt (onRenew_onlyAt t path sender ttlMs now) fun hp => ?_
  obtain ⟨l, n, g, d, he⟩ := pending_iff.mp hp
  simp only [onRenew, he]
  exact trivial

theorem keepsRounds_renewOwn (t : LockTable Id Path) (path : Path) (now : Nat) :
    KeepsRounds t (t.renewOwn path now) := by
  refine .of_onlyAt (renewOwn_onlyAt t path now) fun hp => ?_
  obtain ⟨l, n, g, d, he⟩ := pending_iff.mp hp
  simp only [renewOwn, he]
  exact trivial

theorem keepsRounds_observeLease (t : LockTable Id Path) (path : Path) (holder : Id)
    (lamport expiresInMs : U64) (now : Nat) :
    KeepsRounds t (t.observeLease path holder lamport expiresInMs now) := by
  refine .of_onlyAt (observeLease_onlyAt t path holder lamport expiresInMs now) fun hp => ?_
  have hpruned := keepsRounds_pruneExpired t path now path hp
  obtain ⟨l, n, g, d, he⟩ := pending_iff.mp hpruned
  unfold observeLease
  dsimp only
  split
  · exact hpruned
  · simp only [he]
    exact trivial

/-- A sweep ends the rounds that it reports. -/
theorem pending_sweep (t : LockTable Id Path) (now : Nat) {p : Path}
    (hp : Pending t.states[p]?) :
    p ∈ (t.sweep now).2.timedOut ∨ Pending (t.sweep now).1.states[p]? := by
  obtain ⟨l, n, g, d, he⟩ := pending_iff.mp hp
  by_cases hdue : LockState.due now (.pendingLocal l n g d) = true
  · refine .inl (List.mem_filterMap.mpr ⟨(p, .pendingLocal l n g d), ?_, rfl⟩)
    exact List.mem_filter.mpr ⟨Map.mem_toList.mpr he, hdue⟩
  · refine .inr (pending_iff.mpr ⟨l, n, g, d, ?_⟩)
    simp only [sweep]
    rw [Std.ExtTreeMap.getElem?_filter', he]
    simp [hdue]

/-- So does the end of a connection. -/
theorem pending_onPeerDown (t : LockTable Id Path) (id : Id) {p : Path}
    (hp : Pending t.states[p]?) :
    p ∈ (t.onPeerDown id).2 ∨ Pending (t.onPeerDown id).1.states[p]? := by
  obtain ⟨l, n, g, d, he⟩ := pending_iff.mp hp
  by_cases hwaits : id ∈ n ∧ id ∉ g
  · refine .inl (List.mem_map.mpr ⟨(p, .pendingLocal l n g d), ?_, rfl⟩)
    exact List.mem_filter.mpr ⟨Map.mem_toList.mpr he, decide_eq_true hwaits⟩
  · refine .inr (pending_iff.mpr ⟨l, n, g, d, ?_⟩)
    simp only [onPeerDown]
    rw [Std.ExtTreeMap.getElem?_filter', he]
    show (if (!decide (id ∈ n ∧ id ∉ g)) = true then _ else none) = _
    rw [decide_eq_false hwaits]
    rfl

end LockTable

/-! ## What tasks and events are for -/

/-- The path of an operation of which the task is a stage. -/
def Task.worksOn : Task Id Path → Option Path
  | .inspect rel _ _ | .publish rel _ | .violation rel _ _ | .autolock rel _ | .revert rel _ _
  | .restore rel _ _ | .conflictApply rel _ _ => some rel
  | .pull _ _ _ | .pullTimer _ | .acquireTimer _ _ => none

/-- The path of an operation whose stage has ended with the event. -/
def Event.worksOn : Event Id Path → Option Path
  | .inspected rel _ _ | .publishDone rel _ _ | .violationStaged rel _ _ _
  | .autolockReady rel _ _ | .restoreStaged rel _ _ _ | .conflictApplied rel _ _ => some rel
  | _ => none

/-- The path that the task inspects or publishes for the sake of an unlock. -/
def Task.unlocks : Task Id Path → Option Path
  | .inspect rel _ (.unlock _) | .publish rel (.unlock _) => some rel
  | _ => none

def Event.unlocks : Event Id Path → Option Path
  | .inspected rel _ (.unlock _) | .publishDone rel _ (.unlock _) => some rel
  | _ => none

/-- What is assumed of the steps of a run. -/
structure DeskTerms where
  /-- No voter goes while an autolock waits for it. -/
  rounds : Prop
  /-- No inspection for an unlock fails. -/
  unlocks : Prop

/-- The paths that a handler is about to deal with. -/
structure InHand (Path : Type) where
  /-- The stage of the operation is over. -/
  work : List Path
  /-- The round is over. -/
  lapsed : List Path
  /-- The inspection or the publish for the unlock is over. -/
  unlock : List Path

namespace Actor

/-- An operation on the path is under way: a task works on it, or has posted its event. -/
def Working (a : Actor Id Path) (rel : Path) : Prop :=
  (∃ t ∈ a.tasks, t.worksOn = some rel) ∨ ∃ ev ∈ a.inbox, ev.worksOn = some rel

/-- An inspection or a publish for the sake of an unlock is under way. -/
def Unlocking (a : Actor Id Path) (rel : Path) : Prop :=
  (∃ t ∈ a.tasks, t.unlocks = some rel) ∨ ∃ ev ∈ a.inbox, ev.unlocks = some rel

/-- **No mark is left behind.** -/
structure Desk (t : DeskTerms) (o : InHand Path) (a : Actor Id Path) : Prop where
  busy : ∀ p : Path, a.busy.contains p = true →
    p ∈ o.work ∨ a.Working p ∨ a.autolockPending.contains p = true
  autolocks : t.rounds → ∀ p : Path, a.autolockPending.contains p = true →
    a.pendingAcquires.contains p = true
  acquires : t.rounds → ∀ p : Path, a.pendingAcquires.contains p = true →
    p ∈ o.lapsed ∨ Pending a.locks.states[p]?
  unlocks : t.unlocks → ∀ p : Path, a.pendingUnlocks.contains p = true →
    p ∈ o.unlock ∨ a.Unlocking p

/-! ### What happens aside -/

theorem Aside.working {a b : Actor Id Path} (h : Aside a b) {p : Path} (hp : a.Working p) :
    b.Working p := by
  rcases hp with ⟨t, ht, hw⟩ | ⟨ev, hev, hw⟩
  · exact .inl ⟨t, h.tasks t ht, hw⟩
  · exact .inr ⟨ev, by rw [h.inbox]; exact hev, hw⟩

theorem Aside.unlocking {a b : Actor Id Path} (h : Aside a b) {p : Path} (hp : a.Unlocking p) :
    b.Unlocking p := by
  rcases hp with ⟨t, ht, hw⟩ | ⟨ev, hev, hw⟩
  · exact .inl ⟨t, h.tasks t ht, hw⟩
  · exact .inr ⟨ev, by rw [h.inbox]; exact hev, hw⟩

namespace Desk

variable {t : DeskTerms} {o : InHand Path} {w l u : List Path} {a b : Actor Id Path} {rel : Path}

theorem aside (hd : Desk t o a) (h : Aside a b) : Desk t o b := by
  refine ⟨fun p hp => ?_, fun hr p hp => ?_, fun hr p hp => ?_, fun hu p hp => ?_⟩
  · rw [h.busy] at hp
    rw [h.autolocks]
    exact (hd.busy p hp).imp_right (Or.imp_left h.working)
  · rw [h.autolocks] at hp
    rw [h.acquires]
    exact hd.autolocks hr p hp
  · rw [h.acquires] at hp
    rw [h.locks]
    exact hd.acquires hr p hp
  · rw [h.unlocks] at hp
    exact (hd.unlocks hu p hp).imp_right h.unlocking

/-- What is in hand may be more than there is to deal with. -/
theorem hold (hd : Desk t ⟨w, l, u⟩ a) : Desk t ⟨rel :: w, l, u⟩ a :=
  ⟨fun p hp => (hd.busy p hp).imp_left (List.mem_cons_of_mem _), hd.autolocks, hd.acquires,
    hd.unlocks⟩

/-- A path that is marked is in hand until a task has it. -/
theorem mark (hd : Desk t ⟨w, l, u⟩ a) (rel : Path) :
    Desk t ⟨rel :: w, l, u⟩ { a with busy := a.busy.insert rel () } := by
  refine ⟨fun p hp => ?_, hd.autolocks, hd.acquires, hd.unlocks⟩
  rcases Map.contains_insert_iff.mp hp with rfl | hp
  · exact .inl List.mem_cons_self
  · exact hd.hold.busy p hp

theorem lapse (hd : Desk t ⟨w, l, u⟩ a) : Desk t ⟨w, rel :: l, u⟩ a :=
  ⟨hd.busy, hd.autolocks,
    fun hr p hp => (hd.acquires hr p hp).imp_left (List.mem_cons_of_mem _), hd.unlocks⟩

theorem locks (hd : Desk t o a) {locks : LockTable Id Path}
    (hk : LockTable.KeepsRounds a.locks locks) : Desk t o { a with locks } :=
  ⟨hd.busy, hd.autolocks, fun hr p hp => (hd.acquires hr p hp).imp_right (hk p), hd.unlocks⟩

/-- An operation goes into its next stage. -/
theorem place (hd : Desk t ⟨rel :: w, l, u⟩ a) {task : Task Id Path} {busy : Map Path Unit}
    (hw : task.worksOn = some rel)
    (hb : ∀ p : Path, busy.contains p = true → p = rel ∨ a.busy.contains p = true) :
    Desk t ⟨w, l, u⟩ (({ a with busy } : Actor Id Path).spawn task) := by
  have hold : ∀ t ∈ a.tasks, t ∈ a.tasks ++ [task] := fun t ht => List.mem_append_left _ ht
  have hnew : task ∈ a.tasks ++ [task] := List.mem_append_right _ (List.mem_singleton_self _)
  refine ⟨fun p hp => ?_, hd.autolocks, hd.acquires, fun hu p hp => ?_⟩
  · by_cases heq : p = rel
    · subst heq
      exact .inr (.inl (.inl ⟨task, hnew, hw⟩))
    · rcases hd.busy p ((hb p hp).resolve_left heq) with hin | (⟨t, ht, htw⟩ | hin) | hauto
      · exact .inl ((List.mem_cons.mp hin).resolve_left heq)
      · exact .inr (.inl (.inl ⟨t, hold t ht, htw⟩))
      · exact .inr (.inl (.inr hin))
      · exact .inr (.inr hauto)
  · rcases hd.unlocks hu p hp with hin | ⟨t, ht, htu⟩ | hin
    · exact .inl hin
    · exact .inr (.inl ⟨t, hold t ht, htu⟩)
    · exact .inr (.inr hin)

/-- The stage is one of an unlock. -/
theorem placeUnlock (hd : Desk t ⟨w, l, rel :: u⟩ a) {task : Task Id Path}
    (hmem : task ∈ a.tasks) (hu : task.unlocks = some rel) : Desk t ⟨w, l, u⟩ a := by
  refine ⟨hd.busy, hd.autolocks, hd.acquires, fun ht p hp => ?_⟩
  rcases hd.unlocks ht p hp with hin | hin
  · rcases List.mem_cons.mp hin with rfl | hin
    · exact .inr (.inl ⟨task, hmem, hu⟩)
    · exact .inl hin
  · exact .inr hin

end Desk

end Actor

end Tazamun
