import Tazamun.Basic.Types

set_option autoImplicit false

/-! # The lease table

`LockTable` (`locks.rs`), the state machine behind exclusive checkout: one entry per path,
either a local request waiting for the votes of its peers or a lease some node holds; a path
without an entry is free. Every operation takes the current time as an argument and the
table has no other input, so the operations are plain functions. An operation that also
reports something returns the new table together with the report.

Ties between requests are broken by the order on `(lamport, id)`, smallest first. Endpoint
ids are only compared, so `Id` is any linear order, and `Path` likewise.
-/

namespace Tazamun

/-- `LockTimings`: durations in milliseconds. -/
structure LockTimings where
  ttl : Nat
  renew : Nat
  acquireTimeout : Nat
deriving DecidableEq

/-- Why a lock request was denied (`DenyReason`, `proto.rs`). -/
inductive DenyReason (Id : Type) where
  | held (holder : Id)
  | tieLost
  | unavailable
  | roleForbidden
deriving DecidableEq

/-- State of one path. -/
inductive LockState (Id : Type) where
  | pendingLocal (lamport : U64) (needed granted : Finset Id) (deadline : Nat)
  | held (holder : Id) (lamport : U64) (expires since : Nat)
deriving DecidableEq

/-- Decision on an incoming lock request. -/
inductive Decision (Id : Type) where
  | grant
  | grantAndAbortMine
  | deny (reason : DenyReason Id)
deriving DecidableEq

inductive StartError (Id : Type) where
  | alreadyHeld (holder : Id)
  | alreadyPending
deriving DecidableEq

/-- Outcome of a sweep: expired leases with their holders, and timed-out requests. -/
structure Swept (Id Path : Type) where
  expired : List (Path × Id)
  timedOut : List Path

variable {Id Path : Type} [LinearOrder Id] [LinearOrder Path]

structure LockTable (Id Path : Type) [LinearOrder Id] [LinearOrder Path] where
  me : Id
  timings : LockTimings
  states : Map Path (LockState Id)
  maxLeases : Nat

namespace LockTable

def new (me : Id) (timings : LockTimings) : LockTable Id Path :=
  ⟨me, timings, ∅, maxTrackedLeases⟩

def setTimings (t : LockTable Id Path) (timings : LockTimings) : LockTable Id Path :=
  { t with timings }

/-- Replace the entry of `path`. -/
def put (t : LockTable Id Path) (path : Path) (s : LockState Id) : LockTable Id Path :=
  { t with states := t.states.insert path s }

/-- Drop the entry of `path`. -/
def drop (t : LockTable Id Path) (path : Path) : LockTable Id Path :=
  { t with states := t.states.erase path }

def atCapacityForNew (t : LockTable Id Path) (path : Path) : Bool :=
  !t.states.contains path && decide (t.maxLeases ≤ t.states.size)

/-- A wire TTL, clamped to the absolute band. -/
def ttlFromMs (ttlMs : U64) : Nat := max minLeaseTtl (min ttlMs.val maxLeaseTtl)

/-- Drops an expired lease before `path` is inspected. -/
def pruneExpired (t : LockTable Id Path) (path : Path) (now : Nat) : LockTable Id Path :=
  match t.states[path]? with
  | some (.held _ _ expires _) => if expires ≤ now then t.drop path else t
  | _ => t

/-- Begins a local acquire that waits for one grant from every voter. -/
def startRequest (t : LockTable Id Path) (path : Path) (lamport : U64) (voters : Finset Id)
    (now : Nat) : LockTable Id Path × Except (StartError Id) Unit :=
  let t := t.pruneExpired path now
  match t.states[path]? with
  | some (.held holder _ _ _) => (t, .error (.alreadyHeld holder))
  | some (.pendingLocal _ _ _ _) => (t, .error .alreadyPending)
  | none =>
      (t.put path (.pendingLocal lamport voters ∅ (now + t.timings.acquireTimeout)), .ok ())

/-- Records a grant from `sender`; `true` when it was the last one missing, and the path is
then held by us. -/
def onGrant (t : LockTable Id Path) (path : Path) (sender : Id) (now : Nat) :
    LockTable Id Path × Bool :=
  match t.states[path]? with
  | some (.pendingLocal lamport needed granted deadline) =>
      if sender ∈ needed then
        let granted := insert sender granted
        if needed ⊆ granted then
          (t.put path (.held t.me lamport (now + t.timings.ttl) now), true)
        else
          (t.put path (.pendingLocal lamport needed granted deadline), false)
      else (t, false)
  | _ => (t, false)

/-- Aborts our pending request after a deny; `true` if there was one. -/
def onDeny (t : LockTable Id Path) (path : Path) : LockTable Id Path × Bool :=
  match t.states[path]? with
  | some (.pendingLocal _ _ _ _) => (t.drop path, true)
  | _ => (t, false)

/-- Handles a remote lock request. -/
def onRemoteRequest (t : LockTable Id Path) (path : Path) (holder : Id) (lamport : U64)
    (ttlMs : U64) (now : Nat) : LockTable Id Path × Decision Id :=
  let t := t.pruneExpired path now
  let ttl := ttlFromMs ttlMs
  if t.atCapacityForNew path then (t, .deny .unavailable)
  else
    match t.states[path]? with
    | some (.held h heldLamport _ since) =>
        if h = holder then
          (t.put path (.held holder (max heldLamport lamport) (now + ttl) since), .grant)
        else (t, .deny (.held h))
    | some (.pendingLocal myLamport _ _ _) =>
        if toLex (lamport, holder) < toLex (myLamport, t.me) then
          (t.put path (.held holder lamport (now + ttl) now), .grantAndAbortMine)
        else (t, .deny .tieLost)
    | none => (t.put path (.held holder lamport (now + ttl) now), .grant)

/-- Handles a release by `sender`. -/
def onRelease (t : LockTable Id Path) (path : Path) (sender : Id) : LockTable Id Path :=
  match t.states[path]? with
  | some (.held holder _ _ _) => if holder = sender then t.drop path else t
  | _ => t

/-- Handles a renewal by `sender`. -/
def onRenew (t : LockTable Id Path) (path : Path) (sender : Id) (ttlMs : U64) (now : Nat) :
    LockTable Id Path :=
  match t.states[path]? with
  | some (.held holder lamport _ since) =>
      if holder = sender then t.put path (.held holder lamport (now + ttlFromMs ttlMs) since)
      else t
  | _ => t

/-- Refreshes our own lease. -/
def renewOwn (t : LockTable Id Path) (path : Path) (now : Nat) : LockTable Id Path :=
  match t.states[path]? with
  | some (.held holder lamport _ since) =>
      if holder = t.me then t.put path (.held holder lamport (now + t.timings.ttl) since)
      else t
  | _ => t

/-- Ingests a lease advertised in an index. Between held claims the lower `(lamport, id)`
wins; a pending local request is left to its votes. -/
def observeLease (t : LockTable Id Path) (path : Path) (holder : Id) (lamport : U64)
    (expiresInMs : U64) (now : Nat) : LockTable Id Path :=
  let t := t.pruneExpired path now
  if t.atCapacityForNew path then t
  else
    let expires := now + ttlFromMs expiresInMs
    match t.states[path]? with
    | none => t.put path (.held holder lamport expires now)
    | some (.held h l _ since) =>
        if h = holder ∨ toLex (lamport, holder) < toLex (l, h) then
          t.put path (.held holder lamport expires (if h = holder then since else now))
        else t
    | some (.pendingLocal _ _ _ _) => t

/-- A voter vanished: the requests that still wait for its grant are aborted. -/
def onPeerDown (t : LockTable Id Path) (id : Id) : LockTable Id Path × List Path :=
  let waits : LockState Id → Bool
    | .pendingLocal _ needed granted _ => decide (id ∈ needed ∧ id ∉ granted)
    | .held _ _ _ _ => false
  ({ t with states := t.states.filter fun _ s => !waits s },
    (t.states.toList.filter fun e => waits e.2).map Prod.fst)

/-- Whether the entry is due to be swept at `now`. -/
def LockState.due (now : Nat) : LockState Id → Bool
  | .held _ _ expires _ => decide (expires ≤ now)
  | .pendingLocal _ _ _ deadline => decide (deadline ≤ now)

/-- Expires stale leases and timed-out requests. -/
def sweep (t : LockTable Id Path) (now : Nat) : LockTable Id Path × Swept Id Path :=
  let swept := t.states.toList.filter fun e => LockState.due now e.2
  ({ t with states := t.states.filter fun _ s => !LockState.due now s },
    { expired := swept.filterMap fun e =>
        match e.2 with
        | .held holder _ _ _ => some (e.1, holder)
        | .pendingLocal _ _ _ _ => none
      timedOut := swept.filterMap fun e =>
        match e.2 with
        | .held _ _ _ _ => none
        | .pendingLocal _ _ _ _ => some e.1 })

def isHeldByMe (t : LockTable Id Path) (path : Path) : Bool :=
  match t.states[path]? with
  | some (.held holder _ _ _) => decide (holder = t.me)
  | _ => false

def holder (t : LockTable Id Path) (path : Path) : Option Id :=
  match t.states[path]? with
  | some (.held holder _ _ _) => some holder
  | _ => none

/-- The paths we hold, in order. -/
def selfHeldPaths (t : LockTable Id Path) : List Path :=
  (t.states.toList.filter fun e =>
    match e.2 with
    | .held holder _ _ _ => decide (holder = t.me)
    | .pendingLocal _ _ _ _ => false).map Prod.fst

/-- All held leases as `(path, holder, lamport, time left, age)`. -/
def heldLeases (t : LockTable Id Path) (now : Nat) : List (Path × Id × U64 × Nat × Nat) :=
  t.states.toList.filterMap fun e =>
    match e.2 with
    | .held holder lamport expires since =>
        some (e.1, holder, lamport, expires - now, now - since)
    | .pendingLocal _ _ _ _ => none

/-! ## What an operation does to the entries

An operation on `path` changes the entry of `path` and nothing else (`OnlyAt`). On its own
path, an operation that inspects the entry first drops a lease that has expired (`liveAt`). -/

@[simp] theorem put_get_self (t : LockTable Id Path) (path : Path) (s : LockState Id) :
    (t.put path s).states[path]? = some s :=
  Map.get_insert_self _ _ _

@[simp] theorem drop_get_self (t : LockTable Id Path) (path : Path) :
    (t.drop path).states[path]? = none :=
  Map.get_erase_self _ _

/-- `t'` is `t` up to the entry of `path`. -/
structure OnlyAt (path : Path) (t t' : LockTable Id Path) : Prop where
  me : t'.me = t.me
  timings : t'.timings = t.timings
  maxLeases : t'.maxLeases = t.maxLeases
  get : ∀ q, path ≠ q → t'.states[q]? = t.states[q]?

namespace OnlyAt

variable {path : Path} {t t' t'' : LockTable Id Path}

theorem refl : OnlyAt path t t := ⟨rfl, rfl, rfl, fun _ _ => rfl⟩

theorem trans (h : OnlyAt path t t') (h' : OnlyAt path t' t'') : OnlyAt path t t'' :=
  ⟨h'.me.trans h.me, h'.timings.trans h.timings, h'.maxLeases.trans h.maxLeases,
    fun q hq => (h'.get q hq).trans (h.get q hq)⟩

theorem put (s : LockState Id) : OnlyAt path t (t.put path s) :=
  ⟨rfl, rfl, rfl, fun _ hq => Map.get_insert_ne _ _ hq⟩

theorem drop : OnlyAt path t (t.drop path) :=
  ⟨rfl, rfl, rfl, fun _ hq => Map.get_erase_ne _ hq⟩

end OnlyAt

/-- The entry that is left once an expired lease is dropped. -/
def liveAt (now : Nat) : Option (LockState Id) → Option (LockState Id)
  | some (.held h l expires since) =>
      if expires ≤ now then none else some (.held h l expires since)
  | e => e

theorem pruneExpired_get_self (t : LockTable Id Path) (path : Path) (now : Nat) :
    (t.pruneExpired path now).states[path]? = liveAt now t.states[path]? := by
  unfold pruneExpired
  split
  · rename_i h
    rw [h, liveAt]
    split
    · exact drop_get_self _ _
    · exact h
  · rename_i h
    unfold liveAt
    split
    · rename_i h'
      exact absurd h' (h _ _ _ _)
    · rfl

theorem pruneExpired_onlyAt (t : LockTable Id Path) (path : Path) (now : Nat) :
    OnlyAt path t (t.pruneExpired path now) := by
  unfold pruneExpired
  split
  · split
    · exact .drop
    · exact .refl
  · exact .refl

/-- The entry is no lease that has expired at `now`. -/
def Live (now : Nat) : Option (LockState Id) → Prop
  | some (.held _ _ expires _) => now < expires
  | _ => True

instance (now : Nat) (e : Option (LockState Id)) : Decidable (Live now e) :=
  match e with
  | some (.held _ _ expires _) => inferInstanceAs (Decidable (now < expires))
  | some (.pendingLocal _ _ _ _) => isTrue trivial
  | none => isTrue trivial

theorem pruneExpired_of_live {t : LockTable Id Path} {path : Path} {now : Nat}
    (h : Live now t.states[path]?) : t.pruneExpired path now = t := by
  unfold pruneExpired
  split
  · rename_i he
    rw [he] at h
    rw [if_neg (Nat.not_le.mpr h)]
  · rfl

theorem startRequest_onlyAt (t : LockTable Id Path) (path : Path) (lamport : U64)
    (voters : Finset Id) (now : Nat) :
    OnlyAt path t (t.startRequest path lamport voters now).1 := by
  have hp := pruneExpired_onlyAt t path now
  unfold startRequest
  dsimp only
  split
  · exact hp
  · exact hp
  · exact hp.trans (.put _)

theorem onGrant_onlyAt (t : LockTable Id Path) (path : Path) (sender : Id) (now : Nat) :
    OnlyAt path t (t.onGrant path sender now).1 := by
  unfold onGrant
  split
  · split
    · dsimp only
      split
      · exact .put _
      · exact .put _
    · exact .refl
  · exact .refl

theorem onDeny_onlyAt (t : LockTable Id Path) (path : Path) :
    OnlyAt path t (t.onDeny path).1 := by
  unfold onDeny
  split
  · exact .drop
  · exact .refl

theorem onRemoteRequest_onlyAt (t : LockTable Id Path) (path : Path) (holder : Id)
    (lamport ttlMs : U64) (now : Nat) :
    OnlyAt path t (t.onRemoteRequest path holder lamport ttlMs now).1 := by
  have hp := pruneExpired_onlyAt t path now
  unfold onRemoteRequest
  dsimp only
  split
  · exact hp
  · split
    · split
      · exact hp.trans (.put _)
      · exact hp
    · split
      · exact hp.trans (.put _)
      · exact hp
    · exact hp.trans (.put _)

theorem onRelease_onlyAt (t : LockTable Id Path) (path : Path) (sender : Id) :
    OnlyAt path t (t.onRelease path sender) := by
  unfold onRelease
  split
  · split
    · exact .drop
    · exact .refl
  · exact .refl

theorem onRenew_onlyAt (t : LockTable Id Path) (path : Path) (sender : Id) (ttlMs : U64)
    (now : Nat) : OnlyAt path t (t.onRenew path sender ttlMs now) := by
  unfold onRenew
  split
  · split
    · exact .put _
    · exact .refl
  · exact .refl

theorem renewOwn_onlyAt (t : LockTable Id Path) (path : Path) (now : Nat) :
    OnlyAt path t (t.renewOwn path now) := by
  unfold renewOwn
  split
  · split
    · exact .put _
    · exact .refl
  · exact .refl

theorem observeLease_onlyAt (t : LockTable Id Path) (path : Path) (holder : Id)
    (lamport expiresInMs : U64) (now : Nat) :
    OnlyAt path t (t.observeLease path holder lamport expiresInMs now) := by
  have hp := pruneExpired_onlyAt t path now
  unfold observeLease
  dsimp only
  split
  · exact hp
  · split
    · exact hp.trans (.put _)
    · split
      · exact hp.trans (.put _)
      · exact hp
    · exact hp

end LockTable

end Tazamun
