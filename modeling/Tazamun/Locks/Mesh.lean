import Tazamun.Lib.Run
import Tazamun.Locks.Table

set_option autoImplicit false

/-! # The lease protocol over a full mesh

The lock plane of a session: every node runs `LockTable` behind the lock arms of `on_ctl`
(`daemon.rs`), and every ordered pair of nodes is joined by a reliable FIFO channel. A node
that wants a lease broadcasts a `LockReq` to all other nodes and holds the lease once each
of them has answered `LockGrant`; a `LockDeny` or a timeout aborts the request, and aborts
and unlocks broadcast `LockRelease`.

A `LockReq` carries the lamport clock of its round. The answers do not: `LockGrant { path }`
names the path only, so the requester cannot tell for which of its rounds a vote was cast.
-/

namespace Tazamun

/-- The lock messages of the control plane (`Msg`, `proto.rs`). -/
inductive LockMsg (Id Path : Type) where
  | lockReq (path : Path) (lamport ttlMs : U64)
  | lockGrant (path : Path)
  | lockDeny (path : Path) (reason : DenyReason Id)
  | lockRelease (path : Path)
  | lockRenew (path : Path) (lamport ttlMs : U64)
deriving DecidableEq

/-- What a handler sends: to every connected peer, or to one of them. -/
inductive Out (Id μ : Type) where
  | all (msg : μ)
  | one (dst : Id) (msg : μ)
deriving DecidableEq

variable {Id Path : Type} [LinearOrder Id] [LinearOrder Path]

/-- The lock plane of one daemon: its table, its lamport clock, and `pending_acquires`
(the lamport of the round a waiter is waiting for). -/
structure LockNode (Id Path : Type) [LinearOrder Id] [LinearOrder Path] where
  locks : LockTable Id Path
  lamport : U64
  acquires : Map Path U64

namespace LockNode

/-- A handler's result: the node and what it sends, in order. -/
abbrev Result (Id Path : Type) [LinearOrder Id] [LinearOrder Path] : Type :=
  LockNode Id Path × List (Out Id (LockMsg Id Path))

/-- The TTL as it is put on the wire. -/
def ttlMs (n : LockNode Id Path) : U64 := Fin.ofNat _ n.locks.timings.ttl

/-- `handle_lock`, after its role and freshness checks: refuse a path that is held or
already being acquired, else start a round. -/
def handleLock (n : LockNode Id Path) (voters : Finset Id) (rel : Path) (now : Nat) :
    Result Id Path :=
  if (n.locks.holder rel).isSome then (n, [])
  else if n.acquires.contains rel then (n, [])
  else
    let lamport := n.lamport + 1
    match n.locks.startRequest rel lamport voters now with
    | (locks, .error _) => ({ n with locks, lamport }, [])
    | (locks, .ok _) =>
        ({ locks, lamport, acquires := n.acquires.insert rel lamport },
          [.all (.lockReq rel lamport n.ttlMs)])

/-- `on_acquire_timeout`: only the round the waiter is still waiting for times out. -/
def onAcquireTimeout (n : LockNode Id Path) (rel : Path) (lamport : U64) : Result Id Path :=
  if n.acquires[rel]? = some lamport then
    ({ n with locks := (n.locks.onDeny rel).1, acquires := n.acquires.erase rel },
      [.all (.lockRelease rel)])
  else (n, [])

/-- `handle_unlock` followed by `finish_unlock`. -/
def unlock (n : LockNode Id Path) (rel : Path) : Result Id Path :=
  if n.locks.isHeldByMe rel then
    ({ n with locks := n.locks.onRelease rel n.locks.me }, [.all (.lockRelease rel)])
  else (n, [])

/-- `on_renew_tick`. -/
def onRenewTick (n : LockNode Id Path) (now : Nat) : Result Id Path :=
  n.locks.selfHeldPaths.foldl
    (fun r rel => ({ r.1 with locks := r.1.locks.renewOwn rel now },
      r.2 ++ [.all (.lockRenew rel n.lamport n.ttlMs)]))
    (n, [])

/-- The `LockReq` arm of `on_ctl`. `mayLock` is the verdict of `peer_may_lock` on the
sender. An aborted request of our own frees the votes it had collected before the winner is
answered. -/
def onLockReq (n : LockNode Id Path) (mayLock : Bool) (sender : Id) (rel : Path)
    (lamport ttlMs : U64) (now : Nat) : Result Id Path :=
  let n := { n with lamport := max n.lamport lamport }
  if !mayLock then (n, [.one sender (.lockDeny rel .roleForbidden)])
  else
    match n.locks.onRemoteRequest rel sender lamport ttlMs now with
    | (locks, .grant) => ({ n with locks }, [.one sender (.lockGrant rel)])
    | (locks, .grantAndAbortMine) =>
        ({ n with locks, acquires := n.acquires.erase rel },
          [.all (.lockRelease rel), .one sender (.lockGrant rel)])
    | (locks, .deny reason) => ({ n with locks }, [.one sender (.lockDeny rel reason)])

/-- The `LockGrant` arm of `on_ctl`. -/
def onLockGrant (n : LockNode Id Path) (sender : Id) (rel : Path) (now : Nat) :
    Result Id Path :=
  match n.locks.onGrant rel sender now with
  | (locks, true) => ({ n with locks, acquires := n.acquires.erase rel }, [])
  | (locks, false) => ({ n with locks }, [])

/-- The `LockDeny` arm of `on_ctl`. -/
def onLockDeny (n : LockNode Id Path) (rel : Path) : Result Id Path :=
  match n.locks.onDeny rel with
  | (locks, true) =>
      ({ n with locks, acquires := n.acquires.erase rel }, [.all (.lockRelease rel)])
  | (locks, false) => ({ n with locks }, [])

/-- The lock arms of `on_ctl`. -/
def onCtl (n : LockNode Id Path) (mayLock : Bool) (sender : Id) (now : Nat) :
    LockMsg Id Path → Result Id Path
  | .lockReq rel lamport ttlMs => n.onLockReq mayLock sender rel lamport ttlMs now
  | .lockGrant rel => n.onLockGrant sender rel now
  | .lockDeny rel _ => n.onLockDeny rel
  | .lockRelease rel => ({ n with locks := n.locks.onRelease rel sender }, [])
  | .lockRenew rel lamport ttlMs =>
      ({ n with lamport := max n.lamport lamport
                locks := n.locks.onRenew rel sender ttlMs now }, [])

end LockNode

/-- The mesh: the nodes, the channel of every ordered pair, oldest message first, and who
may be granted a lease by whom. -/
structure Mesh (Id Path : Type) [LinearOrder Id] [LinearOrder Path] where
  node : Id → LockNode Id Path
  chan : Id → Id → List (LockMsg Id Path)
  mayLock : Id → Id → Bool

/-- One step of the mesh. -/
inductive MeshAct (Id Path : Type) where
  | lock (i : Id) (rel : Path) (now : Nat)
  | timeout (i : Id) (rel : Path) (lamport : U64)
  | unlock (i : Id) (rel : Path)
  | renew (i : Id) (now : Nat)
  | deliver (src dst : Id) (now : Nat)

namespace Mesh

/-- All nodes fresh, all channels empty. -/
def init (timings : Id → LockTimings) (mayLock : Id → Id → Bool) : Mesh Id Path where
  node i := { locks := .new i (timings i), lamport := 0, acquires := ∅ }
  chan _ _ := []
  mayLock := mayLock

/-- The messages among `out` that go to `dst`. -/
def outTo {μ : Type} (dst : Id) (out : List (Out Id μ)) : List μ :=
  out.filterMap fun
    | .all msg => some msg
    | .one d msg => if d = dst then some msg else none

/-- Install the result of a handler of node `i`: its new state, and its messages at the end
of its outgoing channels. -/
def commit (m : Mesh Id Path) (i : Id) (r : LockNode.Result Id Path) : Mesh Id Path :=
  { m with
    node := Function.update m.node i r.1
    chan := fun a b => if a = i ∧ b ≠ i then m.chan a b ++ outTo b r.2 else m.chan a b }

/-- Take the oldest message off the channel from `src` to `dst`. -/
def pop (m : Mesh Id Path) (src dst : Id) : Mesh Id Path :=
  { m with chan := fun a b => if a = src ∧ b = dst then (m.chan a b).tail else m.chan a b }

variable [Fintype Id]

/-- The step function; `none` when there is no message to deliver. -/
def step (m : Mesh Id Path) : MeshAct Id Path → Option (Mesh Id Path)
  | .lock i rel now => some (m.commit i ((m.node i).handleLock (Finset.univ.erase i) rel now))
  | .timeout i rel lamport => some (m.commit i ((m.node i).onAcquireTimeout rel lamport))
  | .unlock i rel => some (m.commit i ((m.node i).unlock rel))
  | .renew i now => some (m.commit i ((m.node i).onRenewTick now))
  | .deliver src dst now =>
      match m.chan src dst with
      | [] => none
      | msg :: _ =>
          some ((m.pop src dst).commit dst
            ((m.node dst).onCtl (m.mayLock dst src) src now msg))

end Mesh

end Tazamun
