import Tazamun.Daemon.Ipc

set_option autoImplicit false

/-! # Peers and their messages

A control connection, from the index exchange at its start to its end, and the handler of
every control message (`on_ctl`, `daemon.rs`). Each side sends its whole index when a
connection comes up, in one frame or split into parts (`split_index_parts`, `proto.rs`); the
other side stages the parts and reconciles once the last one is there.
-/

namespace Tazamun

variable {Id Path : Type} [LinearOrder Id] [LinearOrder Path]

/-! ## Building an index -/

section Parts

variable (h : Host Id Path)

/-- Greedy batches of entries. `cur` is the open batch and `bytes` its size so far; an entry
that fits no frame is left out. -/
def batches : List (Path × FileRecord Id) → List (Path × FileRecord Id) → Nat →
    List (List (Path × FileRecord Id))
  | [], cur, _ => if cur.isEmpty then [] else [cur]
  | e :: es, cur, bytes =>
      let len := h.entryLen e + 2
      if !cur.isEmpty && decide (indexPartBudget < bytes + len) then
        if maxFrame < 256 + len then cur :: batches es [] 256
        else cur :: batches es [e] (256 + len)
      else if cur.isEmpty && decide (maxFrame < 256 + len) then batches es cur bytes
      else batches es (cur ++ [e]) (bytes + len)

/-- `leases_only_part`: leases are dropped from the end until the frame fits. Every round
drops at least one, so `fuel` is their number. -/
def leasesOnlyPart (seq : Nat) (lamport : U64) : Nat → List (LeaseInfo Id Path) → Msg Id Path
  | 0, leases => .indexPart seq true lamport [] leases
  | fuel + 1, leases =>
      let part : Msg Id Path := .indexPart seq true lamport [] leases
      if leases.isEmpty || decide (h.encodedLen part ≤ maxFrame) then part
      else leasesOnlyPart seq lamport fuel (leases.take (leases.length - max (leases.length / 10) 1))

/-- The index in frames. The leases go with the last one, or after it if it gets too big. -/
def splitIndexParts (lamport : U64) (files : Map Path (FileRecord Id))
    (leases : List (LeaseInfo Id Path)) : List (Msg Id Path) :=
  let whole : Msg Id Path := .index lamport files.toList leases
  if h.encodedLen whole ≤ maxFrame then [whole]
  else
    let bs := batches h files.toList [] 256
    let parts : List (Msg Id Path) :=
      bs.dropLast.mapIdx fun i b => .indexPart i false lamport b []
    match bs.getLast? with
    | none => [leasesOnlyPart h 0 lamport leases.length leases]
    | some batch =>
        let withLeases : Msg Id Path := .indexPart parts.length true lamport batch leases
        if h.encodedLen withLeases ≤ maxFrame then parts ++ [withLeases]
        else
          parts ++ [.indexPart parts.length false lamport batch [],
            leasesOnlyPart h (parts.length + 1) lamport leases.length leases]

end Parts

namespace Actor

variable (h : Host Id Path) (env : Env Path)

def buildIndexParts (a : Actor Id Path) : List (Msg Id Path) :=
  let leases := (a.locks.heldLeases env.now).map fun (path, holder, lamport, left, _) =>
    { path, holder, lamport, expiresInMs := Fin.ofNat _ left }
  splitIndexParts h a.lamport a.files leases

/-! ## Connections -/

/-- The connection is taken: the index goes out on it, then our grant. -/
def join (a : Actor Id Path) (id : Id) (peer : Peer) : Actor Id Path :=
  let identity : List (Msg Id Path) :=
    match a.myGrant with
    | some grant => [.identity grant]
    | none => []
  { a with
    sent := a.sent ++ (a.buildIndexParts h env ++ identity).map fun msg => (id, msg)
    peers := a.peers.insert id peer
    skipped := a.skipped.filter fun s => decide (s.1 ≠ id) }

/-- `on_authed`. Of two connections with one peer the one initiated by the lower id stays. -/
def onAuthed (a : Actor Id Path) (id : Id) (connId : Nat) (initiatedByMe : Bool) :
    Actor Id Path :=
  if id = a.me then a
  else if !a.peers.contains id && decide (maxPeers ≤ a.peers.size) then a
  else
    let initiator (byMe : Bool) : Id := if byMe then a.me else id
    match a.peers[id]? with
    | none => a.join h env id ⟨connId, initiatedByMe⟩
    | some existing =>
        if initiator initiatedByMe < initiator existing.initiatedByMe then
          a.join h env id ⟨connId, initiatedByMe⟩
        else a

/-- A round that waited for the vote of a peer that is gone. -/
def abortRound (a : Actor Id Path) (rel : Path) : Actor Id Path :=
  let a := a.broadcast (.lock (.lockRelease rel))
  match a.pendingAcquires[rel]? with
  | none => a
  | some (_, waiter) =>
      ({ a with pendingAcquires := a.pendingAcquires.erase rel } : Actor Id Path).replyTo waiter
        (.diagnosed "voter_lost" "REACHABILITY"
          "the peer whose grant was required went offline — retry once it reconnects")

/-- `on_peer_gone`. -/
def onPeerGone (a : Actor Id Path) (id : Id) (connId : Nat) : Actor Id Path :=
  if a.peers[id]?.map Peer.connId ≠ some connId then a
  else
    let a := { a with
      peers := a.peers.erase id
      peerIndex := a.peerIndex.erase id
      peerRoles := a.peerRoles.erase id
      indexReceived := a.indexReceived.erase id
      indexStaging := a.indexStaging.erase id }
    let (locks, aborted) := a.locks.onPeerDown id
    aborted.foldl abortRound { a with locks }

/-- A protocol violation: the connection is dropped. The peer is out of `peers` when
`on_peer_gone` is called, so nothing else of it is cleared. -/
def dropPeer (a : Actor Id Path) (id : Id) : Actor Id Path :=
  { a with peers := a.peers.erase id }

/-! ## Roles -/

def onPeerIdentity (a : Actor Id Path) (sender : Id) (grant : SignedGrant Nat) :
    Actor Id Path :=
  match a.adminPublicKey with
  | none => a
  | some adminPub =>
      if !grant.verify adminPub then { a with peerRoles := a.peerRoles.erase sender }
      else if grant.grant.isExpired env.nowMs then
        { a with peerRoles := a.peerRoles.erase sender }
      else { a with peerRoles := a.peerRoles.insert sender grant.grant.role }

def peerMayLock (a : Actor Id Path) (sender : Id) : Bool :=
  match a.adminPublicKey with
  | none => true
  | some _ =>
      match a.peerRoles[sender]? with
      | some role => roleCanEdit role
      | none => false

/-! ## Indexes and file metadata -/

/-- Adds received entries to a map, leaving out those with a bad path or an oversized
vector. -/
def ingest (a : Actor Id Path) (sender : Id) (map : Map Path (FileRecord Id))
    (files : List (Path × FileRecord Id)) : Actor Id Path × Map Path (FileRecord Id) :=
  files.foldl
    (fun (a, map) (path, record) =>
      if recordAcceptable record && h.sanitize path then
        (a.displace path (map[path]?.map fun r => (sender, r)) record, map.insert path record)
      else (a.letGo path sender record, map))
    (a, map)

def observeLeases (a : Actor Id Path) (leases : List (LeaseInfo Id Path)) : Actor Id Path :=
  let locks := leases.foldl
    (fun t l =>
      if h.sanitize l.path then
        t.observeLease l.path l.holder l.lamport l.expiresInMs env.now
      else t)
    a.locks
  { a with locks }

/-- Installs a complete index, observes its leases, and reconciles. -/
def commitPeerIndex (a : Actor Id Path) (sender : Id) (map : Map Path (FileRecord Id))
    (leases : List (LeaseInfo Id Path)) : Actor Id Path :=
  let a := { a with
    peerIndex := a.peerIndex.insert sender map
    indexReceived := a.indexReceived.insert sender () }
  let a := a.note (.indexed sender map.toList leases)
  (a.observeLeases h env leases).reconcile h env sender

/-- The entries of a partial index make room for those of `map`. -/
def supersede (a : Actor Id Path) (sender : Id) (map : Map Path (FileRecord Id))
    (staged : List (Path × FileRecord Id)) : Actor Id Path :=
  staged.foldl
    (fun a (path, record) =>
      match map[path]? with
      | some new => a.displace path (some (sender, record)) new
      | none => a.letGo path sender record)
    a

/-- The `Index` arm of `on_ctl`; a partial index is superseded. -/
def onIndex (a : Actor Id Path) (sender : Id) (lamport : U64)
    (files : List (Path × FileRecord Id)) (leases : List (LeaseInfo Id Path)) :
    Actor Id Path :=
  let staged := (a.indexStaging[sender]?.getD (0, ∅)).2
  let a := { a with
    lamport := max a.lamport lamport
    indexStaging := a.indexStaging.erase sender }
  let (a, map) := a.ingest h sender ∅ files
  (a.supersede sender map staged.toList).commitPeerIndex h env sender map leases

/-- The `IndexPart` arm: parts must come in order, and not too many of them. The staged map
is taken out and put back. -/
def onIndexPart (a : Actor Id Path) (sender : Id) (seq : Nat) (last : Bool) (lamport : U64)
    (files : List (Path × FileRecord Id)) (leases : List (LeaseInfo Id Path)) :
    Actor Id Path :=
  let stage := a.indexStaging[sender]?.getD (0, ∅)
  let a := { a with
    lamport := max a.lamport lamport
    indexStaging := a.indexStaging.erase sender }
  if seq ≠ stage.1 ∨ maxIndexParts ≤ seq ∨ maxIndexEntries < stage.2.size + files.length then
    a.dropPeer sender
  else
    let (a, map) := a.ingest h sender stage.2 files
    if last then a.commitPeerIndex h env sender map leases
    else { a with indexStaging := a.indexStaging.insert sender (stage.1 + 1, map) }

/-- The `FileMeta` arm. -/
def onFileMeta (a : Actor Id Path) (sender : Id) (rel : Path) (record : FileRecord Id)
    (lamport : U64) : Actor Id Path :=
  let a := { a with lamport := max a.lamport lamport }
  if h.sanitize rel && recordAcceptable record then
    let a := { a with peerIndex :=
      a.peerIndex.insert sender ((a.peerIndex[sender]?.getD ∅).insert rel record) }
    a.reconcileOne h env sender rel record
  else a.letGo rel sender record

/-! ## Lock messages -/

/-- The answer to the request of our own that lost to a concurrent one. -/
def tieLost (a : Actor Id Path) (rel : Path) : Actor Id Path :=
  let pending := a.pendingAcquires[rel]?
  let a := { a with pendingAcquires := a.pendingAcquires.erase rel }
  match a.autolockPending[rel]? with
  | some (quarantined, newFile) => a.autolockFail h env rel quarantined newFile
  | none =>
      match pending with
      | some (_, waiter) =>
          a.replyTo waiter (.err "tie_lost" "a concurrent request won the tie-break")
      | none => a

/-- The `LockReq` arm. -/
def onLockReq (a : Actor Id Path) (sender : Id) (rel : Path) (lamport ttlMs : U64) :
    Actor Id Path :=
  let a := { a with lamport := max a.lamport lamport }
  if !h.sanitize rel then a
  else if !a.peerMayLock sender then a.send sender (.lock (.lockDeny rel .roleForbidden))
  else
    match a.locks.onRemoteRequest rel sender lamport ttlMs env.now with
    | (locks, .grant) =>
        let a := ({ a with locks } : Actor Id Path).note (.granted rel sender a.files[rel]?)
        a.send sender (.lock (.lockGrant rel))
    | (locks, .grantAndAbortMine) =>
        let a := ({ a with locks } : Actor Id Path).note (.granted rel sender a.files[rel]?)
        let a := (a.tieLost h env rel).broadcast (.lock (.lockRelease rel))
        a.send sender (.lock (.lockGrant rel))
    | (locks, .deny reason) =>
        ({ a with locks } : Actor Id Path).send sender (.lock (.lockDeny rel reason))

/-- The voters of our pending request for `rel`. -/
def voters (a : Actor Id Path) (rel : Path) : Finset Id :=
  match a.locks.states[rel]? with
  | some (.pendingLocal _ needed _ _) => needed
  | _ => ∅

/-- The lease is ours: the file becomes writable, and whoever waits for it is served. -/
def leaseAcquired (a : Actor Id Path) (rel : Path) : Actor Id Path :=
  let a := (a.setMode env rel false).1.openFor rel
  let a := { a with myWaits := a.myWaits.erase rel, interest := a.interest.erase rel }
  let a := a.autolockSucceed env rel
  match a.pendingAcquires[rel]? with
  | none => a
  | some (_, waiter) =>
      ({ a with pendingAcquires := a.pendingAcquires.erase rel } : Actor Id Path).replyTo waiter
        .ok

/-- The `LockGrant` arm. -/
def onLockGrant (a : Actor Id Path) (sender : Id) (rel : Path) : Actor Id Path :=
  if !h.sanitize rel then a
  else
    match a.locks.onGrant rel sender env.now with
    | (locks, false) => { a with locks }
    | (locks, true) =>
        let a := a.note (.acquired rel (a.voters rel) a.files[rel]?)
        ({ a with locks } : Actor Id Path).leaseAcquired env rel

/-- What a waiter is told after a deny. -/
def denied : DenyReason Id → IpcResponse
  | .held _ => .diagnosed "lease_held" "LEASE"
      "another peer already holds this lease; wait for it to unlock"
  | .tieLost => .diagnosed "tie_lost" "LEASE"
      "another node requested the same path first; retry in a moment"
  | .unavailable => .diagnosed "unavailable" "LEASE"
      "the responding peer is tracking too many leases; retry later"
  | .roleForbidden => .diagnosed "role_forbidden" "LEASE"
      "this node joined as viewer/archive; it can sync and read but not lock. Re-join with an editor invite to gain edit rights."

/-- The `LockDeny` arm. -/
def onLockDeny (a : Actor Id Path) (rel : Path) (reason : DenyReason Id) : Actor Id Path :=
  if !h.sanitize rel then a
  else
    match a.locks.onDeny rel with
    | (locks, false) => { a with locks }
    | (locks, true) =>
        let a := ({ a with locks } : Actor Id Path).broadcast (.lock (.lockRelease rel))
        let pending := a.pendingAcquires[rel]?
        let a := { a with pendingAcquires := a.pendingAcquires.erase rel }
        match a.autolockPending[rel]? with
        | some (quarantined, newFile) => a.autolockFail h env rel quarantined newFile
        | none =>
            match pending with
            | some (_, waiter) => a.replyTo waiter (denied reason)
            | none => a

def onLockMsg (a : Actor Id Path) (sender : Id) : LockMsg Id Path → Actor Id Path
  | .lockReq rel lamport ttlMs => a.onLockReq h env sender rel lamport ttlMs
  | .lockGrant rel => a.onLockGrant h env sender rel
  | .lockDeny rel reason => a.onLockDeny h env rel reason
  | .lockRelease rel =>
      if h.sanitize rel then { a with locks := a.locks.onRelease rel sender } else a
  | .lockRenew rel lamport ttlMs =>
      let a := { a with lamport := max a.lamport lamport }
      if h.sanitize rel then { a with locks := a.locks.onRenew rel sender ttlMs env.now } else a

/-- The `LockInterest` arm; the number of waitlisted paths is bounded. -/
def onLockInterest (a : Actor Id Path) (sender : Id) (rel : Path) : Actor Id Path :=
  if !h.sanitize rel then a
  else if !a.interest.contains rel && decide (maxWaitlistEntries ≤ a.interest.size) then a
  else { a with interest := a.interest.insert rel ((a.interest[rel]?.getD ∅).insert sender ()) }

/-- `on_ctl`. -/
def onCtl (a : Actor Id Path) (sender : Id) (msg : Msg Id Path) : Actor Id Path :=
  match a.peers[sender]? with
  | none => a
  | some peer =>
      match msg with
      | .handshake => a.dropPeer sender
      | .index lamport files leases => a.onIndex h env sender lamport files leases
      | .indexPart seq last lamport files leases =>
          a.onIndexPart h env sender seq last lamport files leases
      | .fileMeta rel record lamport => a.onFileMeta h env sender rel record lamport
      | .lock msg => a.onLockMsg h env sender msg
      | .bye => a.onPeerGone sender peer.connId
      | .lockInterest rel => a.onLockInterest h sender rel
      | .lockFreed rel =>
          if h.sanitize rel then { a with interest := a.interest.erase rel } else a
      | .identity grant => a.onPeerIdentity env sender grant

end Actor

end Tazamun
