import Tazamun.Daemon.Run

set_option autoImplicit false

/-! # Who is being dialed

A daemon dials the members it knows when it starts, and again whenever a connection to one of
them is lost or a dial fails (`dial`, `schedule_redial`, `on_member` and the end of
`on_peer_gone`, `daemon.rs`). Four sets keep account: who is being dialed, for whom a redial is
set, how long to wait next, and who has had its one immediate redial. The dials and the sleeping
tasks come back as events, in any order and possibly more than one for a member.

`Dialer` has these sets, the dials and timers on their way, and the installed connections, which
are those of the daemon (`onAuthed_peers`, `onPeerGone_peers`, `dropPeer_peers`). `Inv` says how
the sets and the connections agree. It follows that a connection that is lost is answered by a
dial at once (**`lost_is_dialed`**): `on_authed` gives the immediate redial back, so the redial
with a wait, which is to follow it, is never taken there.
-/

namespace Tazamun

open Lib

/-- Where a node can be reached (`EndpointAddr`). -/
structure EndpointAddr (Id Sock : Type) where
  id : Id
  addrs : List Sock

/-- What the daemon keeps about its connections and dials. -/
structure Dialer (Id Sock : Type) [LinearOrder Id] where
  me : Id
  peers : Map Id Peer
  members : Map Id (EndpointAddr Id Sock)
  /-- The address book; an entry whose key is not a valid one has no address. -/
  knownMembers : Map Id (Option (EndpointAddr Id Sock))
  dialing : Finset Id
  redialScheduled : Finset Id
  backoff : Map Id Nat
  fastRedialUsed : Finset Id
  /-- The dials whose event is still to come. -/
  dials : List (Id × EndpointAddr Id Sock)
  /-- The sleeping tasks, with the time each sleeps in milliseconds. -/
  timers : List (Id × Nat)
  -- observers
  turnedAway : Finset Id
  /-- The waits for a member since it was last connected, without the jitter. -/
  waits : List (Id × Nat)

def redialBackoffMin : Nat := 1000
def redialBackoffMax : Nat := 60000

namespace Dialer

variable {Id Sock : Type} [LinearOrder Id]

/-! ## The handlers -/

def knownMemberAddr (d : Dialer Id Sock) (id : Id) : Option (EndpointAddr Id Sock) :=
  match d.members[id]? with
  | some addr => some addr
  | none => d.knownMembers[id]?.join

def dial (d : Dialer Id Sock) (id : Id) : Dialer Id Sock :=
  if id = d.me ∨ d.peers.contains id = true ∨ id ∈ d.dialing then d
  else
    match d.knownMemberAddr id with
    | none => d
    | some addr => { d with dialing := insert id d.dialing, dials := d.dials ++ [(id, addr)] }

/-- How long the next redial waits. -/
def nextWait (d : Dialer Id Sock) (id : Id) : Nat :=
  match d.backoff[id]? with
  | none => redialBackoffMin
  | some wait => min (wait * 2) redialBackoffMax

def scheduleRedial (d : Dialer Id Sock) (random : Nat) (id : Id) : Dialer Id Sock :=
  if d.peers.contains id = true ∨ id ∈ d.redialScheduled then d
  else
    { d with
      backoff := d.backoff.insert id (d.nextWait id)
      redialScheduled := insert id d.redialScheduled
      timers := d.timers ++ [(id, d.nextWait id + random % 250)]
      waits := d.waits ++ [(id, d.nextWait id)] }

def dialKnownMembers (d : Dialer Id Sock) : Dialer Id Sock :=
  ((d.knownMembers.toList.filterMap fun entry => entry.2.map EndpointAddr.id).filter
    fun id => id ≠ d.me).foldl dial d

/-- The rest of `on_authed`: the connection is taken. -/
def join (d : Dialer Id Sock) (id : Id) (peer : Peer) : Dialer Id Sock :=
  { d with
    peers := d.peers.insert id peer
    members := if d.members.contains id then d.members else d.members.insert id ⟨id, []⟩
    dialing := d.dialing.erase id
    backoff := d.backoff.erase id
    fastRedialUsed := d.fastRedialUsed.erase id
    turnedAway := d.turnedAway.erase id
    waits := d.waits.filter fun w => w.1 ≠ id }

def onAuthed (d : Dialer Id Sock) (id : Id) (connId : Nat) (initiatedByMe : Bool) :
    Dialer Id Sock :=
  if id = d.me then d
  else if !d.peers.contains id && decide (maxPeers ≤ d.peers.size) then
    { d with turnedAway := if initiatedByMe then insert id d.turnedAway else d.turnedAway }
  else
    let initiator (byMe : Bool) : Id := if byMe then d.me else id
    match d.peers[id]? with
    | none => d.join id ⟨connId, initiatedByMe⟩
    | some existing =>
        if initiator initiatedByMe < initiator existing.initiatedByMe then
          d.join id ⟨connId, initiatedByMe⟩
        else d

/-- What `on_peer_gone` does once the peer is out of the way. -/
def redial (d : Dialer Id Sock) (random : Nat) (id : Id) : Dialer Id Sock :=
  if d.members.contains id ∨ (d.knownMemberAddr id).isSome then
    if id ∈ d.fastRedialUsed then d.scheduleRedial random id
    else ({ d with fastRedialUsed := insert id d.fastRedialUsed } : Dialer Id Sock).dial id
  else d

def onPeerGone (d : Dialer Id Sock) (random : Nat) (id : Id) (connId : Nat) : Dialer Id Sock :=
  if d.peers[id]?.map Peer.connId ≠ some connId then d
  else ({ d with peers := d.peers.erase id } : Dialer Id Sock).redial random id

/-- A protocol violation: the peer is out of `peers` before `on_peer_gone` is called, which then
does nothing. -/
def dropPeer (d : Dialer Id Sock) (id : Id) : Dialer Id Sock :=
  { d with peers := d.peers.erase id, turnedAway := insert id d.turnedAway }

/-- A presence beacon. -/
def onSeen (d : Dialer Id Sock) (id : Id) (addr : EndpointAddr Id Sock) : Dialer Id Sock :=
  if id = d.me then d
  else
    let d := { d with
      knownMembers := d.knownMembers.insert id (some addr)
      members := d.members.insert id addr }
    if d.peers.contains id = true ∨ id ∈ d.dialing ∨ id ∈ d.redialScheduled then d else d.dial id

/-- The gossip overlay has a new neighbor. -/
def onNeighborUp (d : Dialer Id Sock) (id : Id) : Dialer Id Sock :=
  if id ≠ d.me ∧ d.peers.contains id = false ∧ id ∉ d.dialing then d.dial id else d

inductive Act (Id Sock : Type) where
  /-- The other side has dialed. -/
  | authed (id : Id) (connId : Nat)
  /-- Our dial came through, to the node of the address. -/
  | dialed (i : Nat) (connId : Nat)
  | dialFailed (i : Nat) (random : Nat)
  | retryDial (i : Nat)
  | gone (id : Id) (connId : Nat) (random : Nat)
  | violated (id : Id)
  | seen (id : Id) (addr : EndpointAddr Id Sock)
  | neighborUp (id : Id)

def step (d : Dialer Id Sock) : Act Id Sock → Option (Dialer Id Sock)
  | .authed id connId => some (d.onAuthed id connId false)
  | .dialed i connId =>
      match d.dials[i]? with
      | none => none
      | some entry =>
          some (({ d with dials := d.dials.eraseIdx i } : Dialer Id Sock).onAuthed entry.2.id
            connId true)
  | .dialFailed i random =>
      match d.dials[i]? with
      | none => none
      | some entry =>
          some (({ d with
            dials := d.dials.eraseIdx i
            dialing := d.dialing.erase entry.1 } : Dialer Id Sock).scheduleRedial random entry.1)
  | .retryDial i =>
      match d.timers[i]? with
      | none => none
      | some entry =>
          some (({ d with
            timers := d.timers.eraseIdx i
            redialScheduled := d.redialScheduled.erase entry.1 } : Dialer Id Sock).dial entry.1)
  | .gone id connId random => some (d.onPeerGone random id connId)
  | .violated id => some (d.dropPeer id)
  | .seen id addr => some (d.onSeen id addr)
  | .neighborUp id => some (d.onNeighborUp id)

def load (me : Id) (known : Map Id (Option (EndpointAddr Id Sock))) : Dialer Id Sock where
  me := me
  peers := ∅
  members := ∅
  knownMembers := known
  dialing := ∅
  redialScheduled := ∅
  backoff := ∅
  fastRedialUsed := ∅
  dials := []
  timers := []
  turnedAway := ∅
  waits := []

/-- A daemon that has just started. -/
def start (me : Id) (known : Map Id (Option (EndpointAddr Id Sock))) : Dialer Id Sock :=
  (load me known).dialKnownMembers

/-! ## What the handlers can do -/

variable {d d' : Dialer Id Sock} {id other : Id}

theorem dial_cases (d : Dialer Id Sock) (id : Id) :
    (d.dial id = d ∧ (id = d.me ∨ d.peers.contains id = true ∨ id ∈ d.dialing ∨
      d.knownMemberAddr id = none)) ∨
    ∃ addr, d.knownMemberAddr id = some addr ∧ id ≠ d.me ∧ d.peers.contains id = false ∧
      id ∉ d.dialing ∧
      d.dial id = { d with dialing := insert id d.dialing, dials := d.dials ++ [(id, addr)] } := by
  unfold dial
  by_cases hskip : id = d.me ∨ d.peers.contains id = true ∨ id ∈ d.dialing
  · rw [if_pos hskip]
    refine .inl ⟨rfl, ?_⟩
    rcases hskip with hme | hpeer | hdialing
    · exact .inl hme
    · exact .inr (.inl hpeer)
    · exact .inr (.inr (.inl hdialing))
  · rw [if_neg hskip]
    cases haddr : d.knownMemberAddr id with
    | none => exact .inl ⟨rfl, .inr (.inr (.inr rfl))⟩
    | some addr =>
        simp only [not_or, Bool.not_eq_true] at hskip
        exact .inr ⟨addr, rfl, hskip.1, hskip.2.1, hskip.2.2, rfl⟩

theorem scheduleRedial_cases (d : Dialer Id Sock) (random : Nat) (id : Id) :
    (d.scheduleRedial random id = d ∧ (d.peers.contains id = true ∨ id ∈ d.redialScheduled)) ∨
    (id ∉ d.redialScheduled ∧
      d.scheduleRedial random id =
        { d with
          backoff := d.backoff.insert id (d.nextWait id)
          redialScheduled := insert id d.redialScheduled
          timers := d.timers ++ [(id, d.nextWait id + random % 250)]
          waits := d.waits ++ [(id, d.nextWait id)] }) := by
  unfold scheduleRedial
  by_cases hskip : d.peers.contains id = true ∨ id ∈ d.redialScheduled
  · rw [if_pos hskip]
    exact .inl ⟨rfl, hskip⟩
  · rw [if_neg hskip]
    rw [not_or] at hskip
    exact .inr ⟨hskip.2, rfl⟩

theorem onAuthed_cases (d : Dialer Id Sock) (id : Id) (connId : Nat) (byMe : Bool) :
    (d.onAuthed id connId byMe = d ∧ (id = d.me ∨ d.peers.contains id = true)) ∨
    (d.peers.contains id = false ∧ d.onAuthed id connId byMe =
      { d with turnedAway := if byMe then insert id d.turnedAway else d.turnedAway }) ∨
    (id ≠ d.me ∧ d.onAuthed id connId byMe = d.join id ⟨connId, byMe⟩) := by
  unfold onAuthed
  by_cases hme : id = d.me
  · rw [if_pos hme]
    exact .inl ⟨rfl, .inl hme⟩
  · rw [if_neg hme]
    by_cases hfull : (!d.peers.contains id && decide (maxPeers ≤ d.peers.size)) = true
    · rw [if_pos hfull]
      rw [Bool.and_eq_true, Bool.not_eq_true'] at hfull
      exact .inr (.inl ⟨hfull.1, rfl⟩)
    · rw [if_neg hfull]
      dsimp only
      cases hpeer : d.peers[id]? with
      | none => exact .inr (.inr ⟨hme, rfl⟩)
      | some existing =>
          dsimp only
          by_cases hlt : (if byMe then d.me else id) <
              (if existing.initiatedByMe then d.me else id)
          · rw [if_pos hlt]
            exact .inr (.inr ⟨hme, rfl⟩)
          · rw [if_neg hlt]
            exact .inl ⟨rfl, .inr (Map.contains_of_get hpeer)⟩

/-! What the events of a dial or a timer do, once they are there. -/

theorem step_dialed {i connId : Nat} (h : d.step (.dialed i connId) = some d') :
    ∃ entry, d.dials[i]? = some entry ∧
      d' = ({ d with dials := d.dials.eraseIdx i } : Dialer Id Sock).onAuthed entry.2.id connId
        true := by
  unfold step at h
  dsimp only at h
  split at h
  · cases h
  · rename_i entry hi
    exact ⟨entry, hi, (Option.some.inj h).symm⟩

theorem step_dialFailed {i random : Nat} (h : d.step (.dialFailed i random) = some d') :
    ∃ entry, d.dials[i]? = some entry ∧
      d' = ({ d with
        dials := d.dials.eraseIdx i
        dialing := d.dialing.erase entry.1 } : Dialer Id Sock).scheduleRedial random entry.1 := by
  unfold step at h
  dsimp only at h
  split at h
  · cases h
  · rename_i entry hi
    exact ⟨entry, hi, (Option.some.inj h).symm⟩

theorem step_retryDial {i : Nat} (h : d.step (.retryDial i) = some d') :
    ∃ entry, d.timers[i]? = some entry ∧
      d' = ({ d with
        timers := d.timers.eraseIdx i
        redialScheduled := d.redialScheduled.erase entry.1 } : Dialer Id Sock).dial entry.1 := by
  unfold step at h
  dsimp only at h
  split at h
  · cases h
  · rename_i entry hi
    exact ⟨entry, hi, (Option.some.inj h).symm⟩

theorem knownMemberAddr_join (d : Dialer Id Sock) {id other : Id} (peer : Peer) (h : other ≠ id) :
    (d.join id peer).knownMemberAddr other = d.knownMemberAddr other := by
  unfold knownMemberAddr join
  dsimp only
  by_cases hin : d.members.contains id = true
  · rw [if_pos hin]
  · rw [if_neg hin, Map.get_insert_ne _ _ (Ne.symm h)]

/-! ## The connections are those of the daemon -/

section

variable {Path : Type} [LinearOrder Path] (h : Host Id Path) (env : Env Path)
  {a : Actor Id Path}

theorem dial_peers (d : Dialer Id Sock) (id : Id) : (d.dial id).peers = d.peers := by
  rcases dial_cases d id with ⟨heq, -⟩ | ⟨addr, -, -, -, -, heq⟩
  · rw [heq]
  · rw [heq]

theorem redial_peers (d : Dialer Id Sock) (random : Nat) (id : Id) :
    (d.redial random id).peers = d.peers := by
  unfold redial
  split
  · split
    · rcases scheduleRedial_cases d random id with ⟨heq, -⟩ | ⟨-, heq⟩
      · rw [heq]
      · rw [heq]
    · exact dial_peers _ id
  · rfl

theorem onAuthed_peers (hme : d.me = a.me) (hpeers : d.peers = a.peers) (id : Id) (connId : Nat)
    (byMe : Bool) :
    (d.onAuthed id connId byMe).peers = (a.onAuthed h env id connId byMe).peers := by
  unfold Dialer.onAuthed Actor.onAuthed
  rw [hme, hpeers]
  have hjoin : ∀ peer, (d.join id peer).peers = (a.join h env id peer).peers := by
    intro peer
    unfold join Actor.join
    dsimp only
    rw [hpeers]
  by_cases hself : id = a.me
  · rw [if_pos hself, if_pos hself]
    exact hpeers
  · rw [if_neg hself, if_neg hself]
    by_cases hfull : (!a.peers.contains id && decide (maxPeers ≤ a.peers.size)) = true
    · rw [if_pos hfull, if_pos hfull]
    · rw [if_neg hfull, if_neg hfull]
      dsimp only
      cases a.peers[id]? with
      | none => exact hjoin _
      | some existing =>
          dsimp only
          by_cases hlt : (if byMe then a.me else id) <
              (if existing.initiatedByMe then a.me else id)
          · rw [if_pos hlt, if_pos hlt]
            exact hjoin _
          · rw [if_neg hlt, if_neg hlt]
            exact hpeers

theorem abortRounds_peers (rels : List Path) :
    ∀ (a : Actor Id Path), (rels.foldl Actor.abortRound a).peers = a.peers := by
  induction rels with
  | nil => exact fun a => rfl
  | cons rel rels ih =>
      intro a
      rw [List.foldl_cons, ih]
      unfold Actor.abortRound
      dsimp only
      split
      · rfl
      · unfold Actor.replyTo
        split
        · rfl
        · rfl

theorem onPeerGone_peers (hpeers : d.peers = a.peers) (random : Nat) (id : Id) (connId : Nat) :
    (d.onPeerGone random id connId).peers = (a.onPeerGone id connId).peers := by
  unfold Dialer.onPeerGone Actor.onPeerGone
  rw [hpeers]
  split
  · exact hpeers
  · rw [redial_peers]
    dsimp only
    rw [abortRounds_peers]

theorem dropPeer_peers (hpeers : d.peers = a.peers) (id : Id) :
    (d.dropPeer id).peers = (a.dropPeer id).peers := by
  unfold Dialer.dropPeer Actor.dropPeer
  dsimp only
  rw [hpeers]

end

/-! ## The accounts -/

structure Inv (d : Dialer Id Sock) : Prop where
  /-- A peer is not being dialed, and its immediate redial is still to be had. -/
  idle : ∀ (id : Id), d.peers.contains id = true → id ∉ d.dialing ∧ id ∉ d.fastRedialUsed ∧
    d.members.contains id = true ∧ id ≠ d.me
  asleep : ∀ (id : Id), id ∈ d.redialScheduled ↔ id ∈ d.timers.map Prod.fst
  single : (d.timers.map Prod.fst).Nodup
  aimed : ∀ e ∈ d.dials, e.1 ≠ d.me

theorem Inv.dial (h : d.Inv) (id : Id) : (d.dial id).Inv := by
  rcases dial_cases d id with ⟨heq, -⟩ | ⟨addr, -, hme, hpeer, -, heq⟩
  · rw [heq]
    exact h
  · rw [heq]
    refine ⟨fun other hother => ?_, h.asleep, h.single, fun e he => ?_⟩
    · obtain ⟨hdialing, hrest⟩ := h.idle other hother
      refine ⟨fun hmem => ?_, hrest⟩
      rcases Finset.mem_insert.mp hmem with rfl | hmem
      · rw [hpeer] at hother
        cases hother
      · exact hdialing hmem
    · rcases List.mem_append.mp he with he | he
      · exact h.aimed e he
      · rw [List.mem_singleton.mp he]
        exact hme

theorem Inv.scheduleRedial (h : d.Inv) (random : Nat) (id : Id) :
    (d.scheduleRedial random id).Inv := by
  rcases scheduleRedial_cases d random id with ⟨heq, -⟩ | ⟨hnew, heq⟩
  · rw [heq]
    exact h
  · rw [heq]
    refine ⟨h.idle, fun other => ?_, ?_, h.aimed⟩
    · simp only [Finset.mem_insert, List.map_append, List.map_cons, List.map_nil,
        List.mem_append, List.mem_singleton, h.asleep other, or_comm]
    · rw [List.map_append, List.nodup_append']
      refine ⟨h.single, List.nodup_singleton _, fun other hother hlast => ?_⟩
      rw [List.map_singleton, List.mem_singleton] at hlast
      have heq : other = id := hlast
      exact hnew ((h.asleep id).mpr (heq ▸ hother))

theorem Inv.join (h : d.Inv) (hme : id ≠ d.me) (peer : Peer) : (d.join id peer).Inv := by
  refine ⟨fun other hother => ?_, h.asleep, h.single, h.aimed⟩
  have hmembers : ∀ (x : Id), d.members.contains x = true ∨ id = x →
      (d.join id peer).members.contains x = true := by
    intro x hx
    unfold Dialer.join
    dsimp only
    by_cases hin : d.members.contains id = true
    · rw [if_pos hin]
      rcases hx with hx | rfl
      · exact hx
      · exact hin
    · rw [if_neg hin]
      exact Map.contains_insert_iff.mpr hx.symm
  rcases Map.contains_insert_iff.mp hother with rfl | hold
  · exact ⟨Finset.notMem_erase _ _, Finset.notMem_erase _ _, hmembers _ (.inr rfl), hme⟩
  · obtain ⟨hdialing, hfast, hmember, hself⟩ := h.idle other hold
    exact ⟨fun hmem => hdialing (Finset.mem_of_mem_erase hmem),
      fun hmem => hfast (Finset.mem_of_mem_erase hmem), hmembers _ (.inl hmember), hself⟩

theorem Inv.onAuthed (h : d.Inv) (id : Id) (connId : Nat) (byMe : Bool) :
    (d.onAuthed id connId byMe).Inv := by
  rcases onAuthed_cases d id connId byMe with ⟨heq, -⟩ | ⟨-, heq⟩ | ⟨hme, heq⟩
  · rw [heq]
    exact h
  · rw [heq]
    exact ⟨h.idle, h.asleep, h.single, h.aimed⟩
  · rw [heq]
    exact h.join hme _

/-- Less is connected. -/
theorem Inv.erase (h : d.Inv) (id : Id) (away : Finset Id) :
    ({ d with peers := d.peers.erase id, turnedAway := away } : Dialer Id Sock).Inv :=
  ⟨fun other hother => h.idle other (Map.contains_erase_iff.mp hother).2, h.asleep, h.single,
    h.aimed⟩

theorem Inv.redial (h : d.Inv) (hpeer : d.peers.contains id = false) (random : Nat) :
    (d.redial random id).Inv := by
  unfold Dialer.redial
  split
  · split
    · exact h.scheduleRedial random id
    · refine Inv.dial ?_ id
      refine ⟨fun other hother => ?_, h.asleep, h.single, h.aimed⟩
      obtain ⟨hdialing, hfast, hrest⟩ := h.idle other hother
      refine ⟨hdialing, fun hmem => ?_, hrest⟩
      rcases Finset.mem_insert.mp hmem with rfl | hmem
      · rw [hpeer] at hother
        cases hother
      · exact hfast hmem
  · exact h

theorem Inv.onSeen (h : d.Inv) (id : Id) (addr : EndpointAddr Id Sock) :
    (d.onSeen id addr).Inv := by
  unfold Dialer.onSeen
  split
  · exact h
  · have hnew : ({ d with
        knownMembers := d.knownMembers.insert id (some addr)
        members := d.members.insert id addr } : Dialer Id Sock).Inv := by
      refine ⟨fun other hother => ?_, h.asleep, h.single, h.aimed⟩
      obtain ⟨hdialing, hfast, hmember, hself⟩ := h.idle other hother
      exact ⟨hdialing, hfast, Map.contains_insert_iff.mpr (.inr hmember), hself⟩
    dsimp only
    split
    · exact hnew
    · exact hnew.dial id

/-- One of the sleeping tasks is done. -/
theorem mem_eraseIdx_timers {l : List (Id × Nat)} (hnodup : (l.map Prod.fst).Nodup) {i : Nat}
    {entry : Id × Nat} (hi : l[i]? = some entry) (other : Id) :
    other ∈ (l.eraseIdx i).map Prod.fst ↔ other ≠ entry.1 ∧ other ∈ l.map Prod.fst := by
  obtain ⟨hlt, hget⟩ := List.getElem?_eq_some_iff.mp hi
  have hlt' : i < (l.map Prod.fst).length := by simpa using hlt
  have hget' : (l.map Prod.fst)[i] = entry.1 := by simp [hget]
  rw [← List.eraseIdx_map, ← hnodup.erase_getElem i hlt', hget', hnodup.mem_erase_iff]

/-- **Every step keeps the accounts.** -/
theorem Inv.step (h : d.Inv) {act : Act Id Sock} (hstep : d.step act = some d') : d'.Inv := by
  cases act with
  | authed id connId =>
      obtain rfl := Option.some.inj hstep
      exact h.onAuthed id connId false
  | dialed i connId =>
      obtain ⟨entry, -, rfl⟩ := step_dialed hstep
      refine Inv.onAuthed ?_ _ connId true
      refine ⟨h.idle, h.asleep, h.single, fun e he => ?_⟩
      exact h.aimed e (List.mem_of_mem_eraseIdx he)
  | dialFailed i random =>
      obtain ⟨entry, -, rfl⟩ := step_dialFailed hstep
      refine Inv.scheduleRedial ?_ random _
      refine ⟨fun other hother => ?_, h.asleep, h.single, fun e he => ?_⟩
      · obtain ⟨hdialing, hrest⟩ := h.idle other hother
        exact ⟨fun hmem => hdialing (Finset.mem_of_mem_erase hmem), hrest⟩
      · exact h.aimed e (List.mem_of_mem_eraseIdx he)
  | retryDial i =>
      obtain ⟨entry, hi, rfl⟩ := step_retryDial hstep
      refine Inv.dial ?_ entry.1
      refine ⟨h.idle, fun other => ?_, ?_, h.aimed⟩
      · rw [Finset.mem_erase, mem_eraseIdx_timers h.single hi, h.asleep other]
      · dsimp only
        rw [← List.eraseIdx_map]
        exact h.single.eraseIdx i
  | gone id connId random =>
      obtain rfl := Option.some.inj hstep
      unfold onPeerGone
      split
      · exact h
      · refine (h.erase id d.turnedAway).redial ?_ random
        rw [Map.contains_eq, Map.get_erase_self]
        rfl
  | violated id =>
      obtain rfl := Option.some.inj hstep
      exact h.erase id _
  | seen id addr =>
      obtain rfl := Option.some.inj hstep
      exact h.onSeen id addr
  | neighborUp id =>
      obtain rfl := Option.some.inj hstep
      unfold onNeighborUp
      split
      · exact h.dial id
      · exact h

variable {me : Id} {known : Map Id (Option (EndpointAddr Id Sock))}

theorem inv_load : (load me known : Dialer Id Sock).Inv where
  idle := fun id h => by
    rw [Map.contains_eq] at h
    simp [load] at h
  asleep := fun id => by simp [load]
  single := List.nodup_nil
  aimed := fun e he => (by cases he)

theorem inv_start : (start me known : Dialer Id Sock).Inv :=
  List.foldlRecOn _ _ inv_load fun _ h id _ => h.dial id

theorem Inv.of_reaches (hrun : Reaches Dialer.step anyStep (start me known) d) : d.Inv :=
  hrun.invariant inv_start fun _ _ _ h _ hstep => h.step hstep

/-! ## A connection that is lost -/

/-- **A lost connection is dialed again at once**: the dial is under way before the next event,
and the redial with a wait is never taken. -/
theorem lost_is_dialed (hrun : Reaches Dialer.step anyStep (start me known) d) {peer : Peer}
    (hpeer : d.peers[id]? = some peer) (random : Nat) :
    ∃ addr, d.members[id]? = some addr ∧
      (d.onPeerGone random id peer.connId).dials = d.dials ++ [(id, addr)] ∧
      id ∈ (d.onPeerGone random id peer.connId).dialing ∧
      (d.onPeerGone random id peer.connId).timers = d.timers := by
  have hinv := Inv.of_reaches hrun
  obtain ⟨hdialing, hfast, hmember, hme⟩ := hinv.idle id (Map.contains_of_get hpeer)
  rw [Map.contains_eq, Option.isSome_iff_exists] at hmember
  obtain ⟨addr, haddr⟩ := hmember
  have hgone : d.onPeerGone random id peer.connId =
      { d with
        peers := d.peers.erase id
        fastRedialUsed := insert id d.fastRedialUsed
        dialing := insert id d.dialing
        dials := d.dials ++ [(id, addr)] } := by
    unfold onPeerGone redial
    rw [if_neg (by simp [hpeer]), if_pos (.inl (Map.contains_of_get haddr)), if_neg hfast]
    unfold dial
    rw [if_neg]
    · unfold knownMemberAddr
      dsimp only
      rw [haddr]
    · simp only [not_or]
      refine ⟨hme, ?_, hdialing⟩
      simp
  rw [hgone]
  exact ⟨addr, haddr, rfl, Finset.mem_insert_self _ _, rfl⟩

/-- An address book with one member. -/
def oneMember : Map Nat (Option (EndpointAddr Nat Unit)) :=
  (∅ : Map Nat (Option (EndpointAddr Nat Unit))).insert 2 (some ⟨2, []⟩)

/-- Two dials fail, the third comes through; the connection is lost, and a dial fails again. -/
def comesAndGoes : List (Act Nat Unit) :=
  [.dialFailed 0 7, .retryDial 0, .dialFailed 0 300, .retryDial 0, .dialed 0 5,
    .gone 2 5 9, .dialFailed 0 3]

theorem lost_is_dialed_comesAndGoes : ∃ (d : Dialer Nat Unit) (addr : EndpointAddr Nat Unit),
    d.peers[2]? = some ⟨5, true⟩ ∧ d.members[2]? = some addr ∧
      (d.onPeerGone 9 2 5).dials = d.dials ++ [(2, addr)] := by
  have hrun : (execute Dialer.step (comesAndGoes.take 5) (start 1 oneMember)).any (fun d =>
      decide (d.peers[2]? = some ⟨5, true⟩)) = true := by decide +kernel
  obtain ⟨d, hreach, hd⟩ := exists_reaches_of_execute anyStep (fun _ _ _ => trivial) hrun
  have hpeer := of_decide_eq_true hd
  obtain ⟨addr, hmember, hdials, -⟩ := lost_is_dialed hreach hpeer 9
  exact ⟨d, addr, hpeer, hmember, hdials⟩

end Dialer

end Tazamun
