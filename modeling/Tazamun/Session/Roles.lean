import Tazamun.Locks.Mesh
import Tazamun.Session.Grant

set_option autoImplicit false

/-! # Role enforcement against a low-privilege peer

A session that enforces roles, and one peer `P` in it that was only ever invited as a viewer
or an archive (`daemon.rs`, `on_peer_identity` and `peer_may_lock`). Every node sends its own
signed grant to each peer it connects to, and records of each peer the role of the grant the
peer presents. `P` runs its own code: it may present any grant that it can build, which is
one it was issued, one it was sent, or one that is not signed by the admin key.

A grant says nothing about the endpoint it was issued to, and the receiver has nothing to
compare: `P` can present the grant of an editor that connected to it and is recorded as an
editor (`viewer_recorded_as_editor`). If it does not replay grants (`NoReplay`), no node ever
takes it for an editor and every lock request of `P` is denied.
-/

namespace Tazamun

open Lib

variable {Id Path Key : Type} [LinearOrder Id] [LinearOrder Path] [DecidableEq Key]

/-- A daemon as far as roles go. -/
structure RoleNode (Id Path Key : Type) [LinearOrder Id] [LinearOrder Path] where
  adminPublicKey : Option Key
  adminSecretKey : Option Key
  myGrant : Option (SignedGrant Key)
  peerRoles : Map Id UInt8
  lock : LockNode Id Path

namespace RoleNode

def enforcingRoles (n : RoleNode Id Path Key) : Bool := n.adminPublicKey.isSome

/-- `on_peer_identity`: an invalid or an expired grant leaves the peer without a role. -/
def onPeerIdentity (n : RoleNode Id Path Key) (sender : Id) (grant : SignedGrant Key)
    (nowMs : U64) : RoleNode Id Path Key :=
  match n.adminPublicKey with
  | none => n
  | some adminPub =>
      if !grant.verify adminPub then { n with peerRoles := n.peerRoles.erase sender }
      else if grant.grant.isExpired nowMs then
        { n with peerRoles := n.peerRoles.erase sender }
      else { n with peerRoles := n.peerRoles.insert sender grant.grant.role }

/-- `peer_may_lock`. -/
def peerMayLock (n : RoleNode Id Path Key) (sender : Id) : Bool :=
  if !n.enforcingRoles then true
  else
    match n.peerRoles[sender]? with
    | some role => roleCanEdit role
    | none => false

/-- The `LockReq` arm of `on_ctl`, with the role check in front. -/
def onLockReq (n : RoleNode Id Path Key) (sender : Id) (rel : Path) (lamport ttlMs : U64)
    (now : Nat) : RoleNode Id Path Key × List (Out Id (LockMsg Id Path)) :=
  let r := n.lock.onLockReq (n.peerMayLock sender) sender rel lamport ttlMs now
  ({ n with lock := r.1 }, r.2)

/-- `on_peer_gone`: the peer's role goes with its connection. -/
def onPeerGone (n : RoleNode Id Path Key) (id : Id) : RoleNode Id Path Key :=
  { n with peerRoles := n.peerRoles.erase id }

/-- `handle_invite`: only a node that holds the admin secret can invite. -/
def handleInvite (n : RoleNode Id Path Key) (role : UInt8) (inviteId : Nat)
    (nowMs ttlMs : U64) : Option (Ticket Key) :=
  match n.adminSecretKey, n.adminPublicKey with
  | some adminSecret, some adminPub =>
      some (mintTicket adminSecret adminPub role inviteId nowMs ttlMs)
  | _, _ => none

/-- Joining with a ticket. -/
def join (n : RoleNode Id Path Key) (ticket : Ticket Key) : RoleNode Id Path Key :=
  { n with
    adminPublicKey := some ticket.adminPublic
    adminSecretKey := ticket.adminSecret
    myGrant := some ticket.grant }

end RoleNode

/-- The session: its nodes, the low-privilege peer, and what the peer has learnt. -/
structure RoleWorld (Id Path Key : Type) [LinearOrder Id] [LinearOrder Path] where
  admin : Key
  peer : Id
  node : Id → RoleNode Id Path Key
  issued : List (SignedGrant Key)
  received : List (SignedGrant Key)

/-- One step. An honest node invites somebody or sends its `Identity`, the peer presents a
grant or asks for a lease, a connection ends. -/
inductive RoleAct (Id Path Key : Type) where
  | invite (src dst : Id) (role : UInt8) (inviteId : Nat) (nowMs ttlMs : U64)
  | identity (src dst : Id) (nowMs : U64)
  | present (dst : Id) (grant : SignedGrant Key) (nowMs : U64)
  | lockReq (src dst : Id) (rel : Path) (lamport ttlMs : U64) (now : Nat)
  | gone (i id : Id)

namespace RoleWorld

/-- A session that `founder` has just created: it holds the admin secret and an editor grant
that it signed for itself. -/
def init (admin : Key) (peer founder : Id) (timings : LockTimings) :
    RoleWorld Id Path Key where
  admin := admin
  peer := peer
  node i :=
    { adminPublicKey := some admin
      adminSecretKey := if i = founder then some admin else none
      myGrant := if i = founder then some (signGrant admin ⟨roleEditor, 0, 0, 0⟩) else none
      peerRoles := ∅
      lock := { locks := .new i timings, lamport := 0, acquires := ∅ } }
  issued := []
  received := []

/-- The peer can build `grant`: it has it, or the signature is not the admin's. -/
def Buildable (w : RoleWorld Id Path Key) (grant : SignedGrant Key) : Prop :=
  grant ∈ w.issued ∨ grant ∈ w.received ∨ ¬ grant.sig.isBy w.admin

instance (w : RoleWorld Id Path Key) (grant : SignedGrant Key) : Decidable (w.Buildable grant) :=
  inferInstanceAs (Decidable (_ ∨ _ ∨ _))

def setNode (w : RoleWorld Id Path Key) (i : Id) (n : RoleNode Id Path Key) :
    RoleWorld Id Path Key :=
  { w with node := Function.update w.node i n }

/-- The step function. The runs in question hand the peer no editor invite. -/
def step (w : RoleWorld Id Path Key) : RoleAct Id Path Key → Option (RoleWorld Id Path Key)
  | .invite src dst role inviteId nowMs ttlMs =>
      if src = w.peer then none
      else
        match (w.node src).handleInvite role inviteId nowMs ttlMs with
        | none => none
        | some ticket =>
            if dst = w.peer then
              if roleCanEdit role then none
              else some { w with issued := ticket.grant :: w.issued }
            else some (w.setNode dst ((w.node dst).join ticket))
  | .identity src dst nowMs =>
      if src = w.peer then none
      else
        match (w.node src).myGrant with
        | none => none
        | some grant =>
            if dst = w.peer then some { w with received := grant :: w.received }
            else some (w.setNode dst ((w.node dst).onPeerIdentity src grant nowMs))
  | .present dst grant nowMs =>
      if w.Buildable grant then
        some (w.setNode dst ((w.node dst).onPeerIdentity w.peer grant nowMs))
      else none
  | .lockReq src dst rel lamport ttlMs now =>
      some (w.setNode dst ((w.node dst).onLockReq src rel lamport ttlMs now).1)
  | .gone i id => some (w.setNode i ((w.node i).onPeerGone id))

/-- The peer does not present, while it is valid, an editor grant that it was sent. -/
def NoReplay (w : RoleWorld Id Path Key) : RoleAct Id Path Key → Prop
  | .present _ grant nowMs =>
      grant ∈ w.received → roleCanEdit grant.grant.role = true →
        grant.grant.isExpired nowMs = true
  | _ => True

instance (w : RoleWorld Id Path Key) : DecidablePred w.NoReplay
  | .present _ _ _ => inferInstanceAs (Decidable (_ → _ → _))
  | .invite _ _ _ _ _ _ => isTrue trivial
  | .identity _ _ _ => isTrue trivial
  | .lockReq _ _ _ _ _ _ => isTrue trivial
  | .gone _ _ => isTrue trivial

/-! ## The peer stays what it was invited as -/

/-- A node enforces roles and does not take the peer for an editor. -/
structure Guarded (admin : Key) (peer : Id) (n : RoleNode Id Path Key) : Prop where
  enforcing : n.adminPublicKey = some admin
  role : ∀ role, n.peerRoles[peer]? = some role → roleCanEdit role = false

/-- The invariant of the session. -/
structure LowPrivilege (admin : Key) (peer : Id) (w : RoleWorld Id Path Key) : Prop where
  admin_eq : w.admin = admin
  peer_eq : w.peer = peer
  guarded : ∀ i, Guarded admin peer (w.node i)
  issued : ∀ g ∈ w.issued, roleCanEdit g.grant.role = false

variable {admin : Key} {peer : Id} {n : RoleNode Id Path Key}

omit [DecidableEq Key] in
theorem Guarded.erase (h : Guarded admin peer n) (id : Id) :
    Guarded admin peer { n with peerRoles := n.peerRoles.erase id } := by
  refine ⟨h.enforcing, fun role hr => ?_⟩
  rw [Map.get_erase] at hr
  split at hr
  · cases hr
  · exact h.role role hr

/-- A grant is recorded only if the admin signed it and it has not expired. -/
theorem Guarded.onPeerIdentity (h : Guarded admin peer n) {sender : Id}
    {grant : SignedGrant Key} {nowMs : U64}
    (hrole : sender = peer → grant.sig.isBy admin → grant.grant.isExpired nowMs = false →
      roleCanEdit grant.grant.role = false) :
    Guarded admin peer (n.onPeerIdentity sender grant nowMs) := by
  unfold RoleNode.onPeerIdentity
  split
  · exact h
  rename_i adminPub hpub
  obtain rfl : adminPub = admin := Option.some.inj (hpub.symm.trans h.enforcing)
  split
  · exact h.erase sender
  split
  · exact h.erase sender
  · rename_i hverify hexp
    refine ⟨h.enforcing, fun role hr => ?_⟩
    rw [Map.get_insert] at hr
    split at hr
    · rename_i hsender
      obtain rfl := Option.some.inj hr
      have hsig : grant.sig = .signed adminPub grant.grant := by
        simpa [SignedGrant.verify] using hverify
      exact hrole hsender (by rw [hsig]; rfl) (by simpa using hexp)
    · exact h.role role hr

omit [DecidableEq Key] in
theorem LowPrivilege.setNode {w : RoleWorld Id Path Key} (h : LowPrivilege admin peer w)
    {i : Id} (hn : Guarded admin peer n) : LowPrivilege admin peer (w.setNode i n) := by
  refine ⟨h.admin_eq, h.peer_eq, fun j => ?_, h.issued⟩
  by_cases hj : j = i
  · subst hj
    simpa [RoleWorld.setNode] using hn
  · simpa [RoleWorld.setNode, hj] using h.guarded j

theorem LowPrivilege.step {w w' : RoleWorld Id Path Key} {a : RoleAct Id Path Key}
    (h : LowPrivilege admin peer w) (hok : w.NoReplay a) (hs : w.step a = some w') :
    LowPrivilege admin peer w' := by
  cases a with
  | invite src dst role inviteId nowMs ttlMs =>
      simp only [RoleWorld.step] at hs
      split at hs
      · cases hs
      split at hs
      · cases hs
      rename_i ticket hticket
      unfold RoleNode.handleInvite at hticket
      split at hticket
      · rename_i secret pub hsecret hpub
        obtain rfl := Option.some.inj hticket
        split at hs
        · split at hs
          · cases hs
          · rename_i hlow
            obtain rfl := Option.some.inj hs
            refine ⟨h.admin_eq, h.peer_eq, h.guarded, ?_⟩
            simp only [List.mem_cons, forall_eq_or_imp]
            exact ⟨by simpa [mintTicket, signGrant] using hlow, h.issued⟩
        · obtain rfl := Option.some.inj hs
          have hg := h.guarded dst
          have hsrc := (h.guarded src).enforcing
          rw [hpub] at hsrc
          exact h.setNode ⟨hsrc, hg.role⟩
      · cases hticket
  | identity src dst nowMs =>
      simp only [RoleWorld.step] at hs
      split at hs
      · cases hs
      rename_i hsrc
      split at hs
      · cases hs
      split at hs
      · obtain rfl := Option.some.inj hs
        exact ⟨h.admin_eq, h.peer_eq, h.guarded, h.issued⟩
      · obtain rfl := Option.some.inj hs
        refine h.setNode ((h.guarded dst).onPeerIdentity fun heq => ?_)
        rw [heq, h.peer_eq] at hsrc
        exact absurd rfl hsrc
  | present dst grant nowMs =>
      simp only [RoleWorld.step] at hs
      split at hs
      · rename_i hbuild
        obtain rfl := Option.some.inj hs
        refine h.setNode ((h.guarded dst).onPeerIdentity fun _ hsig hexp => ?_)
        -- a grant the admin signed was issued to the peer or sent to it
        rcases hbuild with hissued | hreceived | hforged
        · exact h.issued grant hissued
        · by_contra hedit
          have := hok hreceived (by simpa using hedit)
          rw [hexp] at this
          cases this
        · rw [h.admin_eq] at hforged
          exact absurd hsig hforged
      · cases hs
  | lockReq src dst rel lamport ttlMs now =>
      obtain rfl := Option.some.inj hs
      exact h.setNode ⟨(h.guarded dst).enforcing, (h.guarded dst).role⟩
  | gone i id =>
      obtain rfl := Option.some.inj hs
      exact h.setNode ((h.guarded i).erase id)

omit [DecidableEq Key] in
theorem lowPrivilege_init (admin : Key) (peer founder : Id) (timings : LockTimings) :
    LowPrivilege admin peer (init admin peer founder timings : RoleWorld Id Path Key) :=
  ⟨rfl, rfl, fun _ => ⟨rfl, by simp [init]⟩, by simp [init]⟩

omit [DecidableEq Key] in
theorem Guarded.not_mayLock (h : Guarded admin peer n) : n.peerMayLock peer = false := by
  unfold RoleNode.peerMayLock RoleNode.enforcingRoles
  rw [h.enforcing]
  simp only [Option.isSome_some, Bool.not_true, Bool.false_eq_true, if_false]
  split
  · rename_i hr
    exact h.role _ hr
  · rfl

/-- **Role unforgeability.** In every run in which the peer replays no editor grant while it
is valid, no node records it as an editor or would grant it a lease, and every lock request
of the peer is denied. -/
theorem peer_never_editor_of_noReplay (admin : Key) (peer founder : Id) (timings : LockTimings)
    (w : RoleWorld Id Path Key) (h : Reaches step NoReplay (init admin peer founder timings) w)
    (i : Id) :
    (w.node i).peerRoles[peer]? ≠ some roleEditor ∧ (w.node i).peerMayLock peer = false ∧
      ∀ rel lamport ttlMs now, ((w.node i).onLockReq peer rel lamport ttlMs now).2 =
        [.one peer (.lockDeny rel .roleForbidden)] := by
  have hinv : LowPrivilege admin peer w :=
    h.invariant (lowPrivilege_init admin peer founder timings)
      fun _ _ _ hv hok hs => hv.step hok hs
  have hg := hinv.guarded i
  refine ⟨fun hr => ?_, hg.not_mayLock, fun rel lamport ttlMs now => ?_⟩
  · exact absurd (hg.role _ hr) (by decide)
  · simp [RoleNode.onLockReq, LockNode.onLockReq, hg.not_mayLock]

/-- A viewer that presents its own grant is recorded as one, and denied. -/
theorem viewer_denied : ∃ w : RoleWorld (Fin 3) Nat Nat,
    Reaches step NoReplay (init 99 2 0 ⟨90000, 30000, 8000⟩) w ∧
      (w.node 1).peerRoles[(2 : Fin 3)]? = some roleViewer ∧
      (w.node 1).peerMayLock 2 = false := by
  have h : (executeChecked step (fun w a => decide (NoReplay w a))
      [.invite 0 2 roleViewer 7 1000 0, .identity 0 2 1000,
        .present 1 (signGrant 99 ⟨roleViewer, 7, 1000, 0⟩) 2000]
      (init 99 2 0 ⟨90000, 30000, 8000⟩ : RoleWorld (Fin 3) Nat Nat)).any
      (fun w => decide ((w.node 1).peerRoles[(2 : Fin 3)]? = some roleViewer)) = true := by
    decide
  obtain ⟨w, hw, hrole⟩ := exists_reaches_of_executeChecked h
  have hrun := hw.mono fun _ _ => of_decide_eq_true
  exact ⟨w, hrun, of_decide_eq_true hrole,
    (peer_never_editor_of_noReplay 99 2 0 ⟨90000, 30000, 8000⟩ w hrun 1).2.1⟩

/-- Node 0 founds the session and invites node 2 as a viewer. It connects to node 2 and sends
its own grant, which node 2 then presents to node 1. -/
theorem viewer_recorded_as_editor : ∃ w : RoleWorld (Fin 3) Nat Nat,
    Reaches step anyStep (init 99 2 0 ⟨90000, 30000, 8000⟩) w ∧
      (w.node 1).peerRoles[(2 : Fin 3)]? = some roleEditor ∧
      (w.node 1).peerMayLock 2 = true := by
  have h : (execute step
      [.invite 0 2 roleViewer 7 1000 0, .identity 0 2 1000,
        .present 1 (signGrant 99 ⟨roleEditor, 0, 0, 0⟩) 2000]
      (init 99 2 0 ⟨90000, 30000, 8000⟩ : RoleWorld (Fin 3) Nat Nat)).any
      (fun w => decide ((w.node 1).peerRoles[(2 : Fin 3)]? = some roleEditor ∧
        (w.node 1).peerMayLock 2 = true)) = true := by
    decide
  obtain ⟨w, hw, hrole⟩ := exists_reaches_of_execute anyStep (fun _ _ _ => trivial) h
  exact ⟨w, hw, of_decide_eq_true hrole⟩

end RoleWorld

end Tazamun
