import Tazamun.Lib.Run
import Tazamun.Basic.Types

set_option autoImplicit false

/-! # The proof-of-secret handshake

`net/control.rs`, against an adversary endpoint. Both ends of a control connection prove
that they know the session's auth key:

    initiator → acceptor : Hello nonce_a
    acceptor → initiator : HelloAck nonce_b, proof "resp" ids nonce_a nonce_b
    initiator → acceptor : Proof, proof "init" ids nonce_a nonce_b

The model is symbolic. A proof is a term `hmac`, so it determines what it was computed from,
and only someone who knows the key can build it. The transport authenticates endpoint ids
and keeps the connections of two honest nodes private. The adversary endpoint holds any
number of connections in either role; on those it sees what the honest end sends, and sends
what it likes as long as every proof under the auth key is one it has seen.

The two endpoint ids go into a proof sorted, so a proof does not say which end computed it.
A node that both dials the adversary and is dialled by it can therefore be made to answer
its own challenge (`reflected_handshake`). A node that is never fed back its own nonce
cannot (`no_handshake_of_noReflection`).
-/

namespace Tazamun.Handshake

open Lib

/-- `LABEL_RESP` and `LABEL_INIT`. -/
inductive Label where
  | resp
  | init
deriving DecidableEq

inductive HandshakeError where
  | failed
  | timeout
  | connection
deriving DecidableEq

/-- A 32-byte proof: a MAC under some key, or bytes that are none. -/
inductive Mac (Id Nonce Key : Type) where
  | hmac (key : Key) (label : Label) (lo hi : Id) (nonceA nonceB : Nonce)
  | raw (bytes : Nat)
deriving DecidableEq

/-- The handshake messages (`Msg`, `proto.rs`). -/
inductive HsMsg (Id Nonce Key : Type) where
  | hello (nonce : Nonce)
  | helloAck (nonce : Nonce) (proof : Mac Id Nonce Key)
  | proof (proof : Mac Id Nonce Key)
deriving DecidableEq

variable {Id Nonce Key : Type} [LinearOrder Id]

namespace HsMsg

/-- The nonce and the proof that a message carries. -/
def nonce? : HsMsg Id Nonce Key → Option Nonce
  | .hello nonce => some nonce
  | .helloAck nonce _ => some nonce
  | .proof _ => none

def proof? : HsMsg Id Nonce Key → Option (Mac Id Nonce Key)
  | .hello _ => none
  | .helloAck _ pf => some pf
  | .proof pf => some pf

end HsMsg

/-- `proof`: the two ids are sorted. -/
def proof (key : Key) (label : Label) (a b : Id) (nonceA nonceB : Nonce) : Mac Id Nonce Key :=
  if a ≤ b then .hmac key label a b nonceA nonceB else .hmac key label b a nonceA nonceB

section Run

variable [DecidableEq Nonce] [DecidableEq Key]

/-- `handshake_initiator`, from the message it reads: verify the acceptor's proof and answer
with our own. -/
def initiatorRead (key : Key) (me remote : Id) (nonceA : Nonce) :
    HsMsg Id Nonce Key → Except HandshakeError (HsMsg Id Nonce Key)
  | .helloAck nonceB theirProof =>
      if proof key .resp me remote nonceA nonceB = theirProof then
        .ok (.proof (proof key .init me remote nonceA nonceB))
      else .error .failed
  | _ => .error .failed

/-- `handshake_acceptor`, up to its answer: the peer's nonce and the `HelloAck`. -/
def acceptorHello (key : Key) (me remote : Id) (nonceB : Nonce) :
    HsMsg Id Nonce Key → Except HandshakeError (Nonce × HsMsg Id Nonce Key)
  | .hello nonceA => .ok (nonceA, .helloAck nonceB (proof key .resp me remote nonceA nonceB))
  | _ => .error .failed

/-- `handshake_acceptor`, from the second message it reads. -/
def acceptorProof (key : Key) (me remote : Id) (nonceA nonceB : Nonce) :
    HsMsg Id Nonce Key → Except HandshakeError Unit
  | .proof theirProof =>
      if proof key .init me remote nonceA nonceB = theirProof then .ok () else .error .failed
  | _ => .error .failed

end Run

/-! ## Connections and the adversary -/

/-- Where `handshake_initiator` stands at an honest initiator. -/
inductive InitiatorState (Nonce : Type) where
  | absent
  | waitAck (nonceA : Nonce)
  | ok
  | err (e : HandshakeError)
deriving DecidableEq

/-- Where `handshake_acceptor` stands at an honest acceptor. -/
inductive AcceptorState (Nonce : Type) where
  | absent
  | waitHello
  | waitProof (nonceA nonceB : Nonce)
  | ok
  | err (e : HandshakeError)
deriving DecidableEq

/-- A control connection; the queues are used between two honest ends only. -/
structure Conn (Id Nonce Key : Type) where
  initiator : Id
  acceptor : Id
  initiatorState : InitiatorState Nonce
  acceptorState : AcceptorState Nonce
  toInitiator : List (HsMsg Id Nonce Key)
  toAcceptor : List (HsMsg Id Nonce Key)

/-- The session: all connections, everything an honest node has sent to whom, and every
nonce drawn or received so far. -/
structure World (Id Nonce Key : Type) [LinearOrder Id] where
  adversary : Id
  auth : Key
  conns : Map Nat (Conn Id Nonce Key)
  sent : List (Id × Id × HsMsg Id Nonce Key)
  nonces : List Nonce

/-- One step. `deliverInitiator` and `deliverAcceptor` hand a message to an honest end; the
nonce is the one the acceptor draws. -/
inductive HsAct (Id Nonce Key : Type) where
  | dial (conn : Nat) (initiator acceptor : Id) (nonce : Nonce)
  | deliverInitiator (conn : Nat) (msg : HsMsg Id Nonce Key)
  | deliverAcceptor (conn : Nat) (msg : HsMsg Id Nonce Key) (nonce : Nonce)
  | abortInitiator (conn : Nat) (e : HandshakeError)
  | abortAcceptor (conn : Nat) (e : HandshakeError)

namespace World

def init (adversary : Id) (auth : Key) : World Id Nonce Key := ⟨adversary, auth, ∅, [], []⟩

/-- The adversary has been sent `pf` in a message. -/
def Seen (w : World Id Nonce Key) (pf : Mac Id Nonce Key) : Prop :=
  ∃ s ∈ w.sent, s.2.1 = w.adversary ∧ s.2.2.proof? = some pf

/-- The adversary can produce `pf`: it is no MAC under the auth key, or it was seen. -/
def Derivable (w : World Id Nonce Key) : Mac Id Nonce Key → Prop
  | .hmac key label lo hi nonceA nonceB =>
      key ≠ w.auth ∨ w.Seen (.hmac key label lo hi nonceA nonceB)
  | .raw _ => True

/-- The adversary can send `msg`. Nonces are no secret: it may reuse any or make one up. -/
def CanSend (w : World Id Nonce Key) (msg : HsMsg Id Nonce Key) : Prop :=
  ∀ pf ∈ msg.proof?, w.Derivable pf

section Run

variable [DecidableEq Nonce] [DecidableEq Key]

instance (w : World Id Nonce Key) (pf : Mac Id Nonce Key) : Decidable (w.Seen pf) :=
  inferInstanceAs (Decidable (∃ s ∈ w.sent, _))

instance (w : World Id Nonce Key) : DecidablePred w.Derivable
  | .hmac _ _ _ _ _ _ => inferInstanceAs (Decidable (_ ∨ _))
  | .raw _ => isTrue trivial

instance (w : World Id Nonce Key) (msg : HsMsg Id Nonce Key) : Decidable (w.CanSend msg) :=
  inferInstanceAs (Decidable (∀ pf ∈ msg.proof?, _))

/-- What `msg` leaves of the queue it is taken from: the oldest message of an honest peer,
or any message the adversary can send. -/
def arrive (w : World Id Nonce Key) (remote : Id) (queue : List (HsMsg Id Nonce Key))
    (msg : HsMsg Id Nonce Key) : Option (List (HsMsg Id Nonce Key)) :=
  if remote = w.adversary then
    if w.CanSend msg then some queue else none
  else
    match queue with
    | [] => none
    | m :: rest => if m = msg then some rest else none

/-- Connection `c` becomes `k`, and the end `src` has sent `out` to `dst`. -/
def update (w : World Id Nonce Key) (c : Nat) (k : Conn Id Nonce Key) (src dst : Id)
    (out : List (HsMsg Id Nonce Key)) (nonces : List Nonce) : World Id Nonce Key :=
  { w with
    conns := w.conns.insert c k
    sent := out.map (fun msg => (src, dst, msg)) ++ w.sent
    nonces := nonces ++ w.nonces }

/-- A connection is dialled. The adversary runs no code of ours: its end is `absent`. -/
def dial (w : World Id Nonce Key) (c : Nat) (a b : Id) (nonce : Nonce) :
    Option (World Id Nonce Key) :=
  if w.conns.contains c ∨ a = b then none
  else if a = w.adversary then
    some (w.update c ⟨a, b, .absent, .waitHello, [], []⟩ a b [] [])
  else if nonce ∈ w.nonces then none
  else
    let acceptorState := if b = w.adversary then .absent else .waitHello
    some (w.update c ⟨a, b, .waitAck nonce, acceptorState, [], [.hello nonce]⟩ a b
      [.hello nonce] [nonce])

/-- The honest initiator of connection `c` reads `msg`. -/
def deliverInitiator (w : World Id Nonce Key) (c : Nat) (k : Conn Id Nonce Key)
    (msg : HsMsg Id Nonce Key) : Option (World Id Nonce Key) :=
  match k.initiatorState, w.arrive k.acceptor k.toInitiator msg with
  | .waitAck nonceA, some toInitiator =>
      let k := { k with toInitiator }
      match initiatorRead w.auth k.initiator k.acceptor nonceA msg with
      | .error e =>
          some (w.update c { k with initiatorState := .err e } k.initiator k.acceptor []
            msg.nonce?.toList)
      | .ok reply =>
          some (w.update c
            { k with initiatorState := .ok, toAcceptor := k.toAcceptor ++ [reply] }
            k.initiator k.acceptor [reply] msg.nonce?.toList)
  | _, _ => none

/-- The honest acceptor of connection `c` reads `msg`, drawing `nonce` if it answers. -/
def deliverAcceptor (w : World Id Nonce Key) (c : Nat) (k : Conn Id Nonce Key)
    (msg : HsMsg Id Nonce Key) (nonce : Nonce) : Option (World Id Nonce Key) :=
  match k.acceptorState, w.arrive k.initiator k.toAcceptor msg with
  | .waitHello, some toAcceptor =>
      if nonce ∈ msg.nonce?.toList ++ w.nonces then none
      else
        let k := { k with toAcceptor }
        match acceptorHello w.auth k.acceptor k.initiator nonce msg with
        | .error e =>
            some (w.update c { k with acceptorState := .err e } k.acceptor k.initiator []
              msg.nonce?.toList)
        | .ok (nonceA, reply) =>
            some (w.update c
              { k with
                acceptorState := .waitProof nonceA nonce
                toInitiator := k.toInitiator ++ [reply] }
              k.acceptor k.initiator [reply] (nonce :: msg.nonce?.toList))
  | .waitProof nonceA nonceB, some toAcceptor =>
      let k := { k with toAcceptor }
      match acceptorProof w.auth k.acceptor k.initiator nonceA nonceB msg with
      | .error e =>
          some (w.update c { k with acceptorState := .err e } k.acceptor k.initiator []
            msg.nonce?.toList)
      | .ok () =>
          some (w.update c { k with acceptorState := .ok } k.acceptor k.initiator []
            msg.nonce?.toList)
  | _, _ => none

/-- A handshake that is still under way runs into its deadline, or loses its connection. -/
def abortInitiator (w : World Id Nonce Key) (c : Nat) (k : Conn Id Nonce Key)
    (e : HandshakeError) : Option (World Id Nonce Key) :=
  match k.initiatorState with
  | .waitAck _ =>
      some (w.update c { k with initiatorState := .err e } k.initiator k.acceptor [] [])
  | _ => none

def abortAcceptor (w : World Id Nonce Key) (c : Nat) (k : Conn Id Nonce Key)
    (e : HandshakeError) : Option (World Id Nonce Key) :=
  match k.acceptorState with
  | .waitHello | .waitProof _ _ =>
      some (w.update c { k with acceptorState := .err e } k.acceptor k.initiator [] [])
  | _ => none

def step (w : World Id Nonce Key) : HsAct Id Nonce Key → Option (World Id Nonce Key)
  | .dial c a b nonce => w.dial c a b nonce
  | .deliverInitiator c msg => w.conns[c]?.bind fun k => w.deliverInitiator c k msg
  | .deliverAcceptor c msg nonce => w.conns[c]?.bind fun k => w.deliverAcceptor c k msg nonce
  | .abortInitiator c e => w.conns[c]?.bind fun k => w.abortInitiator c k e
  | .abortAcceptor c e => w.conns[c]?.bind fun k => w.abortAcceptor c k e

end Run

/-- The node `me` has completed a handshake, in either role, on a connection whose remote
endpoint is `remote`. -/
def Completed (w : World Id Nonce Key) (me remote : Id) : Prop :=
  ∃ (c : Nat) (k : Conn Id Nonce Key), w.conns[c]? = some k ∧
    (k.initiator = me ∧ k.acceptor = remote ∧ k.initiatorState = .ok ∨
      k.acceptor = me ∧ k.initiator = remote ∧ k.acceptorState = .ok)

/-- The adversary does not hand a node, as the challenge of a connection to it, a nonce that
the node itself has sent to the adversary as a challenge. -/
def NoReflection (w : World Id Nonce Key) : HsAct Id Nonce Key → Prop
  | .deliverAcceptor c (.hello nonce) _ =>
      ∀ k ∈ w.conns[c]?, k.initiator = w.adversary →
        (k.acceptor, w.adversary, .hello nonce) ∉ w.sent
  | _ => True

instance [DecidableEq Nonce] [DecidableEq Key] (w : World Id Nonce Key) :
    DecidablePred (NoReflection w)
  | .deliverAcceptor c (.hello nonce) _ => inferInstanceAs (Decidable
      (∀ k ∈ w.conns[c]?, k.initiator = w.adversary →
        (k.acceptor, w.adversary, HsMsg.hello nonce) ∉ w.sent))
  | .deliverAcceptor _ (.helloAck _ _) _ => isTrue trivial
  | .deliverAcceptor _ (.proof _) _ => isTrue trivial
  | .dial _ _ _ _ => isTrue trivial
  | .deliverInitiator _ _ => isTrue trivial
  | .abortInitiator _ _ => isTrue trivial
  | .abortAcceptor _ _ => isTrue trivial

/-! ## No handshake with the adversary -/

/-- A proof determines its label, its nonces and its two ids, but not their order. -/
theorem proof_inj {key : Key} {l l' : Label} {a a' b : Id} {na na' nb nb' : Nonce}
    (h : proof key l a b na nb = proof key l' a' b na' nb') : l = l' ∧ a = a' ∧ na = na' := by
  unfold proof at h
  split at h <;> split at h <;> injection h with _ hl hlo hhi hna _
  · exact ⟨hl, hlo, hna⟩
  · exact ⟨hl, hlo.trans hhi, hna⟩
  · exact ⟨hl, hhi.trans hlo, hna⟩
  · exact ⟨hl, hhi, hna⟩

/-- A proof under the auth key can only be replayed. -/
theorem seen_of_derivable {w : World Id Nonce Key} {l : Label} {a b : Id} {na nb : Nonce}
    (h : w.Derivable (proof w.auth l a b na nb)) : w.Seen (proof w.auth l a b na nb) := by
  unfold proof at h ⊢
  split at h
  · rename_i hle
    rw [if_pos hle]
    exact h.resolve_left (by simp)
  · rename_i hle
    rw [if_neg hle]
    exact h.resolve_left (by simp)

/-- What the adversary has been sent is of no use to it: every `HelloAck` answers a nonce
that its sender has not sent as a challenge, and no `Proof` was sent at all. -/
structure Safe (adversary : Id) (w : World Id Nonce Key) : Prop where
  same : w.adversary = adversary
  drawn : ∀ x y n, (x, y, .hello n) ∈ w.sent → n ∈ w.nonces
  answered : ∀ x nb pf, (x, w.adversary, .helloAck nb pf) ∈ w.sent → ∃ na ∈ w.nonces,
    pf = proof w.auth .resp x w.adversary na nb ∧ (x, w.adversary, .hello na) ∉ w.sent
  unproved : ∀ x pf, (x, w.adversary, .proof pf) ∉ w.sent
  waiting : ∀ (c : Nat) k na, w.conns[c]? = some k → k.initiatorState = .waitAck na →
    (k.initiator, k.acceptor, .hello na) ∈ w.sent
  incomplete : ∀ (c : Nat) k, w.conns[c]? = some k →
    (k.acceptor = w.adversary → k.initiatorState ≠ .ok) ∧
      (k.initiator = w.adversary → k.acceptorState ≠ .ok)

theorem safe_init (adversary : Id) (auth : Key) :
    Safe adversary (init adversary auth : World Id Nonce Key) :=
  ⟨rfl, by simp [init], by simp [init], by simp [init], by simp [init], by simp [init]⟩

/-- The adversary cannot answer a challenge that an honest node has sent it. -/
theorem Safe.not_derivable_resp {e : Id} {w : World Id Nonce Key} (h : Safe e w) {me : Id}
    {na nb : Nonce} (hsent : (me, w.adversary, .hello na) ∈ w.sent) :
    ¬ w.Derivable (proof w.auth .resp me w.adversary na nb) := by
  intro hd
  obtain ⟨⟨x, y, msg⟩, hmem, rfl, hpf⟩ := seen_of_derivable hd
  cases msg with
  | hello => cases hpf
  | proof pf => exact h.unproved _ _ hmem
  | helloAck nb' pf =>
      obtain rfl := Option.some.inj hpf
      obtain ⟨na', -, heq, hnot⟩ := h.answered _ _ _ hmem
      obtain ⟨-, rfl, rfl⟩ := proof_inj heq
      exact hnot hsent

/-- Nor can it prove itself to an acceptor. -/
theorem Safe.not_derivable_init {e : Id} {w : World Id Nonce Key} (h : Safe e w) {me : Id}
    {na nb : Nonce} : ¬ w.Derivable (proof w.auth .init me w.adversary na nb) := by
  intro hd
  obtain ⟨⟨x, y, msg⟩, hmem, rfl, hpf⟩ := seen_of_derivable hd
  cases msg with
  | hello => cases hpf
  | proof pf => exact h.unproved _ _ hmem
  | helloAck nb' pf =>
      obtain rfl := Option.some.inj hpf
      obtain ⟨na', -, heq, -⟩ := h.answered _ _ _ hmem
      obtain ⟨hl, -⟩ := proof_inj heq
      cases hl

/-- A step keeps the world safe if what it sends to the adversary, and the connection it
installs, are. -/
theorem Safe.update {e : Id} {w : World Id Nonce Key} (h : Safe e w) {c : Nat} {k : Conn Id Nonce Key}
    {src dst : Id} {out : List (HsMsg Id Nonce Key)} {nonces : List Nonce}
    (hhello : ∀ n, .hello n ∈ out → n ∈ nonces ∧ n ∉ w.nonces)
    (hack : ∀ nb pf, dst = w.adversary → .helloAck nb pf ∈ out → ∃ na ∈ nonces,
      pf = proof w.auth .resp src w.adversary na nb ∧ .hello na ∉ out ∧
        (src, w.adversary, .hello na) ∉ w.sent)
    (hproof : ∀ pf, dst = w.adversary → .proof pf ∉ out)
    (hwait : ∀ na, k.initiatorState = .waitAck na →
      (k.initiator, k.acceptor, .hello na) ∈ (w.update c k src dst out nonces).sent)
    (hinc : (k.acceptor = w.adversary → k.initiatorState ≠ .ok) ∧
      (k.initiator = w.adversary → k.acceptorState ≠ .ok)) :
    Safe e (w.update c k src dst out nonces) := by
  have hsent : ∀ x y msg, (x, y, msg) ∈ (w.update c k src dst out nonces).sent ↔
      (x = src ∧ y = dst ∧ msg ∈ out) ∨ (x, y, msg) ∈ w.sent := by
    intro x y msg
    simp only [World.update, List.mem_append, List.mem_map, Prod.mk.injEq]
    constructor
    · rintro (⟨m, hm, rfl, rfl, rfl⟩ | h)
      · exact .inl ⟨rfl, rfl, hm⟩
      · exact .inr h
    · rintro (⟨rfl, rfl, hm⟩ | h)
      · exact .inl ⟨_, hm, rfl, rfl, rfl⟩
      · exact .inr h
  have hconn : ∀ (c' : Nat) k', (w.update c k src dst out nonces).conns[c']? = some k' →
      k' = k ∨ w.conns[c']? = some k' := by
    intro c' k' hk'
    rw [World.update, Map.get_insert] at hk'
    split at hk'
    · exact .inl (Option.some.inj hk').symm
    · exact .inr hk'
  refine ⟨h.same, ?_, ?_, ?_, ?_, ?_⟩
  · intro x y n hm
    rw [hsent] at hm
    refine List.mem_append.mpr ?_
    rcases hm with ⟨-, -, hm⟩ | hm
    · exact .inl (hhello n hm).1
    · exact .inr (h.drawn _ _ _ hm)
  · intro x nb pf hm
    rw [hsent] at hm
    rcases hm with ⟨rfl, hdst, hm⟩ | hm
    · obtain ⟨na, hna, hpf, hout, hnot⟩ := hack nb pf hdst.symm hm
      refine ⟨na, List.mem_append_left _ hna, hpf, fun hs => ?_⟩
      exact ((hsent _ _ _).mp hs).elim (fun hs => hout hs.2.2) hnot
    · obtain ⟨na, hna, hpf, hnot⟩ := h.answered x nb pf hm
      refine ⟨na, List.mem_append_right _ hna, hpf, fun hs => ?_⟩
      -- a fresh challenge is not one that has been answered before
      exact ((hsent _ _ _).mp hs).elim (fun hs => (hhello na hs.2.2).2 hna) hnot
  · intro x pf hm
    rw [hsent] at hm
    rcases hm with ⟨-, hdst, hm⟩ | hm
    · exact hproof pf hdst.symm hm
    · exact h.unproved x pf hm
  · intro c' k' na hk' hst
    rcases hconn c' k' hk' with rfl | hk'
    · exact hwait na hst
    · exact (hsent _ _ _).mpr (.inr (h.waiting c' k' na hk' hst))
  · intro c' k' hk'
    rcases hconn c' k' hk' with rfl | hk'
    · exact hinc
    · exact h.incomplete c' k' hk'

/-- A step that sends nothing. -/
theorem Safe.update_silent {e : Id} {w : World Id Nonce Key} (h : Safe e w) {c : Nat}
    {k : Conn Id Nonce Key} {src dst : Id} {nonces : List Nonce}
    (hwait : ∀ na, k.initiatorState = .waitAck na →
      (k.initiator, k.acceptor, .hello na) ∈ w.sent)
    (hinc : (k.acceptor = w.adversary → k.initiatorState ≠ .ok) ∧
      (k.initiator = w.adversary → k.acceptorState ≠ .ok)) :
    Safe e (w.update c k src dst [] nonces) :=
  h.update (by simp) (by simp) (by simp) hwait hinc

variable [DecidableEq Nonce] [DecidableEq Key]

/-- What an end reads from the adversary, the adversary can send. -/
theorem canSend_of_arrive {w : World Id Nonce Key} {queue rest : List (HsMsg Id Nonce Key)}
    {msg : HsMsg Id Nonce Key} (h : w.arrive w.adversary queue msg = some rest) :
    w.CanSend msg := by
  by_contra hn
  simp [arrive, hn] at h

omit [DecidableEq Key] in
theorem Safe.dial {e : Id} {w w' : World Id Nonce Key} (h : Safe e w) {c : Nat} {a b : Id}
    {nonce : Nonce} (hs : w.dial c a b nonce = some w') : Safe e w' := by
  unfold World.dial at hs
  split at hs
  · cases hs
  split at hs
  · obtain rfl := Option.some.inj hs
    exact h.update_silent (by simp) (by simp)
  split at hs
  · cases hs
  · rename_i hfresh
    obtain rfl := Option.some.inj hs
    refine h.update ?_ (by simp) (by simp) ?_ ⟨by simp, ?_⟩
    · intro n hn
      obtain rfl : n = nonce := by simpa using hn
      exact ⟨List.mem_singleton_self _, hfresh⟩
    · rintro na hna
      obtain rfl : nonce = na := by simpa using hna
      simp [World.update]
    · split <;> simp

theorem Safe.deliverInitiator {e : Id} {w w' : World Id Nonce Key} (h : Safe e w) {c : Nat}
    {k : Conn Id Nonce Key} {msg : HsMsg Id Nonce Key} (hk : w.conns[c]? = some k)
    (hs : w.deliverInitiator c k msg = some w') : Safe e w' := by
  have hinc := h.incomplete c k hk
  unfold World.deliverInitiator at hs
  split at hs
  · rename_i nonceA rest hst harr
    dsimp only at hs
    split at hs
    · obtain rfl := Option.some.inj hs
      exact h.update_silent (by simp) ⟨by simp, hinc.2⟩
    · rename_i reply hread
      obtain rfl := Option.some.inj hs
      -- the initiator accepts only a proof that answers its challenge
      unfold initiatorRead at hread
      split at hread
      · rename_i nonceB theirProof
        split at hread
        · rename_i hpf
          have hne : k.acceptor ≠ w.adversary := by
            intro heq
            rw [heq] at harr
            have hd := canSend_of_arrive harr theirProof rfl
            rw [← hpf, heq] at hd
            refine h.not_derivable_resp ?_ hd
            rw [← heq]
            exact h.waiting c k nonceA hk hst
          obtain rfl := Except.ok.inj hread
          refine h.update (by simp) (by simp) (fun _ heq => absurd heq hne) (by simp)
            ⟨fun heq => absurd heq hne, hinc.2⟩
        · cases hread
      · cases hread
  · cases hs

theorem Safe.deliverAcceptor {e : Id} {w w' : World Id Nonce Key} (h : Safe e w) {c : Nat}
    {k : Conn Id Nonce Key} {msg : HsMsg Id Nonce Key} {nonce : Nonce}
    (hk : w.conns[c]? = some k) (hok : NoReflection w (.deliverAcceptor c msg nonce))
    (hs : w.deliverAcceptor c k msg nonce = some w') : Safe e w' := by
  have hinc := h.incomplete c k hk
  have hwait := h.waiting c k
  unfold World.deliverAcceptor at hs
  split at hs
  · split at hs
    · cases hs
    · dsimp only at hs
      split at hs
      · obtain rfl := Option.some.inj hs
        exact h.update_silent (fun na hna => hwait na hk hna) ⟨hinc.1, by simp⟩
      · rename_i nonceA reply hread
        obtain rfl := Option.some.inj hs
        unfold acceptorHello at hread
        split at hread
        · obtain ⟨rfl, rfl⟩ := Prod.mk.inj (Except.ok.inj hread)
          refine h.update (by simp) ?_ (by simp) (fun na hna => ?_) ⟨hinc.1, by simp⟩
          · intro nb pf heq hmem
            obtain ⟨rfl, rfl⟩ := HsMsg.helloAck.inj (List.mem_singleton.mp hmem)
            exact ⟨_, by simp [HsMsg.nonce?], by rw [heq], by simp, hok k hk heq⟩
          · exact List.mem_append_right _ (hwait na hk hna)
        · cases hread
  · rename_i nonceA nonceB rest hst harr
    dsimp only at hs
    split at hs
    · obtain rfl := Option.some.inj hs
      exact h.update_silent (fun na hna => hwait na hk hna) ⟨hinc.1, by simp⟩
    · rename_i hread
      obtain rfl := Option.some.inj hs
      unfold acceptorProof at hread
      split at hread
      · rename_i theirProof
        split at hread
        · rename_i hpf
          refine h.update_silent (fun na hna => hwait na hk hna) ⟨hinc.1, fun heq _ => ?_⟩
          rw [heq] at harr
          have hd := canSend_of_arrive harr theirProof rfl
          rw [← hpf, heq] at hd
          exact h.not_derivable_init hd
        · cases hread
      · cases hread
  · cases hs

theorem Safe.step {e : Id} {w w' : World Id Nonce Key} {a : HsAct Id Nonce Key} (h : Safe e w)
    (hok : NoReflection w a) (hs : w.step a = some w') : Safe e w' := by
  cases a with
  | dial => exact h.dial hs
  | deliverInitiator c msg =>
      obtain ⟨k, hk, hs⟩ := Option.bind_eq_some_iff.mp hs
      exact h.deliverInitiator hk hs
  | deliverAcceptor c msg nonce =>
      obtain ⟨k, hk, hs⟩ := Option.bind_eq_some_iff.mp hs
      exact h.deliverAcceptor hk hok hs
  | abortInitiator c err =>
      obtain ⟨k, hk, hs⟩ := Option.bind_eq_some_iff.mp hs
      unfold World.abortInitiator at hs
      split at hs
      · obtain rfl := Option.some.inj hs
        exact h.update_silent (by simp) ⟨by simp, (h.incomplete c k hk).2⟩
      · cases hs
  | abortAcceptor c err =>
      obtain ⟨k, hk, hs⟩ := Option.bind_eq_some_iff.mp hs
      unfold World.abortAcceptor at hs
      split at hs
      · obtain rfl := Option.some.inj hs
        exact h.update_silent (fun na hna => h.waiting c k na hk hna)
          ⟨(h.incomplete c k hk).1, by simp⟩
      · obtain rfl := Option.some.inj hs
        exact h.update_silent (fun na hna => h.waiting c k na hk hna)
          ⟨(h.incomplete c k hk).1, by simp⟩
      · cases hs

/-- **Handshake authentication.** In every run in which no node is handed back a nonce it
sent to the adversary, no node completes a handshake with the adversary. -/
theorem no_handshake_of_noReflection (adversary : Id) (auth : Key) (w : World Id Nonce Key)
    (h : Reaches step NoReflection (init adversary auth) w) (me : Id) :
    ¬ w.Completed me adversary := by
  have hinv : Safe adversary w :=
    h.invariant (safe_init adversary auth) fun _ _ _ hv hok hs => hv.step hok hs
  rintro ⟨c, k, hk, hdone⟩
  have hinc := hinv.incomplete c k hk
  rw [hinv.same] at hinc
  rcases hdone with ⟨-, hacc, hst⟩ | ⟨-, hini, hst⟩
  · exact hinc.1 hacc hst
  · exact hinc.2 hini hst

/-- Nodes 0 and 2 complete a handshake, and the adversary 1, which answers node 0 with bytes
of its own making, does not. -/
theorem no_handshake_three_nodes : ∃ w : World Nat Nat Nat,
    Reaches step NoReflection (init 1 99) w ∧ w.Completed 0 2 ∧ ¬ w.Completed 0 1 := by
  have h : (executeChecked step (fun w a => decide (NoReflection w a))
      [.dial 0 0 2 10, .dial 1 0 1 11, .deliverAcceptor 0 (.hello 10) 12,
        .deliverInitiator 0 (.helloAck 12 (proof 99 .resp 0 2 10 12)),
        .deliverInitiator 1 (.helloAck 13 (.raw 5))] (init 1 99)).any
      (fun w => decide (∃ k ∈ w.conns[0]?, k.initiator = 0 ∧ k.acceptor = 2 ∧
        k.initiatorState = .ok)) = true := by
    decide
  obtain ⟨w, hw, hdone⟩ := exists_reaches_of_executeChecked h
  have hrun := hw.mono fun _ _ => of_decide_eq_true
  obtain ⟨k, hk, hst⟩ := of_decide_eq_true hdone
  exact ⟨w, hrun, ⟨0, k, hk, .inl hst⟩, no_handshake_of_noReflection 1 99 w hrun 0⟩

/-! ## Reflection

Node 0 dials the adversary 1 and is dialled by it. The adversary returns the nonce of the
first connection as the challenge of the second, and each answer of node 0 as the answer it
waits for. -/

theorem reflected_handshake : ∃ w : World Nat Nat Nat,
    Reaches step anyStep (init 1 99) w ∧ w.Completed 0 1 := by
  have h : (execute step
      [.dial 0 0 1 10, .dial 1 1 0 0, .deliverAcceptor 1 (.hello 10) 11,
        .deliverInitiator 0 (.helloAck 11 (proof 99 .resp 0 1 10 11)),
        .deliverAcceptor 1 (.proof (proof 99 .init 0 1 10 11)) 12] (init 1 99)).any
      (fun w => decide (∃ k ∈ w.conns[0]?, k.initiator = 0 ∧ k.acceptor = 1 ∧
        k.initiatorState = .ok)) = true := by
    decide
  obtain ⟨w, hw, hdone⟩ := exists_reaches_of_execute anyStep (fun _ _ _ => trivial) h
  obtain ⟨k, hk, hst⟩ := of_decide_eq_true hdone
  exact ⟨w, hw, 0, k, hk, .inl hst⟩

end World

end Tazamun.Handshake
