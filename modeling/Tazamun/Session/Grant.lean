import Tazamun.Basic.Types

set_option autoImplicit false

/-! # Capability grants

The role an invite confers (`session.rs`): a `Grant` names a role, an invite id and a
validity period, and is signed by the session's admin key. What is signed is all there is in
a grant: it names no endpoint.

Signatures are symbolic. A key pair is named by one symbol, for its public and its secret
half alike; `signed key g` is the signature of `g`'s signing bytes under the secret half,
and nothing else verifies under the public one. The signing bytes are a label followed by
the encoded grant, so they determine the grant.
-/

namespace Tazamun

/-- The wire codes of the roles. -/
def roleEditor : UInt8 := 0
def roleViewer : UInt8 := 1
def roleArchive : UInt8 := 2

/-- Whether a role code may take leases and publish edits. -/
def roleCanEdit (code : UInt8) : Bool := code == roleEditor

/-- The capability a ticket confers. `expiryMs = 0` means it never expires. -/
structure Grant where
  role : UInt8
  inviteId : Nat
  issuedMs : U64
  expiryMs : U64
deriving DecidableEq

def Grant.isExpired (g : Grant) (nowMs : U64) : Bool :=
  decide (g.expiryMs ≠ 0 ∧ g.expiryMs ≤ nowMs)

/-- A signature of a grant's signing bytes, or bytes that are none. -/
inductive Signature (Key : Type) where
  | signed (key : Key) (grant : Grant)
  | raw (bytes : Nat)
deriving DecidableEq

/-- The signature was made with the secret half of `key`. -/
def Signature.isBy {Key : Type} (sig : Signature Key) (key : Key) : Prop :=
  match sig with
  | .signed k _ => k = key
  | .raw _ => False

instance {Key : Type} [DecidableEq Key] (sig : Signature Key) (key : Key) :
    Decidable (sig.isBy key) :=
  match sig with
  | .signed k _ => inferInstanceAs (Decidable (k = key))
  | .raw _ => isFalse id

structure SignedGrant (Key : Type) where
  grant : Grant
  sig : Signature Key
deriving DecidableEq

variable {Key : Type} [DecidableEq Key]

/-- Verifies the signature against the admin public key. -/
def SignedGrant.verify (g : SignedGrant Key) (adminPublic : Key) : Bool :=
  decide (g.sig = .signed adminPublic g.grant)

/-- Signs `grant` with the admin secret key. -/
def signGrant (adminSecret : Key) (grant : Grant) : SignedGrant Key :=
  ⟨grant, .signed adminSecret grant⟩

/-- The part of an invite ticket that is about roles. -/
structure Ticket (Key : Type) where
  adminPublic : Key
  grant : SignedGrant Key
  adminSecret : Option Key

/-- `issued_ms.saturating_add(ttl_ms)`, with `0` for an invite without a TTL. -/
def expiryOf (issuedMs ttlMs : U64) : U64 :=
  if ttlMs = 0 then 0
  else if issuedMs.val + ttlMs.val ≤ U64.max.val then issuedMs + ttlMs else U64.max

/-- `mint_ticket` of a session with roles: only an editor's invite carries the secret key. -/
def mintTicket (signer adminPublic : Key) (roleCode : UInt8) (inviteId : Nat)
    (issuedMs ttlMs : U64) : Ticket Key where
  adminPublic := adminPublic
  grant := signGrant signer
    { role := roleCode, inviteId, issuedMs, expiryMs := expiryOf issuedMs ttlMs }
  adminSecret := if roleCanEdit roleCode then some signer else none

end Tazamun
