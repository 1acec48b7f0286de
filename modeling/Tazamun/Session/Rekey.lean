import Tazamun.Basic.Hex
import Tazamun.Daemon.Actor

set_option autoImplicit false

/-! # Changing the keys of a session

`tazamun rekey` (`cli.rs`) revokes a member: one admin makes a new session secret and a new
admin key pair (`rekey_rotate`) and hands every member it keeps a new invite, which each of
them takes over (`rekey_adopt`). Both functions rewrite the state in memory; the files, the
history and the configuration stay.

Keys are 32 bytes. What `iroh` does with them is a parameter (`Iroh`), with the laws the code
relies on: different secret keys have different public keys, what a key signs verifies under
its public key, and a public key is an endpoint id. The text of a ticket is one too
(`TicketCodec`).

The new invite should name the rotating node, so that the kept members can dial it. It does
not: `rekey_rotate` takes the endpoint id, which is a public key already, for a secret key,
and invites to the public key of that. And it looks the endpoint key up after it has rewritten
the state, so that it can fail with half a rotation done. **`rekey_iff`** says when each of
the promises holds.
-/

namespace Tazamun

/-- The role a grant's code stands for; unknown codes are the most restricted role. -/
def NodeRole.fromCode (code : UInt8) : NodeRole :=
  if code = roleEditor then .editor else if code = roleArchive then .archive else .viewer

namespace Rekey

/-! ## Keys and tickets -/

/-- Ed25519 keys, as `iroh` offers them. -/
structure Iroh where
  Signature : Type
  /-- The public key of a secret key. -/
  publicOf : Bytes32 → Bytes32
  /-- The signature of a grant's signing bytes. -/
  sign : Bytes32 → Grant → Signature
  verify : Bytes32 → Grant → Signature → Bool
  /-- `EndpointId::from_bytes` accepts the bytes. -/
  isId : Bytes32 → Bool
  idText : Bytes32 → String
  publicOf_injective : Function.Injective publicOf
  verify_sign : ∀ key grant, verify (publicOf key) grant (sign key grant) = true
  isId_publicOf : ∀ key, isId (publicOf key) = true

variable (I : Iroh)

structure AddrWire where
  id : Bytes32
  relay : Option String
  direct : List String

structure SignedGrant where
  grant : Grant
  sig : I.Signature

variable {I}

def SignedGrant.verify (g : SignedGrant I) (adminPublic : Bytes32) : Bool :=
  I.verify adminPublic g.grant g.sig

def signGrant (adminSecret : Bytes32) (grant : Grant) : SignedGrant I :=
  ⟨grant, I.sign adminSecret grant⟩

@[simp] theorem signGrant_grant (adminSecret : Bytes32) (grant : Grant) :
    (signGrant adminSecret grant : SignedGrant I).grant = grant := rfl

variable (I)

structure Ticket where
  secret : Bytes32
  bootstrap : List AddrWire
  adminPublic : Option Bytes32
  grant : Option (SignedGrant I)
  adminSecret : Option Bytes32

/-- The text of a ticket. -/
structure TicketCodec where
  Text : Type
  encode : Ticket I → Text
  decode : Text → Option (Ticket I)
  decode_encode : ∀ t, decode (encode t) = some t

variable {I}

def mintTicket (sessionSecret : Bytes32) (admin : Option (Bytes32 × Bytes32)) (roleCode : UInt8)
    (inviteId : Nat) (issuedMs ttlMs : U64) (bootstrap : List AddrWire) : Ticket I :=
  match admin with
  | none =>
      { secret := sessionSecret, bootstrap, adminPublic := none, grant := none,
        adminSecret := none }
  | some (signer, adminPublic) =>
      { secret := sessionSecret, bootstrap, adminPublic := some adminPublic
        grant := some (signGrant signer
          { role := roleCode, inviteId, issuedMs, expiryMs := expiryOf issuedMs ttlMs })
        adminSecret := if roleCanEdit roleCode then some signer else none }

/-! ## The state -/

variable (I)

/-- The part of the state file that rekeying reads, writes or promises to leave alone. -/
structure AppState (Id Path : Type) [Ord Id] [Ord Path] where
  irohSecretKey : List UInt8
  sessionSecret : List UInt8
  config : SessionConfig
  files : Map Path (FileRecord Id)
  knownMembers : Map String AddrWire
  history : History Id Path
  unapplied : Map Path (UnappliedEntry Id)
  pulling : Map Path (FileRecord Id)
  adminPublicKey : Option (List UInt8)
  adminSecretKey : Option (List UInt8)
  myGrant : Option (SignedGrant I)

variable {I} {Id Path : Type} [LinearOrder Id] [LinearOrder Path]

inductive CliError where
  | refused (text : String)

namespace AppState

/-- `admin_secret_key`. -/
def adminSecret (a : AppState I Id Path) : Option Bytes32 := a.adminSecretKey.bind decodeHex32

/-- `admin_public_bytes`. -/
def adminPublicBytes (a : AppState I Id Path) : Option Bytes32 :=
  a.adminPublicKey.bind decodeHex32

/-- The id of this node's endpoint: the public key of its secret key. -/
def myEndpointId (a : AppState I Id Path) : Except CliError Bytes32 :=
  match decodeHex32 a.irohSecretKey with
  | none => .error (.refused "state has no valid endpoint key")
  | some key => .ok (I.publicOf key)

end AppState

/-! ## The two sides -/

/-- What `rekey_rotate` draws at random. -/
structure Fresh where
  secret : Bytes32
  admin : Bytes32
  grantId : Nat
  ticketId : Nat

/-- The state with the new keys, a new grant of its own and an empty address book. -/
def rotated (fresh : Fresh) (nowMs : U64) (a : AppState I Id Path) : AppState I Id Path :=
  { a with
    sessionSecret := encodeHex32 fresh.secret
    adminPublicKey := some (encodeHex32 (I.publicOf fresh.admin))
    adminSecretKey := some (encodeHex32 fresh.admin)
    myGrant := some (signGrant fresh.admin
      { role := roleEditor, inviteId := fresh.grantId, issuedMs := nowMs, expiryMs := 0 })
    knownMembers := ∅ }

def rekeyRotate (fresh : Fresh) (nowMs : U64) (a : AppState I Id Path) :
    AppState I Id Path × Except CliError (Ticket I) :=
  match a.adminSecret with
  | none =>
      (a, .error (.refused ("this session predates roles (no admin key), so there is nothing " ++
        "to rotate; rekey needs a session created with a roles-capable build")))
  | some _ =>
      let a := rotated fresh nowMs a
      match a.myEndpointId with
      | .error e => (a, .error e)
      | .ok id =>
          -- the id is a public key; here it is used as a secret key
          let me := I.publicOf id
          (a, .ok (mintTicket fresh.secret (some (fresh.admin, I.publicOf fresh.admin)) roleEditor
            fresh.ticketId nowMs 0 [⟨me, none, []⟩]))

/-- The address book that a ticket's bootstrap makes. -/
def reseed (myId : Bytes32) (bootstrap : List AddrWire) : Map String AddrWire :=
  bootstrap.foldl
    (fun members addr =>
      if addr.id ≠ myId ∧ I.isId addr.id = true then members.insert (I.idText addr.id) addr
      else members)
    ∅

def rekeyAdopt (ticket : Ticket I) (nowMs : U64) (a : AppState I Id Path) :
    AppState I Id Path × Except CliError NodeRole :=
  match ticket.adminPublic, ticket.grant with
  | some adminPublic, some grant =>
      if !grant.verify adminPublic then
        (a, .error (.refused
          "the rekey invite failed signature verification (tampered or wrong session)"))
      else if grant.grant.isExpired nowMs then
        (a, .error (.refused "this rekey invite has expired — ask for a fresh one"))
      else
        let role := NodeRole.fromCode grant.grant.role
        match a.myEndpointId with
        | .error e => (a, .error e)
        | .ok myId =>
            ({ a with
                sessionSecret := encodeHex32 ticket.secret
                adminPublicKey := some (encodeHex32 adminPublic)
                adminSecretKey := ticket.adminSecret.map encodeHex32
                myGrant := some grant
                config := { a.config with role }
                knownMembers := reseed (I := I) myId ticket.bootstrap }, .ok role)
  | _, _ => (a, .error (.refused "rekey --accept needs a v2 invite minted by `tazamun rekey`"))

/-! ## What rekeying promises -/

/-- **After a rotation and its adoption**, from `a` and `b` to `a'` and `b'`. -/
structure Rekeyed (a a' b b' : AppState I Id Path) (role : NodeRole) : Prop where
  secret : a'.sessionSecret = b'.sessionSecret
  adminPublic : a'.adminPublicKey = b'.adminPublicKey
  adminSecret : a'.adminSecretKey = b'.adminSecretKey
  /-- The kept member's grant verifies under the new admin key. -/
  verifies : ∃ grant key, b'.myGrant = some grant ∧ b'.adminPublicBytes = some key ∧
    grant.verify key = true
  editor : role = .editor ∧ b'.config.role = .editor
  /-- The kept member knows the rotating node, and nobody else. -/
  members : ∃ key, decodeHex32 a.irohSecretKey = some key ∧
    b'.knownMembers =
      (∅ : Map String AddrWire).insert (I.idText (I.publicOf key)) ⟨I.publicOf key, none, []⟩
  keptA : a'.files = a.files ∧ a'.history = a.history ∧ a'.unapplied = a.unapplied ∧
    a'.pulling = a.pulling ∧ a'.config = a.config ∧ a'.irohSecretKey = a.irohSecretKey
  keptB : b'.files = b.files ∧ b'.history = b.history ∧ b'.unapplied = b.unapplied ∧
    b'.pulling = b.pulling ∧ b'.config = { b.config with role := b'.config.role } ∧
      b'.irohSecretKey = b.irohSecretKey

/-- Whatever the two sides return `Ok` for is a complete rekeying. -/
def RoundTrip (codec : TicketCodec I) (a b : AppState I Id Path) (fresh : Fresh)
    (now now' : U64) : Prop :=
  ∀ a' t t' b' role, rekeyRotate fresh now a = (a', .ok t) →
    codec.decode (codec.encode t) = some t' → rekeyAdopt t' now' b = (b', .ok role) →
      Rekeyed a a' b b' role

/-- A function that fails leaves the state as it was. -/
def KeptOnError {α : Type} (a : AppState I Id Path)
    (result : AppState I Id Path × Except CliError α) : Prop :=
  ∀ e, result.2 = .error e → result.1 = a

variable (I Id Path)

/-- A node that holds the admin key and a member it keeps, both with an endpoint key of their
own. -/
structure Pair where
  a : AppState I Id Path
  b : AppState I Id Path
  admin : Bytes32
  keyA : Bytes32
  keyB : Bytes32
  holds : a.adminSecret = some admin
  validA : decodeHex32 a.irohSecretKey = some keyA
  validB : decodeHex32 b.irohSecretKey = some keyB
  differ : keyA ≠ keyB

variable {I Id Path}

/-! ## Rotating -/

theorem myEndpointId_of_valid {a : AppState I Id Path} {key : Bytes32}
    (h : decodeHex32 a.irohSecretKey = some key) : a.myEndpointId = .ok (I.publicOf key) := by
  rw [AppState.myEndpointId, h]

/-- The invite of a rotation. -/
def inviteOf (fresh : Fresh) (nowMs : U64) (key : Bytes32) : Ticket I :=
  mintTicket fresh.secret (some (fresh.admin, I.publicOf fresh.admin)) roleEditor fresh.ticketId
    nowMs 0 [⟨I.publicOf (I.publicOf key), none, []⟩]

theorem rekeyRotate_ok {a : AppState I Id Path} {admin key : Bytes32} (fresh : Fresh)
    (nowMs : U64) (hadmin : a.adminSecret = some admin)
    (hkey : decodeHex32 a.irohSecretKey = some key) :
    rekeyRotate fresh nowMs a = (rotated fresh nowMs a, .ok (inviteOf fresh nowMs key)) := by
  have hid : (rotated fresh nowMs a).myEndpointId = .ok (I.publicOf key) :=
    myEndpointId_of_valid hkey
  simp only [rekeyRotate, hadmin, hid, inviteOf]

/-- Without an endpoint key the state is rewritten before the rotation fails. -/
theorem rekeyRotate_noKey {a : AppState I Id Path} {admin : Bytes32} (fresh : Fresh)
    (nowMs : U64) (hadmin : a.adminSecret = some admin)
    (hkey : decodeHex32 a.irohSecretKey = none) :
    rekeyRotate fresh nowMs a =
      (rotated fresh nowMs a, .error (.refused "state has no valid endpoint key")) := by
  have hid : (rotated fresh nowMs a).myEndpointId =
      .error (.refused "state has no valid endpoint key") := by
    rw [AppState.myEndpointId]
    show (match decodeHex32 a.irohSecretKey with
      | none => _
      | some key => _) = _
    rw [hkey]
  simp only [rekeyRotate, hadmin, hid]

/-! ## Adopting -/

theorem rekeyAdopt_invite {b : AppState I Id Path} {keyB : Bytes32} (fresh : Fresh)
    (now now' : U64) (keyA : Bytes32) (hkey : decodeHex32 b.irohSecretKey = some keyB) :
    rekeyAdopt (inviteOf fresh now keyA) now' b =
      ({ b with
          sessionSecret := encodeHex32 fresh.secret
          adminPublicKey := some (encodeHex32 (I.publicOf fresh.admin))
          adminSecretKey := some (encodeHex32 fresh.admin)
          myGrant := some (signGrant fresh.admin
            { role := roleEditor, inviteId := fresh.ticketId, issuedMs := now, expiryMs := 0 })
          config := { b.config with role := .editor }
          knownMembers := reseed (I := I) (I.publicOf keyB)
            [⟨I.publicOf (I.publicOf keyA), none, []⟩] }, .ok .editor) := by
  have hid := myEndpointId_of_valid hkey
  have hverify (grant : Grant) :
      (signGrant fresh.admin grant : SignedGrant I).verify (I.publicOf fresh.admin) = true :=
    I.verify_sign _ _
  have hexpiry : expiryOf now 0 = 0 := if_pos rfl
  simp only [rekeyAdopt, inviteOf, mintTicket, hexpiry, hverify, hid, roleCanEdit,
    NodeRole.fromCode]
  simp [Grant.isExpired]

/-- The address book a rotation leaves behind holds one id, which is the rotating node's
exactly when its endpoint key is its own public key. -/
theorem reseed_iff {keyA keyB : Bytes32} (hdiffer : keyA ≠ keyB) :
    reseed (I := I) (I.publicOf keyB) [⟨I.publicOf (I.publicOf keyA), none, []⟩] =
        (∅ : Map String AddrWire).insert (I.idText (I.publicOf keyA))
          ⟨I.publicOf keyA, none, []⟩ ↔
      I.publicOf keyA = keyA := by
  have hA : I.publicOf keyA ≠ I.publicOf keyB := fun h => hdiffer (I.publicOf_injective h)
  constructor
  · intro h
    have hget : (reseed (I := I) (I.publicOf keyB)
        [⟨I.publicOf (I.publicOf keyA), none, []⟩])[I.idText (I.publicOf keyA)]? =
          some ⟨I.publicOf keyA, none, []⟩ := by
      rw [h, Map.get_insert_self]
    simp only [reseed, List.foldl_cons, List.foldl_nil, I.isId_publicOf, and_true] at hget
    split at hget
    · rw [Map.get_insert] at hget
      split at hget
      · -- the one entry carries the id it was made of
        have hsame := congrArg AddrWire.id (Option.some.inj hget)
        exact I.publicOf_injective hsame
      · simp at hget
    · simp at hget
  · intro h
    have hid : I.publicOf (I.publicOf keyA) ≠ I.publicOf keyB := by
      rw [h]
      exact hA
    rw [reseed, List.foldl_cons, List.foldl_nil, if_pos ⟨hid, I.isId_publicOf _⟩, h, h]

/-- **The round trip** is complete exactly when the rotating node's endpoint key is its own
public key. -/
theorem roundTrip_iff (codec : TicketCodec I) (p : Pair I Id Path) (fresh : Fresh)
    (now now' : U64) :
    RoundTrip codec p.a p.b fresh now now' ↔ I.publicOf p.keyA = p.keyA := by
  have hrotate := rekeyRotate_ok fresh now p.holds p.validA
  have hdecode := codec.decode_encode (inviteOf fresh now p.keyA)
  have hadopt := rekeyAdopt_invite fresh now now' p.keyA p.validB
  rw [← reseed_iff p.differ]
  constructor
  · intro h
    obtain ⟨key, hkey, hmembers⟩ := (h _ _ _ _ _ hrotate hdecode hadopt).members
    rw [p.validA, Option.some.injEq] at hkey
    rw [← hkey] at hmembers
    exact hmembers
  · intro h a' t t' b' role ha ht hb
    rw [hrotate, Prod.mk.injEq, Except.ok.injEq] at ha
    obtain ⟨rfl, rfl⟩ := ha
    rw [hdecode, Option.some.injEq] at ht
    subst ht
    rw [hadopt, Prod.mk.injEq, Except.ok.injEq] at hb
    obtain ⟨rfl, rfl⟩ := hb
    refine ⟨rfl, rfl, rfl, ⟨_, _, rfl, ?_, I.verify_sign _ _⟩, ⟨rfl, rfl⟩, ⟨_, p.validA, h⟩,
      ⟨rfl, rfl, rfl, rfl, rfl, rfl⟩, ⟨rfl, rfl, rfl, rfl, rfl, rfl⟩⟩
    exact decodeHex32_encodeHex32 _

/-! ## Failing -/

/-- The state already has the values that a rotation would put in. -/
def AlreadyRotated (fresh : Fresh) (nowMs : U64) (a : AppState I Id Path) : Prop :=
  a.sessionSecret = encodeHex32 fresh.secret ∧
    a.adminPublicKey = some (encodeHex32 (I.publicOf fresh.admin)) ∧
    a.adminSecretKey = some (encodeHex32 fresh.admin) ∧
    a.myGrant = some (signGrant fresh.admin
      { role := roleEditor, inviteId := fresh.grantId, issuedMs := nowMs, expiryMs := 0 }) ∧
    a.knownMembers = ∅

theorem rotated_eq_iff (fresh : Fresh) (nowMs : U64) (a : AppState I Id Path) :
    rotated fresh nowMs a = a ↔ AlreadyRotated fresh nowMs a := by
  cases a
  simp only [rotated, AlreadyRotated, AppState.mk.injEq, true_and]
  constructor
  · rintro ⟨h1, h2, h3, h4, h5⟩
    exact ⟨h1.symm, h3.symm, h4.symm, h5.symm, h2.symm⟩
  · rintro ⟨h1, h3, h4, h5, h2⟩
    exact ⟨h1.symm, h2.symm, h3.symm, h4.symm, h5.symm⟩

/-- A failed rotation leaves the state alone unless the node holds the admin key and has no
valid endpoint key. -/
theorem rekeyRotate_keptOnError_iff (fresh : Fresh) (nowMs : U64) (a : AppState I Id Path) :
    KeptOnError a (rekeyRotate fresh nowMs a) ↔
      a.adminSecret = none ∨ decodeHex32 a.irohSecretKey ≠ none ∨
        AlreadyRotated fresh nowMs a := by
  cases hadmin : a.adminSecret with
  | none =>
      simp only [true_or, iff_true]
      intro e _
      simp only [rekeyRotate, hadmin]
  | some admin =>
      cases hkey : decodeHex32 a.irohSecretKey with
      | some key =>
          simp only [ne_eq, reduceCtorEq, not_false_eq_true, true_or, or_true, iff_true]
          intro e he
          rw [rekeyRotate_ok fresh nowMs hadmin hkey] at he
          cases he
      | none =>
          simp only [reduceCtorEq, ne_eq, not_true_eq_false, false_or]
          rw [← rotated_eq_iff, KeptOnError, rekeyRotate_noKey fresh nowMs hadmin hkey]
          constructor
          · intro h
            exact h _ rfl
          · intro h e _
            exact h

/-- Adopting checks everything before it changes anything. -/
theorem rekeyAdopt_keptOnError (ticket : Ticket I) (nowMs : U64) (b : AppState I Id Path) :
    KeptOnError b (rekeyAdopt ticket nowMs b) := by
  intro e
  unfold rekeyAdopt
  split
  · split
    · exact fun _ => rfl
    · split
      · exact fun _ => rfl
      · cases hid : b.myEndpointId with
        | error e' => exact fun _ => rfl
        | ok myId =>
            intro he
            cases he
  · exact fun _ => rfl

/-- **What rekeying keeps of its promises.** The round trip is complete exactly when the
endpoint key of the rotating node is its own public key, a failed rotation leaves the state
alone exactly when no admin key or a valid endpoint key is there (or the state has the new
values already), and a failed adoption always does. -/
theorem rekey_iff (codec : TicketCodec I) :
    (∀ (p : Pair I Id Path) (fresh : Fresh) (now now' : U64),
      RoundTrip codec p.a p.b fresh now now' ↔ I.publicOf p.keyA = p.keyA) ∧
    (∀ (a : AppState I Id Path) (fresh : Fresh) (now : U64),
      KeptOnError a (rekeyRotate fresh now a) ↔
        a.adminSecret = none ∨ decodeHex32 a.irohSecretKey ≠ none ∨
          AlreadyRotated fresh now a) ∧
    (∀ (b : AppState I Id Path) (ticket : Ticket I) (now : U64),
      KeptOnError b (rekeyAdopt ticket now b)) :=
  ⟨roundTrip_iff codec, fun a fresh now => rekeyRotate_keptOnError_iff fresh now a,
    fun b ticket now => rekeyAdopt_keptOnError ticket now b⟩

/-! ## No key scheme saves it -/

/-- Keys of which the public one is the secret one with every byte counted up. -/
def symbolicIroh : Iroh where
  Signature := Bytes32 × Grant
  publicOf key := key.map fun b => b + 1
  sign key grant := (key.map fun b => b + 1, grant)
  verify key grant sig := decide (sig.1 = key ∧ sig.2 = grant)
  isId _ := true
  idText _ := ""
  publicOf_injective := by
    intro key key' h
    have hlist := congrArg List.Vector.toList h
    rw [List.Vector.toList_map, List.Vector.toList_map] at hlist
    have hadd : Function.Injective fun b : UInt8 => b + 1 := fun b b' hb => by
      rw [← UInt8.add_sub_cancel b 1, ← UInt8.add_sub_cancel b' 1]
      exact congrArg (fun c => c - 1) hb
    exact List.Vector.toList_injective (List.map_injective_iff.mpr hadd hlist)
  verify_sign _ _ := by simp
  isId_publicOf _ := rfl

/-- A ticket that is its own text. -/
def plainCodec (I : Iroh) : TicketCodec I where
  Text := Ticket I
  encode t := t
  decode := some
  decode_encode _ := rfl

/-- The state of a node that has just been initialised. -/
def initialState (I : Iroh) (key : Bytes32) : AppState I Nat Nat where
  irohSecretKey := encodeHex32 key
  sessionSecret := encodeHex32 key
  config :=
    { role := .editor, strict := true, autolock := false, historyDepth := 0, leaseTtlMs := 90000
      acquireTimeoutMs := 8000, waitTimeoutMs := 600000, junkFilter := true, syncOnly := ""
      syncSkip := "", maxFileSize := 0 }
  files := ∅
  knownMembers := ∅
  history := ∅
  unapplied := ∅
  pulling := ∅
  adminPublicKey := some (encodeHex32 (I.publicOf key))
  adminSecretKey := some (encodeHex32 key)
  myGrant := none

/-- Two nodes that have just been initialised, with the keys `key` and its public key. -/
def initialPair (I : Iroh) {key : Bytes32} (h : I.publicOf key ≠ key) : Pair I Nat Nat where
  a := initialState I key
  b := initialState I (I.publicOf key)
  admin := key
  keyA := key
  keyB := I.publicOf key
  holds := decodeHex32_encodeHex32 key
  validA := decodeHex32_encodeHex32 key
  validB := decodeHex32_encodeHex32 _
  differ := h.symm

/-- **Whatever the keys**, as long as one of them is not its own public key, some rotation
strands the members it keeps. -/
theorem rekey_strands :
    (∃ (I : Iroh) (_ : TicketCodec I) (key : Bytes32), I.publicOf key ≠ key) ∧
      ¬ ∃ (I : Iroh) (codec : TicketCodec I), (∃ key, I.publicOf key ≠ key) ∧
        ∀ (p : Pair I Nat Nat) (fresh : Fresh) (now now' : U64),
          RoundTrip codec p.a p.b fresh now now' := by
  constructor
  · exact ⟨symbolicIroh, plainCodec _, List.Vector.replicate 32 0, by decide⟩
  · rintro ⟨I, codec, ⟨key, hkey⟩, h⟩
    have hround := h (initialPair I hkey) ⟨key, key, 0, 1⟩ 0 0
    exact hkey (((rekey_iff codec).1 (initialPair I hkey) _ _ _).mp hround)

end Rekey

end Tazamun
