import Tazamun.Lib.Base32
import Tazamun.Lib.Codec
import Tazamun.Query.Pattern
import Tazamun.Session.Rekey

set_option autoImplicit false

/-! # The text of a ticket

A ticket is handed on as text (`session.rs`): the prefix `tzm1` and, in base 32 and lower case,
the bytes of one of two shapes. A ticket with an admin public key and a grant is written in the
second shape, any other in the first, which has room for the session secret and the addresses
only. Both shapes start with their version, and the reader tells them apart by the first byte.

The bytes of a shape are `postcard`'s. It is a parameter (`Postcard`), with the laws the code
relies on: a value is always written, its version is the first byte, and reading the bytes gives
the value back. An invite id has sixteen bytes, and the law is about such ids. Changing the case
of a text is what Rust does on ASCII text; on other texts it is a parameter (`Casing`) of which
nothing is assumed.

`Ticket::new` and `mint_ticket` make tickets that one of the shapes can hold (`Ticket.Whole`),
and these are read back from their text, also with white space around it and with the letters of
the body in upper case: **`ticket_codec`**.
-/

namespace Tazamun

namespace Rekey

variable (I : Iroh)

/-! ## The two shapes -/

structure TicketWireV1 where
  version : UInt8
  secret : Bytes32
  bootstrap : List AddrWire

structure TicketWireV2 where
  version : UInt8
  secret : Bytes32
  adminPublic : Bytes32
  grant : SignedGrant I
  adminSecret : Option Bytes32
  bootstrap : List AddrWire

/-- `postcard` at one type, of whose values `valid` exist: `to_stdvec` and `from_bytes`. -/
structure Postcard (α : Type) (version : α → UInt8) (valid : α → Prop) where
  toStdvec : α → Option (List UInt8)
  fromBytes : List UInt8 → Option α
  fromBytes_toStdvec : ∀ a, valid a →
    ∃ bytes, toStdvec a = some bytes ∧ bytes.head? = some (version a) ∧ fromBytes bytes = some a

/-- The invite id has sixteen bytes. -/
def SignedGrant.HasId {I : Iroh} (g : SignedGrant I) : Prop := g.grant.inviteId < 256 ^ 16

structure WireFormat where
  v1 : Postcard TicketWireV1 (fun w => w.version) (fun _ => True)
  v2 : Postcard (TicketWireV2 I) (fun w => w.version) (fun w => w.grant.HasId)

/-- `str::to_uppercase` and `str::to_lowercase` on texts that are not ASCII. -/
structure Casing where
  upper : List Char → List Char
  lower : List Char → List Char

def Casing.toUppercase (casing : Casing) (s : List Char) : List Char :=
  if isAscii s then s.map Char.toUpper else casing.upper s

def Casing.toLowercase (casing : Casing) (s : List Char) : List Char :=
  if isAscii s then s.map Char.toLower else casing.lower s

variable {I}

/-! ## Writing and reading -/

def ticketPrefix : List Char := ['t', 'z', 'm', '1']

inductive TicketError where
  | badPrefix
  | badEncoding
  | badVersion (version : UInt8)
  | malformed
deriving DecidableEq

/-- `Ticket::new`: a ticket of a session without roles. -/
def Ticket.new (secret : Bytes32) (bootstrap : List AddrWire) : Ticket I where
  secret := secret
  bootstrap := bootstrap
  adminPublic := none
  grant := none
  adminSecret := none

/-- The bytes of a ticket; those of a value that cannot be written are empty. -/
def Ticket.bytes (wire : WireFormat I) (t : Ticket I) : List UInt8 :=
  match t.adminPublic, t.grant with
  | some adminPublic, some grant =>
      (wire.v2.toStdvec
        { version := 2, secret := t.secret, adminPublic, grant, adminSecret := t.adminSecret
          bootstrap := t.bootstrap }).getD []
  | _, _ =>
      (wire.v1.toStdvec { version := 1, secret := t.secret, bootstrap := t.bootstrap }).getD []

/-- What follows the prefix. -/
def Ticket.body (casing : Casing) (wire : WireFormat I) (t : Ticket I) : List Char :=
  casing.toLowercase (Lib.Base32.encode (t.bytes wire))

def Ticket.encode (casing : Casing) (wire : WireFormat I) (t : Ticket I) : List Char :=
  ticketPrefix ++ t.body casing wire

/-- `str::strip_prefix`, at the prefix of a ticket. -/
def strip (s : List Char) : Option (List Char) :=
  if ticketPrefix <+: s then some (s.drop ticketPrefix.length) else none

/-- The ticket of some bytes, of the shape that the first byte tells. -/
def Ticket.ofBytes (wire : WireFormat I) (bytes : List UInt8) : Except TicketError (Ticket I) :=
  match bytes.head? with
  | some version =>
      if version = 1 then
        match wire.v1.fromBytes bytes with
        | none => .error .malformed
        | some w => .ok (Ticket.new w.secret w.bootstrap)
      else if version = 2 then
        match wire.v2.fromBytes bytes with
        | none => .error .malformed
        | some w =>
            .ok { secret := w.secret, bootstrap := w.bootstrap, adminPublic := some w.adminPublic
                  grant := some w.grant, adminSecret := w.adminSecret }
      else .error (.badVersion version)
  | none => .error .malformed

def Ticket.decode (casing : Casing) (wire : WireFormat I) (s : List Char) :
    Except TicketError (Ticket I) :=
  match strip (trim s) with
  | none => .error .badPrefix
  | some body =>
      match Lib.Base32.decode (casing.toUppercase body) with
      | none => .error .badEncoding
      | some bytes => Ticket.ofBytes wire bytes

/-! ## The bytes -/

/-- One of the shapes holds all of the ticket. -/
def Ticket.Whole (t : Ticket I) : Prop :=
  (t.adminPublic = none ∧ t.grant = none ∧ t.adminSecret = none) ∨
    ∃ adminPublic grant, t.adminPublic = some adminPublic ∧ t.grant = some grant ∧ grant.HasId

theorem Ticket.ofBytes_bytes (wire : WireFormat I) {t : Ticket I} (h : t.Whole) :
    Ticket.ofBytes wire (t.bytes wire) = .ok t := by
  obtain ⟨secret, bootstrap, adminPublic, grant, adminSecret⟩ := t
  rcases h with ⟨rfl, rfl, rfl⟩ | ⟨adminPublic, grant, rfl, rfl, hid⟩
  · obtain ⟨bytes, hwrite, hhead, hread⟩ :=
      wire.v1.fromBytes_toStdvec { version := 1, secret, bootstrap } trivial
    have hbytes : Ticket.bytes wire (Ticket.new secret bootstrap) = bytes := by
      simp only [Ticket.bytes, Ticket.new, hwrite, Option.getD_some]
    show Ticket.ofBytes wire (Ticket.bytes wire (Ticket.new secret bootstrap)) = _
    rw [hbytes, Ticket.ofBytes, hhead]
    simp only [if_true, hread]
    rfl
  · obtain ⟨bytes, hwrite, hhead, hread⟩ := wire.v2.fromBytes_toStdvec
      { version := 2, secret, adminPublic, grant, adminSecret, bootstrap } hid
    have hbytes : Ticket.bytes wire
        { secret, bootstrap, adminPublic := some adminPublic, grant := some grant, adminSecret }
          = bytes := by
      simp only [Ticket.bytes, hwrite, Option.getD_some]
    have htwo : ¬ (2 : UInt8) = 1 := by decide
    rw [hbytes, Ticket.ofBytes, hhead]
    simp only [if_neg htwo, if_true, hread]

/-! ## Case and white space -/

/-- The two texts differ in the case of letters only. -/
def SameButCase (s s' : List Char) : Prop := s.map Char.toUpper = s'.map Char.toUpper

open Lib.Base32 (symbol)

theorem toUpper_toLower_symbol {n : Nat} (h : n < 32) : (symbol n).toLower.toUpper = symbol n := by
  interval_cases n <;> rfl

theorem symbol_range {n : Nat} (h : n < 32) : 50 ≤ (symbol n).toNat ∧ (symbol n).toNat ≤ 90 := by
  interval_cases n <;> decide

/-- A character whose upper case is in the alphabet. -/
theorem range_of_toUpper {c : Char} {n : Nat} (hn : n < 32) (h : c.toUpper = symbol n) :
    50 ≤ c.toNat ∧ c.toNat ≤ 122 := by
  by_cases hlower : 'a'.val ≤ c.val ∧ c.val ≤ 'z'.val
  · have hlow : 97 ≤ c.toNat := hlower.1
    have hhigh : c.toNat ≤ 122 := hlower.2
    omega
  · have hsame : c.toUpper = c := dif_neg hlower
    have hrange := symbol_range hn
    rw [← h, hsame] at hrange
    omega

/-- A body is read as the bytes it was written from, whatever the case of its letters. -/
theorem decode_toUppercase (casing : Casing) (wire : WireFormat I) {t : Ticket I}
    {body : List Char} (h : SameButCase body (t.body casing wire)) :
    Lib.Base32.decode (casing.toUppercase body) = some (t.bytes wire) ∧
      ∀ c ∈ body, isWhitespace c = false := by
  set text := Lib.Base32.encode (t.bytes wire) with htext
  have hascii : isAscii text = true := by
    refine List.all_eq_true.mpr fun c hc => ?_
    obtain ⟨n, hn, rfl⟩ := Lib.Base32.mem_encode hc
    have hrange := symbol_range hn
    exact decide_eq_true (by omega)
  have hlower : t.body casing wire = text.map Char.toLower := if_pos hascii
  have hupper : body.map Char.toUpper = text := by
    have hsame : body.map Char.toUpper = (text.map Char.toLower).map Char.toUpper := by
      rw [← hlower]
      exact h
    rw [hsame, List.map_map]
    conv_rhs => rw [← List.map_id text]
    refine List.map_congr_left fun c hc => ?_
    obtain ⟨n, hn, rfl⟩ := Lib.Base32.mem_encode hc
    exact toUpper_toLower_symbol hn
  have hrange : ∀ c ∈ body, 50 ≤ c.toNat ∧ c.toNat ≤ 122 := by
    intro c hc
    have hmem : c.toUpper ∈ text := by
      rw [← hupper]
      exact List.mem_map_of_mem hc
    obtain ⟨n, hn, heq⟩ := Lib.Base32.mem_encode hmem
    exact range_of_toUpper hn heq
  have hbody : isAscii body = true := by
    refine List.all_eq_true.mpr fun c hc => decide_eq_true ?_
    have hc' := hrange c hc
    omega
  refine ⟨?_, fun c hc => isWhitespace_of_range ?_⟩
  · rw [Casing.toUppercase, if_pos hbody, hupper, htext, Lib.Base32.decode_encode]
  · have hc' := hrange c hc
    omega

/-! ## What is read back -/

/-- The text of the ticket gives the ticket back, with any white space around it and with the
letters of the body in either case. -/
def Ticket.Restored (casing : Casing) (wire : WireFormat I) (t : Ticket I) : Prop :=
  ∀ before body after : List Char,
    (∀ c ∈ before, isWhitespace c = true) → (∀ c ∈ after, isWhitespace c = true) →
      SameButCase body (t.body casing wire) →
        Ticket.decode casing wire (before ++ (ticketPrefix ++ body) ++ after) = .ok t

theorem Ticket.Whole.restored (casing : Casing) (wire : WireFormat I) {t : Ticket I}
    (h : t.Whole) : t.Restored casing wire := by
  intro before body after hbefore hafter hsame
  obtain ⟨hdecode, hplain⟩ := decode_toUppercase casing wire hsame
  have hcore : ∀ c ∈ ticketPrefix ++ body, isWhitespace c = false := by
    intro c hc
    rcases List.mem_append.mp hc with hprefix | hbody
    · simp only [ticketPrefix, List.mem_cons, List.not_mem_nil, or_false] at hprefix
      rcases hprefix with rfl | rfl | rfl | rfl <;> rfl
    · exact hplain c hbody
  have hstrip : strip (ticketPrefix ++ body) = some body := by
    rw [strip, if_pos (List.prefix_append _ _), List.drop_left]
  rw [Ticket.decode, trim_surrounded hbefore hafter hcore]
  simp only [hstrip, hdecode, Ticket.ofBytes_bytes wire h]

/-- As it was written. -/
theorem Ticket.Restored.encode {casing : Casing} {wire : WireFormat I} {t : Ticket I}
    (h : t.Restored casing wire) : Ticket.decode casing wire (t.encode casing wire) = .ok t := by
  have hplain := h [] (t.body casing wire) [] (by simp) (by simp) rfl
  rwa [List.nil_append, List.append_nil] at hplain

theorem Ticket.new_whole (secret : Bytes32) (bootstrap : List AddrWire) :
    (Ticket.new secret bootstrap : Ticket I).Whole := .inl ⟨rfl, rfl, rfl⟩

theorem mintTicket_whole (sessionSecret : Bytes32) (admin : Option (Bytes32 × Bytes32))
    (roleCode : UInt8) (inviteId : Fin (256 ^ 16)) (issuedMs ttlMs : U64)
    (bootstrap : List AddrWire) :
    (mintTicket sessionSecret admin roleCode inviteId issuedMs ttlMs bootstrap :
      Ticket I).Whole := by
  cases admin with
  | none =>
      exact .inl ⟨rfl, rfl, rfl⟩
  | some keys =>
      exact .inr ⟨keys.2, _, rfl, rfl, inviteId.isLt⟩

/-- An invite with a TTL has an expiry, however late it was issued. -/
theorem expiryOf_eq_zero_iff (issuedMs ttlMs : U64) : expiryOf issuedMs ttlMs = 0 ↔ ttlMs = 0 := by
  constructor
  · intro h
    by_contra hne
    have hpos : 0 < ttlMs.val := Nat.pos_of_ne_zero fun hzero => hne (Fin.ext hzero)
    rw [expiryOf, if_neg hne] at h
    by_cases hfits : issuedMs.val + ttlMs.val ≤ U64.max.val
    · rw [if_pos hfits] at h
      have hval : (issuedMs + ttlMs).val = issuedMs.val + ttlMs.val := by
        have hlt : issuedMs.val + ttlMs.val < 2 ^ 64 := Nat.lt_succ_of_le hfits
        rw [Fin.val_add, Nat.mod_eq_of_lt hlt]
      rw [h] at hval
      have hzero : ((0 : U64) : Nat) = 0 := rfl
      omega
    · rw [if_neg hfits] at h
      exact absurd h (by decide)
  · exact fun h => if_pos h

/-- What is promised about the ticket of an invite. -/
structure Ticket.Kept (casing : Casing) (wire : WireFormat I) (ttlMs : U64) (t : Ticket I) :
    Prop where
  restored : t.Restored casing wire
  /-- Only an editor can invite further. -/
  editor : ∀ g, t.grant = some g → (t.adminSecret ≠ none ↔ g.grant.role = roleEditor)
  expiry : ∀ t' g, Ticket.decode casing wire (t.encode casing wire) = .ok t' →
    t'.grant = some g → (g.grant.expiryMs = 0 ↔ ttlMs = 0)

/-- **What is handed on as text arrives**: the tickets of `Ticket::new` and of `mint_ticket` are
read back from their text as they are, an invite holds the admin secret exactly when it is an
editor's, and its grant never expires exactly when it was made without a TTL. -/
theorem ticket_codec (casing : Casing) (wire : WireFormat I) :
    (∀ (secret : Bytes32) (bootstrap : List AddrWire),
      (Ticket.new secret bootstrap : Ticket I).Restored casing wire) ∧
    ∀ (sessionSecret : Bytes32) (admin : Option (Bytes32 × Bytes32)) (roleCode : UInt8)
      (inviteId : Fin (256 ^ 16)) (issuedMs ttlMs : U64) (bootstrap : List AddrWire),
      (mintTicket sessionSecret admin roleCode inviteId issuedMs ttlMs bootstrap :
        Ticket I).Kept casing wire ttlMs := by
  refine ⟨fun secret bootstrap => (Ticket.new_whole secret bootstrap).restored casing wire, ?_⟩
  intro sessionSecret admin roleCode inviteId issuedMs ttlMs bootstrap
  have hrestored := (mintTicket_whole (I := I) sessionSecret admin roleCode inviteId issuedMs ttlMs
    bootstrap).restored casing wire
  refine ⟨hrestored, ?_, ?_⟩
  · intro g hg
    cases admin with
    | none =>
        cases hg
    | some keys =>
        obtain rfl := Option.some.inj hg
        show (if roleCanEdit roleCode then some keys.1 else none) ≠ none ↔ roleCode = roleEditor
        by_cases hrole : roleCode = roleEditor
        · simp [roleCanEdit, hrole]
        · simp [roleCanEdit, hrole]
  · intro t' g hread hg
    obtain rfl := Except.ok.inj (hrestored.encode.symm.trans hread)
    cases admin with
    | none =>
        cases hg
    | some keys =>
        obtain rfl := Option.some.inj hg
        exact expiryOf_eq_zero_iff issuedMs ttlMs

/-! ## The layout -/

open Lib (Codec)

/-- The laws hold of a codec whose first byte is the version. -/
def Postcard.ofCodec {α : Type} {version : α → UInt8} {valid : α → Prop} (c : Codec α)
    (hfaithful : ∀ a, valid a → c.Faithful a)
    (hhead : ∀ a, (c.write a).head? = some (version a)) : Postcard α version valid where
  toStdvec a := some (c.write a)
  fromBytes := c.decode
  fromBytes_toStdvec a ha := ⟨c.write a, rfl, hhead a, Codec.decode_write (hfaithful a ha)⟩

def bytes32Codec : Codec Bytes32 := .vector 32 .byte

theorem bytes32Codec_faithful (key : Bytes32) : bytes32Codec.Faithful key :=
  Codec.vector_faithful fun b _ => Codec.byte_faithful b

def u64Codec : Codec U64 := (Codec.varint 9 (2 ^ 64)).via Fin.val (Fin.ofNat (2 ^ 64))

theorem u64Codec_faithful (v : U64) : u64Codec.Faithful v :=
  Codec.via_faithful (Codec.varint_faithful (by norm_num) v.isLt) (Fin.ofNat_val_eq_self v)

/-- An address, with the socket addresses as text. -/
def addrCodec : Codec AddrWire :=
  (Codec.pair bytes32Codec
    (.pair (.option (.text .uvarint)) (.seq .uvarint (.text .uvarint)))).via
      (fun a => (a.id, a.relay, a.direct)) (fun p => ⟨p.1, p.2.1, p.2.2⟩)

theorem addrCodec_faithful (a : AddrWire) : addrCodec.Faithful a := by
  have htext : ∀ s, (Codec.text .uvarint).Faithful s := fun s =>
    Codec.text_faithful (Codec.uvarint_faithful _)
  refine Codec.via_faithful (Codec.pair_faithful (bytes32Codec_faithful _)
    (Codec.pair_faithful (Codec.option_faithful fun s _ => htext s) ?_)) rfl
  exact Codec.seq_faithful (Codec.uvarint_faithful _) fun s _ => htext s

def bootstrapCodec : Codec (List AddrWire) := .seq .uvarint addrCodec

theorem bootstrapCodec_faithful (bootstrap : List AddrWire) : bootstrapCodec.Faithful bootstrap :=
  Codec.seq_faithful (Codec.uvarint_faithful _) fun a _ => addrCodec_faithful a

/-- Keys whose signature is the public key, twice. -/
def plainIroh : Iroh where
  Signature := Bytes32 × Bytes32
  publicOf := symbolicIroh.publicOf
  sign key _ := (symbolicIroh.publicOf key, symbolicIroh.publicOf key)
  verify key _ sig := decide (sig = (key, key))
  isId _ := true
  idText _ := ""
  publicOf_injective := symbolicIroh.publicOf_injective
  verify_sign _ _ := decide_eq_true rfl
  isId_publicOf _ := rfl

def grantCodec : Codec Grant :=
  (Codec.pair .byte (.pair (.fixed 16) (.pair u64Codec u64Codec))).via
    (fun g => (g.role, g.inviteId, g.issuedMs, g.expiryMs))
    (fun p => ⟨p.1, p.2.1, p.2.2.1, p.2.2.2⟩)

def signedGrantCodec : Codec (SignedGrant plainIroh) :=
  (Codec.pair grantCodec (.pair bytes32Codec bytes32Codec)).via
    (fun g => (g.grant, g.sig)) (fun p => ⟨p.1, p.2⟩)

theorem signedGrantCodec_faithful {g : SignedGrant plainIroh} (h : g.HasId) :
    signedGrantCodec.Faithful g := by
  have hgrant : grantCodec.Faithful g.grant :=
    Codec.via_faithful (Codec.pair_faithful (Codec.byte_faithful _)
      (Codec.pair_faithful (Codec.fixed_faithful h)
        (Codec.pair_faithful (u64Codec_faithful _) (u64Codec_faithful _)))) rfl
  exact Codec.via_faithful (Codec.pair_faithful hgrant
    (Codec.pair_faithful (bytes32Codec_faithful _) (bytes32Codec_faithful _))) rfl

def wireV1Codec : Codec TicketWireV1 :=
  (Codec.pair .byte (.pair bytes32Codec bootstrapCodec)).via
    (fun w => (w.version, w.secret, w.bootstrap)) (fun p => ⟨p.1, p.2.1, p.2.2⟩)

def wireV2Codec : Codec (TicketWireV2 plainIroh) :=
  (Codec.pair .byte (.pair bytes32Codec (.pair bytes32Codec
    (.pair signedGrantCodec (.pair (.option bytes32Codec) bootstrapCodec))))).via
      (fun w => (w.version, w.secret, w.adminPublic, w.grant, w.adminSecret, w.bootstrap))
      (fun p => ⟨p.1, p.2.1, p.2.2.1, p.2.2.2.1, p.2.2.2.2.1, p.2.2.2.2.2⟩)

/-- The members of a shape one behind the other. -/
def plainFormat : WireFormat plainIroh where
  v1 := .ofCodec wireV1Codec
    (fun _ _ => Codec.via_faithful (Codec.pair_faithful (Codec.byte_faithful _)
      (Codec.pair_faithful (bytes32Codec_faithful _) (bootstrapCodec_faithful _))) rfl)
    (fun _ => rfl)
  v2 := .ofCodec wireV2Codec
    (fun _ hid => Codec.via_faithful (Codec.pair_faithful (Codec.byte_faithful _)
      (Codec.pair_faithful (bytes32Codec_faithful _)
        (Codec.pair_faithful (bytes32Codec_faithful _)
          (Codec.pair_faithful (signedGrantCodec_faithful hid)
            (Codec.pair_faithful (Codec.option_faithful fun key _ => bytes32Codec_faithful key)
              (bootstrapCodec_faithful _)))))) rfl)
    (fun _ => rfl)

/-- A viewer's invite for an hour, from a node without addresses. -/
theorem ticket_codec_viewer :
    (mintTicket (.replicate 32 3) (some (.replicate 32 7, .replicate 32 8)) roleViewer 5 1000
      3600000 [] : Ticket plainIroh).Kept ⟨id, id⟩ plainFormat 3600000 :=
  (ticket_codec ⟨id, id⟩ plainFormat).2 (.replicate 32 3)
    (some (.replicate 32 7, .replicate 32 8)) roleViewer 5 1000 3600000 []

end Rekey

end Tazamun
