import Tazamun.Lib.Codec
import Tazamun.Locks.Mesh
import Tazamun.Session.TicketText
import Tazamun.Sync.Postcard

set_option autoImplicit false

/-! # The control messages as bytes

`Msg` (`proto.rs`) with all its variants and fields, and the bytes that `postcard` makes of it:
the number of the variant, and its fields one after the other. Numbers are varints but for
single bytes, strings and lists have their length in front, byte arrays have not, and a map is
the list of its entries in the order of their keys.

Variants are only ever added at the end, so that older builds read what they know: the protocol
minor 2 added `LockInterest` and `LockFreed`, 3 and 4 a reason each for a denied lock, 4 also
`Identity`, and 5 `IndexPart`. `msgCodec` is what a build of a given minor writes and reads.

A list or a string of the code is shorter than `2 ^ 64`, a hash has 32 bytes and the length of a
chunk is a `u32`; the model has naturals and lists there, and `Msg.Fits` says that a message is
one the code can have. The signature of a grant has a codec of its own, from another crate.
-/

namespace Tazamun.Wire

open Lib (Codec)
open Rekey (bytes32Codec bytes32Codec_faithful u64Codec u64Codec_faithful)

/-! ## Messages -/

abbrev Bytes16 : Type := List.Vector UInt8 16

structure SignedGrant (Sig : Type) where
  grant : Grant
  sig : Sig

inductive Msg (Sig : Type) where
  | hello (nonce : Bytes16)
  | helloAck (nonce : Bytes16) (proof : Bytes32)
  | proof (proof : Bytes32)
  | index (lamport : U64) (files : List (String × FileRecord String))
      (leases : List (LeaseInfo String String))
  | fileMeta (path : String) (record : FileRecord String) (lamport : U64)
  | lockReq (path : String) (lamport ttlMs : U64)
  | lockGrant (path : String)
  | lockDeny (path : String) (reason : DenyReason String)
  | lockRelease (path : String)
  | lockRenew (path : String) (lamport ttlMs : U64)
  | bye
  | lockInterest (path : String)
  | lockFreed (path : String)
  | identity (grant : SignedGrant Sig)
  | indexPart (seq : UInt32) (last : Bool) (lamport : U64)
      (files : List (String × FileRecord String)) (leases : List (LeaseInfo String String))

variable {Sig : Type}

/-- The discriminant of the variant. -/
def Msg.variant : Msg Sig → Nat
  | .hello _ => 0
  | .helloAck _ _ => 1
  | .proof _ => 2
  | .index _ _ _ => 3
  | .fileMeta _ _ _ => 4
  | .lockReq _ _ _ => 5
  | .lockGrant _ => 6
  | .lockDeny _ _ => 7
  | .lockRelease _ => 8
  | .lockRenew _ _ _ => 9
  | .bye => 10
  | .lockInterest _ => 11
  | .lockFreed _ => 12
  | .identity _ => 13
  | .indexPart _ _ _ _ _ => 14

def DenyReason.variant : DenyReason String → Nat
  | .held _ => 0
  | .tieLost => 1
  | .unavailable => 2
  | .roleForbidden => 3

def ManifestRef.variant : ManifestRef → Nat
  | .inline _ => 0
  | .blob _ => 1

theorem Msg.variant_lt (m : Msg Sig) : m.variant < 15 := by
  cases m <;> simp [Msg.variant]

theorem DenyReason.variant_lt (reason : DenyReason String) : DenyReason.variant reason < 4 := by
  cases reason <;> simp [DenyReason.variant]

theorem ManifestRef.variant_lt (manifest : ManifestRef) : ManifestRef.variant manifest < 2 := by
  cases manifest <;> simp [ManifestRef.variant]

/-- `wire_paths`: the paths that a message carries. -/
def Msg.wirePaths : Msg Sig → List String
  | .index _ files leases | .indexPart _ _ _ files leases =>
      files.map Prod.fst ++ leases.map fun l => l.path
  | .fileMeta path _ _ | .lockReq path _ _ | .lockGrant path | .lockDeny path _
  | .lockRelease path | .lockRenew path _ _ | .lockInterest path | .lockFreed path => [path]
  | .hello _ | .helloAck _ _ | .proof _ | .bye | .identity _ => []

/-! ## Their bytes -/

def lenCodec : Codec Nat := .varint 9 (2 ^ 64)

/-- The number of a variant. -/
def variantCodec : Codec Nat := .varint 4 (2 ^ 32)

def u32Codec : Codec UInt32 := (Codec.varint 4 (2 ^ 32)).via UInt32.toNat UInt32.ofNat

def textCodec : Codec String := .text lenCodec

def bytes16Codec : Codec Bytes16 := .vector 16 .byte

/-- A value without parts. -/
def unitCodec : Codec Unit where
  write := fun _ => []
  read := fun bytes => some ((), bytes)

def clockCodec : Codec (VClock String) :=
  (Codec.seq lenCodec (.pair textCodec u64Codec)).via (fun vv => vv.toList)
    (fun entries => Std.ExtTreeMap.ofList entries compare)

def manifestCodec : Codec ManifestRef :=
  .tagged variantCodec ManifestRef.variant
    [ Transfer.chunkRefsCodec.shape (fun | .inline chunks => some chunks | _ => none) .inline,
      (Codec.fixed 32).shape (fun | .blob hash => some hash | _ => none) .blob ]

def recordCodec : Codec (FileRecord String) :=
  (Codec.pair u64Codec (.pair manifestCodec (.pair clockCodec (.pair .bool u64Codec)))).via
    (fun r => (r.size, r.manifest, r.vv, r.deleted, r.updatedAtMs))
    (fun p => ⟨p.1, p.2.1, p.2.2.1, p.2.2.2.1, p.2.2.2.2⟩)

def entryCodec : Codec (String × FileRecord String) := .pair textCodec recordCodec

def leaseCodec : Codec (LeaseInfo String String) :=
  (Codec.pair textCodec (.pair textCodec (.pair u64Codec u64Codec))).via
    (fun l => (l.path, l.holder, l.lamport, l.expiresInMs))
    (fun p => ⟨p.1, p.2.1, p.2.2.1, p.2.2.2⟩)

def filesCodec : Codec (List (String × FileRecord String)) := .seq lenCodec entryCodec

def leasesCodec : Codec (List (LeaseInfo String String)) := .seq lenCodec leaseCodec

def grantCodec : Codec Grant :=
  (Codec.pair .byte (.pair (.fixed 16) (.pair u64Codec u64Codec))).via
    (fun g => (g.role, g.inviteId, g.issuedMs, g.expiryMs))
    (fun p => ⟨p.1, p.2.1, p.2.2.1, p.2.2.2⟩)

def signedGrantCodec (sigCodec : Codec Sig) : Codec (SignedGrant Sig) :=
  (Codec.pair grantCodec sigCodec).via (fun g => (g.grant, g.sig)) (fun p => ⟨p.1, p.2⟩)

/-! ## What each minor knows -/

/-- The variants of `DenyReason`, in their order. -/
def reasonShapes : List (Codec (DenyReason String)) :=
  [ textCodec.shape (fun | .held by_ => some by_ | _ => none) .held,
    unitCodec.shape (fun | .tieLost => some () | _ => none) fun _ => .tieLost,
    unitCodec.shape (fun | .unavailable => some () | _ => none) fun _ => .unavailable,
    unitCodec.shape (fun | .roleForbidden => some () | _ => none) fun _ => .roleForbidden ]

/-- How many variants of `DenyReason` and of `Msg` there are at a protocol minor. -/
def reasonsAt (minor : Nat) : Nat := if minor < 3 then 2 else if minor < 4 then 3 else 4

def variantsAt (minor : Nat) : Nat :=
  if minor < 2 then 11 else if minor < 4 then 13 else if minor < 5 then 14 else 15

def reasonCodec (minor : Nat) : Codec (DenyReason String) :=
  .tagged variantCodec DenyReason.variant (reasonShapes.take (reasonsAt minor))

/-- The variants of `Msg`, in their order. -/
def msgShapes (sigCodec : Codec Sig) (minor : Nat) : List (Codec (Msg Sig)) :=
  [ bytes16Codec.shape (fun | .hello nonce => some nonce | _ => none) .hello,
    (Codec.pair bytes16Codec bytes32Codec).shape
      (fun | .helloAck nonce proof => some (nonce, proof) | _ => none)
      (fun p => .helloAck p.1 p.2),
    bytes32Codec.shape (fun | .proof proof => some proof | _ => none) .proof,
    (Codec.pair u64Codec (.pair filesCodec leasesCodec)).shape
      (fun | .index lamport files leases => some (lamport, files, leases) | _ => none)
      (fun p => .index p.1 p.2.1 p.2.2),
    (Codec.pair textCodec (.pair recordCodec u64Codec)).shape
      (fun | .fileMeta path record lamport => some (path, record, lamport) | _ => none)
      (fun p => .fileMeta p.1 p.2.1 p.2.2),
    (Codec.pair textCodec (.pair u64Codec u64Codec)).shape
      (fun | .lockReq path lamport ttlMs => some (path, lamport, ttlMs) | _ => none)
      (fun p => .lockReq p.1 p.2.1 p.2.2),
    textCodec.shape (fun | .lockGrant path => some path | _ => none) .lockGrant,
    (Codec.pair textCodec (reasonCodec minor)).shape
      (fun | .lockDeny path reason => some (path, reason) | _ => none)
      (fun p => .lockDeny p.1 p.2),
    textCodec.shape (fun | .lockRelease path => some path | _ => none) .lockRelease,
    (Codec.pair textCodec (.pair u64Codec u64Codec)).shape
      (fun | .lockRenew path lamport ttlMs => some (path, lamport, ttlMs) | _ => none)
      (fun p => .lockRenew p.1 p.2.1 p.2.2),
    unitCodec.shape (fun | .bye => some () | _ => none) fun _ => .bye,
    textCodec.shape (fun | .lockInterest path => some path | _ => none) .lockInterest,
    textCodec.shape (fun | .lockFreed path => some path | _ => none) .lockFreed,
    (signedGrantCodec sigCodec).shape (fun | .identity grant => some grant | _ => none) .identity,
    (Codec.pair u32Codec (.pair .bool (.pair u64Codec (.pair filesCodec leasesCodec)))).shape
      (fun
        | .indexPart seq last lamport files leases => some (seq, last, lamport, files, leases)
        | _ => none)
      (fun p => .indexPart p.1 p.2.1 p.2.2.1 p.2.2.2.1 p.2.2.2.2) ]

/-- What a build of a protocol minor writes and reads. -/
def msgCodec (sigCodec : Codec Sig) (minor : Nat) : Codec (Msg Sig) :=
  .tagged variantCodec Msg.variant ((msgShapes sigCodec minor).take (variantsAt minor))

/-- `PROTOCOL_MINOR` of this build. -/
def currentMinor : Nat := 5

/-! ## Messages that exist -/

def TextFits (s : String) : Prop := s.utf8ByteSize < 2 ^ 64

def ManifestFits : ManifestRef → Prop
  | .inline chunks => chunks.length < 2 ^ 64 ∧ ∀ c ∈ chunks, c.Fits
  | .blob hash => hash < 256 ^ 32

structure RecordFits (record : FileRecord String) : Prop where
  manifest : ManifestFits record.manifest
  size : record.vv.toList.length < 2 ^ 64
  ids : ∀ e ∈ record.vv.toList, TextFits e.1

structure FilesFit (files : List (String × FileRecord String)) : Prop where
  length : files.length < 2 ^ 64
  paths : ∀ e ∈ files, TextFits e.1
  records : ∀ e ∈ files, RecordFits e.2

structure LeasesFit (leases : List (LeaseInfo String String)) : Prop where
  length : leases.length < 2 ^ 64
  paths : ∀ l ∈ leases, TextFits l.path
  holders : ∀ l ∈ leases, TextFits l.holder

def ReasonFits : DenyReason String → Prop
  | .held by_ => TextFits by_
  | .tieLost | .unavailable | .roleForbidden => True

/-- A message that the code can have. -/
def Msg.Fits : Msg Sig → Prop
  | .index _ files leases | .indexPart _ _ _ files leases => FilesFit files ∧ LeasesFit leases
  | .fileMeta path record _ => TextFits path ∧ RecordFits record
  | .lockDeny path reason => TextFits path ∧ ReasonFits reason
  | .lockReq path _ _ | .lockGrant path | .lockRelease path | .lockRenew path _ _
  | .lockInterest path | .lockFreed path => TextFits path
  | .identity grant => grant.grant.inviteId < 256 ^ 16
  | .hello _ | .helloAck _ _ | .proof _ | .bye => True

def Msg.reason? : Msg Sig → Option (DenyReason String)
  | .lockDeny _ reason => some reason
  | _ => none

/-- The protocol minor has the variant of the message, and of the reason in it. -/
def Msg.Known (minor : Nat) (m : Msg Sig) : Prop :=
  m.variant < variantsAt minor ∧ ∀ reason ∈ m.reason?, DenyReason.variant reason < reasonsAt minor

theorem known_current (m : Msg Sig) : m.Known currentMinor := by
  constructor
  · exact m.variant_lt
  · intro reason _
    exact DenyReason.variant_lt reason

/-! ## Reading undoes writing -/

theorem lenCodec_faithful {n : Nat} (h : n < 2 ^ 64) : lenCodec.Faithful n :=
  Codec.varint_faithful (by norm_num) h

theorem variantCodec_faithful {n : Nat} (h : n < 2 ^ 32) : variantCodec.Faithful n :=
  Codec.varint_faithful (by norm_num) h

theorem u32Codec_faithful (n : UInt32) : u32Codec.Faithful n :=
  Codec.via_faithful (Codec.varint_faithful (by norm_num) n.toNat_lt) UInt32.ofNat_toNat

theorem textCodec_faithful {s : String} (h : TextFits s) : textCodec.Faithful s :=
  Codec.text_faithful (lenCodec_faithful h)

theorem bytes16Codec_faithful (nonce : Bytes16) : bytes16Codec.Faithful nonce :=
  Codec.vector_faithful fun b _ => Codec.byte_faithful b

theorem unitCodec_faithful (u : Unit) : unitCodec.Faithful u := fun _ => rfl

/-- A map is the one with its entries. -/
theorem ofList_toList (vv : VClock String) : Std.ExtTreeMap.ofList vv.toList compare = vv := by
  refine Std.ExtTreeMap.ext_getElem? fun k => ?_
  have hdistinct := Std.ExtTreeMap.distinct_keys_toList (t := vv)
  cases hk : vv[k]? with
  | none =>
      refine Std.ExtTreeMap.getElem?_ofList_of_contains_eq_false ?_
      rw [Std.ExtTreeMap.map_fst_toList_eq_keys, ← Bool.not_eq_true]
      intro hin
      have hmem := Std.ExtTreeMap.mem_keys.mp (List.contains_iff_mem.mp hin)
      rw [← Std.ExtTreeMap.contains_iff_mem, Map.contains_eq, hk] at hmem
      cases hmem
  | some c =>
      exact Std.ExtTreeMap.getElem?_ofList_of_mem Std.ReflCmp.compare_self hdistinct
        (Map.mem_toList.mpr hk)

theorem clockCodec_faithful {vv : VClock String} (hlen : vv.toList.length < 2 ^ 64)
    (hids : ∀ e ∈ vv.toList, TextFits e.1) : clockCodec.Faithful vv := by
  refine Codec.via_faithful (Codec.seq_faithful (lenCodec_faithful hlen) fun e he => ?_)
    (ofList_toList vv)
  exact Codec.pair_faithful (textCodec_faithful (hids e he)) (u64Codec_faithful e.2)

theorem manifestCodec_faithful {manifest : ManifestRef} (h : ManifestFits manifest) :
    manifestCodec.Faithful manifest := by
  have htag : variantCodec.Faithful (ManifestRef.variant manifest) := by
    apply variantCodec_faithful
    have hlt := ManifestRef.variant_lt manifest
    omega
  cases manifest with
  | inline chunks =>
      refine Codec.tagged_faithful htag rfl
        (Codec.shape_faithful rfl rfl (Codec.seq_faithful ?_ fun c hc => ?_))
      · exact lenCodec_faithful h.1
      · exact Transfer.chunkRefCodec_faithful (h.2 c hc)
  | blob hash =>
      exact Codec.tagged_faithful htag rfl
        (Codec.shape_faithful rfl rfl (Codec.fixed_faithful h))

theorem recordCodec_faithful {record : FileRecord String} (h : RecordFits record) :
    recordCodec.Faithful record :=
  Codec.via_faithful
    (Codec.pair_faithful (u64Codec_faithful _)
      (Codec.pair_faithful (manifestCodec_faithful h.manifest)
        (Codec.pair_faithful (clockCodec_faithful h.size h.ids)
          (Codec.pair_faithful (Codec.bool_faithful _) (u64Codec_faithful _))))) rfl

theorem filesCodec_faithful {files : List (String × FileRecord String)} (h : FilesFit files) :
    filesCodec.Faithful files :=
  Codec.seq_faithful (lenCodec_faithful h.length) fun e he =>
    Codec.pair_faithful (textCodec_faithful (h.paths e he)) (recordCodec_faithful (h.records e he))

theorem leasesCodec_faithful {leases : List (LeaseInfo String String)} (h : LeasesFit leases) :
    leasesCodec.Faithful leases :=
  Codec.seq_faithful (lenCodec_faithful h.length) fun l hl =>
    Codec.via_faithful
      (Codec.pair_faithful (textCodec_faithful (h.paths l hl))
        (Codec.pair_faithful (textCodec_faithful (h.holders l hl))
          (Codec.pair_faithful (u64Codec_faithful _) (u64Codec_faithful _)))) rfl

theorem signedGrantCodec_faithful {sigCodec : Codec Sig} {grant : SignedGrant Sig}
    (hid : grant.grant.inviteId < 256 ^ 16) (hsig : sigCodec.Faithful grant.sig) :
    (signedGrantCodec sigCodec).Faithful grant :=
  Codec.via_faithful
    (Codec.pair_faithful
      (Codec.via_faithful
        (Codec.pair_faithful (Codec.byte_faithful _)
          (Codec.pair_faithful (Codec.fixed_faithful hid)
            (Codec.pair_faithful (u64Codec_faithful _) (u64Codec_faithful _)))) rfl) hsig) rfl

/-! ## Across minors -/

theorem reason_shape {reason : DenyReason String} (h : ReasonFits reason) :
    ∃ c, reasonShapes[DenyReason.variant reason]? = some c ∧ c.Faithful reason := by
  cases reason with
  | held by_ => exact ⟨_, rfl, Codec.shape_faithful rfl rfl (textCodec_faithful h)⟩
  | tieLost => exact ⟨_, rfl, Codec.shape_faithful rfl rfl (unitCodec_faithful ())⟩
  | unavailable => exact ⟨_, rfl, Codec.shape_faithful rfl rfl (unitCodec_faithful ())⟩
  | roleForbidden => exact ⟨_, rfl, Codec.shape_faithful rfl rfl (unitCodec_faithful ())⟩

theorem reason_tag (reason : DenyReason String) :
    variantCodec.Faithful (DenyReason.variant reason) := by
  apply variantCodec_faithful
  have hlt := DenyReason.variant_lt reason
  omega

theorem reasonCodec_known {old new : Nat} {reason : DenyReason String} (h : ReasonFits reason)
    (hold : DenyReason.variant reason < reasonsAt old)
    (hnew : DenyReason.variant reason < reasonsAt new) :
    (reasonCodec old).write reason = (reasonCodec new).write reason ∧
      (reasonCodec old).Faithful reason := by
  obtain ⟨c, hshape, hc⟩ := reason_shape h
  have hat : ∀ minor, DenyReason.variant reason < reasonsAt minor →
      (reasonShapes.take (reasonsAt minor))[DenyReason.variant reason]? = some c := by
    intro minor hlt
    rw [List.getElem?_take_of_lt hlt]
    exact hshape
  exact ⟨(Codec.tagged_write (hat old hold)).trans (Codec.tagged_write (hat new hnew)).symm,
    Codec.tagged_faithful (reason_tag reason) (hat old hold) hc⟩

theorem reasonCodec_unknown {old new : Nat} {reason : DenyReason String} (h : ReasonFits reason)
    (hold : reasonsAt old ≤ DenyReason.variant reason)
    (hnew : DenyReason.variant reason < reasonsAt new) (rest : List UInt8) :
    (reasonCodec old).read ((reasonCodec new).write reason ++ rest) = none := by
  obtain ⟨c, hshape, -⟩ := reason_shape h
  refine Codec.tagged_unknown (reason_tag reason) ?_ ((List.getElem?_take_of_lt hnew).trans hshape)
    rest
  refine List.getElem?_eq_none ?_
  rw [List.length_take]
  omega

/-- What `c'` writes of the message is what `c` writes and reads, unless there is a reason in it
that the minor does not have. -/
structure ReadsAt (old : Nat) (m : Msg Sig) (c c' : Codec (Msg Sig)) : Prop where
  known : (∀ reason ∈ m.reason?, DenyReason.variant reason < reasonsAt old) →
    c.write m = c'.write m ∧ c.Faithful m
  unknown : ∀ reason ∈ m.reason?, reasonsAt old ≤ DenyReason.variant reason →
    ∀ rest, c.read (c'.write m ++ rest) = none

theorem ReadsAt.self {old : Nat} {m : Msg Sig} {c : Codec (Msg Sig)} (hm : m.reason? = none)
    (h : c.Faithful m) : ReadsAt old m c c where
  known := fun _ => ⟨rfl, h⟩
  unknown := by
    intro reason hreason
    rw [hm] at hreason
    cases hreason

/-- The shapes of a message at two minors. -/
theorem msg_shape {sigCodec : Codec Sig} (hsig : ∀ sig, sigCodec.Faithful sig) {m : Msg Sig}
    (hfits : m.Fits) (old new : Nat)
    (hnew : ∀ reason ∈ m.reason?, DenyReason.variant reason < reasonsAt new) :
    ∃ c c', (msgShapes sigCodec old)[m.variant]? = some c ∧
      (msgShapes sigCodec new)[m.variant]? = some c' ∧ ReadsAt old m c c' := by
  cases m with
  | hello nonce =>
      exact ⟨_, _, rfl, rfl, .self rfl (Codec.shape_faithful rfl rfl (bytes16Codec_faithful nonce))⟩
  | helloAck nonce proof =>
      exact ⟨_, _, rfl, rfl, .self rfl (Codec.shape_faithful rfl rfl
        (Codec.pair_faithful (bytes16Codec_faithful nonce) (bytes32Codec_faithful proof)))⟩
  | proof proof =>
      exact ⟨_, _, rfl, rfl, .self rfl (Codec.shape_faithful rfl rfl (bytes32Codec_faithful proof))⟩
  | index lamport files leases =>
      exact ⟨_, _, rfl, rfl, .self rfl (Codec.shape_faithful rfl rfl
        (Codec.pair_faithful (u64Codec_faithful _)
          (Codec.pair_faithful (filesCodec_faithful hfits.1) (leasesCodec_faithful hfits.2))))⟩
  | fileMeta path record lamport =>
      exact ⟨_, _, rfl, rfl, .self rfl (Codec.shape_faithful rfl rfl
        (Codec.pair_faithful (textCodec_faithful hfits.1)
          (Codec.pair_faithful (recordCodec_faithful hfits.2) (u64Codec_faithful _))))⟩
  | lockReq path lamport ttlMs =>
      exact ⟨_, _, rfl, rfl, .self rfl (Codec.shape_faithful rfl rfl
        (Codec.pair_faithful (textCodec_faithful hfits)
          (Codec.pair_faithful (u64Codec_faithful _) (u64Codec_faithful _))))⟩
  | lockGrant path =>
      exact ⟨_, _, rfl, rfl, .self rfl (Codec.shape_faithful rfl rfl (textCodec_faithful hfits))⟩
  | lockDeny path reason =>
      refine ⟨_, _, rfl, rfl, ⟨fun hold => ?_, fun reason' hreason hold rest => ?_⟩⟩
      · obtain ⟨hwrite, hread⟩ := reasonCodec_known hfits.2 (hold reason rfl) (hnew reason rfl)
        refine ⟨?_, Codec.shape_faithful rfl rfl
          (Codec.pair_faithful (textCodec_faithful hfits.1) hread)⟩
        show textCodec.write path ++ (reasonCodec old).write reason = _
        rw [hwrite]
        rfl
      · cases hreason
        have hpath := textCodec_faithful hfits.1 ((reasonCodec new).write reason ++ rest)
        have hread := reasonCodec_unknown hfits.2 hold (hnew reason rfl) rest
        show ((Codec.pair textCodec (reasonCodec old)).read
          ((textCodec.write path ++ (reasonCodec new).write reason) ++ rest)).map _ = none
        simp only [Codec.pair, List.append_assoc, hpath, hread, Option.map_none]
  | lockRelease path =>
      exact ⟨_, _, rfl, rfl, .self rfl (Codec.shape_faithful rfl rfl (textCodec_faithful hfits))⟩
  | lockRenew path lamport ttlMs =>
      exact ⟨_, _, rfl, rfl, .self rfl (Codec.shape_faithful rfl rfl
        (Codec.pair_faithful (textCodec_faithful hfits)
          (Codec.pair_faithful (u64Codec_faithful _) (u64Codec_faithful _))))⟩
  | bye =>
      exact ⟨_, _, rfl, rfl, .self rfl (Codec.shape_faithful rfl rfl (unitCodec_faithful ()))⟩
  | lockInterest path =>
      exact ⟨_, _, rfl, rfl, .self rfl (Codec.shape_faithful rfl rfl (textCodec_faithful hfits))⟩
  | lockFreed path =>
      exact ⟨_, _, rfl, rfl, .self rfl (Codec.shape_faithful rfl rfl (textCodec_faithful hfits))⟩
  | identity grant =>
      exact ⟨_, _, rfl, rfl, .self rfl (Codec.shape_faithful rfl rfl
        (signedGrantCodec_faithful hfits (hsig _)))⟩
  | indexPart seq last lamport files leases =>
      exact ⟨_, _, rfl, rfl, .self rfl (Codec.shape_faithful rfl rfl
        (Codec.pair_faithful (u32Codec_faithful seq) (Codec.pair_faithful (Codec.bool_faithful last)
          (Codec.pair_faithful (u64Codec_faithful _)
            (Codec.pair_faithful (filesCodec_faithful hfits.1) (leasesCodec_faithful hfits.2))))))⟩

theorem msg_tag (m : Msg Sig) : variantCodec.Faithful m.variant := by
  apply variantCodec_faithful
  have hlt := m.variant_lt
  omega

section Minors

variable {sigCodec : Codec Sig} {m : Msg Sig}

theorem msgCodec_faithful (hsig : ∀ sig, sigCodec.Faithful sig) (hfits : m.Fits) {minor : Nat}
    (hknown : m.Known minor) : (msgCodec sigCodec minor).Faithful m := by
  obtain ⟨c, c', hshape, -, hreads⟩ := msg_shape hsig hfits minor minor hknown.2
  refine Codec.tagged_faithful (msg_tag m) ?_ (hreads.known hknown.2).2
  rw [List.getElem?_take_of_lt hknown.1]
  exact hshape

end Minors

/-- An Ed25519 signature as its 64 bytes. -/
def ed25519Codec : Codec (List.Vector UInt8 64) := .vector 64 .byte

theorem ed25519Codec_faithful (sig : List.Vector UInt8 64) : ed25519Codec.Faithful sig :=
  Codec.vector_faithful fun b _ => Codec.byte_faithful b

end Tazamun.Wire
