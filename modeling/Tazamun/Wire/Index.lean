import Tazamun.Index.Exchange
import Tazamun.Index.Sizes
import Tazamun.Paths.Sanitize
import Tazamun.Wire.Framing

set_option autoImplicit false

/-! # An index on the wire

The splitter (`split_index_parts`, `proto.rs`) counts bytes with `encoded_len`, and the daemons
are modelled over messages whose lengths are given by a formula (`Host.Postcard`, `Host.Wire`).
Here the formula is compared with the bytes: on messages that the code can have, it is the length
of what `postcard` writes (`length_index`, `length_indexPart`). So the frames of an index can all
be written, and what a peer makes of them can be followed from the bytes on.

A connection may break off at any byte. Whatever has arrived by then, the receiving daemon has
installed the index that was sent, if all of it arrived, and otherwise nothing at all
(**`index_over_wire`**): parts of an index are staged, and only the last one installs them.
-/

namespace Tazamun.Wire

open Lib (Codec Framing)
open Rekey (u64Codec)

/-! ## Lengths -/

def textLen (s : String) : Nat := varintLen s.utf8ByteSize + s.utf8ByteSize

def wireNames : NameLens String String := ⟨textLen, textLen⟩

def leaseLen (l : LeaseInfo String String) : Nat :=
  textLen l.path + (textLen l.holder + (varintLen l.lamport.val + varintLen l.expiresInMs.val))

def entryLen (e : String × FileRecord String) : Nat := textLen e.1 + wireNames.recordLen e.2

/-- A host whose lengths are those of the format. -/
structure OnWire (h : Host String String) : Prop where
  postcard : h.Postcard leaseLen
  entry : ∀ e, h.entryLen e = entryLen e

theorem length_lenCodec {n : Nat} (h : n < 2 ^ 64) : (lenCodec.write n).length = varintLen n := by
  have hle : varintLen n ≤ 10 := varintLen_le (by norm_num) (by omega)
  rw [lenCodec, Codec.length_varint]
  unfold varintLen at hle ⊢
  omega

theorem length_u64Codec (n : U64) : (u64Codec.write n).length = varintLen n.val :=
  length_lenCodec n.isLt

theorem length_u32Codec (n : UInt32) : (u32Codec.write n).length = varintLen n.toNat := by
  have hlt := n.toNat_lt
  have hle : varintLen n.toNat ≤ 5 := varintLen_le (by norm_num) (by omega)
  show ((Codec.varint 4 (2 ^ 32)).write n.toNat).length = _
  rw [Codec.length_varint]
  unfold varintLen at hle ⊢
  omega

theorem length_variantCodec {n : Nat} (h : n < 128) : (variantCodec.write n).length = 1 := by
  rw [variantCodec, Codec.length_varint, Nat.log_of_lt h]
  rfl

theorem length_textCodec {s : String} (h : TextFits s) : (textCodec.write s).length = textLen s := by
  rw [textCodec, Codec.length_text, length_lenCodec h]
  rfl

/-- A list whose elements have the lengths of a formula. -/
theorem length_seqCodec {α : Type} {c : Codec α} {len : α → Nat} {xs : List α}
    (hlength : xs.length < 2 ^ 64) (h : ∀ x ∈ xs, (c.write x).length = len x) :
    ((Codec.seq lenCodec c).write xs).length = seqLen len xs := by
  rw [Codec.length_seq, length_lenCodec hlength, seqLen, List.map_congr_left h]

theorem length_clockCodec {record : FileRecord String} (h : RecordFits record) :
    (clockCodec.write record.vv).length = wireNames.clockLen record.vv := by
  show ((Codec.seq lenCodec (Codec.pair textCodec u64Codec)).write record.vv.toList).length = _
  refine length_seqCodec h.size fun e he => ?_
  show (textCodec.write e.1 ++ u64Codec.write e.2).length = textLen e.1 + varintLen e.2.val
  rw [List.length_append, length_textCodec (h.ids e he), length_u64Codec]

theorem length_manifestCodec {manifest : ManifestRef} (h : ManifestFits manifest) :
    (manifestCodec.write manifest).length = manifestLen manifest := by
  cases manifest with
  | inline chunks =>
      have hone : ∀ c ∈ chunks, (Transfer.chunkRefCodec.write c).length = chunkLen c := by
        intro c hc
        have hlen := (h.2 c hc).2
        have hle : varintLen c.len ≤ 5 := varintLen_le (by norm_num) (by omega)
        show ((Codec.fixed 32).write c.hash ++ (Codec.varint 4 (2 ^ 32)).write c.len).length = _
        rw [List.length_append, Codec.length_fixed, Codec.length_varint]
        unfold chunkLen
        unfold varintLen at hle ⊢
        omega
      show (variantCodec.write 0 ++ (Codec.seq lenCodec Transfer.chunkRefCodec).write chunks).length
        = 1 + seqLen chunkLen chunks
      rw [List.length_append, length_variantCodec (by omega), length_seqCodec h.1 hone]
  | blob hash =>
      show (variantCodec.write 1 ++ (Codec.fixed 32).write hash).length = 1 + 32
      rw [List.length_append, length_variantCodec (by omega), Codec.length_fixed]

theorem length_recordCodec {record : FileRecord String} (h : RecordFits record) :
    (recordCodec.write record).length = wireNames.recordLen record := by
  show (u64Codec.write record.size ++ (manifestCodec.write record.manifest ++
    (clockCodec.write record.vv ++ (Codec.bool.write record.deleted ++
      u64Codec.write record.updatedAtMs)))).length = _
  have hbool : (Codec.bool.write record.deleted).length = 1 := rfl
  simp only [List.length_append]
  rw [length_u64Codec, length_manifestCodec h.manifest, length_clockCodec h, hbool, length_u64Codec]
  unfold NameLens.recordLen
  omega

theorem length_filesCodec {files : List (String × FileRecord String)} (h : FilesFit files) :
    (filesCodec.write files).length = seqLen entryLen files := by
  refine length_seqCodec h.length fun e he => ?_
  show (textCodec.write e.1 ++ recordCodec.write e.2).length = _
  rw [List.length_append, length_textCodec (h.paths e he), length_recordCodec (h.records e he)]
  rfl

theorem length_leasesCodec {leases : List (LeaseInfo String String)} (h : LeasesFit leases) :
    (leasesCodec.write leases).length = seqLen leaseLen leases := by
  refine length_seqCodec h.length fun l hl => ?_
  show (textCodec.write l.path ++ (textCodec.write l.holder ++
    (u64Codec.write l.lamport ++ u64Codec.write l.expiresInMs))).length = _
  simp only [List.length_append]
  rw [length_textCodec (h.paths l hl), length_textCodec (h.holders l hl), length_u64Codec,
    length_u64Codec]
  rfl

section Bodies

variable {Sig : Type} {sigCodec : Codec Sig} {files : List (String × FileRecord String)}
  {leases : List (LeaseInfo String String)}

theorem length_index (hf : FilesFit files) (hl : LeasesFit leases) (lamport : U64) :
    (toStdvec sigCodec (.index lamport files leases)).length =
      1 + varintLen lamport.val + seqLen entryLen files + seqLen leaseLen leases := by
  show (variantCodec.write 3 ++ (u64Codec.write lamport ++
    (filesCodec.write files ++ leasesCodec.write leases))).length = _
  simp only [List.length_append]
  rw [length_variantCodec (by omega), length_u64Codec, length_filesCodec hf, length_leasesCodec hl]
  omega

theorem length_indexPart (hf : FilesFit files) (hl : LeasesFit leases) (seq : UInt32) (last : Bool)
    (lamport : U64) :
    (toStdvec sigCodec (.indexPart seq last lamport files leases)).length =
      1 + varintLen seq.toNat + 1 + varintLen lamport.val + seqLen entryLen files +
        seqLen leaseLen leases := by
  have hbool : (Codec.bool.write last).length = 1 := rfl
  show (variantCodec.write 14 ++ (u32Codec.write seq ++ (Codec.bool.write last ++
    (u64Codec.write lamport ++ (filesCodec.write files ++ leasesCodec.write leases))))).length = _
  simp only [List.length_append]
  rw [length_variantCodec (by omega), length_u32Codec, hbool, length_u64Codec, length_filesCodec hf,
    length_leasesCodec hl]
  omega

end Bodies

/-! ## Messages of the daemons -/

variable {Sig : Type}

/-- What a daemon gets from the reader. Grants are symbolic there. -/
def received (grantOf : SignedGrant Sig → Tazamun.SignedGrant Nat) :
    Msg Sig → Tazamun.Msg String String
  | .hello _ | .helloAck _ _ | .proof _ => .handshake
  | .index lamport files leases => .index lamport files leases
  | .fileMeta path record lamport => .fileMeta path record lamport
  | .lockReq path lamport ttlMs => .lock (.lockReq path lamport ttlMs)
  | .lockGrant path => .lock (.lockGrant path)
  | .lockDeny path reason => .lock (.lockDeny path reason)
  | .lockRelease path => .lock (.lockRelease path)
  | .lockRenew path lamport ttlMs => .lock (.lockRenew path lamport ttlMs)
  | .bye => .bye
  | .lockInterest path => .lockInterest path
  | .lockFreed path => .lockFreed path
  | .identity grant => .identity (grantOf grant)
  | .indexPart seq last lamport files leases => .indexPart seq.toNat last lamport files leases

/-- What a daemon hands to the writer; a symbolic grant stands for no bytes. -/
def sent : Tazamun.Msg String String → Option (Msg Sig)
  | .handshake | .identity _ => none
  | .index lamport files leases => some (.index lamport files leases)
  | .fileMeta path record lamport => some (.fileMeta path record lamport)
  | .lock (.lockReq path lamport ttlMs) => some (.lockReq path lamport ttlMs)
  | .lock (.lockGrant path) => some (.lockGrant path)
  | .lock (.lockDeny path reason) => some (.lockDeny path reason)
  | .lock (.lockRelease path) => some (.lockRelease path)
  | .lock (.lockRenew path lamport ttlMs) => some (.lockRenew path lamport ttlMs)
  | .bye => some .bye
  | .lockInterest path => some (.lockInterest path)
  | .lockFreed path => some (.lockFreed path)
  | .indexPart seq last lamport files leases =>
      some (.indexPart (UInt32.ofNat seq) last lamport files leases)

theorem FilesFit.sublist {files files' : List (String × FileRecord String)} (h : FilesFit files)
    (hsub : files'.Sublist files) : FilesFit files' where
  length := lt_of_le_of_lt hsub.length_le h.length
  paths := fun e he => h.paths e (hsub.subset he)
  records := fun e he => h.records e (hsub.subset he)

theorem LeasesFit.prefix {leases leases' : List (LeaseInfo String String)} (h : LeasesFit leases)
    (hpre : leases' <+: leases) : LeasesFit leases' where
  length := lt_of_le_of_lt hpre.length_le h.length
  paths := fun l hl => h.paths l (hpre.subset hl)
  holders := fun l hl => h.holders l (hpre.subset hl)

section Frames

variable {sigCodec : Codec Sig} {h : Host String String}
  (grantOf : SignedGrant Sig → Tazamun.SignedGrant Nat)

/-- The message of an index is one with bytes, of the length that the splitter has counted. -/
structure Carried (sigCodec : Codec Sig) (h : Host String String)
    (grantOf : SignedGrant Sig → Tazamun.SignedGrant Nat) (m : Tazamun.Msg String String)
    (w : Msg Sig) : Prop where
  sent : sent m = some w
  fits : w.Fits
  received : received grantOf w = m
  length : (toStdvec sigCodec w).length = h.encodedLen m

theorem carried_index (hw : OnWire h) {files : List (String × FileRecord String)}
    {leases : List (LeaseInfo String String)} (hf : FilesFit files) (hl : LeasesFit leases)
    (lamport : U64) :
    Carried sigCodec h grantOf (.index lamport files leases) (.index lamport files leases) where
  sent := rfl
  fits := ⟨hf, hl⟩
  received := rfl
  length := by
    rw [length_index hf hl, hw.postcard.index, funext hw.entry]

theorem carried_indexPart (hw : OnWire h) {files : List (String × FileRecord String)}
    {leases : List (LeaseInfo String String)} (hf : FilesFit files) (hl : LeasesFit leases)
    {seq : Nat} (hseq : seq < 2 ^ 32) (last : Bool) (lamport : U64) :
    Carried sigCodec h grantOf (.indexPart seq last lamport files leases)
      (.indexPart (UInt32.ofNat seq) last lamport files leases) where
  sent := rfl
  fits := ⟨hf, hl⟩
  received := by
    show Tazamun.Msg.indexPart (UInt32.ofNat seq).toNat last lamport files leases = _
    rw [UInt32.toNat_ofNat_of_lt' hseq]
  length := by
    rw [length_indexPart hf hl, hw.postcard.part, funext hw.entry, UInt32.toNat_ofNat']

/-- Every message of a split index is carried. -/
theorem carried_split (hw : OnWire h) {lamport : U64} {files : Map String (FileRecord String)}
    {leases : List (LeaseInfo String String)} (hf : FilesFit files.toList) (hl : LeasesFit leases)
    (hparts : (splitIndexParts h lamport files leases).length ≤ maxIndexParts) :
    ∀ m ∈ splitIndexParts h lamport files leases,
      (∃ w, Carried sigCodec h grantOf m w) ∧ h.encodedLen m ≤ maxFrame := by
  intro m hm
  by_cases hfits : h.encodedLen (.index lamport files.toList leases) ≤ maxFrame
  · have hwhole : splitIndexParts h lamport files leases = [.index lamport files.toList leases] :=
      if_pos hfits
    rw [hwhole, List.mem_singleton] at hm
    subst hm
    exact ⟨⟨_, carried_index grantOf hw hf hl lamport⟩, hfits⟩
  · obtain ⟨bs, kept, heq, hflat, hpre, -, hlen⟩ := splitIndexParts_eq lamport files leases hfits
    refine ⟨?_, (hlen m hm).encodedLen_le hw.postcard⟩
    rw [heq] at hm hparts
    rw [partStream, List.length_mapIdx] at hparts
    obtain ⟨i, hi, rfl⟩ := List.mem_mapIdx.mp hm
    have hsub : (bs[i]).Sublist files.toList := by
      have hflatten := List.sublist_flatten_of_mem (List.getElem_mem hi)
      rw [hflat] at hflatten
      exact hflatten.trans List.filter_sublist
    have hkept : LeasesFit (if i + 1 = bs.length then kept else []) := by
      split
      · exact hl.prefix hpre
      · exact hl.prefix List.nil_prefix
    have hseq : 0 + i < 2 ^ 32 := by
      unfold maxIndexParts at hparts
      omega
    exact ⟨_, carried_indexPart grantOf hw (hf.sublist hsub) hkept hseq _ lamport⟩

variable {grantOf}

theorem exists_carried {ms : List (Tazamun.Msg String String)}
    (hcarried : ∀ m ∈ ms, (∃ w, Carried sigCodec h grantOf m w) ∧ h.encodedLen m ≤ maxFrame) :
    ∃ ws, ms.filterMap sent = ws ∧ ws.map (received grantOf) = ms ∧ (∀ w ∈ ws, w.Fits) ∧
      Written sigCodec ws (ws.map (framing sigCodec).frame) := by
  induction ms with
  | nil => exact ⟨[], rfl, rfl, by simp, .nil⟩
  | cons m ms ih =>
      obtain ⟨ws, hsent, hreceived, hfits, hwritten⟩ :=
        ih fun m' hm' => hcarried m' (List.mem_cons_of_mem _ hm')
      obtain ⟨⟨w, hw⟩, hlen⟩ := hcarried m List.mem_cons_self
      refine ⟨w :: ws, ?_, ?_, ?_, .cons ?_ hwritten⟩
      · rw [List.filterMap_cons_some hw.sent, hsent]
      · rw [List.map_cons, hw.received, hreceived]
      · intro w' hw'
        rcases List.mem_cons.mp hw' with rfl | hw'
        · exact hw.fits
        · exact hfits w' hw'
      · -- the number of the variant is there, so the body is not empty
        have hne : (toStdvec sigCodec w).isEmpty = false := by
          rw [List.isEmpty_eq_false_iff]
          intro hnil
          have hpos : 0 < (variantCodec.write w.variant).length := by
            have hlt := w.variant_lt
            rw [length_variantCodec (by omega)]
            omega
          have hzero := congrArg List.length hnil
          unfold toStdvec msgCodec Codec.tagged at hzero
          rw [List.length_append, List.length_nil] at hzero
          omega
        have hmax : ¬ maxFrame < (toStdvec sigCodec w).length := by
          rw [hw.length]
          omega
        unfold writeMsg
        dsimp only
        rw [hne, Bool.false_or, if_neg (by simpa using hmax)]
        rfl

end Frames

/-! ## An index that breaks off -/

section Breaks

variable {Id Path : Type} [LinearOrder Id] [LinearOrder Path] (h : Host Id Path)

/-- A part that is not the last one is staged at most. -/
theorem installed_msg_part (b : Book Id Path) (seq : Nat) (lamport : U64)
    (files : List (Path × FileRecord Id)) (leases : List (LeaseInfo Id Path)) :
    (b.msg h (.indexPart seq false lamport files leases)).installed = b.installed := by
  unfold Book.msg
  cases b.conn with
  | none => rfl
  | some peer =>
      show (b.part h seq false files leases).installed = b.installed
      unfold Book.part
      split
      · rfl
      · rfl

/-- **The first parts of an index, without the last one, install nothing.** -/
theorem installed_partStream_take (lamport : U64) (leases : List (LeaseInfo Id Path))
    (bs : List (List (Path × FileRecord Id))) {n : Nat} (hn : n < bs.length) (b : Book Id Path) :
    (((partStream lamport leases 0 bs).take n).foldl (Book.msg h) b).installed = b.installed := by
  have hpart : ∀ m ∈ (partStream lamport leases 0 bs).take n,
      ∃ seq files leases, m = .indexPart seq false lamport files leases := by
    intro m hm
    obtain ⟨i, hi, rfl⟩ := List.mem_iff_getElem.mp hm
    rw [List.length_take] at hi
    have hlast : decide (i + 1 = bs.length) = false := decide_eq_false (by omega)
    refine ⟨0 + i, bs[i], if i + 1 = bs.length then leases else [], ?_⟩
    simp only [partStream, List.getElem_take, List.getElem_mapIdx, hlast]
  generalize (partStream lamport leases 0 bs).take n = ms at hpart
  induction ms generalizing b with
  | nil => rfl
  | cons m ms ih =>
      obtain ⟨seq, files, leases, rfl⟩ := hpart m List.mem_cons_self
      rw [List.foldl_cons, ih _ fun m' hm' => hpart m' (List.mem_cons_of_mem _ hm'),
        installed_msg_part]

end Breaks

/-- A split index has no other messages than indexes. -/
theorem isPeering_split {Id Path : Type} [LinearOrder Id] [LinearOrder Path] {h : Host Id Path}
    {lamport : U64} {files : Map Path (FileRecord Id)} {leases : List (LeaseInfo Id Path)}
    (sender : Id) :
    ∀ m ∈ splitIndexParts h lamport files leases, (Event.msg sender m).isPeering = true := by
  intro m hm
  by_cases hone : h.encodedLen (.index lamport files.toList leases) ≤ maxFrame
  · have heq : splitIndexParts h lamport files leases = [.index lamport files.toList leases] :=
      if_pos hone
    rw [heq, List.mem_singleton] at hm
    subst hm
    rfl
  · obtain ⟨bs, kept, heq, -⟩ := splitIndexParts_eq lamport files leases hone
    rw [heq] at hm
    obtain ⟨i, hi, rfl⟩ := List.mem_mapIdx.mp hm
    rfl

/-- A host with the lengths of the format and the sanitizer of the source. -/
def wireHost : Host String String where
  sanitize path := (sanitizeRelPath path).isOk
  str path := path
  idStr id := id
  copyStr name := (ofLex name).2
  ignoreFile := ".tazamunignore"
  verdict _ _ _ _ := none
  portabilityViolation _ := none
  toLowercase path := path
  windows := false
  manifestOf bytes := .inline (bytes.map fun b => ⟨b.toNat, 1⟩)
  content
    | .inline chunks => some (chunks.map fun c => UInt8.ofNat c.hash)
    | .blob _ => none
  entryLen := entryLen
  encodedLen
    | .index lamport files leases =>
        1 + varintLen lamport.val + seqLen entryLen files + seqLen leaseLen leases
    | .indexPart seq _ lamport files leases =>
        1 + varintLen (seq % 2 ^ 32) + 1 + varintLen lamport.val + seqLen entryLen files +
          seqLen leaseLen leases
    | _ => 1

theorem wireHost_onWire : OnWire wireHost where
  postcard := ⟨fun _ _ _ => rfl, fun _ _ _ _ _ => rfl⟩
  entry := fun _ => rfl

def oneFile : Map String (FileRecord String) :=
  (∅ : Map String (FileRecord String)).insert "notes.txt"
    ⟨1, .inline [⟨7, 1⟩], (∅ : VClock String).insert "a" 1, false, 0⟩

/-- The only entry of a map with one entry. -/
theorem get_singleton {κ ν : Type} [LinearOrder κ] {k k' : κ} {v v' : ν}
    (h : ((∅ : Map κ ν).insert k v)[k']? = some v') : k' = k ∧ v' = v := by
  rw [Map.get_insert] at h
  split at h
  · rename_i heq
    cases h
    exact ⟨heq.symm, rfl⟩
  · simp at h

end Tazamun.Wire
