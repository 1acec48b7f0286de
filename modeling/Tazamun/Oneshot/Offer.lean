import Tazamun.Index.Sizes
import Tazamun.Oneshot.Resume
import Tazamun.Paths.Sanitize
import Tazamun.Sync.Interleaving

set_option autoImplicit false

/-! # The offer of a one-shot transfer

A sender describes everything it offers in one `Manifest` frame. `build_entries` makes the
list, `write_frame` refuses a body of more than `MAX_FRAME` bytes, and the receiver puts each
path through the sanitizer and checks each chunk list (`validate_manifest`). `build_entries`
asks neither question itself: the frame is written when a receiver has connected, and the name
of a single file reaches the receiver as it is, while the files of a folder pass the receiver's
sanitizer first.

The paths are strings here, and the frame is its bytes: a length of four bytes, the tag of the
message, and the entries in the postcard format. The length of the body is known before
anything is hashed (`length_manifestBody`): it depends on the names, the sizes and the cuts.

The main result is `offer_accepted_iff`: an offer goes through exactly when its list fits in a
frame and, for a single file, the name is one the sanitizer lets through. What fits satisfies
the other bounds of the receiver: a frame has no room for more files or chunks than these
allow. No file of 32 GiB fits (`not_fits_of_large`).
-/

namespace Tazamun.Oneshot

/-! ## The frame -/

/-- The entry of a file: path, size and chunk list. -/
def entryCodec : Lib.Codec (SendEntry String) :=
  (Lib.Codec.pair (.text (.varint 9 (2 ^ 64)))
      (Lib.Codec.pair (.varint 9 (2 ^ 64)) Transfer.chunkRefsCodec)).via
    (fun e => (e.path, e.size, e.chunks))
    (fun p => { path := p.1, size := p.2.1, chunks := p.2.2 })

def entriesCodec : Lib.Codec (List (SendEntry String)) := .seq (.varint 9 (2 ^ 64)) entryCodec

/-- The tag of `SendMsg::Manifest`. -/
def manifestTag : UInt8 := 3

/-- The body of the frame: the tag and the entries. -/
def manifestBody (entries : List (SendEntry String)) : Bytes :=
  manifestTag :: entriesCodec.write entries

/-- Four bytes of length, the highest first, and the body. The error is "frame body .. exceeds
cap". -/
def writeFrame (body : Bytes) : Except Nat Bytes :=
  if body.length > maxFrame then .error body.length
  else .ok ((Lib.Codec.writeFixed 4 body.length).reverse ++ body)

/-- `read_frame`, where the receiver expects the manifest. -/
def readManifest (stream : Bytes) : Option (List (SendEntry String)) :=
  match Lib.Codec.readFixed 4 (stream.take 4).reverse with
  | none => none
  | some (n, _) =>
      if n = 0 ∨ n > maxFrame ∨ (stream.drop 4).length < n then none
      else
        match (stream.drop 4).take n with
        | [] => none
        | tag :: fields => if tag = manifestTag then entriesCodec.decode fields else none

/-- The sanitizer of the receiver. -/
def sane (path : String) : Bool := (sanitizeRelPath path).isOk

/-- A sender whose folder filter is that sanitizer. -/
def sender (source : Source String) (content : String → Option Bytes) (isSync : String → Bool) :
    Sender String :=
  { source, content, sanitize := sane, isSync }

/-! ## What the offer takes -/

/-- A length or a size: ten bytes at most. -/
def usizeLen (n : Nat) : Nat := min (varintLen n) 10

/-- What a file takes: the name, the size, and for each chunk a hash and a length. -/
def fileLen (cdc : FastCdc) (rel : String) (bytes : Bytes) : Nat :=
  usizeLen rel.utf8ByteSize + rel.utf8ByteSize + usizeLen (bytes.length % 2 ^ 64) +
    usizeLen (cdc.cutter.pieces bytes).length +
    ((cdc.cutter.pieces bytes).map fun piece => 32 + varintLen piece.length).sum

/-- What `entry_for` makes of a file. -/
def fileEntry (cdc : FastCdc) (rel : String) (bytes : Bytes) : SendEntry String :=
  { path := rel
    size := bytes.length % 2 ^ 64
    chunks := (cdc.cutter.pieces bytes).map cdc.chunker.chunkRef }

/-- What the offer takes: the tag, the number of files, the files. -/
def Sender.offerLen (cdc : FastCdc) (s : Sender String) : Nat :=
  1 + usizeLen s.offered.length +
    (s.offered.map fun rel => fileLen cdc rel ((s.content rel).getD [])).sum

theorem length_usize (n : Nat) : ((Lib.Codec.varint 9 (2 ^ 64)).write n).length = usizeLen n :=
  Lib.Codec.length_varint 9 (2 ^ 64) n

theorem one_le_usizeLen (n : Nat) : 1 ≤ usizeLen n := by
  unfold usizeLen varintLen
  omega

theorem length_chunkRef (ck : Chunker) {piece : Bytes} (h : piece.length ≤ cdcMax) :
    (Transfer.chunkRefCodec.write (ck.chunkRef piece)).length = 32 + varintLen piece.length := by
  have hmax : cdcMax < 128 ^ 5 := by decide
  have hvar : varintLen piece.length ≤ 5 := varintLen_le (by decide) (by omega)
  have hlen := chunkRef_len ck h
  show ((Lib.Codec.fixed 32).write (ck.chunkRef piece).hash
    ++ (Lib.Codec.varint 4 (2 ^ 32)).write (ck.chunkRef piece).len).length = _
  rw [List.length_append, Lib.Codec.length_fixed, Lib.Codec.length_varint, hlen]
  unfold varintLen at hvar ⊢
  omega

variable {cdc : FastCdc}

theorem length_entry (rel : String) (bytes : Bytes) :
    (entryCodec.write (fileEntry cdc rel bytes)).length = fileLen cdc rel bytes := by
  have hrefs : (((cdc.cutter.pieces bytes).map cdc.chunker.chunkRef).map
      fun r => (Transfer.chunkRefCodec.write r).length)
        = (cdc.cutter.pieces bytes).map fun piece => 32 + varintLen piece.length := by
    rw [List.map_map]
    refine List.map_congr_left fun piece hpiece => ?_
    exact length_chunkRef cdc.chunker (cdc.cutter.length_le_of_mem_pieces (by decide) hpiece)
  show ((Lib.Codec.text (.varint 9 (2 ^ 64))).write rel
    ++ ((Lib.Codec.varint 9 (2 ^ 64)).write (bytes.length % 2 ^ 64)
      ++ (Lib.Codec.seq (.varint 9 (2 ^ 64)) Transfer.chunkRefCodec).write
        ((cdc.cutter.pieces bytes).map cdc.chunker.chunkRef))).length = _
  rw [List.length_append, List.length_append, Lib.Codec.length_text, Lib.Codec.length_seq, hrefs,
    length_usize, length_usize, length_usize, List.length_map]
  unfold fileLen
  omega

/-! ## What `build_entries` returns -/

theorem entryFor_some {s : Sender String} {rel : String} {bytes : Bytes}
    (h : s.content rel = some bytes) :
    entryFor cdc.chunker s rel = .ok (fileEntry cdc rel bytes) := by
  have hlen := cdc.chunkLengths_chunkBytes bytes
  rw [cdc.chunkBytes_eq] at hlen
  rw [entryFor, h, fileEntry, ← hlen]
  rfl

theorem entryFor_eq {s : Sender String} {rel : String} {e : SendEntry String}
    (h : entryFor cdc.chunker s rel = .ok e) : e = fileEntry cdc rel ((s.content rel).getD []) := by
  obtain ⟨-, bytes, hbytes, -⟩ := entryFor_ok h
  rw [entryFor_some hbytes] at h
  rw [hbytes, Option.getD_some]
  exact (Except.ok.inj h).symm

theorem buildEntries_eq {s : Sender String} {entries : List (SendEntry String)}
    (h : buildEntries cdc.chunker s = .ok entries) :
    entries = s.offered.map fun rel => fileEntry cdc rel ((s.content rel).getD []) := by
  rw [buildEntries] at h
  generalize s.offered = offered at h ⊢
  induction offered generalizing entries with
  | nil =>
      cases h
      rfl
  | cons rel offered ih =>
      rw [List.mapM_cons] at h
      cases hone : entryFor cdc.chunker s rel with
      | error e =>
          rw [hone] at h
          cases h
      | ok e =>
          cases hrest : offered.mapM (entryFor cdc.chunker s) with
          | error e =>
              rw [hone, hrest] at h
              cases h
          | ok es =>
              rw [hone, hrest] at h
              cases h
              rw [List.map_cons, ← entryFor_eq hone, ← ih hrest]

/-- Files that can be read are all described. -/
theorem buildEntries_of_content {s : Sender String}
    (h : ∀ rel ∈ s.offered, ∃ bytes, s.content rel = some bytes) :
    buildEntries cdc.chunker s
      = .ok (s.offered.map fun rel => fileEntry cdc rel ((s.content rel).getD [])) := by
  rw [buildEntries]
  generalize s.offered = offered at h ⊢
  induction offered with
  | nil => rfl
  | cons rel offered ih =>
      obtain ⟨bytes, hbytes⟩ := h rel List.mem_cons_self
      have hrest := ih fun rel' hrel' => h rel' (List.mem_cons_of_mem _ hrel')
      rw [List.mapM_cons, entryFor_some hbytes, hrest, List.map_cons, hbytes]
      rfl

/-- **The length of the frame is known from the files.** -/
theorem length_manifestBody {s : Sender String} {entries : List (SendEntry String)}
    (h : buildEntries cdc.chunker s = .ok entries) :
    (manifestBody entries).length = s.offerLen cdc := by
  have hentries : (entries.map fun e => (entryCodec.write e).length)
      = s.offered.map fun rel => fileLen cdc rel ((s.content rel).getD []) := by
    rw [buildEntries_eq h, List.map_map]
    exact List.map_congr_left fun rel _ => length_entry rel _
  have hcount : entries.length = s.offered.length := by
    rw [buildEntries_eq h, List.length_map]
  rw [manifestBody, List.length_cons, entriesCodec, Lib.Codec.length_seq, hentries, length_usize,
    hcount]
  unfold Sender.offerLen
  omega

/-! ## What fits in a frame -/

theorem sum_pieces_le (pieces : List (List UInt8)) :
    33 * pieces.length ≤ (pieces.map fun piece => 32 + varintLen piece.length).sum := by
  induction pieces with
  | nil => simp
  | cons piece pieces ih =>
      rw [List.length_cons, List.map_cons, List.sum_cons]
      unfold varintLen at ih ⊢
      omega

theorem pieces_le_fileLen (rel : String) (bytes : Bytes) :
    33 * (cdc.cutter.pieces bytes).length ≤ fileLen cdc rel bytes := by
  have hsum := sum_pieces_le (cdc.cutter.pieces bytes)
  unfold fileLen
  omega

/-- No chunk is longer than `CDC_MAX`. -/
theorem length_le_pieces (bytes : Bytes) :
    bytes.length ≤ (cdc.cutter.pieces bytes).length * cdcMax := by
  have hsum := List.sum_le_card_nsmul ((cdc.cutter.pieces bytes).map List.length) cdcMax (by
    intro n hn
    obtain ⟨piece, hpiece, rfl⟩ := List.mem_map.mp hn
    exact cdc.cutter.length_le_of_mem_pieces (by decide) hpiece)
  rw [List.length_map, smul_eq_mul, ← List.length_flatten, cdc.cutter.flatten_pieces] at hsum
  exact hsum

theorem four_le_fileLen {rel : String} (h : rel ≠ "") (bytes : Bytes) :
    4 ≤ fileLen cdc rel bytes := by
  have hname : rel.utf8ByteSize ≠ 0 := fun hzero => h (String.utf8ByteSize_eq_zero_iff.mp hzero)
  have h1 := one_le_usizeLen rel.utf8ByteSize
  have h2 := one_le_usizeLen (bytes.length % 2 ^ 64)
  have h3 := one_le_usizeLen (cdc.cutter.pieces bytes).length
  unfold fileLen
  omega

/-- A chunk list with room in a frame passes the receiver's check. -/
theorem checkManifest_fileEntry {rel : String} {bytes : Bytes}
    (h : fileLen cdc rel bytes ≤ maxFrame) :
    checkManifest (fileEntry cdc rel bytes).chunks (fileEntry cdc rel bytes).size = .ok () := by
  have hpieces : 33 * (cdc.cutter.pieces bytes).length ≤ fileLen cdc rel bytes :=
    pieces_le_fileLen rel bytes
  have hlength : bytes.length ≤ (cdc.cutter.pieces bytes).length * cdcMax :=
    length_le_pieces bytes
  have hsum := cdc.chunkLengths_chunkBytes bytes
  rw [cdc.chunkBytes_eq] at hsum
  have hcount : (cdc.cutter.pieces bytes).length ≤ 127100 := by
    unfold maxFrame at h
    omega
  have hsmall : bytes.length < 2 ^ 64 := by
    have hmul := Nat.mul_le_mul_right cdcMax hcount
    have hbound : 127100 * cdcMax < 2 ^ 64 := by decide
    omega
  have hsize : bytes.length % 2 ^ 64 = bytes.length := Nat.mod_eq_of_lt hsmall
  refine checkManifest_ok.mpr ⟨?_, ?_, ?_⟩
  · show ((cdc.cutter.pieces bytes).map cdc.chunker.chunkRef).length ≤ maxChunksPerFile
    rw [List.length_map]
    unfold maxChunksPerFile
    omega
  · show chunkLengths ((cdc.cutter.pieces bytes).map cdc.chunker.chunkRef) = bytes.length % 2 ^ 64
    rw [hsum, hsize]
  · show bytes.length % 2 ^ 64 < 2 ^ 64
    omega

theorem fileLen_le_offerLen {s : Sender String} {rel : String} (h : rel ∈ s.offered) :
    fileLen cdc rel ((s.content rel).getD []) ≤ s.offerLen cdc := by
  have hle : fileLen cdc rel ((s.content rel).getD [])
      ≤ (s.offered.map fun rel => fileLen cdc rel ((s.content rel).getD [])).sum :=
    List.le_sum_of_mem (List.mem_map_of_mem h)
  unfold Sender.offerLen
  omega

/-! ## What the receiver reads -/

theorem entryCodec_faithful {rel : String} {bytes : Bytes} (hhash : ∀ b, cdc.hash b < 256 ^ 32)
    (h : fileLen cdc rel bytes ≤ maxFrame) :
    entryCodec.Faithful (fileEntry cdc rel bytes) := by
  have hpieces : 33 * (cdc.cutter.pieces bytes).length ≤ fileLen cdc rel bytes :=
    pieces_le_fileLen rel bytes
  have hname : rel.utf8ByteSize ≤ fileLen cdc rel bytes := by
    unfold fileLen
    omega
  unfold maxFrame at h
  have hvar : ∀ {n}, n < 2 ^ 64 → (Lib.Codec.varint 9 (2 ^ 64)).Faithful n :=
    fun hn => Lib.Codec.varint_faithful (by norm_num) hn
  have hrefs : Transfer.chunkRefsCodec.Faithful (fileEntry cdc rel bytes).chunks := by
    refine Lib.Codec.seq_faithful (hvar ?_) fun ref href => ?_
    · show ((cdc.cutter.pieces bytes).map cdc.chunker.chunkRef).length < 2 ^ 64
      rw [List.length_map]
      omega
    · obtain ⟨piece, -, rfl⟩ := List.mem_map.mp href
      exact Transfer.chunkRefCodec_faithful ⟨hhash piece, Nat.mod_lt _ (by norm_num)⟩
  refine Lib.Codec.via_faithful (Lib.Codec.pair_faithful (Lib.Codec.text_faithful (hvar ?_))
    (Lib.Codec.pair_faithful (hvar ?_) hrefs)) rfl
  · show rel.utf8ByteSize < 2 ^ 64
    omega
  · exact Nat.mod_lt _ (by norm_num)

/-- **The receiver reads the list that was sent.** -/
theorem readManifest_writeFrame {s : Sender String} {entries : List (SendEntry String)}
    {frame : Bytes} (hhash : ∀ b, cdc.hash b < 256 ^ 32)
    (hbuild : buildEntries cdc.chunker s = .ok entries)
    (h : writeFrame (manifestBody entries) = .ok frame) : readManifest frame = some entries := by
  have hlength := length_manifestBody hbuild
  unfold writeFrame at h
  split at h
  · cases h
  · rename_i hshort
    cases h
    have hfits : s.offerLen cdc ≤ maxFrame := by omega
    have hcount : entries.length < 2 ^ 64 := by
      have hsum := List.card_nsmul_le_sum
        (s.offered.map fun rel => fileLen cdc rel ((s.content rel).getD [])) 1 (by
          intro n hn
          obtain ⟨rel, -, rfl⟩ := List.mem_map.mp hn
          have hone := one_le_usizeLen rel.utf8ByteSize
          unfold fileLen
          omega)
      rw [List.length_map, smul_eq_mul] at hsum
      rw [buildEntries_eq hbuild, List.length_map]
      unfold Sender.offerLen maxFrame at hfits
      omega
    have hentries : entriesCodec.Faithful entries := by
      refine Lib.Codec.seq_faithful (Lib.Codec.varint_faithful (by norm_num) hcount) ?_
      intro e he
      rw [buildEntries_eq hbuild] at he
      obtain ⟨rel, hrel, rfl⟩ := List.mem_map.mp he
      exact entryCodec_faithful hhash ((fileLen_le_offerLen hrel).trans hfits)
    have hprefix : ((Lib.Codec.writeFixed 4 (manifestBody entries).length).reverse).length = 4 := by
      rw [List.length_reverse]
      exact Lib.Codec.length_fixed 4 _
    have hlen : Lib.Codec.readFixed 4 (Lib.Codec.writeFixed 4 (manifestBody entries).length)
        = some ((manifestBody entries).length, []) := by
      have hread := Lib.Codec.fixed_faithful (n := 4) (v := (manifestBody entries).length) (by
        unfold maxFrame at hshort
        omega) []
      rwa [List.append_nil] at hread
    have htake : ((Lib.Codec.writeFixed 4 (manifestBody entries).length).reverse
        ++ manifestBody entries).take 4
          = (Lib.Codec.writeFixed 4 (manifestBody entries).length).reverse :=
      List.take_left' hprefix
    have hdrop : ((Lib.Codec.writeFixed 4 (manifestBody entries).length).reverse
        ++ manifestBody entries).drop 4 = manifestBody entries := List.drop_left' hprefix
    have hbounds : ¬ ((manifestBody entries).length = 0 ∨
        (manifestBody entries).length > maxFrame ∨
          (manifestBody entries).length < (manifestBody entries).length) := by
      have hpos : (manifestBody entries).length ≠ 0 := Nat.succ_ne_zero _
      omega
    unfold readManifest
    rw [htake, hdrop, List.reverse_reverse, hlen]
    simp only [if_neg hbounds, List.take_length]
    show (if manifestTag = manifestTag then entriesCodec.decode (entriesCodec.write entries)
      else none) = some entries
    rw [if_pos rfl, Lib.Codec.decode_write hentries]

/-! ## What the receiver accepts -/

theorem validateManifest_ok {sanitize : String → Bool} {entries : List (SendEntry String)} :
    validateManifest sanitize entries = .ok () ↔
      entries.length ≤ maxChunksPerFile ∧
        ∀ e ∈ entries, sanitize e.path = true ∧ checkManifest e.chunks e.size = .ok () := by
  have hloop : validateEntries sanitize entries = .ok () ↔
      ∀ e ∈ entries, sanitize e.path = true ∧ checkManifest e.chunks e.size = .ok () := by
    induction entries with
    | nil => simp [validateEntries]
    | cons e entries ih =>
        rw [validateEntries, List.forall_mem_cons]
        by_cases hsane : sanitize e.path = true
        · cases hcheck : checkManifest e.chunks e.size with
          | error err => simp [hsane]
          | ok u => simpa [hsane] using ih
        · simp [hsane]
  rw [validateManifest, ← hloop]
  by_cases hcount : entries.length > maxChunksPerFile
  · rw [if_pos hcount]
    simp only [reduceCtorEq, false_iff, not_and]
    omega
  · rw [if_neg hcount]
    exact (and_iff_right (by omega)).symm

theorem writeFrame_ok {body : Bytes} :
    (∃ frame, writeFrame body = .ok frame) ↔ body.length ≤ maxFrame := by
  unfold writeFrame
  by_cases hlong : body.length > maxFrame
  · rw [if_pos hlong]
    simp only [reduceCtorEq, exists_false, false_iff]
    omega
  · rw [if_neg hlong]
    exact ⟨fun _ => Nat.le_of_not_lt hlong, fun _ => ⟨_, rfl⟩⟩

theorem sane_ne_empty {rel : String} (h : sane rel = true) : rel ≠ "" := by
  rintro rfl
  exact absurd h (by decide)

/-- What is offered passes the sanitizer, if the name of a single file does. -/
theorem sane_offered {source : Source String} {content : String → Option Bytes}
    {isSync : String → Bool} (hname : ∀ name, source = .file name → sane name = true) :
    ∀ rel ∈ (sender source content isSync).offered, sane rel = true := by
  intro rel hrel
  cases source with
  | file name =>
      obtain rfl : rel = name := List.mem_singleton.mp hrel
      exact hname rel rfl
  | folder files =>
      obtain ⟨-, hkept⟩ := List.mem_filter.mp hrel
      exact (Bool.and_eq_true_iff.mp hkept).1

/-- A frame has room for fewer files than the receiver allows. -/
theorem length_offered_le {s : Sender String} (hsane : ∀ rel ∈ s.offered, sane rel = true)
    (h : s.offerLen cdc ≤ maxFrame) : s.offered.length ≤ maxChunksPerFile := by
  have hsum := List.card_nsmul_le_sum
    (s.offered.map fun rel => fileLen cdc rel ((s.content rel).getD [])) 4 (by
      intro n hn
      obtain ⟨rel, hrel, rfl⟩ := List.mem_map.mp hn
      exact four_le_fileLen (sane_ne_empty (hsane rel hrel)) _)
  rw [List.length_map, smul_eq_mul] at hsum
  unfold Sender.offerLen maxFrame at h
  unfold maxChunksPerFile
  omega

/-- **When an offer goes through.** The frame is written and the receiver accepts it, exactly
when what the offer takes is at most a frame and the name of a single file is one the sanitizer
lets through. -/
theorem offer_accepted_iff (cdc : FastCdc) {source : Source String}
    {content : String → Option Bytes} {isSync : String → Bool}
    {entries : List (SendEntry String)}
    (hbuild : buildEntries cdc.chunker (sender source content isSync) = .ok entries) :
    ((∃ frame, writeFrame (manifestBody entries) = .ok frame) ∧
        validateManifest sane entries = .ok ()) ↔
      (sender source content isSync).offerLen cdc ≤ maxFrame ∧
        ∀ name, source = .file name → sane name = true := by
  have hentries := buildEntries_eq hbuild
  rw [writeFrame_ok, length_manifestBody hbuild, validateManifest_ok]
  constructor
  · rintro ⟨hfits, -, hchecked⟩
    refine ⟨hfits, ?_⟩
    rintro name rfl
    refine (hchecked (fileEntry cdc name ((content name).getD [])) ?_).1
    rw [hentries]
    exact List.mem_singleton.mpr rfl
  · rintro ⟨hfits, hname⟩
    have hsane : ∀ rel ∈ (sender source content isSync).offered, sane rel = true :=
      sane_offered hname
    refine ⟨hfits, ?_, ?_⟩
    · rw [hentries, List.length_map]
      exact length_offered_le hsane hfits
    · intro e he
      rw [hentries] at he
      obtain ⟨rel, hrel, rfl⟩ := List.mem_map.mp he
      exact ⟨hsane rel hrel,
        checkManifest_fileEntry ((fileLen_le_offerLen hrel).trans hfits)⟩

/-- A folder with a small file and an empty one. -/
theorem offer_accepted_small :
    ((∃ frame, writeFrame (manifestBody
        [fileEntry Tazamun.slabs "a.txt" [7, 8], fileEntry Tazamun.slabs "b/c" []]) = .ok frame) ∧
      validateManifest sane
        [fileEntry Tazamun.slabs "a.txt" [7, 8], fileEntry Tazamun.slabs "b/c" []] = .ok ()) ↔
    (sender (.folder ["a.txt", "b/c"]) (fun rel => some (if rel = "a.txt" then [7, 8] else []))
        (fun _ => true)).offerLen Tazamun.slabs ≤ maxFrame ∧
      ∀ name, Source.folder ["a.txt", "b/c"] = .file name → sane name = true :=
  offer_accepted_iff Tazamun.slabs (buildEntries_of_content fun _ _ => ⟨_, rfl⟩)

/-! ## What does not go through -/

/-- No file of 32 GiB fits, however it is cut: its hashes alone take more than a frame. -/
theorem not_fits_of_large {s : Sender String} {rel : String} (hrel : rel ∈ s.offered)
    {bytes : Bytes} (hbytes : s.content rel = some bytes) (hlarge : 2 ^ 35 ≤ bytes.length) :
    ¬ s.offerLen cdc ≤ maxFrame := by
  have hlen : fileLen cdc rel ((s.content rel).getD []) ≤ s.offerLen cdc :=
    fileLen_le_offerLen hrel
  rw [hbytes, Option.getD_some] at hlen
  have hpieces : 33 * (cdc.cutter.pieces bytes).length ≤ fileLen cdc rel bytes :=
    pieces_le_fileLen rel bytes
  have hcover : bytes.length ≤ (cdc.cutter.pieces bytes).length * 262144 :=
    length_le_pieces bytes
  unfold maxFrame
  omega

/-- An image of 32 GiB, all zeros, and a file whose name holds a backslash: entries are built
for both, and neither offer goes through. -/
theorem offer_refused :
    (∃ entries, buildEntries Tazamun.slabs.chunker (sender (.file "disk.img")
          (fun _ => some (List.replicate (2 ^ 35) 0)) (fun _ => true)) = .ok entries ∧
        ∀ frame, writeFrame (manifestBody entries) ≠ .ok frame) ∧
      ∃ entries, buildEntries Tazamun.slabs.chunker (sender (.file "a\\b") (fun _ => some [])
          (fun _ => true)) = .ok entries ∧
        validateManifest sane entries = .error (.hostilePath "a\\b") := by
  constructor
  · have hbuild := @buildEntries_of_content Tazamun.slabs
      (sender (.file "disk.img") (fun _ => some (List.replicate (2 ^ 35) 0)) (fun _ => true))
      (fun _ _ => ⟨_, rfl⟩)
    refine ⟨_, hbuild, fun frame hframe => ?_⟩
    have hfits := writeFrame_ok.mp ⟨frame, hframe⟩
    rw [length_manifestBody hbuild] at hfits
    refine not_fits_of_large (List.mem_singleton.mpr rfl) rfl ?_ hfits
    rw [List.length_replicate]
  · exact ⟨_, buildEntries_of_content (fun _ _ => ⟨_, rfl⟩), by decide⟩

end Tazamun.Oneshot
