import Tazamun.Sync.Staging

set_option autoImplicit false

/-! # What is published and what can be read back

`publish_local` describes a file by whatever chunk list `chunk_file` returns and knows no
limit. `resolve_manifest` knows three: the number of chunks, the size of a manifest blob, and
the sum of the lengths. So a manifest that was published is only good for something if its
list is within them.

The sum is the size, because `chunk_file` adds up the same lengths; and a list of at most
`MAX_CHUNKS_PER_FILE` entries takes less than `MAX_MANIFEST_BYTES`. That leaves the number of
chunks: a file of more than `MAX_CHUNKS_PER_FILE` chunks is published, and its manifest is
refused wherever it is read (`published_resolves_iff`). A chunk has at most `CDC_MAX` bytes,
so every file of more than 256 GiB is one (`chunkBytes_too_many`).

Blobs are named by their hashes, so a reader gets the published list only if no other blob
goes by its name; `Named` says so for the one blob that holds the list.
-/

namespace Tazamun.Transfer

/-- Under the hash of `data` a reader finds nothing but `data`: not in the store, and not over
the connection. -/
def Named {hash : Bytes → Nat} (s : BlobStore hash) (conn : Option (Fetch hash)) (data : Bytes) :
    Prop :=
  (∀ b, s.get (hash data) = some b → b = data) ∧
    ∀ fetch b, conn = some fetch → fetch (hash data) = .ok b → b.1 = data

/-- A reader can get the manifest: it is inline, in the store, or to be had over the
connection. -/
def Available {hash : Bytes → Nat} (s : BlobStore hash) (conn : Option (Fetch hash)) :
    ManifestRef → Prop
  | .inline _ => True
  | .blob h => s.has h = true ∨ ∃ fetch b, conn = some fetch ∧ fetch h = .ok b

variable {cdc : FastCdc} {pc : Postcard}

/-! ## The published list -/

theorem fits_chunkBytes (hhash : ∀ b, cdc.hash b < 256 ^ 32) (content : Bytes) :
    ∀ r ∈ cdc.chunkBytes content, r.Fits := by
  intro r hr
  rw [cdc.chunkBytes_eq] at hr
  obtain ⟨piece, -, rfl⟩ := List.mem_map.mp hr
  exact ⟨hhash piece, Nat.mod_lt _ (Nat.two_pow_pos 32)⟩

/-- A content has at least one chunk for every `CDC_MAX` bytes. -/
theorem length_le_chunkBytes (cdc : FastCdc) (content : Bytes) :
    content.length ≤ cdcMax * (cdc.chunkBytes content).length := by
  have hsum : ∀ pieces : List Bytes, (∀ p ∈ pieces, p.length ≤ cdcMax) →
      pieces.flatten.length ≤ cdcMax * pieces.length := by
    intro pieces h
    induction pieces with
    | nil => simp
    | cons p pieces ih =>
        have hp := h p List.mem_cons_self
        have hrest := ih (fun q hq => h q (List.mem_cons_of_mem _ hq))
        rw [List.flatten_cons, List.length_append, List.length_cons]
        calc p.length + pieces.flatten.length
            ≤ cdcMax + cdcMax * pieces.length := Nat.add_le_add hp hrest
          _ = cdcMax * (pieces.length + 1) := by ring
  have h := hsum (cdc.cutter.pieces content)
    (fun p hp => cdc.cutter.length_le_of_mem_pieces (by decide) hp)
  rw [cdc.cutter.flatten_pieces] at h
  rwa [cdc.chunkBytes_eq, List.length_map]

theorem chunkBytes_too_many {content : Bytes} (h : cdcMax * maxChunksPerFile < content.length) :
    maxChunksPerFile < (cdc.chunkBytes content).length := by
  have hle := length_le_chunkBytes cdc content
  exact Nat.lt_of_mul_lt_mul_left (lt_of_lt_of_le h hle)

/-- The list of a file passes the check for the size that was published with it, up to the
number of chunks. -/
theorem checkManifest_chunkBytes (content : Bytes) :
    checkManifest (cdc.chunkBytes content) (content.length % 2 ^ 64) = .ok () ↔
      (cdc.chunkBytes content).length ≤ maxChunksPerFile := by
  rw [checkManifest_ok, cdc.chunkLengths_chunkBytes]
  constructor
  · exact And.left
  · intro hcount
    have hsize : content.length < 2 ^ 64 :=
      calc content.length
          ≤ cdcMax * (cdc.chunkBytes content).length := length_le_chunkBytes cdc content
        _ ≤ cdcMax * maxChunksPerFile := Nat.mul_le_mul_left _ hcount
        _ < 2 ^ 64 := by decide
    rw [Nat.mod_eq_of_lt hsize]
    exact ⟨hcount, rfl, hsize⟩

/-- What `chunk_file` leaves when its sink takes everything. -/
def published (cdc : FastCdc) (content : Bytes) : Chunked :=
  { calls := cdc.batch content, result := .ok (cdc.chunkBytes content, content.length % 2 ^ 64) }

/-- The store and the chunker hash the same bytes in the same way. -/
theorem publish_hashes (content : Bytes) :
    ((((cdc.batch content).map Prod.snd).map cdc.hash).zip (cdc.chunkBytes content)).any
      (fun t => decide (t.1 ≠ t.2.hash)) = false := by
  rw [cdc.chunkBytes_eq, FastCdc.batch, List.map_map, List.map_map]
  induction cdc.cutter.pieces content with
  | nil => rfl
  | cons piece pieces ih =>
      rw [List.map_cons, List.map_cons, List.zip_cons_cons, List.any_cons, ih]
      simp [FastCdc.chunker, Chunker.chunkRef]

/-- `publish_local` on a whole file is `build_manifest` on its list. -/
theorem publishLocal_eq (s : BlobStore cdc.hash) (content : Bytes) :
    publishLocal pc s (published cdc content)
      = match buildManifest pc (((cdc.batch content).map Prod.snd).foldl BlobStore.add s)
          (cdc.chunkBytes content) with
        | (.error e, s) => (.error e, s)
        | (.ok manifest, s) => (.ok { manifest, size := content.length % 2 ^ 64 }, s) := by
  rw [publishLocal]
  simp only [published, publish_hashes, Bool.false_eq_true, if_false]
  generalize buildManifest pc _ _ = built
  obtain ⟨result, s'⟩ := built
  cases result <;> rfl

theorem BlobStore.has_add {hash : Bytes → Nat} (s : BlobStore hash) (data : Bytes) :
    (s.add data).has (hash data) = true := by
  rw [BlobStore.add]
  split
  · rename_i h
    exact h
  · exact BlobStore.has_iff.mpr ⟨_, BlobStore.get_put_self _⟩

/-- What is published: the size, and the list itself or the hash of a blob that holds it and
is in the store. -/
theorem publishLocal_ok {s s' : BlobStore cdc.hash} {content : Bytes} {pub : Published}
    (h : publishLocal pc s (published cdc content) = (.ok pub, s')) :
    pub.size = content.length % 2 ^ 64 ∧
      (((cdc.chunkBytes content).length ≤ inlineManifestMax ∧
          pub.manifest = .inline (cdc.chunkBytes content)) ∨
        ∃ bytes, pc.toBytes (cdc.chunkBytes content) = .ok bytes ∧
          pub.manifest = .blob (cdc.hash bytes) ∧ s'.has (cdc.hash bytes) = true) := by
  rw [publishLocal_eq, buildManifest] at h
  split at h
  · cases h
  · rename_i manifest s₁ hbuild
    obtain ⟨rfl, rfl⟩ : _ ∧ _ := by simpa using h
    refine ⟨rfl, ?_⟩
    split at hbuild
    · rename_i hshort
      obtain ⟨rfl, -⟩ : _ ∧ _ := by simpa using hbuild
      exact .inl ⟨hshort, rfl⟩
    · split at hbuild
      · cases hbuild
      · rename_i bytes hbytes
        obtain ⟨rfl, rfl⟩ : _ ∧ _ := by simpa using hbuild
        exact .inr ⟨bytes, hbytes, rfl, BlobStore.has_add _ _⟩

/-! ## Reading it back -/

/-- A resolved list is within the cap. -/
theorem length_le_of_resolved {hash : Bytes → Nat} {s : BlobStore hash} {manifest : ManifestRef}
    {expected : Nat} {conn : Option (Fetch hash)} {refs : List ChunkRef}
    (h : (resolveManifest pc s manifest expected conn).1 = .ok refs) :
    refs.length ≤ maxChunksPerFile := by
  cases hresolved : resolveManifest pc s manifest expected conn with
  | mk result s' =>
      rw [hresolved] at h
      obtain rfl : result = .ok refs := h
      exact (checkManifest_ok.mp (resolveManifest_ok hresolved).1).1

/-- The blob under the hash of `data`, where nothing else is under it. -/
theorem resolveBlob_named {hash : Bytes → Nat} {s : BlobStore hash} {conn : Option (Fetch hash)}
    {data : Bytes} (hnamed : Named s conn data) (havail : Available s conn (.blob (hash data))) :
    ∃ s', resolveBlob s (hash data) conn = .ok s' ∧ s'.get (hash data) = some data := by
  unfold resolveBlob
  by_cases hhas : s.has (hash data) = true
  · obtain ⟨b, hb⟩ := BlobStore.has_iff.mp hhas
    rw [if_pos hhas]
    refine ⟨s, rfl, ?_⟩
    rw [hb, hnamed.1 b hb]
  · rcases havail with hin | ⟨fetch, b, rfl, hfetch⟩
    · exact absurd hin hhas
    · rw [if_neg hhas]
      simp only [hfetch]
      refine ⟨_, rfl, ?_⟩
      rw [BlobStore.fetched, if_neg hhas, BlobStore.get_put_self, hnamed.2 fetch b rfl hfetch]

/-- The encoded list fits a manifest blob if its entries are within the cap. -/
theorem length_toBytes_le (hpc : pc.Lawful) {refs : List ChunkRef} {bytes : Bytes}
    (h : pc.toBytes refs = .ok bytes) (hcount : refs.length ≤ maxChunksPerFile) :
    bytes.length ≤ maxManifestBytes := by
  have hlen := hpc.length_le refs bytes h
  simp only [maxManifestBytes, maxChunksPerFile] at hcount ⊢
  omega

/-- A published list within the cap can be resolved by everyone who can get the manifest. -/
theorem resolve_published (hpc : pc.Lawful) (hhash : ∀ b, cdc.hash b < 256 ^ 32)
    {s s' later : BlobStore cdc.hash} {content : Bytes} {pub : Published}
    (h : publishLocal pc s (published cdc content) = (.ok pub, s'))
    {conn : Option (Fetch cdc.hash)}
    (hnamed : ∀ bytes, pc.toBytes (cdc.chunkBytes content) = .ok bytes → Named later conn bytes)
    (havail : Available later conn pub.manifest)
    (hcount : (cdc.chunkBytes content).length ≤ maxChunksPerFile) :
    (resolveManifest pc later pub.manifest pub.size conn).1 = .ok (cdc.chunkBytes content) := by
  obtain ⟨hsize, hmanifest⟩ := publishLocal_ok h
  have hcheck : checked (cdc.chunkBytes content) pub.size = .ok (cdc.chunkBytes content) := by
    rw [checked_ok, hsize]
    exact ⟨rfl, (checkManifest_chunkBytes content).mpr hcount⟩
  rcases hmanifest with ⟨-, hinline⟩ | ⟨bytes, hbytes, hblob, -⟩
  · rw [hinline, resolveManifest]
    exact hcheck
  · rw [hblob] at havail
    obtain ⟨s₁, hresolved, hget⟩ := resolveBlob_named (hnamed bytes hbytes) havail
    have hsmall : maxChunksPerFile < 2 ^ 64 := by decide
    have hdecode : decodeBlob pc.fromBytes bytes = .ok (cdc.chunkBytes content) :=
      decodeBlob_ok.mpr ⟨hpc.round _ bytes (lt_of_le_of_lt hcount hsmall)
        (fits_chunkBytes hhash content) hbytes, hcount⟩
    have hload : loadManifest pc s₁ (cdc.hash bytes) = .ok (cdc.chunkBytes content) :=
      loadManifest_ok.mpr ⟨bytes, hget, length_toBytes_le hpc hbytes hcount, hdecode⟩
    rw [hblob, resolveManifest]
    simp only [hresolved, hload]
    exact hcheck

/-! ## Main result -/

/-- **Everything published can be consumed, up to the number of chunks.** Whenever
`chunk_file` has chunked a file for `publish_local` and this returns a manifest, everyone who
can get the manifest resolves it to exactly the list of the file, checked for the published
size, if and only if the file has at most `MAX_CHUNKS_PER_FILE` chunks; and the publisher
itself can get it. -/
theorem published_resolves_iff (hpc : pc.Lawful) (hhash : ∀ b, cdc.hash b < 256 ^ 32)
    (content : Bytes) (reads : Nat → Option Nat) (hsteady : ∀ j, reads j ≠ none) (pool : Bool)
    (sink : Sink) (hsink : sink.Accepts) (p : Pipe)
    (hrun : Lib.Reaches (Pipe.step cdc pool sink) Lib.anyStep (.start content reads) p)
    (chunked : Chunked) (hend : p.outcome = some chunked) (s s' : BlobStore cdc.hash)
    (pub : Published) (hpub : publishLocal pc s chunked = (.ok pub, s')) :
    Available s' none pub.manifest ∧
    ∀ (later : BlobStore cdc.hash) (conn : Option (Fetch cdc.hash)),
      Available later conn pub.manifest →
      (∀ bytes, pc.toBytes (cdc.chunkBytes content) = .ok bytes → Named later conn bytes) →
      (((resolveManifest pc later pub.manifest pub.size conn).1 = .ok (cdc.chunkBytes content) ∧
          checkManifest (cdc.chunkBytes content) pub.size = .ok ()) ↔
        (cdc.chunkBytes content).length ≤ maxChunksPerFile) := by
  obtain rfl : chunked = published cdc content := by
    rw [Pipe.returned_eq hsteady hrun hend, cdc.chunkWhole_accepts hsink, published]
  obtain ⟨hsize, hmanifest⟩ := publishLocal_ok hpub
  refine ⟨?_, fun later conn havail hnamed => ?_⟩
  · rcases hmanifest with ⟨-, hinline⟩ | ⟨bytes, -, hblob, hhas⟩
    · rw [hinline]
      trivial
    · rw [hblob]
      exact .inl hhas
  · constructor
    · rintro ⟨hresolved, -⟩
      exact length_le_of_resolved hresolved
    · intro hcount
      refine ⟨resolve_published hpc hhash hpub hnamed havail hcount, ?_⟩
      rw [hsize]
      exact (checkManifest_chunkBytes content).mpr hcount

/-! ## Restoring and comparing -/

/-- Writing down the chunks of a content gives the content. -/
theorem writeChunks_pieces {s : BlobStore cdc.hash} {io : StageIo} {pieces : List Bytes}
    (hio : ∀ j, io.writes j = true) (hget : ∀ b ∈ pieces, s.get (cdc.hash b) = some b) (j : Nat) :
    writeChunks s io j (pieces.map cdc.chunker.chunkRef) = .ok pieces.flatten := by
  induction pieces generalizing j with
  | nil => rfl
  | cons b pieces ih =>
      have hfirst : s.get (cdc.chunker.chunkRef b).hash = some b := hget b List.mem_cons_self
      have hlen : (cdc.chunker.chunkRef b).len = b.length % 2 ^ 32 := rfl
      have hrest := ih (fun b' hb' => hget b' (List.mem_cons_of_mem _ hb')) (j + 1)
      rw [List.map_cons, writeChunks]
      simp only [hfirst, hlen, ne_eq, not_true_eq_false, if_false, hio j, Bool.not_true,
        Bool.false_eq_true, hrest]
      rfl

/-- **A published file can be restored**: where its chunks are in the store under their names,
`materialize` returns its bytes. -/
theorem materialize_published (hpc : pc.Lawful) (hhash : ∀ b, cdc.hash b < 256 ^ 32)
    {s s' later : BlobStore cdc.hash} {content : Bytes} {pub : Published} {io : StageIo}
    (h : publishLocal pc s (published cdc content) = (.ok pub, s'))
    (hnamed : ∀ bytes, pc.toBytes (cdc.chunkBytes content) = .ok bytes → Named later none bytes)
    (havail : Available later none pub.manifest)
    (hcount : (cdc.chunkBytes content).length ≤ maxChunksPerFile)
    (hget : ∀ b ∈ cdc.cutter.pieces content, later.get (cdc.hash b) = some b)
    (hio : io.creates = true ∧ (∀ j, io.writes j = true) ∧ io.syncs = true) :
    materialize pc later io pub.manifest pub.size
      = .ok { bytes := content, size := pub.size } := by
  have hresolved := resolve_published hpc hhash h hnamed havail hcount
  have hwritten := writeChunks_pieces hio.2.1 hget 0
  rw [← cdc.chunkBytes_eq, cdc.cutter.flatten_pieces] at hwritten
  have hassembled : assemble later io (cdc.chunkBytes content) = .ok content := by
    simp only [assemble, hio.1, Bool.not_true, Bool.false_eq_true, if_false, hwritten, hio.2.2,
      if_true]
  simp only [materialize, hresolved, hassembled]

/-- An unchanged file matches the record that was published for it. -/
theorem diskMatches_published {Id : Type} [LinearOrder Id] (hpc : pc.Lawful)
    (hhash : ∀ b, cdc.hash b < 256 ^ 32) {s s' later : BlobStore cdc.hash} {content : Bytes}
    {pub : Published} {record : FileRecord Id}
    (h : publishLocal pc s (published cdc content) = (.ok pub, s'))
    (hnamed : ∀ bytes, pc.toBytes (cdc.chunkBytes content) = .ok bytes → Named later none bytes)
    (havail : Available later none pub.manifest)
    (hcount : (cdc.chunkBytes content).length ≤ maxChunksPerFile)
    (hlive : record.deleted = false) (hmanifest : record.manifest = pub.manifest)
    (hsize : record.size = pub.size) (hbytes : content.length < 2 ^ 64) :
    diskMatches pc later record (some content) (published cdc content) = .ok true := by
  have hresolved := resolve_published hpc hhash h hnamed havail hcount
  have hlen : pub.size = content.length := by
    rw [(publishLocal_ok h).1, Nat.mod_eq_of_lt hbytes]
  rw [diskMatches, if_neg (by simp [hlive, hsize, hlen]), hmanifest, hsize]
  simp only [hresolved, published, decide_true]

/-- A file one byte longer than `MAX_CHUNKS_PER_FILE` chunks of `CDC_MAX` bytes can be. -/
def hugeFile : Bytes := List.replicate (cdcMax * maxChunksPerFile + 1) 0

theorem hugeFile_chunks : maxChunksPerFile < (slabs.chunkBytes hugeFile).length := by
  refine chunkBytes_too_many ?_
  rw [hugeFile, List.length_replicate]
  exact Nat.lt_succ_self _

/-- Nothing stops a publication. -/
theorem exists_published (s : BlobStore cdc.hash) (content : Bytes) :
    ∃ pub s', publishLocal postcard s (published cdc content) = (.ok pub, s') := by
  have hbuild : ∀ (s : BlobStore cdc.hash) refs, ∃ manifest s',
      buildManifest postcard s refs = (.ok manifest, s') := by
    intro s refs
    rw [buildManifest]
    split
    · exact ⟨_, _, rfl⟩
    · exact ⟨_, _, rfl⟩
  obtain ⟨manifest, s', h⟩ := hbuild (((cdc.batch content).map Prod.snd).foldl BlobStore.add s)
    (cdc.chunkBytes content)
  rw [publishLocal_eq, h]
  exact ⟨_, _, rfl⟩

/-- It is published, and nobody can resolve its manifest: neither from the publisher's store
nor from any other. -/
theorem published_unresolvable :
    ∃ p chunked pub s',
      Lib.Reaches (Pipe.step slabs true (fun _ => none)) Lib.anyStep
        (.start hugeFile (fun _ => some 65536)) p ∧
      p.outcome = some chunked ∧
      publishLocal postcard (BlobStore.empty : BlobStore slabs.hash) chunked = (.ok pub, s') ∧
      ∀ (later : BlobStore slabs.hash) (conn : Option (Fetch slabs.hash)),
        (resolveManifest postcard later pub.manifest pub.size conn).1
          ≠ .ok (slabs.chunkBytes hugeFile) := by
  have hsteady : ∀ j, (fun _ : Nat => some 65536) j ≠ none := fun _ => Option.some_ne_none _
  have hstart : Pipe.Inv slabs (fun _ => none) hugeFile (.start hugeFile (fun _ => some 65536)) :=
    Pipe.start_inv hsteady
  obtain ⟨p, hrun, hend⟩ := Pipe.exists_returned true hstart
  obtain ⟨chunked, hchunked⟩ := Option.ne_none_iff_exists'.mp hend
  obtain rfl : chunked = published slabs hugeFile := by
    rw [Pipe.returned_eq hsteady hrun hchunked, slabs.chunkWhole_accepts (fun _ => rfl), published]
  obtain ⟨pub, s', hpub⟩ := exists_published (BlobStore.empty : BlobStore slabs.hash) hugeFile
  refine ⟨p, _, pub, s', hrun, hchunked, hpub, fun later conn hresolved => ?_⟩
  have hcount := length_le_of_resolved hresolved
  have hmany := hugeFile_chunks
  omega

theorem slabs_hash_lt (b : Bytes) : slabs.hash b < 256 ^ 32 := by
  simp only [slabs]
  split
  · norm_num
  · exact Nat.mod_lt _ (by norm_num)

theorem slabs_chunkBytes : slabs.chunkBytes [7, 8] = [slabs.chunker.chunkRef [7, 8]] := by
  have hpieces : slabs.cutter.pieces [7, 8] = [[7, 8]] := by
    rw [slabs.cutter.pieces_of_ne_nil (by decide)]
    have hnext : slabs.cutter.next [7, 8] = 2 := by decide
    rw [hnext]
    simp
  rw [slabs.chunkBytes_eq, hpieces]
  rfl

/-- A file of two bytes is published and read back. -/
theorem published_resolves_small :
    ∃ p chunked pub s',
      Lib.Reaches (Pipe.step slabs true (fun _ => none)) Lib.anyStep
        (.start [7, 8] (fun _ => some 1)) p ∧
      p.outcome = some chunked ∧
      publishLocal postcard (BlobStore.empty : BlobStore slabs.hash) chunked = (.ok pub, s') ∧
      (resolveManifest postcard (BlobStore.empty : BlobStore slabs.hash) pub.manifest pub.size
        none).1 = .ok (slabs.chunkBytes [7, 8]) := by
  have hsteady : ∀ j, (fun _ : Nat => some 1) j ≠ none := fun _ => Option.some_ne_none _
  have hstart : Pipe.Inv slabs (fun _ => none) [7, 8] (.start [7, 8] (fun _ => some 1)) :=
    Pipe.start_inv hsteady
  obtain ⟨p, hrun, hend⟩ := Pipe.exists_returned true hstart
  obtain ⟨chunked, hchunked⟩ := Option.ne_none_iff_exists'.mp hend
  obtain rfl : chunked = published slabs [7, 8] := by
    rw [Pipe.returned_eq hsteady hrun hchunked, slabs.chunkWhole_accepts (fun _ => rfl), published]
  obtain ⟨pub, s', hpub⟩ := exists_published (BlobStore.empty : BlobStore slabs.hash) [7, 8]
  have hinline : pub.manifest = .inline (slabs.chunkBytes [7, 8]) := by
    obtain ⟨-, ⟨-, hinline⟩ | ⟨bytes, -, hblob, -⟩⟩ := publishLocal_ok hpub
    · exact hinline
    · rw [publishLocal_eq, buildManifest, slabs_chunkBytes, if_pos (by decide)] at hpub
      obtain ⟨rfl, -⟩ : _ ∧ _ := by simpa using hpub
      cases hblob
  have hall := (published_resolves_iff postcard_lawful slabs_hash_lt [7, 8] (fun _ => some 1)
    hsteady true (fun _ => none) (fun _ => rfl) p hrun _ hchunked _ s' pub hpub).2
    BlobStore.empty none (by rw [hinline]; trivial) (fun bytes _ => ⟨?_, ?_⟩)
  · refine ⟨p, _, pub, s', hrun, hchunked, hpub, (hall.mpr ?_).1⟩
    rw [slabs_chunkBytes]
    decide
  · intro b hb
    simp [BlobStore.get, BlobStore.empty] at hb
  · rintro fetch b hnone
    cases hnone

end Tazamun.Transfer
