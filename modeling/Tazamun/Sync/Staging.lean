import Tazamun.Sync.Interleaving
import Tazamun.Sync.Postcard

set_option autoImplicit false

/-! # What a staging file holds

A staging file is renamed into the synced folder, so its bytes must be those of the record it
was made for: the chunk list passes `manifest::check` for the declared size, and the file is
the concatenation of blobs with the listed hashes and as long as the record says (`Matches`).

The hashes are right in any case: the store files blobs under their hashes. The rest can fail
in two ways. `resolve_manifest` checks every list, and `materialize` goes through it; but
`pull_stage` takes the list of an inline manifest as it is, so the declared size may be any
number. And `assemble` compares the length of a blob with the listed one after it has cut it
down to 32 bits. `staged_matches` says that these are the only ways.
-/

namespace Tazamun.Transfer

variable {hash : Bytes → Nat}

/-! ## Lists and blobs -/

/-- The chunk list that a manifest stands for. -/
def listed (pc : Postcard) (s : BlobStore hash) : ManifestRef → Option (List ChunkRef)
  | .inline refs => some refs
  | .blob h => (s.get h).bind pc.fromBytes

/-- The length of every listed blob fits a `u32`. -/
def ShortBlobs (s : BlobStore hash) (refs : List ChunkRef) : Prop :=
  ∀ r ∈ refs, ∀ b, s.get r.hash = some b → b.length < 2 ^ 32

/-- The staged bytes are those of a record of `size` bytes with this chunk list. -/
structure Matches (hash : Bytes → Nat) (refs : List ChunkRef) (size : Nat) (bytes : Bytes) :
    Prop where
  check : checkManifest refs size = .ok ()
  chunks : ∃ chunks : List Bytes, chunks.map hash = refs.map ChunkRef.hash ∧ bytes = chunks.flatten
  length : bytes.length = size

namespace BlobStore

variable {s : BlobStore hash}

theorem has_iff {h : Nat} : s.has h = true ↔ ∃ b, s.get h = some b := by
  rw [has, get, Map.contains_eq, Option.isSome_iff_exists]

theorem get_put_self {h : Nat} (b : { b : Bytes // hash b = h }) :
    (s.put b).get h = some b.1 := Map.get_insert_self _ _ _

theorem get_put_ne {h h' : Nat} (b : { b : Bytes // hash b = h }) (hne : h ≠ h') :
    (s.put b).get h' = s.get h' := Map.get_insert_ne _ _ hne

/-- A blob that is in the store stays as it is. -/
theorem get_fetched {h h' : Nat} {b : Bytes} (f : { b : Bytes // hash b = h })
    (hb : s.get h' = some b) : (s.fetched f).get h' = some b := by
  rw [fetched]
  split
  · exact hb
  · rename_i hnew
    rw [get_put_ne f, hb]
    rintro rfl
    exact hnew (has_iff.mpr ⟨b, hb⟩)

theorem get_add {h : Nat} {b data : Bytes} (hb : s.get h = some b) :
    (s.add data).get h = some b := get_fetched ⟨data, rfl⟩ hb

end BlobStore

/-! ## Resolving -/

theorem checked_ok {refs refs' : List ChunkRef} {expected : Nat} :
    checked refs expected = .ok refs' ↔ refs' = refs ∧ checkManifest refs expected = .ok () := by
  rw [checked]
  cases checkManifest refs expected with
  | error e => simp
  | ok u => simp [eq_comm]

theorem resolveBlob_ok {s s' : BlobStore hash} {h : Nat} {conn : Option (Fetch hash)}
    (heq : resolveBlob s h conn = .ok s') :
    (∃ b, s'.get h = some b) ∧ ∀ h' b, s.get h' = some b → s'.get h' = some b := by
  unfold resolveBlob at heq
  split at heq
  · rename_i hhas
    cases heq
    exact ⟨BlobStore.has_iff.mp hhas, fun _ _ hb => hb⟩
  · rename_i hhas
    split at heq
    · cases heq
    · split at heq
      · cases heq
      · rename_i b _
        cases heq
        refine ⟨⟨b.1, ?_⟩, fun h' b' hb => BlobStore.get_fetched b hb⟩
        rw [BlobStore.fetched, if_neg hhas]
        exact BlobStore.get_put_self b

theorem loadManifest_ok {pc : Postcard} {s : BlobStore hash} {h : Nat} {refs : List ChunkRef} :
    loadManifest pc s h = .ok refs ↔
      ∃ bytes, s.get h = some bytes ∧ bytes.length ≤ maxManifestBytes ∧
        decodeBlob pc.fromBytes bytes = .ok refs := by
  rw [loadManifest]
  cases s.get h with
  | none => simp
  | some bytes =>
      by_cases hlong : maxManifestBytes < bytes.length
      · simp only [if_pos hlong, reduceCtorEq, Option.some.injEq, exists_eq_left', false_iff,
          not_and]
        omega
      · simp only [if_neg hlong, Option.some.injEq, exists_eq_left', Nat.le_of_not_lt hlong,
          true_and]
        cases decodeBlob pc.fromBytes bytes with
        | error e => simp
        | ok got => simp

/-- A list that was resolved passed the check, and it is the one the manifest stands for. -/
theorem resolveManifest_ok {pc : Postcard} {s s' : BlobStore hash} {manifest : ManifestRef}
    {expected : Nat} {conn : Option (Fetch hash)} {refs : List ChunkRef}
    (heq : resolveManifest pc s manifest expected conn = (.ok refs, s')) :
    checkManifest refs expected = .ok () ∧ listed pc s' manifest = some refs := by
  cases manifest with
  | inline list =>
      obtain ⟨hchecked, rfl⟩ := Prod.mk.inj heq
      obtain ⟨rfl, hcheck⟩ := checked_ok.mp hchecked
      exact ⟨hcheck, rfl⟩
  | blob h =>
      rw [resolveManifest] at heq
      split at heq
      · cases heq
      · rename_i s₁ hblob
        split at heq
        · cases heq
        · rename_i list hload
          obtain ⟨hchecked, rfl⟩ := Prod.mk.inj heq
          obtain ⟨rfl, hcheck⟩ := checked_ok.mp hchecked
          obtain ⟨bytes, hget, -, hdecode⟩ := loadManifest_ok.mp hload
          refine ⟨hcheck, ?_⟩
          rw [listed, hget]
          exact (decodeBlob_ok.mp hdecode).1

/-! ## The fetch loop keeps what is stored -/

theorem Swarm.filled_store (w : Swarm hash) : w.filled.store = w.store := rfl

/-- Whatever the loop does, what is in the store stays there. -/
theorem fetchLoop_keeps {joins : List (Joined hash)} {w : Swarm hash} {s : BlobStore hash}
    (heq : fetchLoop joins w = some (.ok s)) {h : Nat} {b : Bytes} (hb : w.store.get h = some b) :
    s.get h = some b := by
  have hfinish : ∀ {w : Swarm hash} {s : BlobStore hash}, w.finish = .ok s → w.store = s := by
    intro w s hw
    rw [Swarm.finish] at hw
    split at hw
    · cases hw
      rfl
    · cases hw
  induction joins generalizing w with
  | nil =>
      rw [fetchLoop] at heq
      split at heq
      · have hstore : w.filled.store = s := hfinish (Option.some.inj heq)
        rwa [← hstore, Swarm.filled_store]
      · cases heq
  | cons j joins ih =>
      rw [fetchLoop] at heq
      split at heq
      · have hstore : w.filled.store = s := hfinish (Option.some.inj heq)
        rwa [← hstore, Swarm.filled_store]
      · split at heq
        · cases heq
        · rename_i h' ci _
          simp only at heq
          split at heq
          · cases heq
          · rename_i w' hjoined
            refine ih heq ?_
            unfold Swarm.joined at hjoined
            split at hjoined
            · cases hjoined
            · split at hjoined
              · cases hjoined
                exact BlobStore.get_fetched _ hb
              · simp only at hjoined
                split at hjoined
                · cases hjoined
                · cases hjoined
                  simp only [Swarm.blame]
                  split
                  · exact hb
                  · split
                    · exact hb
                    · exact hb

/-- What a pull has got when it begins to assemble: the list that the manifest stands for,
checked unless it came with the record. -/
theorem pullFetch_ok {pc : Postcard} {s : BlobStore hash} {io : PullIo hash}
    {manifest : ManifestRef} {size : Nat} {pulled : Pulled hash}
    (heq : pullFetch pc s io manifest size = some (.ok pulled)) :
    listed pc pulled.store manifest = some pulled.refs ∧
      ((∃ refs, manifest = .inline refs) ∨ checkManifest pulled.refs size = .ok ()) := by
  rw [pullFetch] at heq
  split at heq
  · cases heq
  · rename_i refs s₁ hmanifest
    split at heq
    · cases heq
    · cases heq
    · rename_i store hchunks
      cases heq
      have hkeeps : ∀ h b, s₁.get h = some b → store.get h = some b := by
        intro h b hb
        rw [pullChunks] at hchunks
        split at hchunks
        · cases hchunks
          exact hb
        · simp only at hchunks
          split at hchunks
          · cases hchunks
          · exact fetchLoop_keeps hchunks hb
      cases manifest with
      | inline list =>
          obtain ⟨hrefs, -⟩ := Prod.mk.inj hmanifest
          cases hrefs
          exact ⟨rfl, .inl ⟨_, rfl⟩⟩
      | blob h =>
          rw [pullManifest] at hmanifest
          split at hmanifest
          · cases hmanifest
          · obtain ⟨hcheck, hlisted⟩ := resolveManifest_ok hmanifest
            refine ⟨?_, .inr hcheck⟩
            rw [listed, Option.bind_eq_some_iff] at hlisted
            obtain ⟨bytes, hget, hdecode⟩ := hlisted
            rw [listed, hkeeps h bytes hget]
            exact hdecode

/-! ## Assembling -/

/-- What is written: for each entry the blob under its hash, of the listed length up to a
multiple of `2 ^ 32`. -/
theorem writeChunks_ok {s : BlobStore hash} {io : StageIo} {j : Nat} {refs : List ChunkRef}
    {bytes : Bytes} (heq : writeChunks s io j refs = .ok bytes) :
    ∃ chunks : List Bytes,
      List.Forall₂ (fun r b => s.get r.hash = some b ∧ b.length % 2 ^ 32 = r.len) refs chunks ∧
        bytes = chunks.flatten := by
  induction refs generalizing j bytes with
  | nil =>
      rw [writeChunks] at heq
      cases heq
      exact ⟨[], .nil, rfl⟩
  | cons r rs ih =>
      rw [writeChunks] at heq
      split at heq
      · cases heq
      · rename_i b hget
        split at heq
        · cases heq
        · rename_i hlen
          split at heq
          · cases heq
          · split at heq
            · cases heq
            · rename_i rest hrest
              cases heq
              obtain ⟨chunks, hchunks, rfl⟩ := ih hrest
              refine ⟨b :: chunks, .cons ⟨hget, ?_⟩ hchunks, rfl⟩
              by_contra hne
              exact hlen hne

theorem assemble_ok {s : BlobStore hash} {io : StageIo} {refs : List ChunkRef} {bytes : Bytes}
    (heq : assemble s io refs = .ok bytes) :
    ∃ chunks : List Bytes,
      List.Forall₂ (fun r b => s.get r.hash = some b ∧ b.length % 2 ^ 32 = r.len) refs chunks ∧
        bytes = chunks.flatten := by
  rw [assemble] at heq
  split at heq
  · cases heq
  · split at heq
    · cases heq
    · rename_i written hwritten
      split at heq
      · cases heq
        exact writeChunks_ok hwritten
      · cases heq

/-- The file is as long as the list says exactly when no blob is cut down. -/
theorem length_flatten_eq_iff {s : BlobStore hash} {refs : List ChunkRef} {chunks : List Bytes}
    (hchunks : List.Forall₂ (fun r b => s.get r.hash = some b ∧ b.length % 2 ^ 32 = r.len)
      refs chunks) :
    chunkLengths refs ≤ chunks.flatten.length ∧
      (chunks.flatten.length = chunkLengths refs ↔ ShortBlobs s refs) := by
  induction hchunks with
  | nil => simp [chunkLengths, ShortBlobs]
  | @cons r b refs chunks hfirst _ ih =>
      obtain ⟨hget, hlen⟩ := hfirst
      obtain ⟨hle, hiff⟩ := ih
      have hcut : b.length % 2 ^ 32 ≤ b.length := Nat.mod_le _ _
      have hsum : chunkLengths (r :: refs) = r.len + chunkLengths refs := rfl
      have hshort : ShortBlobs s (r :: refs) ↔ b.length < 2 ^ 32 ∧ ShortBlobs s refs := by
        constructor
        · intro h
          exact ⟨h r List.mem_cons_self b hget,
            fun r' hr' => h r' (List.mem_cons_of_mem _ hr')⟩
        · rintro ⟨hb, h⟩ r' hr' b' hb'
          rcases List.mem_cons.mp hr' with rfl | hr'
          · rw [hget] at hb'
            cases hb'
            exact hb
          · exact h r' hr' b' hb'
      rw [List.flatten_cons, List.length_append, hsum, hshort, ← hiff]
      refine ⟨by omega, ?_⟩
      constructor
      · intro h
        have hwhole : b.length % 2 ^ 32 = b.length := by omega
        refine ⟨?_, by omega⟩
        rw [← hwhole]
        exact Nat.mod_lt _ (Nat.two_pow_pos 32)
      · rintro ⟨hb, h⟩
        rw [Nat.mod_eq_of_lt hb] at hlen
        omega

/-- An assembled file matches a record exactly when its list passes the check and no listed
blob is too long. -/
theorem matches_iff {s : BlobStore hash} {io : StageIo} {refs : List ChunkRef} {size : Nat}
    {bytes : Bytes} (heq : assemble s io refs = .ok bytes) :
    Matches hash refs size bytes ↔ checkManifest refs size = .ok () ∧ ShortBlobs s refs := by
  obtain ⟨chunks, hchunks, rfl⟩ := assemble_ok heq
  obtain ⟨-, hlength⟩ := length_flatten_eq_iff hchunks
  constructor
  · intro h
    obtain ⟨-, hsum, -⟩ := checkManifest_ok.mp h.check
    exact ⟨h.check, hlength.mp (h.length.trans hsum.symm)⟩
  · rintro ⟨hcheck, hshort⟩
    obtain ⟨-, hsum, -⟩ := checkManifest_ok.mp hcheck
    refine ⟨hcheck, ⟨chunks, ?_, rfl⟩, (hlength.mpr hshort).trans hsum⟩
    -- blobs are filed under their hashes
    clear hlength hcheck hshort hsum heq
    induction hchunks with
    | nil => rfl
    | cons hfirst _ ih =>
        rw [List.map_cons, List.map_cons, ih, s.filed _ _ hfirst.1]

/-! ## Main result -/

/-- **Staged content and its record.** When `pull_stage` returns a staging file, it matches
the record exactly if an inline list passes `manifest::check` for the declared size and no
listed blob is `2 ^ 32` bytes or longer; for a file from `materialize` the second is enough. -/
theorem staged_matches (pc : Postcard) (s : BlobStore hash) (manifest : ManifestRef) (size : Nat)
    (staged : Staged) :
    (∀ io pulled, pullFetch pc s io manifest size = some (.ok pulled) →
      pullStage pc s io manifest size = some (.ok staged) →
      listed pc pulled.store manifest = some pulled.refs ∧ staged.size = size ∧
      (Matches hash pulled.refs size staged.bytes ↔
        (∀ refs, manifest = .inline refs → checkManifest refs size = .ok ()) ∧
          ShortBlobs pulled.store pulled.refs)) ∧
    (∀ io refs, localManifestChunks pc s manifest size = .ok refs →
      materialize pc s io manifest size = .ok staged →
      listed pc s manifest = some refs ∧ staged.size = size ∧
      (Matches hash refs size staged.bytes ↔ ShortBlobs s refs)) := by
  constructor
  · intro io pulled hfetch hstage
    obtain ⟨hlisted, hchecked⟩ := pullFetch_ok hfetch
    rw [pullStage, hfetch] at hstage
    simp only at hstage
    split at hstage
    · cases hstage
    · rename_i bytes hassemble
      cases hstage
      refine ⟨hlisted, rfl, ?_⟩
      rw [matches_iff hassemble]
      refine and_congr_left (fun _ => ?_)
      constructor
      · rintro hcheck refs rfl
        obtain rfl : refs = pulled.refs := Option.some.inj hlisted
        exact hcheck
      · intro hinline
        rcases hchecked with ⟨refs, rfl⟩ | hcheck
        · obtain rfl : refs = pulled.refs := Option.some.inj hlisted
          exact hinline _ rfl
        · exact hcheck
  · intro io refs hlocal hstage
    rw [materialize] at hstage
    rw [localManifestChunks] at hlocal
    rw [hlocal] at hstage
    simp only at hstage
    split at hstage
    · cases hstage
    · rename_i bytes hassemble
      cases hstage
      cases hresolved : resolveManifest pc s manifest size none with
      | mk result s' =>
          rw [hresolved] at hlocal
          obtain rfl : result = .ok refs := hlocal
          obtain ⟨hcheck, hlisted⟩ := resolveManifest_ok hresolved
          have hsame : s' = s := by
            cases manifest with
            | inline list => exact (Prod.mk.inj hresolved).2.symm
            | blob h =>
                rw [resolveManifest] at hresolved
                split at hresolved
                · cases hresolved
                · rename_i s₁ hblob
                  unfold resolveBlob at hblob
                  split at hblob
                  · cases hblob
                    split at hresolved
                    · cases hresolved
                    · exact (Prod.mk.inj hresolved).2.symm
                  · cases hblob
          rw [hsame] at hlisted
          refine ⟨hlisted, rfl, ?_⟩
          rw [matches_iff hassemble]
          constructor
          · exact And.right
          · intro hshort
            exact ⟨hcheck, hshort⟩

/-- A store with one blob, and a pull that needs no peer. -/
def oneBlob : BlobStore slabs.hash := BlobStore.empty.add [7, 8]

def localPull : PullIo slabs.hash :=
  { dials := [], swarm := [], joins := []
    stage := { creates := true, writes := fun _ => true, syncs := true } }

def oneChunk : ManifestRef := .inline [slabs.chunker.chunkRef [7, 8]]

theorem oneBlob_get : oneBlob.get (slabs.hash [7, 8]) = some [7, 8] := by
  rw [oneBlob, BlobStore.add]
  split
  · rename_i h
    simp [BlobStore.has, BlobStore.empty] at h
  · exact BlobStore.get_put_self _

theorem pullFetch_oneChunk (size : Nat) :
    pullFetch postcard oneBlob localPull oneChunk size
      = some (.ok { refs := [slabs.chunker.chunkRef [7, 8]], store := oneBlob }) := by
  have hhas : oneBlob.has (slabs.hash [7, 8]) = true := BlobStore.has_iff.mpr ⟨_, oneBlob_get⟩
  have hmissing : missing oneBlob [slabs.chunker.chunkRef [7, 8]] = [] := by
    rw [missing, List.filter_eq_nil_iff]
    intro h hh
    obtain rfl : h = slabs.hash [7, 8] := by
      simpa [Chunker.chunkRef, FastCdc.chunker] using hh
    simp [hhas]
  have hlist : pullManifest postcard oneBlob localPull oneChunk size
      = (.ok [slabs.chunker.chunkRef [7, 8]], oneBlob) := rfl
  rw [pullFetch, hlist]
  simp only [pullChunks, hmissing, if_true]

theorem pullStage_oneChunk (size : Nat) :
    pullStage postcard oneBlob localPull oneChunk size
      = some (.ok { bytes := [7, 8], size }) := by
  rw [pullStage, pullFetch_oneChunk]
  have hget : oneBlob.get (slabs.chunker.chunkRef [7, 8]).hash = some [7, 8] := oneBlob_get
  have hlen : (slabs.chunker.chunkRef [7, 8]).len = 2 := rfl
  simp [assemble, writeChunks, localPull, hget, hlen]

/-- The record says five bytes, its one chunk has two: the file is staged all the same. -/
theorem staged_short :
    pullStage postcard oneBlob localPull oneChunk 5 = some (.ok { bytes := [7, 8], size := 5 }) ∧
      ¬ Matches slabs.hash [slabs.chunker.chunkRef [7, 8]] 5 [7, 8] :=
  ⟨pullStage_oneChunk 5, fun h => by cases h.length⟩

/-- With the right size it matches. -/
theorem staged_matches_oneChunk :
    Matches slabs.hash [slabs.chunker.chunkRef [7, 8]] 2 [7, 8] := by
  have hall := (staged_matches postcard oneBlob oneChunk 2 { bytes := [7, 8], size := 2 }).1
    localPull _ (pullFetch_oneChunk 2) (pullStage_oneChunk 2)
  refine hall.2.2.mpr ⟨?_, ?_⟩
  · rintro refs hrefs
    cases hrefs
    exact checkManifest_ok.mpr ⟨by decide, rfl, by decide⟩
  · intro r hr b hb
    obtain rfl : r = slabs.chunker.chunkRef [7, 8] := by simpa using hr
    have hget := oneBlob_get
    rw [show oneBlob.get (slabs.hash [7, 8]) = some b from hb] at hget
    cases hget
    decide

end Tazamun.Transfer
