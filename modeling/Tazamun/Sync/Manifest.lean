import Tazamun.Daemon.Actor

set_option autoImplicit false

/-! # Chunk lists

A file is described by the list of its content-defined chunks, each by its hash and its
length (`ChunkRef`). `Chunker` is what makes such a list: the cut function and the hash are
third-party code (FastCDC, BLAKE3) and parameters here.

A list that comes from a peer is not trusted: `sync/manifest.rs` bounds the number of its
entries and compares the sum of their lengths with the declared size. The lengths are `u32`s
and the sum is a `u64` that is added up with `checked_add`.
-/

namespace Tazamun

/-! ## Making a list (`chunker.rs`) -/

/-- The cut function and the chunk hash. -/
structure Chunker where
  hash : Bytes → Nat
  cut : Bytes → List Bytes

def Chunker.chunkRef (ck : Chunker) (data : Bytes) : ChunkRef :=
  { hash := ck.hash data, len := data.length % 2 ^ 32 }

/-- `chunk_file`: the chunk list of a file and its size. -/
def Chunker.chunkFile (ck : Chunker) (bytes : Bytes) : List ChunkRef × Nat :=
  let refs := (ck.cut bytes).map ck.chunkRef
  (refs, (refs.map ChunkRef.len).sum % 2 ^ 64)

/-- The longest chunk. -/
def cdcMax : Nat := 262144

/-- What the users of a list rely on: the chunks of a file are its bytes in order, none longer
than `CDC_MAX`, and no two byte strings share a hash. -/
structure Chunker.Sound (ck : Chunker) : Prop where
  flatten_cut : ∀ bytes, (ck.cut bytes).flatten = bytes
  length_le : ∀ bytes, ∀ c ∈ ck.cut bytes, c.length ≤ cdcMax
  hash_injective : Function.Injective ck.hash

theorem chunkRef_len (ck : Chunker) {c : Bytes} (h : c.length ≤ cdcMax) :
    (ck.chunkRef c).len = c.length := by
  have hlt : c.length < 2 ^ 32 := lt_of_le_of_lt h (by decide)
  exact Nat.mod_eq_of_lt hlt

/-! ## Checking a list (`sync/manifest.rs`) -/

def maxChunksPerFile : Nat := 1048576

inductive ManifestError where
  | decode
  | tooManyChunks (count : Nat)
  | sizeOverflow
  | sizeMismatch (got want : Nat)
deriving DecidableEq

/-- The text of the error. -/
def ManifestError.text : ManifestError → String
  | .decode => "manifest blob is not valid postcard"
  | .tooManyChunks count => s!"{count} chunks exceeds the {maxChunksPerFile}-chunk cap"
  | .sizeOverflow => "chunk length sum overflowed u64"
  | .sizeMismatch got want => s!"chunk lengths sum to {got}, record says {want}"

def guardCount (refs : List ChunkRef) : Except ManifestError Unit :=
  if refs.length > maxChunksPerFile then .error (.tooManyChunks refs.length) else .ok ()

/-- The chunk lengths added with `checked_add`. -/
def foldedSize : List ChunkRef → Nat → Except ManifestError Nat
  | [], total => .ok total
  | r :: rs, total =>
      if total + r.len < 2 ^ 64 then foldedSize rs (total + r.len) else .error .sizeOverflow

def checkManifest (refs : List ChunkRef) (expected : Nat) : Except ManifestError Unit := do
  guardCount refs
  let got ← foldedSize refs 0
  if got ≠ expected then .error (.sizeMismatch got expected) else .ok ()

/-- `decode_blob`: the list a manifest blob holds; `fromBytes` is the decoder of postcard. -/
def decodeBlob (fromBytes : Bytes → Option (List ChunkRef)) (bytes : Bytes) :
    Except ManifestError (List ChunkRef) :=
  match fromBytes bytes with
  | none => .error .decode
  | some refs =>
      match guardCount refs with
      | .error e => .error e
      | .ok () => .ok refs

/-- The total length that a list declares. -/
def chunkLengths (refs : List ChunkRef) : Nat := (refs.map ChunkRef.len).sum

theorem guardCount_ok {refs : List ChunkRef} :
    guardCount refs = .ok () ↔ refs.length ≤ maxChunksPerFile := by
  rw [guardCount]
  split
  · simp only [reduceCtorEq, false_iff]
    omega
  · simp only [true_iff]
    omega

/-- The fold succeeds exactly when the sum is a `u64`, and then it is the sum. -/
theorem foldedSize_ok (refs : List ChunkRef) {total : Nat} (got : Nat) (htotal : total < 2 ^ 64) :
    foldedSize refs total = .ok got ↔
      total + chunkLengths refs = got ∧ total + chunkLengths refs < 2 ^ 64 := by
  induction refs generalizing total with
  | nil =>
      simp only [foldedSize, chunkLengths, List.map_nil, List.sum_nil, Nat.add_zero,
        Except.ok.injEq]
      constructor
      · intro h
        exact ⟨h, htotal⟩
      · exact And.left
  | cons r rs ih =>
      rw [foldedSize]
      simp only [chunkLengths, List.map_cons, List.sum_cons]
      split
      · rename_i hlt
        rw [ih hlt, chunkLengths, ← Nat.add_assoc]
      · simp only [reduceCtorEq, false_iff]
        omega

/-- What a checked list guarantees, and nothing less passes. -/
theorem checkManifest_ok {refs : List ChunkRef} {expected : Nat} :
    checkManifest refs expected = .ok () ↔
      refs.length ≤ maxChunksPerFile ∧ chunkLengths refs = expected ∧ expected < 2 ^ 64 := by
  have hfold := fun got => foldedSize_ok refs got (Nat.two_pow_pos 64)
  simp only [Nat.zero_add] at hfold
  rw [← guardCount_ok]
  constructor
  · intro h
    cases hguard : guardCount refs with
    | error e => simp [checkManifest, hguard, bind, Except.bind] at h
    | ok u =>
        cases hsum : foldedSize refs 0 with
        | error e => simp [checkManifest, hguard, hsum, bind, Except.bind] at h
        | ok got =>
            obtain ⟨heq, hlt⟩ := (hfold got).mp hsum
            by_cases hgot : got = expected
            · subst hgot
              exact ⟨rfl, heq, by omega⟩
            · simp [checkManifest, hguard, hsum, hgot, bind, Except.bind] at h
  · rintro ⟨hguard, hsum, hlt⟩
    have hfolded := (hfold expected).mpr ⟨hsum, by omega⟩
    simp [checkManifest, hguard, hfolded, bind, Except.bind]

theorem decodeBlob_ok {fromBytes : Bytes → Option (List ChunkRef)} {bytes : Bytes}
    {refs : List ChunkRef} :
    decodeBlob fromBytes bytes = .ok refs ↔
      fromBytes bytes = some refs ∧ refs.length ≤ maxChunksPerFile := by
  rw [← guardCount_ok, decodeBlob]
  cases hdec : fromBytes bytes with
  | none => simp
  | some got =>
      cases hguard : guardCount got with
      | error e =>
          simp only [hguard, reduceCtorEq, Option.some.injEq, false_iff, not_and]
          rintro rfl
          simp [hguard]
      | ok u =>
          simp only [hguard, Except.ok.injEq, Option.some.injEq]
          constructor
          · rintro rfl
            exact ⟨rfl, hguard⟩
          · exact And.left

end Tazamun
