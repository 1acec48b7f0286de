import Tazamun.Sync.Record

set_option autoImplicit false

/-! # Comparing two versions by their chunks

`diff_chunks` (`versions.rs`) summarises what became of a file between two kept versions:
which chunks carry over, which are new, which are gone, which moved, and how many bytes a
holder of the old version would fetch. Three ways of counting meet in it. The hash sets give
`added` and `removed`, the positions of the new list give `identical` and `moved`, and the
bytes to transfer count every new hash once. `Faithful` says what each number should be in
terms of the two lists alone.

All of them come out right for every pair of lists. What does not is the answer to the
question the summary is read for: `identical_content` compares the hash sets and the number
of chunks, so a version in which chunks changed places is reported as unchanged
(`identicalContent_of_swap`). **`diffChunks_faithful_iff`** gives the exact condition.
-/

namespace Tazamun

/-! ## The comparison -/

structure DiffStat where
  oldChunks : Nat
  newChunks : Nat
  identical : Nat
  added : Nat
  removed : Nat
  moved : Nat
  oldBytes : Nat
  newBytes : Nat
  transferBytes : Nat
deriving DecidableEq

def DiffStat.identicalContent (d : DiffStat) : Bool :=
  d.added == 0 && d.removed == 0 && d.oldChunks == d.newChunks

/-- The set of hashes of a chunk list. -/
def hashSet (chunks : List ChunkRef) : Finset Nat := (chunks.map ChunkRef.hash).toFinset

/-- The total length of a chunk list. -/
def totalBytes (chunks : List ChunkRef) : Nat := (chunks.map ChunkRef.len).sum

/-- One turn of the loop over the new chunks: `identical`, `transfer_bytes` and the hashes
counted already. -/
def countChunk (oldHashes : Finset Nat) (acc : Nat × Nat × Finset Nat) (c : ChunkRef) :
    Nat × Nat × Finset Nat :=
  if c.hash ∈ oldHashes then (acc.1 + 1, acc.2.1, acc.2.2)
  else if c.hash ∈ acc.2.2 then acc
  else (acc.1, acc.2.1 + c.len, insert c.hash acc.2.2)

/-- The hash at one position. -/
def hashAt (chunks : List ChunkRef) (i : Nat) : Option Nat := chunks[i]?.map ChunkRef.hash

def diffChunks (old new : List ChunkRef) : DiffStat :=
  let oldHashes := hashSet old
  let newHashes := hashSet new
  let counted := new.foldl (countChunk oldHashes) (0, 0, ∅)
  let common := min old.length new.length
  let samePos := ((List.range common).filter fun i => hashAt old i = hashAt new i).length
  let bothContent := (new.filter fun c => c.hash ∈ oldHashes).length
  { oldChunks := old.length, newChunks := new.length, identical := counted.1,
    added := (newHashes \ oldHashes).card, removed := (oldHashes \ newHashes).card,
    moved := bothContent - samePos, oldBytes := totalBytes old, newBytes := totalBytes new,
    transferBytes := counted.2.1 }

/-! ## What the numbers should be -/

/-- The content at position `i` of the new list is in the old one, but not at position
`i`. -/
def movedAt (old new : List ChunkRef) (i : Nat) : Bool :=
  match hashAt new i with
  | none => false
  | some hash => decide (hash ∈ hashSet old) && decide (hashAt old i ≠ some hash)

/-- **The summary tells the truth about the two lists**, where `len` gives the length of the
chunk with a given hash. -/
structure Faithful (len : Nat → Nat) (old new : List ChunkRef) (d : DiffStat) : Prop where
  content : d.identicalContent = true ↔ old = new
  chunks : d.oldChunks = old.length ∧ d.newChunks = new.length
  identical : d.identical + (new.filter fun c => c.hash ∉ hashSet old).length = d.newChunks
  moved : d.moved = ((List.range new.length).filter (movedAt old new)).length
  transfer : d.transferBytes = ∑ hash ∈ hashSet new \ hashSet old, len hash
  bytes : d.oldBytes = totalBytes old ∧ d.newBytes = totalBytes new
  bound : d.transferBytes ≤ d.newBytes
  added : d.added = (hashSet new \ hashSet old).card
  removed : d.removed = (hashSet old \ hashSet new).card

/-! ## The loop -/

theorem mem_hashSet {chunks : List ChunkRef} {hash : Nat} :
    hash ∈ hashSet chunks ↔ ∃ c ∈ chunks, c.hash = hash := by
  simp [hashSet]

/-- What the loop has counted after the chunks `seen`. -/
structure Counted (len : Nat → Nat) (oldHashes : Finset Nat) (seen : List ChunkRef)
    (acc : Nat × Nat × Finset Nat) : Prop where
  identical : acc.1 = (seen.filter fun c => c.hash ∈ oldHashes).length
  hashes : acc.2.2 = hashSet seen \ oldHashes
  transfer : acc.2.1 = ∑ hash ∈ hashSet seen \ oldHashes, len hash
  bound : acc.2.1 ≤ totalBytes seen

theorem hashSet_append_singleton (seen : List ChunkRef) (c : ChunkRef) :
    hashSet (seen ++ [c]) = insert c.hash (hashSet seen) := by
  ext hash
  simp only [mem_hashSet, Finset.mem_insert, List.mem_append, List.mem_singleton]
  constructor
  · rintro ⟨d, hd | rfl, rfl⟩
    · exact .inr ⟨d, hd, rfl⟩
    · exact .inl rfl
  · rintro (rfl | ⟨d, hd, rfl⟩)
    · exact ⟨c, .inr rfl, rfl⟩
    · exact ⟨d, .inl hd, rfl⟩

theorem totalBytes_append_singleton (seen : List ChunkRef) (c : ChunkRef) :
    totalBytes (seen ++ [c]) = totalBytes seen + c.len := by
  simp [totalBytes]

/-- One chunk more. -/
theorem Counted.step {len : Nat → Nat} {oldHashes : Finset Nat} {seen : List ChunkRef}
    {acc : Nat × Nat × Finset Nat} {c : ChunkRef} (hc : c.len = len c.hash)
    (h : Counted len oldHashes seen acc) :
    Counted len oldHashes (seen ++ [c]) (countChunk oldHashes acc c) := by
  have hset := hashSet_append_singleton seen c
  have hsum := totalBytes_append_singleton seen c
  have hbound := h.bound
  unfold countChunk
  by_cases hold : c.hash ∈ oldHashes
  · -- the chunk carries over: the new hashes stay what they were
    have hsdiff : hashSet (seen ++ [c]) \ oldHashes = hashSet seen \ oldHashes := by
      rw [hset, Finset.insert_sdiff_of_mem _ hold]
    rw [if_pos hold]
    refine ⟨?_, ?_, ?_, ?_⟩
    · simp [h.identical, hold]
    · rw [hsdiff]
      exact h.hashes
    · rw [hsdiff]
      exact h.transfer
    · show acc.2.1 ≤ _
      omega
  · have hsame : ((seen ++ [c]).filter fun c => c.hash ∈ oldHashes) =
        seen.filter fun c => c.hash ∈ oldHashes := by
      simp [hold]
    have hsdiff : hashSet (seen ++ [c]) \ oldHashes =
        insert c.hash (hashSet seen \ oldHashes) := by
      rw [hset, Finset.insert_sdiff_of_notMem _ hold]
    rw [if_neg hold]
    by_cases hcounted : c.hash ∈ acc.2.2
    · -- its hash has been counted
      have hseen : c.hash ∈ hashSet seen \ oldHashes := h.hashes ▸ hcounted
      have hkept : hashSet (seen ++ [c]) \ oldHashes = hashSet seen \ oldHashes := by
        rw [hsdiff, Finset.insert_eq_of_mem hseen]
      rw [if_pos hcounted]
      refine ⟨?_, ?_, ?_, ?_⟩
      · rw [hsame]
        exact h.identical
      · rw [hkept]
        exact h.hashes
      · rw [hkept]
        exact h.transfer
      · omega
    · have hnew : c.hash ∉ hashSet seen \ oldHashes := h.hashes ▸ hcounted
      rw [if_neg hcounted]
      refine ⟨?_, ?_, ?_, ?_⟩
      · rw [hsame]
        exact h.identical
      · show insert c.hash acc.2.2 = _
        rw [hsdiff, h.hashes]
      · show acc.2.1 + c.len = _
        rw [hsdiff, Finset.sum_insert hnew, h.transfer, hc]
        omega
      · show acc.2.1 + c.len ≤ _
        omega

theorem counted_foldl {len : Nat → Nat} {oldHashes : Finset Nat} :
    ∀ (rest seen : List ChunkRef) (acc : Nat × Nat × Finset Nat),
      (∀ c ∈ rest, c.len = len c.hash) → Counted len oldHashes seen acc →
        Counted len oldHashes (seen ++ rest) (rest.foldl (countChunk oldHashes) acc) := by
  intro rest
  induction rest with
  | nil =>
      intro seen acc _ h
      simpa using h
  | cons c rest ih =>
      intro seen acc hlen h
      have hstep := h.step (hlen c List.mem_cons_self)
      have hrest := ih (seen ++ [c]) _ (fun d hd => hlen d (List.mem_cons_of_mem c hd)) hstep
      simpa using hrest

/-- What the loop returns. -/
theorem counted_diff {len : Nat → Nat} (old new : List ChunkRef)
    (hlen : ∀ c ∈ new, c.len = len c.hash) :
    Counted len (hashSet old) new (new.foldl (countChunk (hashSet old)) (0, 0, ∅)) := by
  have hstart : Counted len (hashSet old) [] (0, 0, ∅) :=
    ⟨by simp, by simp [hashSet], by simp [hashSet], by simp [totalBytes]⟩
  simpa using counted_foldl new [] (0, 0, ∅) hlen hstart

/-! ## Positions -/

/-- Counting the elements of a list by their positions. -/
theorem length_filter_eq_positions {α : Type} (p : α → Bool) (l : List α) :
    (l.filter p).length = ((List.range l.length).filter fun i => (l[i]?).any p).length := by
  have hpositions : (List.range l.length).map (fun i => l[i]?) = l.map some := by
    apply List.ext_getElem?
    intro i
    by_cases hi : i < l.length
    · simp [hi]
    · simp [show l.length ≤ i by omega]
  calc (l.filter p).length = ((l.map some).filter (Option.any p)).length := by
        simp [List.filter_map, Function.comp_def]
    _ = (((List.range l.length).map fun i => l[i]?).filter (Option.any p)).length := by
        rw [hpositions]
    _ = _ := by
        simp [List.filter_map, Function.comp_def]

/-- Elements counted twice over: those with `q` and those without. -/
theorem length_filter_split {α : Type} (p q : α → Bool) (l : List α) :
    (l.filter p).length =
      (l.filter fun x => p x && q x).length + (l.filter fun x => p x && !q x).length := by
  induction l with
  | nil => rfl
  | cons x l ih =>
      cases hp : p x <;> cases hq : q x <;> simp [hp, hq, ih] <;> omega

/-- Positions with equal hashes lie in both lists. -/
theorem samePos_eq (old new : List ChunkRef) :
    ((List.range (min old.length new.length)).filter fun i =>
        hashAt old i = hashAt new i).length =
      ((List.range new.length).filter fun i =>
        (hashAt new i).any fun hash => hashAt old i = some hash).length := by
  have hsplit : List.range new.length =
      List.range (min old.length new.length) ++
        (List.range (new.length - min old.length new.length)).map
          (min old.length new.length + ·) := by
    rw [← List.range_add]
    congr 1
    omega
  rw [hsplit, List.filter_append, List.length_append]
  have hrest : ((List.range (new.length - min old.length new.length)).map
      (min old.length new.length + ·)).filter
        (fun i => (hashAt new i).any fun hash => hashAt old i = some hash) = [] := by
    rw [List.filter_eq_nil_iff]
    intro i hi
    obtain ⟨j, hj, rfl⟩ := List.mem_map.mp hi
    have hj := List.mem_range.mp hj
    have hshort : old.length ≤ min old.length new.length + j := by omega
    simp [hashAt, List.getElem?_eq_none hshort]
  rw [hrest, List.length_nil, Nat.add_zero]
  congr 1
  apply List.filter_congr
  intro i hi
  have hi := List.mem_range.mp hi
  have hnew : i < new.length := by omega
  simp [hashAt, List.getElem?_eq_getElem hnew]

/-- Content of the new list that is in the old one, counted by position. -/
theorem bothContent_eq (old new : List ChunkRef) :
    (new.filter fun c => c.hash ∈ hashSet old).length =
      ((List.range new.length).filter fun i =>
        (hashAt new i).any fun hash => decide (hash ∈ hashSet old)).length := by
  rw [length_filter_eq_positions]
  congr 1
  apply List.filter_congr
  intro i _
  cases hi : new[i]? <;> simp [hashAt, hi]

theorem hashAt_mem {chunks : List ChunkRef} {i hash : Nat} (h : hashAt chunks i = some hash) :
    hash ∈ hashSet chunks := by
  simp only [hashAt, Option.map_eq_some_iff] at h
  obtain ⟨c, hc, rfl⟩ := h
  exact mem_hashSet.mpr ⟨c, List.mem_of_getElem? hc, rfl⟩

/-- `moved` counts the positions whose content sits elsewhere in the old list. -/
theorem diffChunks_moved (old new : List ChunkRef) :
    (diffChunks old new).moved = ((List.range new.length).filter (movedAt old new)).length := by
  have hboth := bothContent_eq old new
  have hsame := samePos_eq old new
  -- split the positions with content of the old list by whether it is in its old place
  have hsplit := length_filter_split
    (fun i => (hashAt new i).any fun hash => decide (hash ∈ hashSet old))
    (fun i => (hashAt new i).any fun hash => decide (hashAt old i = some hash))
    (List.range new.length)
  have hplace : ((List.range new.length).filter fun i =>
      ((hashAt new i).any fun hash => decide (hash ∈ hashSet old)) &&
        (hashAt new i).any fun hash => decide (hashAt old i = some hash)) =
      (List.range new.length).filter fun i =>
        (hashAt new i).any fun hash => decide (hashAt old i = some hash) := by
    apply List.filter_congr
    intro i _
    cases hn : hashAt new i with
    | none => simp
    | some hash =>
        by_cases hold : hashAt old i = some hash
        · simp [hold, hashAt_mem hold]
        · simp [hold]
  have hmoved : ((List.range new.length).filter fun i =>
      ((hashAt new i).any fun hash => decide (hash ∈ hashSet old)) &&
        !(hashAt new i).any fun hash => decide (hashAt old i = some hash)) =
      (List.range new.length).filter (movedAt old new) := by
    apply List.filter_congr
    intro i _
    cases hn : hashAt new i <;> simp [movedAt, hn]
  rw [hplace, hmoved] at hsplit
  show (new.filter fun c => c.hash ∈ hashSet old).length - _ = _
  rw [hboth, hsame, hsplit]
  omega

/-! ## Whether the content is the same -/

/-- What `identical_content` really asks. -/
theorem diffChunks_identicalContent (old new : List ChunkRef) :
    (diffChunks old new).identicalContent = true ↔
      hashSet old = hashSet new ∧ old.length = new.length := by
  simp only [DiffStat.identicalContent, diffChunks, Bool.and_eq_true, beq_iff_eq,
    Finset.card_eq_zero, Finset.sdiff_eq_empty_iff_subset]
  constructor
  · rintro ⟨⟨hadd, hrem⟩, hlength⟩
    exact ⟨Finset.Subset.antisymm hrem hadd, hlength⟩
  · rintro ⟨hset, hlength⟩
    exact ⟨⟨hset.symm.subset, hset.subset⟩, hlength⟩

/-- Everything but the verdict is right for every two lists. -/
theorem diffChunks_faithful {len : Nat → Nat} {old new : List ChunkRef}
    (hlen : ∀ c ∈ new, c.len = len c.hash)
    (hcontent : (diffChunks old new).identicalContent = true ↔ old = new) :
    Faithful len old new (diffChunks old new) := by
  have hcounted := counted_diff old new hlen
  refine ⟨hcontent, ⟨rfl, rfl⟩, ?_, diffChunks_moved old new, hcounted.transfer, ⟨rfl, rfl⟩,
    hcounted.bound, rfl, rfl⟩
  have hsplit := length_filter_split (fun _ => true) (fun c => decide (c.hash ∈ hashSet old)) new
  have hidentical : (diffChunks old new).identical =
      (new.filter fun c => c.hash ∈ hashSet old).length := hcounted.identical
  simp only [List.filter_true, Bool.true_and] at hsplit
  show _ = new.length
  rw [hidentical, hsplit]
  simp

/-- **When the summary is right.** With equal hashes standing for equal lengths, every number
is; the verdict is exactly when the lists are equal, or differ in length or in the set of
their hashes. -/
theorem diffChunks_faithful_iff (len : Nat → Nat) (old new : List ChunkRef)
    (hlen : ∀ c ∈ old ++ new, c.len = len c.hash) :
    Faithful len old new (diffChunks old new) ↔
      old = new ∨ old.length ≠ new.length ∨ hashSet old ≠ hashSet new := by
  have hnew : ∀ c ∈ new, c.len = len c.hash := fun c hc => hlen c (List.mem_append_right old hc)
  have hverdict := diffChunks_identicalContent old new
  constructor
  · intro h
    by_cases heq : old = new
    · exact .inl heq
    · right
      by_contra hboth
      push Not at hboth
      exact heq (h.content.mp (hverdict.mpr ⟨hboth.2, hboth.1⟩))
  · rintro (rfl | hlength | hset)
    · exact diffChunks_faithful hnew ⟨fun _ => rfl, fun _ => hverdict.mpr ⟨rfl, rfl⟩⟩
    · refine diffChunks_faithful hnew ⟨fun h => absurd (hverdict.mp h).2 hlength, ?_⟩
      rintro rfl
      exact absurd rfl hlength
    · refine diffChunks_faithful hnew ⟨fun h => absurd (hverdict.mp h).1 hset, ?_⟩
      rintro rfl
      exact absurd rfl hset

/-- Chunks of a hundred bytes each. -/
def chunksOf (hashes : List Nat) : List ChunkRef := hashes.map fun hash => ⟨hash, 100⟩

/-- The condition at two lists of which the second has a new chunk. -/
theorem diffChunks_faithful_iff_replaced :
    (∀ c ∈ chunksOf [1, 2] ++ chunksOf [1, 3], c.len = 100) ∧
      (Faithful (fun _ => 100) (chunksOf [1, 2]) (chunksOf [1, 3])
          (diffChunks (chunksOf [1, 2]) (chunksOf [1, 3])) ↔
        chunksOf [1, 2] = chunksOf [1, 3] ∨
          (chunksOf [1, 2]).length ≠ (chunksOf [1, 3]).length ∨
            hashSet (chunksOf [1, 2]) ≠ hashSet (chunksOf [1, 3])) :=
  ⟨by decide, diffChunks_faithful_iff (fun _ => 100) _ _ (by decide)⟩

/-- Two chunks that changed places: reported as identical content. -/
theorem identicalContent_of_swap :
    ¬ ∀ (len : Nat → Nat) (old new : List ChunkRef),
      (∀ c ∈ old ++ new, c.len = len c.hash) →
        Faithful len old new (diffChunks old new) := by
  intro h
  have hswap := (h (fun _ => 100) (chunksOf [1, 2]) (chunksOf [2, 1]) (by decide)).content
  exact absurd (hswap.mp (by decide)) (by decide)

end Tazamun
