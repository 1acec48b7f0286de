import Tazamun.Index.Split
import Tazamun.Sync.Publish

set_option autoImplicit false

/-! # What an entry takes on the wire

The postcard format of a record and of the messages that carry one record (`Host.Wire`). An
entry of the index is a path and a record, and of a record only the chunk list and the version
vector have no fixed limit: the three numbers and the flag take 21 bytes at most.

Version vectors grow over a run, by merging and by increments, so what counts is what they can
grow to. `VClock.Under` compares a vector with a ceiling, id by id: the ceiling has every id of
the vector, with a counter at least as large. Merging and increments of an id whose counter is
at its maximum in the ceiling stay under it, and a vector under a ceiling is no longer than the
ceiling, in ids and in bytes (`clockLen_le`).
-/

namespace Tazamun

open Transfer

variable {Id Path : Type} [LinearOrder Id] [LinearOrder Path]

/-! ## Vectors under a ceiling -/

namespace VClock

/-- Every id of the vector is one of the ceiling, with a counter at least as large. -/
def Under (vv top : VClock Id) : Prop :=
  ∀ (k : Id) c, vv[k]? = some c → ∃ c', top[k]? = some c' ∧ c ≤ c'

variable {vv w top : VClock Id}

theorem Under.empty : Under (∅ : VClock Id) top := by
  intro k c hk
  simp at hk

theorem Under.count_le (h : Under vv top) {k : Id} {c : U64} (hk : top[k]? = some c) :
    vv.count k ≤ c := by
  unfold count
  cases hv : vv[k]? with
  | none => exact Fin.zero_le _
  | some d =>
      obtain ⟨c', hc', hle⟩ := h k d hv
      rw [hk] at hc'
      cases hc'
      exact hle

theorem Under.insert (h : Under vv top) {k : Id} {c c' : U64} (hk : top[k]? = some c')
    (hle : c ≤ c') : Under (vv.insert k c) top := by
  intro k' d hd
  rw [Map.get_insert] at hd
  split at hd
  · rename_i heq
    subst heq
    cases hd
    exact ⟨c', hk, hle⟩
  · exact h k' d hd

/-- An increment stays under a ceiling that does not limit the id. -/
theorem Under.inc (h : Under vv top) {id : Id} (hid : top[id]? = some U64.max) :
    Under (vv.inc id) top :=
  h.insert hid (Fin.le_last _)

theorem Under.merge (hv : Under vv top) (hw : Under w top) : Under (vv.merge w) top := by
  have hloop : ∀ (l : List (Id × U64)), (∀ e ∈ l, ∃ c', top[e.1]? = some c' ∧ e.2 ≤ c') →
      ∀ out : VClock Id, Under out top → Under (l.foldl (fun out e =>
        out.insert e.1 (if out.count e.1 < e.2 then e.2 else out.count e.1)) out) top := by
    intro l hl
    induction l with
    | nil => exact fun out hout => hout
    | cons e l ih =>
        intro out hout
        obtain ⟨c', hc', hle⟩ := hl e List.mem_cons_self
        refine ih (fun e' he' => hl e' (List.mem_cons_of_mem _ he')) _ (hout.insert hc' ?_)
        split
        · exact hle
        · exact hout.count_le hc'
  exact hloop w.toList (fun e he => hw e.1 e.2 (Map.mem_toList.mp he)) vv hv

/-- The ids of a vector, as a set. -/
def ids (vv : VClock Id) : Finset Id := vv.keys.toFinset

theorem nodup_keys (vv : VClock Id) : vv.keys.Nodup := by
  have hdistinct := Std.ExtTreeMap.distinct_keys (t := vv)
  refine hdistinct.imp ?_
  rintro k k' hne rfl
  exact hne (Std.ReflOrd.compare_self)

theorem mem_ids {k : Id} : k ∈ vv.ids ↔ ∃ c, vv[k]? = some c := by
  rw [ids, List.mem_toFinset, Std.ExtTreeMap.mem_keys, ← Option.isSome_iff_exists,
    ← Map.contains_eq, Std.ExtTreeMap.contains_iff_mem]

theorem card_ids (vv : VClock Id) : vv.ids.card = vv.size := by
  rw [ids, List.toFinset_card_of_nodup (nodup_keys vv), Std.ExtTreeMap.length_keys]

theorem Under.ids_subset (h : Under vv top) : vv.ids ⊆ top.ids := by
  intro k hk
  obtain ⟨c, hc⟩ := mem_ids.mp hk
  obtain ⟨c', hc', -⟩ := h k c hc
  exact mem_ids.mpr ⟨c', hc'⟩

theorem Under.size_le (h : Under vv top) : vv.size ≤ top.size := by
  rw [← card_ids, ← card_ids]
  exact Finset.card_le_card h.ids_subset

/-- A sum over the entries is one over the ids. -/
theorem sum_toList (vv : VClock Id) (f : Id → U64 → Nat) :
    (vv.toList.map fun e => f e.1 e.2).sum = ∑ k ∈ vv.ids, f k (vv.count k) := by
  have hentry : vv.toList.map (fun e => f e.1 e.2) =
      vv.toList.map ((fun k => f k (vv.count k)) ∘ Prod.fst) := by
    refine List.map_congr_left fun e he => ?_
    have hget : vv[e.1]? = some e.2 := Map.mem_toList.mp he
    simp [count, hget]
  rw [hentry, ← List.map_map, Std.ExtTreeMap.map_fst_toList_eq_keys, ids,
    List.sum_toFinset _ (nodup_keys vv)]

/-- What grows with the counters is at most what it is for the ceiling. -/
theorem Under.sum_le (h : Under vv top) {f : Id → U64 → Nat}
    (hf : ∀ k c c', c ≤ c' → f k c ≤ f k c') :
    (vv.toList.map fun e => f e.1 e.2).sum ≤ (top.toList.map fun e => f e.1 e.2).sum := by
  rw [sum_toList, sum_toList]
  calc ∑ k ∈ vv.ids, f k (vv.count k)
      ≤ ∑ k ∈ vv.ids, f k (top.count k) := by
        refine Finset.sum_le_sum fun k hk => hf k _ _ ?_
        obtain ⟨c, hc⟩ := mem_ids.mp (h.ids_subset hk)
        have hle := h.count_le hc
        rwa [show top.count k = c by simp [count, hc]]
    _ ≤ ∑ k ∈ top.ids, f k (top.count k) := Finset.sum_le_sum_of_subset h.ids_subset

end VClock

/-! ## Lengths -/

theorem varintLen_mono {n m : Nat} (h : n ≤ m) : varintLen n ≤ varintLen m :=
  Nat.add_le_add_right (Nat.log_mono_right h) 1

/-- A chunk is its hash and its length. -/
def chunkLen (c : ChunkRef) : Nat := 32 + varintLen c.len

def manifestLen : ManifestRef → Nat
  | .inline chunks => 1 + seqLen chunkLen chunks
  | .blob _ => 1 + 32

/-- The bytes of the names: paths and endpoint ids are strings. -/
structure NameLens (Id Path : Type) where
  id : Id → Nat
  path : Path → Nat

namespace NameLens

variable (names : NameLens Id Path)

def clockLen (vv : VClock Id) : Nat :=
  seqLen (fun e => names.id e.1 + varintLen e.2.val) vv.toList

def recordLen (record : FileRecord Id) : Nat :=
  varintLen record.size.val + manifestLen record.manifest + names.clockLen record.vv + 1 +
    varintLen record.updatedAtMs.val

end NameLens

/-- The largest manifest of a file of our own: the inline limit is 256 chunks. -/
def ownManifestLen : Nat := 1 + (varintLen inlineManifestMax + inlineManifestMax * 37)

/-- The postcard format of an entry of the index and of `FileMeta`, and the manifests of what
we publish: 256 chunks at most, or a blob (`manifestLen_published`). -/
structure Host.Wire (h : Host Id Path) (names : NameLens Id Path) : Prop where
  entry : ∀ e, h.entryLen e = names.path e.1 + names.recordLen e.2
  fileMeta : ∀ rel record lamport, h.encodedLen (.fileMeta rel record lamport) =
    1 + h.entryLen (rel, record) + varintLen lamport.val
  manifest : ∀ bytes, manifestLen (h.manifestOf bytes) ≤ ownManifestLen

variable {names : NameLens Id Path}

omit [LinearOrder Path] in
/-- **A vector is no longer than its ceiling.** -/
theorem clockLen_le {vv top : VClock Id} (h : VClock.Under vv top) :
    names.clockLen vv ≤ names.clockLen top := by
  have hsum := h.sum_le (f := fun k c => names.id k + varintLen c.val)
    fun k c c' hle => Nat.add_le_add_left (varintLen_mono hle) _
  have hsize : vv.toList.length ≤ top.toList.length := by
    rw [Std.ExtTreeMap.length_toList, Std.ExtTreeMap.length_toList]
    exact h.size_le
  exact Nat.add_le_add (varintLen_mono hsize) hsum

omit [LinearOrder Path] in
theorem recordLen_le {record : FileRecord Id} {top : VClock Id}
    (h : VClock.Under record.vv top) :
    names.recordLen record ≤ manifestLen record.manifest + names.clockLen top + 21 := by
  have hclock : names.clockLen record.vv ≤ names.clockLen top := clockLen_le h
  have hsize := varintLen_u64 record.size
  have htime := varintLen_u64 record.updatedAtMs
  unfold NameLens.recordLen
  omega

/-- What is published of a file has at most that length. -/
theorem manifestLen_published {cdc : FastCdc} {pc : Postcard} {s s' : BlobStore cdc.hash}
    {content : Bytes} {pub : Transfer.Published} (hhash : ∀ b, cdc.hash b < 256 ^ 32)
    (h : publishLocal pc s (published cdc content) = (.ok pub, s')) :
    manifestLen pub.manifest ≤ ownManifestLen := by
  rcases (publishLocal_ok h).2 with ⟨hshort, hinline⟩ | ⟨bytes, -, hblob, -⟩
  · have hchunk : ∀ c ∈ cdc.chunkBytes content, chunkLen c ≤ 37 := by
      intro c hc
      have hlen := (fits_chunkBytes hhash content c hc).2
      have hvar : varintLen c.len ≤ 5 := varintLen_le (by norm_num) (by omega)
      unfold chunkLen
      omega
    have hsum := List.sum_le_card_nsmul ((cdc.chunkBytes content).map chunkLen) 37 (by
      intro n hn
      obtain ⟨c, hc, rfl⟩ := List.mem_map.mp hn
      exact hchunk c hc)
    rw [List.length_map, smul_eq_mul] at hsum
    have hcount := varintLen_mono hshort
    rw [hinline]
    show 1 + seqLen chunkLen _ ≤ ownManifestLen
    unfold seqLen ownManifestLen
    have hmul : (cdc.chunkBytes content).length * 37 ≤ inlineManifestMax * 37 :=
      Nat.mul_le_mul_right 37 hshort
    omega
  · rw [hblob]
    show 33 ≤ ownManifestLen
    unfold ownManifestLen inlineManifestMax
    omega

end Tazamun
