import Tazamun.Lib.Cut
import Tazamun.Sync.Manifest

set_option autoImplicit false

/-! # The chunker

`chunk_bytes` cuts a slice into content-defined chunks and hashes them (`sync/chunker.rs`).
`chunk_stream_windowed` does the same for a reader that it sees through a window: it fills a
buffer, cuts off what is final, hands those chunks to a sink, and slides the rest to the
front. It must return the list that `chunk_bytes` returns, or two nodes describe one file by
two lists.

The cut function is FastCDC and the hash is BLAKE3, both third-party: `FastCdc` takes a
`Lib.Cutter` for the first, that is, what the code relies on: a cut length between 1 and
`CDC_MAX`, at most what remains, that depends on the next `CDC_MAX` bytes only. `CDC_MIN` and
`CDC_AVG` are arguments of that crate and matter to nothing else.

A reader returns any number of bytes from one up to the room it is given, none only at the
end, and may fail; `Reader.reads` is the pattern. A sink may answer anything that depends on
all calls made so far. The reference for both is `chunkWhole`: the chunks of the whole
content handed over one after the other until the sink refuses one.
-/

namespace Tazamun

/-! ## Cuts and hashes -/

def streamWindow : Nat := 8 * 1024 * 1024

structure FastCdc where
  hash : Bytes → Nat
  cutter : Lib.Cutter UInt8 cdcMax

namespace FastCdc

variable (cdc : FastCdc)

/-- The chunker that makes the lists. -/
def chunker : Chunker := { hash := cdc.hash, cut := cdc.cutter.pieces }

end FastCdc

/-- Hashed chunks with their bytes, in file order. -/
abbrev HashedBatch : Type := List (ChunkRef × Bytes)

/-- `hash_batch`: the ranges `cuts` of `buf`, hashed; the bytes are copied out on demand. The
parallel map keeps the order. -/
def hashBatch (ck : Chunker) (buf : Bytes) (cuts : List (Nat × Nat)) (copy : Bool) : HashedBatch :=
  cuts.map (fun span =>
    let part := Lib.slice buf span
    (ck.chunkRef part, if copy then part else []))

/-- `chunk_bytes`. -/
def FastCdc.chunkBytes (cdc : FastCdc) (data : Bytes) : List ChunkRef :=
  if data = [] then []
  else (hashBatch cdc.chunker data (cdc.cutter.spans 0 data) false).map Prod.fst

/-! ## The sink -/

inductive ChunkError where
  /-- A read failed. -/
  | read
  /-- "chunk window produced no finalized cut" -/
  | noFinalizedCut
  /-- "hash stage ended before all batches were emitted" -/
  | hashStageEnded
  /-- What the sink returned. -/
  | sink (msg : String)
deriving DecidableEq

/-- How the sink answers the last of the calls made so far. -/
abbrev Sink : Type := HashedBatch → Option ChunkError

/-- What has been emitted: the list so far, its total, and the calls of the sink. -/
structure Emitted where
  refs : List ChunkRef
  total : Nat
  calls : HashedBatch
deriving DecidableEq

def Emitted.start : Emitted := { refs := [], total := 0, calls := [] }

/-- One batch is handed to the sink, chunk by chunk, until it refuses. -/
def emitBatch (sink : Sink) : HashedBatch → Emitted → Emitted × Option ChunkError
  | [], out => (out, none)
  | (r, data) :: batch, out =>
      let out := { refs := out.refs ++ [r]
                   total := (out.total + r.len) % 2 ^ 64
                   calls := out.calls ++ [(r, data)] }
      match sink out.calls with
      | some e => (out, some e)
      | none => emitBatch sink batch out

/-- What a chunking function leaves: the calls it made and what it returned. -/
structure Chunked where
  calls : HashedBatch
  result : Except ChunkError (List ChunkRef × Nat)

def Emitted.failed (out : Emitted) (e : ChunkError) : Chunked :=
  { calls := out.calls, result := .error e }

def Emitted.returned (out : Emitted) : Chunked :=
  { calls := out.calls, result := .ok (out.refs, out.total) }

/-- How the work ends when nothing is left to emit. -/
def closing (end' : Emitted × Option ChunkError) : Chunked :=
  match end'.2 with
  | some e => end'.1.failed e
  | none => end'.1.returned

/-- The chunks of a content with their bytes. -/
def FastCdc.batch (cdc : FastCdc) (bytes : Bytes) : HashedBatch :=
  (cdc.cutter.pieces bytes).map (fun piece => (cdc.chunker.chunkRef piece, piece))

/-- The reference: all chunks of the content handed to the sink. -/
def FastCdc.chunkWhole (cdc : FastCdc) (sink : Sink) (bytes : Bytes) : Chunked :=
  closing (emitBatch sink (cdc.batch bytes) .start)

/-! ## The reader -/

/-- A reader with `rest` before it. `reads j` is how the `j`-th read goes: it fails, or it
returns at most so many bytes. -/
structure Reader where
  rest : Bytes
  reads : Nat → Option Nat
  count : Nat

/-- `read` into a buffer with `room` for more: no bytes only at the end. -/
def Reader.read (r : Reader) (room : Nat) : Option (Bytes × Reader) :=
  match r.reads r.count with
  | none => none
  | some n =>
      let len := max 1 (min n room)
      some (r.rest.take len, { r with rest := r.rest.drop len, count := r.count + 1 })

/-- The reading loop: until the room is used up or the end is met. -/
def Reader.fill (r : Reader) (room : Nat) : Option (Bytes × Bool × Reader) :=
  if room = 0 then some ([], false, r)
  else
    match r.read room with
    | none => none
    | some (data, r) =>
        if data = [] then some ([], true, r)
        else
          match fill r (room - data.length) with
          | none => none
          | some (more, eof, r) => some (data ++ more, eof, r)
termination_by room
decreasing_by
  have hpos : data.length ≠ 0 := fun h => ‹¬ data = []› (List.length_eq_zero_iff.mp h)
  omega

/-- No read fails. -/
def Reader.Steady (r : Reader) : Prop := ∀ j, r.reads j ≠ none

theorem Reader.read_some {r r' : Reader} {room : Nat} {data : Bytes} (hroom : room ≠ 0)
    (h : r.read room = some (data, r')) :
    ∃ len, 1 ≤ len ∧ len ≤ room ∧ data = r.rest.take len ∧ r'.rest = r.rest.drop len ∧
      r'.reads = r.reads := by
  rw [Reader.read] at h
  split at h
  · cases h
  · rename_i n _
    obtain ⟨rfl, rfl⟩ : _ ∧ _ := by simpa using h
    exact ⟨max 1 (min n room), by omega, by omega, rfl, rfl, rfl⟩

/-- However the bytes arrive, a fill takes as many as there is room for, and it meets the end
exactly when there are fewer. -/
theorem Reader.fill_some {r r' : Reader} {room : Nat} {data : Bytes} {eof : Bool}
    (h : r.fill room = some (data, eof, r')) :
    data = r.rest.take room ∧ r'.rest = r.rest.drop room ∧
      eof = decide (r.rest.length < room) ∧ r'.reads = r.reads := by
  induction room using Nat.strong_induction_on generalizing r data with
  | _ room ih =>
      rw [Reader.fill] at h
      split at h
      · rename_i hroom
        obtain ⟨rfl, rfl, rfl⟩ : _ ∧ _ ∧ _ := by simpa using h
        subst hroom
        simp
      · rename_i hroom
        split at h
        · cases h
        · rename_i first r₁ hread
          obtain ⟨len, hpos, hle, hfirst, hrest, hreads⟩ := Reader.read_some hroom hread
          split at h
          · rename_i hnil
            obtain ⟨rfl, rfl, rfl⟩ : _ ∧ _ ∧ _ := by simpa using h
            have hend : r.rest = [] := by
              rw [hfirst, List.take_eq_nil_iff] at hnil
              rcases hnil with hzero | hnil
              · omega
              · exact hnil
            rw [hrest, hend]
            simp only [List.take_nil, List.drop_nil, List.length_nil, true_and, hreads, and_true,
              true_eq_decide_iff]
            omega
          · rename_i hne
            split at h
            · cases h
            · rename_i more eof' r₂ hfill
              obtain ⟨rfl, rfl, rfl⟩ : _ ∧ _ ∧ _ := by simpa using h
              have hlen : first.length = min len r.rest.length := by
                rw [hfirst, List.length_take]
              have hpos' : 0 < first.length := List.length_pos_iff.mpr hne
              obtain ⟨hmore, hdrop, heof, hreads'⟩ := ih _ (by omega) hfill
              rw [hrest] at hmore hdrop heof
              by_cases hshort : r.rest.length < len
              · -- the read returned all there was
                have hall : r.rest.drop len = [] := List.drop_eq_nil_of_le (by omega)
                rw [hall] at hmore hdrop heof
                rw [hmore, hdrop, heof, hfirst, List.take_nil, List.append_nil,
                  List.take_of_length_le (by omega), List.take_of_length_le (by omega),
                  List.drop_nil, List.drop_eq_nil_of_le (by omega)]
                refine ⟨rfl, rfl, ?_, hreads'.trans hreads⟩
                rw [decide_eq_decide, List.length_nil]
                omega
              · have hfull : first.length = len := by omega
                rw [hfull] at hmore hdrop heof
                refine ⟨?_, ?_, ?_, hreads'.trans hreads⟩
                · rw [hmore, hfirst, ← List.take_add]
                  congr 1
                  omega
                · rw [hdrop, List.drop_drop]
                  congr 1
                  omega
                · rw [heof, decide_eq_decide, List.length_drop]
                  omega

theorem Reader.fill_none {r : Reader} {room : Nat} (h : r.fill room = none) : ¬ r.Steady := by
  induction room using Nat.strong_induction_on generalizing r with
  | _ room ih =>
      intro hsteady
      rw [Reader.fill] at h
      split at h
      · cases h
      · rename_i hroom
        split at h
        · rename_i hread
          rw [Reader.read] at hread
          split at hread
          · rename_i hfail
            exact hsteady _ hfail
          · cases hread
        · rename_i first r₁ hread
          obtain ⟨len, hpos, hle, hfirst, hrest, hreads⟩ := Reader.read_some hroom hread
          split at h
          · cases h
          · rename_i hne
            split at h
            · rename_i hfill
              have hpos' : 0 < first.length := List.length_pos_iff.mpr hne
              refine ih _ (by omega) hfill (fun j => ?_)
              rw [hreads]
              exact hsteady j
            · cases h

/-! ## The sliding window -/

/-- The bytes that go behind `held` bytes of the window; nothing is read after the end. -/
def Reader.topUp (r : Reader) (eof : Bool) (room : Nat) : Option (Bytes × Bool × Reader) :=
  if eof then some ([], true, r) else r.fill room

theorem Reader.topUp_some {r r' : Reader} {eof eof' : Bool} {room : Nat} {data : Bytes}
    (h : r.topUp eof room = some (data, eof', r')) : data ++ r'.rest = r.rest := by
  rw [Reader.topUp] at h
  split at h
  · obtain ⟨rfl, rfl, rfl⟩ : _ ∧ _ ∧ _ := by simpa using h
    rfl
  · obtain ⟨hdata, hrest, -, -⟩ := Reader.fill_some h
    rw [hdata, hrest, List.take_append_drop]

/-- The loop of `chunk_stream_windowed`: `view` is the filled part of the buffer, which holds
`cap` bytes. -/
def chunkStreamLoop (cdc : FastCdc) (sink : Sink) (cap : Nat) (view : Bytes) (eof : Bool)
    (reader : Reader) (out : Emitted) : Chunked :=
  match _ : reader.topUp eof (cap - view.length) with
  | none => out.failed .read
  | some (data, eof', reader') =>
      if view ++ data = [] then out.returned
      else
        if _ : cdc.cutter.final eof' (view ++ data) = [] then out.failed .noFinalizedCut
        else
          let cuts := cdc.cutter.final eof' (view ++ data)
          match emitBatch sink (hashBatch cdc.chunker (view ++ data) cuts true) out with
          | (out', some e) => out'.failed e
          | (out', none) =>
              if eof' = true ∧ cdc.cutter.kept eof' (view ++ data) = [] then out'.returned
              else
                chunkStreamLoop cdc sink cap (cdc.cutter.kept eof' (view ++ data)) eof' reader' out'
termination_by view.length + reader.rest.length
decreasing_by
  have hlt := cdc.cutter.length_kept_lt_of_final ‹¬ cdc.cutter.final eof' (view ++ data) = []›
  have hsame := congrArg List.length (Reader.topUp_some ‹reader.topUp _ _ = some _›)
  rw [List.length_append] at hlt hsame
  omega

/-- `chunk_stream_windowed`. -/
def chunkStreamWindowed (cdc : FastCdc) (reader : Reader) (window : Nat) (sink : Sink) : Chunked :=
  chunkStreamLoop cdc sink (max window (2 * cdcMax)) [] false reader .start

/-- `chunk_stream`. -/
def chunkStream (cdc : FastCdc) (reader : Reader) (sink : Sink) : Chunked :=
  chunkStreamWindowed cdc reader streamWindow sink

/-! ## Emission -/

theorem emitBatch_append {sink : Sink} {b b' : HashedBatch} {out : Emitted} :
    emitBatch sink (b ++ b') out
      = match emitBatch sink b out with
        | (out, some e) => (out, some e)
        | (out, none) => emitBatch sink b' out := by
  induction b generalizing out with
  | nil => rfl
  | cons c b ih =>
      rw [List.cons_append, emitBatch, emitBatch]
      simp only
      split
      · rfl
      · exact ih

/-- A batch that ends without an error was handed over chunk by chunk. -/
theorem emitBatch_ok {sink : Sink} {b : HashedBatch} {out out' : Emitted}
    (htotal : out.total < 2 ^ 64) (h : emitBatch sink b out = (out', none)) :
    out' = { refs := out.refs ++ b.map Prod.fst
             total := (out.total + chunkLengths (b.map Prod.fst)) % 2 ^ 64
             calls := out.calls ++ b } := by
  induction b generalizing out with
  | nil =>
      obtain rfl : out = out' := by simpa [emitBatch] using h
      simp only [chunkLengths, List.map_nil, List.sum_nil, Nat.add_zero, List.append_nil]
      rw [Nat.mod_eq_of_lt htotal]
  | cons c b ih =>
      rw [emitBatch] at h
      simp only at h
      split at h
      · cases h
      · have hrest := ih (Nat.mod_lt _ (by decide)) h
        rw [hrest]
        simp only [List.map_cons, chunkLengths, List.sum_cons, List.append_assoc,
          List.singleton_append, Emitted.mk.injEq, true_and, and_true]
        rw [Nat.mod_add_mod, Nat.add_assoc]

/-- A sink that refuses a chunk has seen the chunks before it, in order and once each, and
the error is its own. -/
theorem emitBatch_error {sink : Sink} {b : HashedBatch} {out out' : Emitted} {e : ChunkError}
    (h : emitBatch sink b out = (out', some e)) :
    ∃ k, 0 < k ∧ k ≤ b.length ∧ out'.calls = out.calls ++ b.take k ∧ sink out'.calls = some e := by
  induction b generalizing out with
  | nil => simp [emitBatch] at h
  | cons c b ih =>
      rw [emitBatch] at h
      simp only at h
      split at h
      · rename_i hsink
        obtain ⟨rfl, rfl⟩ : _ ∧ _ := by simpa using h
        exact ⟨1, by omega, by simp, by simp, hsink⟩
      · obtain ⟨k, -, hk, hcalls, hsink⟩ := ih h
        refine ⟨k + 1, by omega, by simpa using hk, ?_, hsink⟩
        rw [hcalls, List.take_succ_cons, List.append_assoc, List.singleton_append]

/-- A sink that takes everything. -/
def Sink.Accepts (sink : Sink) : Prop := ∀ calls, sink calls = none

theorem emitBatch_accepts {sink : Sink} (hsink : sink.Accepts) (b : HashedBatch) (out : Emitted) :
    (emitBatch sink b out).2 = none := by
  induction b generalizing out with
  | nil => rfl
  | cons c b ih =>
      rw [emitBatch]
      simp only
      rw [show sink (out.calls ++ [(c.1, c.2)]) = none from hsink _]
      exact ih _

/-! ## The reference -/

namespace FastCdc

variable (cdc : FastCdc)

theorem chunkBytes_eq (bytes : Bytes) :
    cdc.chunkBytes bytes = (cdc.cutter.pieces bytes).map cdc.chunker.chunkRef := by
  have hcuts : (cdc.cutter.spans 0 bytes).map (Lib.slice bytes) = cdc.cutter.pieces bytes := by
    simpa using cdc.cutter.map_slice_spans [] bytes
  rw [chunkBytes]
  split
  · rename_i hnil
    rw [hnil, Lib.Cutter.pieces_nil, List.map_nil]
  · rw [← hcuts, hashBatch, List.map_map, List.map_map]
    rfl

theorem map_fst_batch (bytes : Bytes) : (cdc.batch bytes).map Prod.fst = cdc.chunkBytes bytes := by
  rw [chunkBytes_eq, batch, List.map_map]
  rfl

/-- The bytes handed to the sink are the content. -/
theorem flatten_batch (bytes : Bytes) : ((cdc.batch bytes).map Prod.snd).flatten = bytes := by
  have hsnd : (cdc.batch bytes).map Prod.snd = cdc.cutter.pieces bytes := by
    rw [batch, List.map_map]
    exact List.map_id' _
  rw [hsnd, cdc.cutter.flatten_pieces]

/-- The lengths in the list add up to the length of the content: no chunk is too long for a
`u32`. -/
theorem chunkLengths_chunkBytes (bytes : Bytes) :
    chunkLengths (cdc.chunkBytes bytes) = bytes.length := by
  have hlen : (cdc.chunkBytes bytes).map ChunkRef.len
      = (cdc.cutter.pieces bytes).map List.length := by
    rw [chunkBytes_eq, List.map_map]
    refine List.map_congr_left (fun p hp => ?_)
    exact chunkRef_len cdc.chunker (cdc.cutter.length_le_of_mem_pieces (by decide) hp)
  calc chunkLengths (cdc.chunkBytes bytes)
      = ((cdc.cutter.pieces bytes).map List.length).sum := by rw [chunkLengths, hlen]
    _ = (cdc.cutter.pieces bytes).flatten.length := List.length_flatten.symm
    _ = bytes.length := by rw [cdc.cutter.flatten_pieces]

/-- The final cuts of a window, hashed, and the chunks of the rest are the chunks of all. -/
theorem batch_append {eof : Bool} {view rest : Bytes} (heof : eof = true → rest = []) :
    cdc.batch (view ++ rest)
      = hashBatch cdc.chunker view (cdc.cutter.final eof view) true
        ++ cdc.batch (cdc.cutter.kept eof view ++ rest) := by
  rw [batch, ← cdc.cutter.pieces_append heof, List.map_append, List.map_map]
  rfl

theorem batch_nil : cdc.batch [] = [] := by
  rw [batch, Lib.Cutter.pieces_nil, List.map_nil]

/-- What the reference does with a sink that takes everything. -/
theorem chunkWhole_accepts {sink : Sink} (hsink : sink.Accepts) (bytes : Bytes) :
    cdc.chunkWhole sink bytes
      = { calls := cdc.batch bytes
          result := .ok (cdc.chunkBytes bytes, bytes.length % 2 ^ 64) } := by
  have hnone := emitBatch_accepts hsink (cdc.batch bytes) .start
  cases hemit : emitBatch sink (cdc.batch bytes) .start with
  | mk out err =>
      rw [hemit] at hnone
      obtain rfl : err = none := hnone
      have hout := emitBatch_ok (by decide) hemit
      rw [chunkWhole, hemit, hout]
      simp only [closing, Emitted.returned, Emitted.start, List.nil_append, Nat.zero_add,
        map_fst_batch, chunkLengths_chunkBytes]

end FastCdc

/-! ## The window shows what the slice shows -/

/-- What is read behind the held bytes: the next bytes of the content, as many as fit unless
the end is met. -/
theorem Reader.topUp_spec {r r' : Reader} {eof eof' : Bool} {room : Nat} {data : Bytes}
    (heof : eof = true → r.rest = []) (h : r.topUp eof room = some (data, eof', r')) :
    (eof' = true → r'.rest = []) ∧ (eof' = false → data.length = room) ∧ r'.reads = r.reads := by
  rw [Reader.topUp] at h
  split at h
  · rename_i htrue
    obtain ⟨rfl, rfl, rfl⟩ : _ ∧ _ ∧ _ := by simpa using h
    refine ⟨fun _ => heof htrue, fun hfalse => ?_, rfl⟩
    cases hfalse
  · obtain ⟨hdata, hrest, hend, hreads⟩ := Reader.fill_some h
    refine ⟨fun htrue => ?_, fun hfalse => ?_, hreads⟩
    · rw [hend, decide_eq_true_eq] at htrue
      rw [hrest]
      exact List.drop_eq_nil_of_le (by omega)
    · rw [hend, decide_eq_false_iff_not] at hfalse
      rw [hdata, List.length_take]
      omega

theorem Reader.topUp_none {r : Reader} {eof : Bool} {room : Nat} (h : r.topUp eof room = none) :
    ¬ r.Steady := by
  rw [Reader.topUp] at h
  split at h
  · cases h
  · exact Reader.fill_none h

/-- From any state of the loop the sink gets the chunks of what is held and what follows. -/
theorem chunkStreamLoop_eq {cdc : FastCdc} {sink : Sink} {cap : Nat} (hcap : cdcMax ≤ cap)
    {view : Bytes} {eof : Bool} {reader : Reader} {out : Emitted} (hsteady : reader.Steady)
    (hview : view.length < cap) (heof : eof = true → reader.rest = []) :
    chunkStreamLoop cdc sink cap view eof reader out
      = closing (emitBatch sink (cdc.batch (view ++ reader.rest)) out) := by
  -- on the bytes still to be cut: every round has a final cut
  induction hn : view.length + reader.rest.length using Nat.strong_induction_on
    generalizing view eof reader out with
  | _ n ih =>
      rw [chunkStreamLoop]
      split
      · rename_i hread
        exact absurd hsteady (Reader.topUp_none hread)
      · rename_i data eof' reader' hread
        obtain ⟨hend, hroom, hreads⟩ := Reader.topUp_spec heof hread
        have hrest := Reader.topUp_some hread
        have hsame := congrArg List.length hrest
        rw [List.length_append] at hsame
        have hwhole : view ++ reader.rest = (view ++ data) ++ reader'.rest := by
          rw [List.append_assoc, hrest]
        have hfull : eof' = true ∨ cdcMax ≤ (view ++ data).length := by
          cases eof' with
          | true => exact .inl rfl
          | false =>
              have hlen := hroom rfl
              refine .inr ?_
              rw [List.length_append]
              omega
        split
        · rename_i hnil
          have hdone : reader'.rest = [] := by
            rcases hfull with htrue | hlong
            · exact hend htrue
            · rw [hnil, List.length_nil] at hlong
              exact absurd hlong (by decide)
          rw [hwhole, hnil, hdone, List.nil_append, FastCdc.batch_nil]
          rfl
        · rename_i hne
          split
          · rename_i hcuts
            exact absurd hcuts (cdc.cutter.final_ne_nil hne hfull)
          · rename_i hcuts
            have hkept := cdc.cutter.length_kept_lt (by decide) eof' (view ++ data)
            have hshort := cdc.cutter.length_kept_lt_of_final hcuts
            rw [List.length_append] at hshort
            rw [hwhole, cdc.batch_append hend, emitBatch_append]
            cases hemit : emitBatch sink (hashBatch cdc.chunker (view ++ data)
                (cdc.cutter.final eof' (view ++ data)) true) out with
            | mk out' err =>
                cases err with
                | some e =>
                    simp only [hemit]
                    rfl
                | none =>
                    simp only [hemit]
                    split
                    · rename_i hlast
                      rw [hlast.2, hend hlast.1, List.nil_append, FastCdc.batch_nil]
                      rfl
                    · refine ih _ ?_ ?_ (by omega) hend rfl
                      · omega
                      · intro j
                        rw [hreads]
                        exact hsteady j

/-- **Short reads and window size do not matter.** For a reader that does not fail,
`chunk_stream_windowed` does what the reference does. -/
theorem chunkStreamWindowed_eq (cdc : FastCdc) (sink : Sink) {reader : Reader} (window : Nat)
    (hsteady : reader.Steady) :
    chunkStreamWindowed cdc reader window sink = cdc.chunkWhole sink reader.rest := by
  have hcap : 2 * cdcMax ≤ max window (2 * cdcMax) := le_max_right _ _
  have hpos : 0 < cdcMax := by decide
  rw [chunkStreamWindowed, chunkStreamLoop_eq (by omega) hsteady (by simp; omega) (by simp),
    List.nil_append, FastCdc.chunkWhole]

end Tazamun
