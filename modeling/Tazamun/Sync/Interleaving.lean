import Tazamun.Sync.Pipeline

set_option autoImplicit false

/-! # Chunking does not depend on how the bytes arrive

Over every interleaving of the reader thread, the hash tasks and the calling thread,
`chunk_file` does what the reference does: it hands the chunks of the content to the sink,
each once and in file order, and returns the list that `chunk_bytes` returns.

`Pipe.Inv` carries the argument. It names the batches that were dispatched (`sent`), says
where each of those still to be emitted is, and relates `sent`, the carried bytes, the queued
segments and the unread rest of the file to the chunks of the whole. The final cuts of a
window are moved from the right of this equation to the left by `FastCdc.batch_append`.

Main results: what a run returns is what the reference returns (`returned_eq`); it cannot
get stuck (`exists_step`) and cannot go on forever (`step_work_lt`); with the sliding window
of `chunk_stream_windowed` it is one statement (`chunking_agrees`).
-/

namespace Tazamun

/-! ## Emission in order -/

theorem emitBatch_append_error {sink : Sink} {b b' : HashedBatch} {out out' : Emitted}
    {e : ChunkError} (h : emitBatch sink b out = (out', some e)) :
    emitBatch sink (b ++ b') out = (out', some e) := by
  rw [emitBatch_append, h]

theorem emitBatch_append_ok {sink : Sink} {b b' : HashedBatch} {out out' : Emitted}
    (h : emitBatch sink b out = (out', none)) :
    emitBatch sink (b ++ b') out = emitBatch sink b' out' := by
  rw [emitBatch_append, h]

/-- What `emit_ready` does to batches that are filed under their numbers in `sent`: it emits
further ones in order, up to the first that is missing or that the sink refuses. -/
theorem emitReady_spec {sink : Sink} {sent : List HashedBatch} {pending : Map Nat HashedBatch}
    {next : Nat} {out : Emitted} (hnext : next ≤ sent.length)
    (hsound : ∀ (s : Nat) b, pending[s]? = some b → sent[s]? = some b)
    (hemit : emitBatch sink (sent.take next).flatten .start = (out, none))
    {pending' : Map Nat HashedBatch} {next' : Nat} {out' : Emitted} {err : Option ChunkError}
    (h : emitReady sink pending next out = (pending', next', out', err)) :
    next ≤ next' ∧ next' ≤ sent.length ∧
      (∀ (s : Nat) b, pending'[s]? = some b → pending[s]? = some b) ∧
      (∀ (s : Nat), next' ≤ s → pending'[s]? = pending[s]?) ∧
      emitBatch sink (sent.take next').flatten .start = (out', err) ∧
      (err = none → pending'[next']? = none) := by
  induction hn : pending.size using Nat.strong_induction_on generalizing pending next out with
  | _ n ih =>
      rw [emitReady] at h
      split at h
      · rename_i hmissing
        obtain ⟨rfl, rfl, rfl, rfl⟩ : _ ∧ _ ∧ _ ∧ _ := by simpa using h
        exact ⟨le_rfl, hnext, fun _ _ hs => hs, fun _ _ => rfl, hemit, fun _ => hmissing⟩
      · rename_i batch hbatch
        have hsent := hsound next batch hbatch
        have hlt : next < sent.length := by
          by_contra hge
          rw [List.getElem?_eq_none (by omega)] at hsent
          cases hsent
        have htake : (sent.take (next + 1)).flatten = (sent.take next).flatten ++ batch := by
          rw [List.take_add_one, hsent, List.flatten_append]
          simp
        split at h
        · rename_i out₁ e hrefused
          obtain ⟨rfl, rfl, rfl, rfl⟩ : _ ∧ _ ∧ _ ∧ _ := by simpa using h
          refine ⟨by omega, hlt, fun s b hs => ?_, fun s hs => ?_, ?_, fun herr => ?_⟩
          · by_cases hkey : next = s
            · rw [hkey, Map.get_erase_self] at hs
              cases hs
            · rwa [Map.get_erase_ne _ hkey] at hs
          · exact Map.get_erase_ne _ (by omega)
          · rw [htake, emitBatch_append_ok hemit, hrefused]
          · cases herr
        · rename_i out₁ haccepted
          obtain ⟨hle, hlen, hsub, hlater, hout, hstop⟩ := ih _
            (by rw [← hn]; exact Map.size_erase_lt hbatch) hlt
            (fun s b hs => by
              by_cases hkey : next = s
              · rw [hkey, Map.get_erase_self] at hs
                cases hs
              · rw [Map.get_erase_ne _ hkey] at hs
                exact hsound s b hs)
            (by rw [htake, emitBatch_append_ok hemit, haccepted]) h rfl
          refine ⟨by omega, hlen, fun s b hs => ?_, fun s hs => ?_, hout, hstop⟩
          · have hs' := hsub s b hs
            by_cases hkey : next = s
            · rw [hkey, Map.get_erase_self] at hs'
              cases hs'
            · rwa [Map.get_erase_ne _ hkey] at hs'
          · rw [hlater s hs]
            exact Map.get_erase_ne _ (by omega)

namespace Pipe

/-! ## The invariant

`sent` is the list of all batches dispatched so far. Every batch that is still to be emitted
is with a task, in the channel or in `pending`, under its number (`Placed`); what has been
emitted is the beginning of `sent` (`Emitting`); and until the last window is cut, `sent`
followed by the chunks of what is carried, queued and unread are the chunks of the content
(`Feeding`). -/

/-- The batch with number `s` is `b`, at one of the places a batch can be. -/
def Holds (p : Pipe) (s : Nat) (b : HashedBatch) : Prop :=
  (s, b) ∈ p.hashing ∨ (s, b) ∈ p.handing ∨ (s, b) ∈ p.done ∨ p.pending[s]? = some b

structure Placed (p : Pipe) (sent : List HashedBatch) : Prop where
  count : p.nextDispatch = sent.length
  emitted_le : p.nextEmit ≤ sent.length
  sound : ∀ s b, p.Holds s b → sent[s]? = some b
  complete : ∀ s, p.nextEmit ≤ s → s < sent.length → ∃ b, p.Holds s b
  room : p.free + p.filled.length + p.hashing.length ≤ bufs

/-- What the reader has sent: full segments, and after the end of the file a last one. -/
def Fed (reading : Bool) (rest : Bytes) : List Filled → Prop
  | [] => reading = true
  | .seg data false :: filled => data.length = segment ∧ Fed reading rest filled
  | .seg _ true :: filled => filled = [] ∧ rest = [] ∧ reading = false
  | .failed :: _ => False

/-- The bytes in the channel. -/
def queued : List Filled → Bytes
  | [] => []
  | .seg data _ :: filled => data ++ queued filled
  | .failed :: filled => queued filled

structure Feeding (cdc : FastCdc) (bytes : Bytes) (p : Pipe) (sent : List HashedBatch) : Prop where
  whole : cdc.batch bytes
    = sent.flatten ++ cdc.batch (p.carry ++ (queued p.filled ++ p.reader.rest))
  carry_lt : p.carry.length < cdcMax
  fed : Fed p.reading p.reader.rest p.filled
  /-- No buffer is lost. -/
  buffers : p.free + p.filled.length + p.hashing.length = bufs

def Emitting (sink : Sink) (p : Pipe) (sent : List HashedBatch) : Prop :=
  emitBatch sink (sent.take p.nextEmit).flatten .start = (p.out, none)

/-- Nothing that is next in line has arrived. -/
def Stalled (p : Pipe) : Prop := p.pending[p.nextEmit]? = none

/-- The work ended as the reference does. -/
def Settled (cdc : FastCdc) (sink : Sink) (bytes : Bytes) (p : Pipe) :
    Except ChunkError Unit → Prop
  | .ok () => emitBatch sink (cdc.batch bytes) .start = (p.out, none)
  | .error e => emitBatch sink (cdc.batch bytes) .start = (p.out, some e)

def AtPhase (cdc : FastCdc) (sink : Sink) (bytes : Bytes) (p : Pipe) (sent : List HashedBatch) :
    ScanPhase → Prop
  | .scan => Feeding cdc bytes p sent ∧ Emitting sink p sent ∧ Stalled p
  | .collect false => Feeding cdc bytes p sent ∧ Emitting sink p sent
  | .collect true => Emitting sink p sent ∧ cdc.batch bytes = sent.flatten
  | .drain => Emitting sink p sent ∧ cdc.batch bytes = sent.flatten ∧ Stalled p
  | .join result => Settled cdc sink bytes p result
  | .returned result => Settled cdc sink bytes p result
  | .crashed => False

structure Inv (cdc : FastCdc) (sink : Sink) (bytes : Bytes) (p : Pipe) : Prop where
  steady : p.reader.Steady
  phase : ∃ sent, Placed p sent ∧ AtPhase cdc sink bytes p sent p.phase

variable {cdc : FastCdc} {sink : Sink} {bytes : Bytes} {pool : Bool} {p q : Pipe}
  {sent : List HashedBatch}

theorem start_inv {reads : Nat → Option Nat} (hsteady : ∀ j, reads j ≠ none) :
    Inv cdc sink bytes (start bytes reads) := by
  refine ⟨hsteady, [], ⟨rfl, le_rfl, ?_, ?_, le_rfl⟩, ⟨?_, ?_, rfl, rfl⟩, rfl, ?_⟩
  · intro s b h
    simp [Holds, start] at h
  · intro s _ hlt
    simp at hlt
  · simp [start, queued]
  · simp [start, cdcMax]
  · simp [Stalled, start]

/-! ### The reader and the hash tasks -/

theorem queued_append (filled : List Filled) (data : Bytes) (eof : Bool) :
    queued (filled ++ [.seg data eof]) = queued filled ++ data := by
  induction filled with
  | nil => simp [queued]
  | cons f filled ih =>
      cases f with
      | seg d e => rw [List.cons_append, queued, queued, ih, List.append_assoc]
      | failed => rw [List.cons_append, queued, queued, ih]

/-- The next segment goes behind the ones that are queued. -/
theorem fed_append {rest rest' data : Bytes} {eof : Bool} {filled : List Filled}
    (h : Fed true rest filled) (hlen : eof = false → data.length = segment)
    (hend : eof = true → rest' = []) : Fed (!eof) rest' (filled ++ [.seg data eof]) := by
  induction filled with
  | nil =>
      cases eof with
      | false => exact ⟨hlen rfl, rfl⟩
      | true => exact ⟨rfl, hend rfl, rfl⟩
  | cons f filled ih =>
      cases f with
      | failed => exact absurd h id
      | seg d e =>
          cases e with
          | true => exact absurd h.2.2 (by simp)
          | false => exact ⟨h.1, ih h.2⟩

/-- A party other than the scanner moves: the phase stays, and so does what it depends on. -/
theorem atPhase_congr {phase : ScanPhase} (h : AtPhase cdc sink bytes p sent phase)
    (hout : q.out = p.out) (hnext : q.nextEmit = p.nextEmit) (hpending : q.pending = p.pending)
    (hfeeding : Feeding cdc bytes p sent → Feeding cdc bytes q sent) :
    AtPhase cdc sink bytes q sent phase := by
  have hemitting : Emitting sink p sent → Emitting sink q sent := by
    intro hemit
    rw [Emitting, hnext, hout]
    exact hemit
  have hstalled : Stalled p → Stalled q := by
    intro hstall
    rw [Stalled, hnext, hpending]
    exact hstall
  have hsettled : ∀ result, Settled cdc sink bytes p result → Settled cdc sink bytes q result := by
    intro result hresult
    cases result with
    | ok u =>
        rw [Settled, hout]
        exact hresult
    | error e =>
        rw [Settled, hout]
        exact hresult
  cases phase with
  | scan => exact ⟨hfeeding h.1, hemitting h.2.1, hstalled h.2.2⟩
  | collect eof =>
      cases eof with
      | false => exact ⟨hfeeding h.1, hemitting h.2⟩
      | true => exact ⟨hemitting h.1, h.2⟩
  | drain => exact ⟨hemitting h.1, h.2.1, hstalled h.2.2⟩
  | join result => exact hsettled result h
  | returned result => exact hsettled result h
  | crashed => exact h

/-- The batches stay where they are or change places. -/
theorem placed_congr (h : Placed p sent) (hdispatch : q.nextDispatch = p.nextDispatch)
    (hnext : q.nextEmit = p.nextEmit) (hholds : ∀ s b, q.Holds s b ↔ p.Holds s b)
    (hroom : q.free + q.filled.length + q.hashing.length ≤ bufs) : Placed q sent := by
  refine ⟨hdispatch.trans h.count, ?_, fun s b hs => ?_, fun s hle hlt => ?_, hroom⟩
  · rw [hnext]
    exact h.emitted_le
  · exact h.sound s b ((hholds s b).mp hs)
  · rw [hnext] at hle
    obtain ⟨b, hb⟩ := h.complete s hle hlt
    exact ⟨b, (hholds s b).mpr hb⟩

theorem read_inv (hinv : Inv cdc sink bytes p) (h : p.read = some q) : Inv cdc sink bytes q := by
  obtain ⟨hsteady, sent, hplaced, hphase⟩ := hinv
  rw [read] at h
  split at h
  · rename_i hguard
    obtain ⟨hreading, hfree, -⟩ := hguard
    split at h
    · rename_i hfill
      exact absurd hsteady (Reader.fill_none hfill)
    · rename_i data eof reader hfill
      obtain ⟨hdata, hrest, heof, hreads⟩ := Reader.fill_some hfill
      cases h
      have hroom := hplaced.room
      refine ⟨fun j => ?_, sent, placed_congr hplaced rfl rfl (fun _ _ => Iff.rfl) ?_,
        atPhase_congr hphase rfl rfl rfl (fun hfeeding => ?_)⟩
      · simp only [hreads]
        exact hsteady j
      · simp only [List.length_append, List.length_singleton]
        omega
      · have hbuffers := hfeeding.buffers
        refine ⟨?_, hfeeding.carry_lt, ?_, ?_⟩
        · simp only
          rw [hfeeding.whole, queued_append, hdata, hrest, List.append_assoc (queued p.filled),
            List.take_append_drop]
        · have hfed := hfeeding.fed
          rw [hreading] at hfed
          refine fed_append hfed (fun hfalse => ?_) (fun htrue => ?_)
          · rw [heof, decide_eq_false_iff_not] at hfalse
            rw [hdata, List.length_take]
            omega
          · rw [heof, decide_eq_true_eq] at htrue
            rw [hrest]
            exact List.drop_eq_nil_of_le (by omega)
        · simp only [List.length_append, List.length_singleton]
          omega
  · cases h

theorem hangUp_inv (hinv : Inv cdc sink bytes p) (h : p.hangUp = some q) :
    Inv cdc sink bytes q := by
  obtain ⟨hsteady, sent, hplaced, hphase⟩ := hinv
  rw [hangUp] at h
  split at h
  · rename_i hguard
    obtain ⟨-, -, hclosed⟩ := hguard
    cases h
    refine ⟨hsteady, sent, placed_congr hplaced rfl rfl (fun _ _ => Iff.rfl) hplaced.room, ?_⟩
    -- while the scanner works it holds a sender of the recycle channel
    cases hat : p.phase with
    | scan => simp [recycleOpen, hat] at hclosed
    | collect eof => simp [recycleOpen, hat] at hclosed
    | drain => simp [recycleOpen, hat] at hclosed
    | join result =>
        rw [hat] at hphase
        cases result <;> exact hphase
    | returned result =>
        rw [hat] at hphase
        cases result <;> exact hphase
    | crashed =>
        rw [hat] at hphase
        exact hphase
  · cases h

theorem mem_iff_of_getElem? {α : Type} {l : List α} {i : Nat} {a : α} (h : l[i]? = some a)
    (x : α) : x ∈ l ↔ x ∈ l.eraseIdx i ∨ x = a := by
  obtain ⟨hi, rfl⟩ := List.getElem?_eq_some_iff.mp h
  rw [← (List.getElem_cons_eraseIdx_perm hi).mem_iff, List.mem_cons, or_comm]

theorem hashed_inv {i : Nat} (hinv : Inv cdc sink bytes p) (h : p.hashed i = some q) :
    Inv cdc sink bytes q := by
  obtain ⟨hsteady, sent, hplaced, hphase⟩ := hinv
  rw [hashed] at h
  split at h
  · cases h
  · rename_i task htask
    split at h
    · cases h
      have hi : i < p.hashing.length := (List.getElem?_eq_some_iff.mp htask).1
      have hroom := hplaced.room
      have hlen := List.length_eraseIdx_of_lt hi
      refine ⟨hsteady, sent, placed_congr hplaced rfl rfl (fun s b => ?_) ?_,
        atPhase_congr hphase rfl rfl rfl (fun hfeeding => ?_)⟩
      · simp only [Holds, mem_iff_of_getElem? htask, List.mem_append, List.mem_singleton]
        tauto
      · simp only [hlen]
        omega
      · have hbuffers := hfeeding.buffers
        refine ⟨hfeeding.whole, hfeeding.carry_lt, hfeeding.fed, ?_⟩
        simp only [hlen]
        omega
    · cases h

theorem handed_inv {i : Nat} (hinv : Inv cdc sink bytes p) (h : p.handed i = some q) :
    Inv cdc sink bytes q := by
  obtain ⟨hsteady, sent, hplaced, hphase⟩ := hinv
  rw [handed] at h
  split at h
  · cases h
  · rename_i task htask
    cases h
    refine ⟨hsteady, sent, placed_congr hplaced rfl rfl (fun s b => ?_) hplaced.room,
      atPhase_congr hphase rfl rfl rfl (fun hfeeding => ?_)⟩
    · simp only [Holds, mem_iff_of_getElem? htask, List.mem_append, List.mem_singleton]
      tauto
    · exact ⟨hfeeding.whole, hfeeding.carry_lt, hfeeding.fed, hfeeding.buffers⟩

/-! ### The calling thread -/

/-- `emit_ready` when all that is placed is in order: the scanner goes on and nothing that is
next is left, or the sink has refused what the reference would hand to it. -/
theorem emit_spec (next : ScanPhase) (hplaced : Placed p sent) (hemit : Emitting sink p sent) :
    Placed (p.emit sink next) sent ∧ (p.emit sink next).reader = p.reader ∧
      (((p.emit sink next).phase = next ∧ Emitting sink (p.emit sink next) sent ∧
          Stalled (p.emit sink next)) ∨
        ∃ e n, (p.emit sink next).phase = .join (.error e) ∧
          emitBatch sink (sent.take n).flatten .start = ((p.emit sink next).out, some e)) := by
  cases hready : emitReady sink p.pending p.nextEmit p.out with
  | mk pending r =>
      obtain ⟨nextEmit, out, err⟩ := r
      obtain ⟨hle, hlen, hsub, hlater, hout, hstop⟩ := emitReady_spec hplaced.emitted_le
        (fun s b hs => hplaced.sound s b (.inr (.inr (.inr hs)))) hemit hready
      have hkeeps : ∀ phase, Placed { p with pending, nextEmit, out, phase } sent := by
        intro phase
        refine ⟨hplaced.count, hlen, fun s b hs => ?_, fun s hnext hlt => ?_, hplaced.room⟩
        · rcases hs with hs | hs | hs | hs
          · exact hplaced.sound s b (.inl hs)
          · exact hplaced.sound s b (.inr (.inl hs))
          · exact hplaced.sound s b (.inr (.inr (.inl hs)))
          · exact hplaced.sound s b (.inr (.inr (.inr (hsub s b hs))))
        · obtain ⟨b, hb⟩ := hplaced.complete s (le_trans hle hnext) hlt
          refine ⟨b, ?_⟩
          rcases hb with hb | hb | hb | hb
          · exact .inl hb
          · exact .inr (.inl hb)
          · exact .inr (.inr (.inl hb))
          · exact .inr (.inr (.inr ((hlater s hnext).trans hb)))
      cases err with
      | some e =>
          have heq : p.emit sink next
              = { p with pending, nextEmit, out, phase := .join (.error e) } := by
            rw [emit, hready]
          rw [heq]
          exact ⟨hkeeps _, rfl, .inr ⟨e, nextEmit, rfl, hout⟩⟩
      | none =>
          have heq : p.emit sink next = { p with pending, nextEmit, out, phase := next } := by
            rw [emit, hready]
          rw [heq]
          exact ⟨hkeeps _, rfl, .inl ⟨rfl, hout, hstop rfl⟩⟩

/-- An error of the sink on the first batches is the error of the reference. -/
theorem settled_of_refused {e : ChunkError} {n : Nat} (tail : HashedBatch)
    (hwhole : cdc.batch bytes = sent.flatten ++ tail)
    (hrefused : emitBatch sink (sent.take n).flatten .start = (p.out, some e)) :
    Settled cdc sink bytes p (.error e) := by
  have hsplit : sent.flatten = (sent.take n).flatten ++ (sent.drop n).flatten := by
    rw [← List.flatten_append, List.take_append_drop]
  rw [Settled, hwhole, hsplit, List.append_assoc]
  exact emitBatch_append_error hrefused

/-- A batch that arrives is filed under its number. -/
theorem placed_insert {seq : Nat} {batch : HashedBatch} {done : List (Nat × HashedBatch)}
    (hplaced : Placed p sent) (hdone : p.done = (seq, batch) :: done) :
    Placed { p with done, pending := p.pending.insert seq batch } sent := by
  have hseq : sent[seq]? = some batch := by
    refine hplaced.sound seq batch (.inr (.inr (.inl ?_)))
    rw [hdone]
    exact List.mem_cons_self
  refine ⟨hplaced.count, hplaced.emitted_le, fun s b hs => ?_, fun s hle hlt => ?_,
    hplaced.room⟩
  · rcases hs with hs | hs | hs | hs
    · exact hplaced.sound s b (.inl hs)
    · exact hplaced.sound s b (.inr (.inl hs))
    · refine hplaced.sound s b (.inr (.inr (.inl ?_)))
      rw [hdone]
      exact List.mem_cons_of_mem _ hs
    · by_cases hkey : seq = s
      · subst hkey
        rw [Map.get_insert_self] at hs
        cases hs
        exact hseq
      · rw [Map.get_insert_ne _ _ hkey] at hs
        exact hplaced.sound s b (.inr (.inr (.inr hs)))
  · by_cases hkey : seq = s
    · subst hkey
      exact ⟨batch, .inr (.inr (.inr (Map.get_insert_self _ _ _)))⟩
    · obtain ⟨b, hb⟩ := hplaced.complete s hle hlt
      refine ⟨b, ?_⟩
      rcases hb with hb | hb | hb | hb
      · exact .inl hb
      · exact .inr (.inl hb)
      · rw [hdone] at hb
        rcases List.mem_cons.mp hb with heq | hb
        · exact absurd (congrArg Prod.fst heq).symm hkey
        · exact .inr (.inr (.inl hb))
      · exact .inr (.inr (.inr ((Map.get_insert_ne _ _ hkey).trans hb)))

/-- The batch of a window gets the next number. -/
theorem getElem?_append_singleton {α : Type} {l : List α} {a b : α} {s : Nat} :
    (l ++ [a])[s]? = some b ↔ l[s]? = some b ∨ (s = l.length ∧ a = b) := by
  rcases Nat.lt_trichotomy s l.length with hlt | rfl | hgt
  · rw [List.getElem?_append_left hlt]
    constructor
    · exact .inl
    · rintro (h | ⟨rfl, -⟩)
      · exact h
      · omega
  · simp
  · rw [List.getElem?_eq_none (by simp; omega), List.getElem?_eq_none (by omega)]
    constructor
    · intro h
      cases h
    · rintro (h | ⟨rfl, -⟩)
      · cases h
      · omega

theorem placed_dispatch {batch : HashedBatch} (hplaced : Placed p sent)
    (hdispatch : q.nextDispatch = p.nextDispatch + 1) (hnext : q.nextEmit = p.nextEmit)
    (hholds : ∀ s b, q.Holds s b ↔ p.Holds s b ∨ (s = p.nextDispatch ∧ batch = b))
    (hroom : q.free + q.filled.length + q.hashing.length ≤ bufs) :
    Placed q (sent ++ [batch]) := by
  have hcount := hplaced.count
  refine ⟨?_, ?_, fun s b hs => ?_, fun s hle hlt => ?_, hroom⟩
  · rw [hdispatch, List.length_append, List.length_singleton, hcount]
  · rw [hnext, List.length_append]
    exact le_trans hplaced.emitted_le (Nat.le_add_right _ _)
  · rw [getElem?_append_singleton, ← hcount]
    rcases (hholds s b).mp hs with hs | hs
    · exact .inl (hplaced.sound s b hs)
    · exact .inr hs
  · rw [hnext] at hle
    rw [List.length_append, List.length_singleton, ← hcount] at hlt
    by_cases hnew : s = p.nextDispatch
    · exact ⟨batch, (hholds s batch).mpr (.inr ⟨hnew, rfl⟩)⟩
    · obtain ⟨b, hb⟩ := hplaced.complete s hle (by omega)
      exact ⟨b, (hholds s b).mpr (.inl hb)⟩

/-- What has been emitted stays the beginning. -/
theorem emitting_append (batch : HashedBatch) (hplaced : Placed p sent)
    (hemit : Emitting sink p sent) (hnext : q.nextEmit = p.nextEmit) (hout : q.out = p.out) :
    Emitting sink q (sent ++ [batch]) := by
  rw [Emitting, hnext, hout, List.take_append_of_le_length hplaced.emitted_le]
  exact hemit

/-- The segment at the head of the channel and what it tells. -/
theorem fed_head {reading eof : Bool} {rest data : Bytes} {filled : List Filled}
    (h : Fed reading rest (.seg data eof :: filled)) :
    (eof = true → queued filled ++ rest = []) ∧
      (eof = false → data.length = segment ∧ Fed reading rest filled) := by
  cases eof with
  | true =>
      obtain ⟨rfl, rfl, -⟩ := h
      exact ⟨fun _ => rfl, fun hfalse => by cases hfalse⟩
  | false => exact ⟨fun htrue => (by cases htrue), fun _ => h⟩

theorem window_inv {data : Bytes} {eof : Bool} {filled : List Filled}
    (hsteady : p.reader.Steady) (hplaced : Placed p sent) (hfeeding : Feeding cdc bytes p sent)
    (hemit : Emitting sink p sent) (hstalled : Stalled p) (hfilled : p.filled = .seg data eof :: filled)
    (h : Pipe.window { p with filled } cdc pool data eof = some q) : Inv cdc sink bytes q := by
  have hfed := hfeeding.fed
  rw [hfilled] at hfed
  obtain ⟨hlast, hmore⟩ := fed_head hfed
  have hwhole := hfeeding.whole
  rw [hfilled, queued, List.append_assoc, ← List.append_assoc p.carry,
    cdc.batch_append hlast, ← List.append_assoc] at hwhole
  have hbuffers := hfeeding.buffers
  rw [hfilled, List.length_cons] at hbuffers
  have hcarry := hfeeding.carry_lt
  have hkept := cdc.cutter.length_kept_lt (by decide) eof (p.carry ++ data)
  have hend : eof = true → cdc.cutter.kept eof (p.carry ++ data) = [] := by
    intro htrue
    rw [htrue]
    exact cdc.cutter.kept_eof (by decide) _
  rw [window] at h
  split at h
  · -- the carry is shorter than one chunk
    rename_i hcrash
    simp only [carryRoom] at hcrash
    omega
  · simp only at h
    split at h
    · rename_i hcuts
      split at h
      · rename_i hempty
        cases h
        refine ⟨hsteady, sent, placed_congr hplaced rfl rfl (fun _ _ => Iff.rfl) ?_,
          hemit, ?_, hstalled⟩
        · simp only
          omega
        · rw [hwhole, hcuts, hend hempty.1, hlast hempty.1, List.nil_append, FastCdc.batch_nil]
          simp [hashBatch]
      · rename_i hnonempty
        exfalso
        -- a window without a final cut is empty, or it is not the last and shorter than `CDC_MAX`
        by_cases hview : p.carry ++ data = []
        · cases eof with
          | true => exact hnonempty ⟨rfl, hview⟩
          | false =>
              have hlen := (hmore rfl).1
              rw [(List.append_eq_nil_iff.mp hview).2] at hlen
              exact absurd hlen (by decide)
        · refine cdc.cutter.final_ne_nil hview ?_ hcuts
          cases eof with
          | true => exact .inl rfl
          | false =>
              have hlen := (hmore rfl).1
              have hfits : cdcMax ≤ segment := by decide
              refine .inr ?_
              rw [List.length_append]
              omega
    · rename_i hcuts
      have hnow : ∀ (r : Pipe), r.reader = p.reader → r.reading = p.reading →
          r.filled = filled → r.carry = cdc.cutter.kept eof (p.carry ++ data) →
          r.nextDispatch = p.nextDispatch + 1 → r.nextEmit = p.nextEmit → r.out = p.out →
          (∀ s b, r.Holds s b ↔ p.Holds s b ∨ (s = p.nextDispatch ∧
            hashBatch cdc.chunker (p.carry ++ data)
              (cdc.cutter.final eof (p.carry ++ data)) true = b)) →
          r.free + r.filled.length + r.hashing.length = bufs → r.phase = .collect eof →
          Inv cdc sink bytes r := by
        intro r hreader hreading hfilled' hcarry' hdispatch hnext hout hholds hroom hat
        refine ⟨?_, sent ++ [_], placed_dispatch hplaced hdispatch hnext hholds hroom.le, ?_⟩
        · rw [hreader]
          exact hsteady
        · rw [hat]
          have hemit' := emitting_append (hashBatch cdc.chunker (p.carry ++ data)
            (cdc.cutter.final eof (p.carry ++ data)) true) hplaced hemit hnext hout
          cases eof with
          | true =>
              refine ⟨hemit', ?_⟩
              rw [hwhole, hend rfl, hlast rfl, List.nil_append, FastCdc.batch_nil,
                List.append_nil, List.flatten_append]
              simp
          | false =>
              refine ⟨⟨?_, ?_, ?_, hroom⟩, hemit'⟩
              · rw [hwhole, hcarry', hfilled', hreader, List.flatten_append]
                simp
              · rw [hcarry']
                exact hkept
              · rw [hreading, hreader, hfilled']
                exact (hmore rfl).2
      split at h
      · cases h
        refine hnow _ rfl rfl rfl rfl rfl rfl rfl (fun s b => ?_) ?_ rfl
        · simp only [Holds, List.mem_append, List.mem_singleton, Prod.mk.injEq]
          grind
        · simp only [List.length_append, List.length_singleton]
          omega
      · split at h
        · cases h
          refine hnow _ rfl rfl rfl rfl rfl rfl rfl (fun s b => ?_) ?_ rfl
          · simp only [Holds, List.mem_append, List.mem_singleton, Prod.mk.injEq]
            grind
          · simp only
            omega
        · cases h

theorem scan_inv (hinv : Inv cdc sink bytes p) (hat : p.phase = .scan)
    (h : p.scan cdc pool = some q) : Inv cdc sink bytes q := by
  obtain ⟨hsteady, sent, hplaced, hphase⟩ := hinv
  rw [hat] at hphase
  obtain ⟨hfeeding, hemit, hstalled⟩ := hphase
  have hfed := hfeeding.fed
  rw [scan] at h
  split at h
  · rename_i data eof filled hfilled
    exact window_inv hsteady hplaced hfeeding hemit hstalled hfilled h
  · rename_i filled hfilled
    rw [hfilled] at hfed
    exact absurd hfed id
  · rename_i hfilled
    rw [hfilled] at hfed
    rw [show p.reading = true from hfed, if_pos rfl] at h
    cases h

theorem collect_inv {eof : Bool} (hinv : Inv cdc sink bytes p) (hat : p.phase = .collect eof) :
    Inv cdc sink bytes (p.collect sink eof) := by
  obtain ⟨hsteady, sent, hplaced, hphase⟩ := hinv
  rw [hat] at hphase
  rw [collect]
  split
  · rename_i seq batch done hdone
    refine ⟨hsteady, sent, placed_insert hplaced hdone, ?_⟩
    simp only [hat]
    cases eof with
    | true => exact hphase
    | false =>
        obtain ⟨hfeeding, hemit⟩ := hphase
        exact ⟨⟨hfeeding.whole, hfeeding.carry_lt, hfeeding.fed, hfeeding.buffers⟩, hemit⟩
  · have hemit : Emitting sink p sent := by
      cases eof with
      | true => exact hphase.1
      | false => exact hphase.2
    have hfeeding : eof = false → Feeding cdc bytes p sent := by
      rintro rfl
      exact hphase.1
    have hwhole : ∃ tail, cdc.batch bytes = sent.flatten ++ tail ∧ (eof = true → tail = []) := by
      cases eof with
      | true => exact ⟨[], by rw [List.append_nil]; exact hphase.2, fun _ => rfl⟩
      | false => exact ⟨_, hphase.1.whole, fun htrue => by cases htrue⟩
    obtain ⟨tail, hwhole, hlast⟩ := hwhole
    have hfeeds : ∀ next, Feeding cdc bytes p sent →
        Feeding cdc bytes (p.emit sink next) sent := by
      intro next hf
      rw [emit]
      split <;> exact ⟨hf.whole, hf.carry_lt, hf.fed, hf.buffers⟩
    obtain ⟨hplaced', hreader, hends⟩ := emit_spec (if eof then .drain else .scan)
      hplaced hemit
    refine ⟨?_, sent, hplaced', ?_⟩
    · rw [hreader]
      exact hsteady
    · rcases hends with ⟨hat', hemit', hstalled'⟩ | ⟨e, n, hat', hrefused⟩
      · rw [hat']
        cases eof with
        | true =>
            refine ⟨hemit', ?_, hstalled'⟩
            rw [hwhole, hlast rfl, List.append_nil]
        | false => exact ⟨hfeeds _ (hfeeding rfl), hemit', hstalled'⟩
      · rw [hat']
        exact settled_of_refused tail hwhole hrefused

theorem drain_inv (hinv : Inv cdc sink bytes p) (hat : p.phase = .drain)
    (h : p.drain sink = some q) : Inv cdc sink bytes q := by
  obtain ⟨hsteady, sent, hplaced, hphase⟩ := hinv
  rw [hat] at hphase
  obtain ⟨hemit, hwhole, -⟩ := hphase
  rw [drain] at h
  split at h
  · split at h
    · rename_i seq batch done hdone
      cases h
      obtain ⟨hplaced', hreader, hends⟩ := emit_spec .drain
        (placed_insert hplaced hdone) (show Emitting sink _ sent from hemit)
      refine ⟨?_, sent, hplaced', ?_⟩
      · rw [hreader]
        exact hsteady
      · rcases hends with ⟨hat', hemit', hstalled'⟩ | ⟨e, n, hat', hrefused⟩
        · rw [hat']
          exact ⟨hemit', hwhole, hstalled'⟩
        · rw [hat']
          refine settled_of_refused [] ?_ hrefused
          rw [hwhole, List.append_nil]
    · -- the scanner's own sender keeps the channel open
      rw [if_pos (by simp [doneOpen, recycleOpen, hat])] at h
      cases h
  · rename_i hall
    cases h
    refine ⟨hsteady, sent, placed_congr hplaced rfl rfl (fun _ _ => Iff.rfl) hplaced.room, ?_⟩
    show emitBatch sink (cdc.batch bytes) .start = (p.out, none)
    have hcount := hplaced.count
    rw [Emitting, List.take_of_length_le (by omega)] at hemit
    rw [hwhole, hemit]

theorem main_inv (hinv : Inv cdc sink bytes p) (h : p.main cdc pool sink = some q) :
    Inv cdc sink bytes q := by
  rw [main] at h
  split at h
  · rename_i hat
    exact scan_inv hinv hat h
  · rename_i eof hat
    cases h
    exact collect_inv hinv hat
  · rename_i hat
    exact drain_inv hinv hat h
  · rename_i result hat
    split at h
    · cases h
    · cases h
      obtain ⟨hsteady, sent, hplaced, hphase⟩ := hinv
      rw [hat] at hphase
      refine ⟨hsteady, sent, placed_congr hplaced rfl rfl (fun _ _ => Iff.rfl) hplaced.room, ?_⟩
      cases result <;> exact hphase
  · cases h
  · cases h

/-- Every step keeps the invariant, whoever moves. -/
theorem step_inv {a : Act} (hinv : Inv cdc sink bytes p) (h : step cdc pool sink p a = some q) :
    Inv cdc sink bytes q := by
  cases a with
  | read => exact read_inv hinv h
  | hangUp => exact hangUp_inv hinv h
  | hashed i => exact hashed_inv hinv h
  | handed i => exact handed_inv hinv h
  | main => exact main_inv hinv h

theorem reaches_inv {reads : Nat → Option Nat} (hsteady : ∀ j, reads j ≠ none)
    (h : Lib.Reaches (step cdc pool sink) Lib.anyStep (start bytes reads) p) :
    Inv cdc sink bytes p :=
  h.invariant (start_inv hsteady) (fun _ _ _ hinv _ hs => step_inv hinv hs)

/-! ## Results -/

/-- **The order of completion does not matter.** What a run returns is what the reference
returns. -/
theorem returned_eq {reads : Nat → Option Nat} (hsteady : ∀ j, reads j ≠ none) {end' : Chunked}
    (h : Lib.Reaches (step cdc pool sink) Lib.anyStep (start bytes reads) p)
    (hend : p.outcome = some end') : end' = cdc.chunkWhole sink bytes := by
  obtain ⟨-, sent, -, hphase⟩ := reaches_inv hsteady h
  rw [outcome] at hend
  split at hend
  · rename_i hat
    rw [hat] at hphase
    cases hend
    rw [FastCdc.chunkWhole, show emitBatch sink (cdc.batch bytes) .start = (p.out, none)
      from hphase]
    rfl
  · rename_i e hat
    rw [hat] at hphase
    cases hend
    rw [FastCdc.chunkWhole, show emitBatch sink (cdc.batch bytes) .start = (p.out, some e)
      from hphase]
    rfl
  · cases hend

theorem exists_hashed (hroom : p.free + p.filled.length + p.hashing.length ≤ bufs)
    (hne : p.hashing ≠ []) : ∃ q, p.hashed 0 = some q := by
  cases hhashing : p.hashing with
  | nil => exact absurd hhashing hne
  | cons task tasks =>
      rw [hhashing, List.length_cons] at hroom
      rw [hashed, hhashing]
      simp only [List.getElem?_cons_zero]
      rw [if_pos (by omega)]
      exact ⟨_, rfl⟩

theorem exists_handed (hne : p.handing ≠ []) : ∃ q, p.handed 0 = some q := by
  cases hhanding : p.handing with
  | nil => exact absurd hhanding hne
  | cons task tasks =>
      rw [handed, hhanding]
      exact ⟨_, rfl⟩

theorem exists_read (hreading : p.reading = true) (hfree : 0 < p.free)
    (hroom : p.free + p.filled.length + p.hashing.length ≤ bufs) : ∃ q, p.read = some q := by
  rw [read, if_pos ⟨hreading, hfree, by omega⟩]
  split
  · exact ⟨_, rfl⟩
  · exact ⟨_, rfl⟩

/-- A window can always be dispatched: without a pool there is room for its buffer. -/
theorem exists_window (cdc : FastCdc) (pool : Bool) {data : Bytes} {eof : Bool} {filled : List Filled}
    (hroom : p.free + p.filled.length + p.hashing.length ≤ bufs)
    (hfilled : p.filled = .seg data eof :: filled) :
    ∃ q, Pipe.window { p with filled } cdc pool data eof = some q := by
  rw [hfilled, List.length_cons] at hroom
  rw [window]
  split
  · exact ⟨_, rfl⟩
  · simp only
    split
    · split
      · exact ⟨_, rfl⟩
      · exact ⟨_, rfl⟩
    · split
      · exact ⟨_, rfl⟩
      · rw [if_pos (by omega)]
        exact ⟨_, rfl⟩

/-- **No deadlock.** Until `chunk_file` has returned, some party can move. -/
theorem exists_step (pool : Bool) (hinv : Inv cdc sink bytes p) (hend : p.outcome = none) :
    ∃ a q, step cdc pool sink p a = some q := by
  obtain ⟨hsteady, sent, hplaced, hphase⟩ := hinv
  have hroom := hplaced.room
  cases hat : p.phase with
  | scan =>
      rw [hat] at hphase
      obtain ⟨hfeeding, -, -⟩ := hphase
      have hfed := hfeeding.fed
      have hbuffers := hfeeding.buffers
      cases hfilled : p.filled with
      | nil =>
          -- the scanner waits: a buffer is free for the reader, or a task has one to return
          rw [hfilled] at hfed hbuffers
          by_cases hfree : 0 < p.free
          · obtain ⟨q, hq⟩ := exists_read hfed hfree hroom
            exact ⟨.read, q, hq⟩
          · have hne : p.hashing ≠ [] := by
              intro hnil
              rw [hnil, List.length_nil, List.length_nil] at hbuffers
              simp only [bufs] at hbuffers
              omega
            obtain ⟨q, hq⟩ := exists_hashed hroom hne
            exact ⟨.hashed 0, q, hq⟩
      | cons f filled =>
          cases f with
          | failed =>
              rw [hfilled] at hfed
              exact absurd hfed id
          | seg data eof =>
              obtain ⟨q, hq⟩ := exists_window cdc pool hroom hfilled
              refine ⟨.main, q, ?_⟩
              simp only [step, main, hat, scan, hfilled]
              exact hq
  | collect eof => exact ⟨.main, p.collect sink eof, by simp only [step, main, hat]⟩
  | drain =>
      rw [hat] at hphase
      obtain ⟨-, -, hstalled⟩ := hphase
      by_cases hall : p.nextEmit < p.nextDispatch
      · cases hdone : p.done with
        | cons d done =>
            refine ⟨.main, ({ p with done, pending := p.pending.insert d.1 d.2 } : Pipe).emit sink
              .drain, ?_⟩
            simp only [step, main, hat, drain, hdone]
            rw [if_pos hall]
        | nil =>
            -- the next batch is with a task that has not sent it yet
            have hcount := hplaced.count
            obtain ⟨b, hb⟩ := hplaced.complete p.nextEmit le_rfl (by omega)
            rcases hb with hb | hb | hb | hb
            · obtain ⟨q, hq⟩ := exists_hashed hroom (List.ne_nil_of_mem hb)
              exact ⟨.hashed 0, q, hq⟩
            · obtain ⟨q, hq⟩ := exists_handed (List.ne_nil_of_mem hb)
              exact ⟨.handed 0, q, hq⟩
            · rw [hdone] at hb
              cases hb
            · rw [Stalled] at hstalled
              rw [hstalled] at hb
              cases hb
      · refine ⟨.main, { p with phase := .join (.ok ()) }, ?_⟩
        simp only [step, main, hat, drain]
        rw [if_neg hall]
  | join result =>
      by_cases hreading : p.reading = true
      · by_cases hfree : 0 < p.free
        · obtain ⟨q, hq⟩ := exists_read hreading hfree hroom
          exact ⟨.read, q, hq⟩
        · by_cases hhashing : p.hashing = []
          · by_cases hhanding : p.handing = []
            · refine ⟨.hangUp, { p with reading := false }, ?_⟩
              simp only [step, hangUp]
              rw [if_pos]
              refine ⟨hreading, by omega, ?_⟩
              simp [recycleOpen, hat, hhashing, hhanding]
            · obtain ⟨q, hq⟩ := exists_handed hhanding
              exact ⟨.handed 0, q, hq⟩
          · obtain ⟨q, hq⟩ := exists_hashed hroom hhashing
            exact ⟨.hashed 0, q, hq⟩
      · refine ⟨.main, { p with phase := .returned result }, ?_⟩
        simp only [step, main, hat]
        rw [if_neg hreading]
  | returned result =>
      rw [outcome, hat] at hend
      cases result <;> cases hend
  | crashed =>
      rw [hat] at hphase
      exact absurd hphase id

/-! ### Every run ends -/

/-- The segments the reader has still to send. -/
def unread (p : Pipe) : Nat :=
  if p.reading then p.reader.rest.length / segment + 1 else 0

def rank : ScanPhase → Nat
  | .collect _ => 4
  | .scan => 3
  | .drain => 2
  | .join _ => 1
  | .returned _ => 0
  | .crashed => 0

/-- What is left to do. A segment becomes a buffer in the channel, a task, a task without its
buffer, a batch in the channel; each is worth less than what it came from. -/
def work (p : Pipe) : Nat :=
  6 * p.unread + 5 * p.filled.length + 3 * p.hashing.length + 2 * p.handing.length
    + p.done.length + rank p.phase

theorem unread_of_reading (h : p.reading = true) :
    p.unread = p.reader.rest.length / segment + 1 := by
  rw [unread, if_pos h]

theorem unread_of_ended (h : p.reading = false) : p.unread = 0 := by
  rw [unread, h]
  rfl

theorem unread_pos (h : p.reading = true) : 0 < p.unread := by
  rw [unread_of_reading h]
  exact Nat.succ_pos _

theorem read_work (h : p.read = some q) : q.work < p.work := by
  rw [read] at h
  split at h
  · rename_i hguard
    have hbefore := unread_pos hguard.1
    split at h
    · have hafter : q.unread = 0 := by
        cases h
        exact unread_of_ended rfl
      rw [work, work, hafter]
      cases h
      simp only [List.length_append, List.length_singleton]
      omega
    · rename_i data eof reader hfill
      obtain ⟨hdata, hrest, heof, -⟩ := Reader.fill_some hfill
      have hafter : q.unread < p.unread := by
        cases h
        cases heof' : eof with
        | true =>
            rw [unread_of_ended rfl]
            exact hbefore
        | false =>
            -- a full segment was read
            rw [heof', eq_comm, decide_eq_false_iff_not] at heof
            have hdiv := Nat.div_eq_sub_div (a := p.reader.rest.length) (b := segment) (by decide)
              (by omega)
            rw [unread_of_reading hguard.1, unread_of_reading rfl, hdiv, hrest, List.length_drop]
            exact Nat.lt_succ_self _
      rw [work, work]
      cases h
      simp only [List.length_append, List.length_singleton]
      omega
  · cases h

theorem hangUp_work (h : p.hangUp = some q) : q.work < p.work := by
  rw [hangUp] at h
  split at h
  · rename_i hguard
    have hbefore := unread_pos hguard.1
    have hafter : q.unread = 0 := by
      cases h
      exact unread_of_ended rfl
    rw [work, work, hafter]
    cases h
    simp only
    omega
  · cases h

theorem hashed_work {i : Nat} (h : p.hashed i = some q) : q.work < p.work := by
  rw [hashed] at h
  split at h
  · cases h
  · rename_i task htask
    split at h
    · cases h
      have hi : i < p.hashing.length := (List.getElem?_eq_some_iff.mp htask).1
      have hlen := List.length_eraseIdx_of_lt hi
      simp only [work, unread, hlen, List.length_append, List.length_singleton]
      omega
    · cases h

theorem handed_work {i : Nat} (h : p.handed i = some q) : q.work < p.work := by
  rw [handed] at h
  split at h
  · cases h
  · rename_i task htask
    cases h
    have hi : i < p.handing.length := (List.getElem?_eq_some_iff.mp htask).1
    have hlen := List.length_eraseIdx_of_lt hi
    simp only [work, unread, hlen, List.length_append, List.length_singleton]
    omega

/-- `emit_ready` moves no task and no buffer. -/
theorem emit_work (sink : Sink) (p : Pipe) {next : ScanPhase} (hnext : 1 ≤ rank next) :
    (p.emit sink next).work + rank p.phase ≤ p.work + rank next := by
  rw [emit]
  split
  · rename_i e _
    have hjoin : rank (.join (.error e)) = 1 := rfl
    simp only [work, unread, hjoin]
    omega
  · simp only [work, unread]
    omega

theorem main_work (h : p.main cdc pool sink = some q) : q.work < p.work := by
  rw [main] at h
  split at h
  · rename_i hat
    rw [scan] at h
    split at h
    · rename_i data eof filled hfilled
      rw [window] at h
      split at h
      · cases h
        simp only [work, unread, hat, hfilled, rank, List.length_cons]
        omega
      · simp only at h
        split at h
        · split at h
          · cases h
            simp only [work, unread, hat, hfilled, rank, List.length_cons]
            omega
          · cases h
            simp only [work, unread, hat, hfilled, rank, List.length_cons]
            omega
        · split at h
          · cases h
            simp only [work, unread, hat, hfilled, rank, List.length_cons, List.length_append,
              List.length_nil]
            omega
          · split at h
            · cases h
              simp only [work, unread, hat, hfilled, rank, List.length_cons, List.length_append,
                List.length_nil]
              omega
            · cases h
    · rename_i filled hfilled
      cases h
      simp only [work, unread, hat, hfilled, rank, List.length_cons]
      omega
    · split at h
      · cases h
      · cases h
        simp only [work, unread, hat, rank]
        omega
  · rename_i eof hat
    cases h
    rw [collect]
    split
    · rename_i seq batch done hdone
      simp only [work, unread, hat, hdone, List.length_cons]
      omega
    · have hle := emit_work sink p (show 1 ≤ rank (if eof then .drain else .scan) by
        cases eof <;> decide)
      have hrank : rank (if eof then .drain else .scan) < rank p.phase := by
        rw [hat]
        cases eof <;> decide
      omega
  · rename_i hat
    rw [drain] at h
    split at h
    · split at h
      · rename_i seq batch done hdone
        cases h
        have hle := emit_work sink { p with done, pending := p.pending.insert seq batch }
          (show 1 ≤ rank .drain by decide)
        simp only [hat] at hle
        refine lt_of_le_of_lt (Nat.le_of_add_le_add_right hle) ?_
        simp only [work, unread, hat, hdone, List.length_cons]
        omega
      · split at h
        · cases h
        · cases h
          simp only [work, unread, hat, rank]
          omega
    · cases h
      simp only [work, unread, hat, rank]
      omega
  · rename_i result hat
    split at h
    · cases h
    · cases h
      simp only [work, unread, hat, rank]
      omega
  · cases h
  · cases h

/-- **No run goes on forever.** Every step leaves less to do. -/
theorem step_work_lt {a : Act} (h : step cdc pool sink p a = some q) : q.work < p.work := by
  cases a with
  | read => exact read_work h
  | hangUp => exact hangUp_work h
  | hashed i => exact hashed_work h
  | handed i => exact handed_work h
  | main => exact main_work h

/-- From every state of a run `chunk_file` returns in the end. -/
theorem exists_returned (pool : Bool) (hinv : Inv cdc sink bytes p) :
    ∃ q, Lib.Reaches (step cdc pool sink) Lib.anyStep p q ∧ q.outcome ≠ none := by
  induction hn : p.work using Nat.strong_induction_on generalizing p with
  | _ n ih =>
      cases hend : p.outcome with
      | some end' => exact ⟨p, .refl, by rw [hend]; exact Option.some_ne_none _⟩
      | none =>
          obtain ⟨a, r, hstep⟩ := exists_step pool hinv hend
          have hless := step_work_lt hstep
          obtain ⟨q, hreach, hq⟩ := ih _ (by omega) (step_inv hinv hstep) rfl
          have hfirst : Lib.Reaches (step cdc pool sink) Lib.anyStep p r :=
            .tail .refl trivial hstep
          exact ⟨q, hfirst.trans hreach, hq⟩

end Pipe

/-! ## All three agree -/

/-- The calls of the reference: each chunk with its bytes, in file order; an error only if the
sink returned it, after the chunks up to the refused one. -/
theorem FastCdc.chunkWhole_error {cdc : FastCdc} {sink : Sink} {bytes : Bytes} {e : ChunkError}
    (h : (cdc.chunkWhole sink bytes).result = .error e) :
    ∃ k, 0 < k ∧ k ≤ (cdc.batch bytes).length ∧
      (cdc.chunkWhole sink bytes).calls = (cdc.batch bytes).take k ∧
      sink ((cdc.batch bytes).take k) = some e := by
  cases hemit : emitBatch sink (cdc.batch bytes) .start with
  | mk out err =>
      have hwhole : cdc.chunkWhole sink bytes = closing (out, err) := by
        rw [chunkWhole, hemit]
      rw [hwhole] at h ⊢
      cases err with
      | none => cases h
      | some e' =>
          obtain rfl : e' = e := by simpa [closing, Emitted.failed] using h
          obtain ⟨k, hpos, hk, hcalls, hsink⟩ := emitBatch_error hemit
          replace hcalls : out.calls = (cdc.batch bytes).take k := hcalls
          rw [hcalls] at hsink
          exact ⟨k, hpos, hk, hcalls, hsink⟩

/-- **Chunking is independent of how the bytes arrive.** For a reader that does not fail,
whatever its short reads: `chunk_stream_windowed` with any window and `chunk_file` in any
interleaving, with or without a pool, do what the reference does; `chunk_file` returns in
every run; with a sink that takes everything the reference returns the list of `chunk_bytes`
and the length, and hands over each chunk once, in order, with its bytes; and every error is
the sink's. -/
theorem chunking_agrees (cdc : FastCdc) (bytes : Bytes) (reads : Nat → Option Nat)
    (hsteady : ∀ j, reads j ≠ none) (sink : Sink) :
    (∀ window, chunkStreamWindowed cdc { rest := bytes, reads, count := 0 } window sink
        = cdc.chunkWhole sink bytes) ∧
    (∀ pool p, Lib.Reaches (Pipe.step cdc pool sink) Lib.anyStep (.start bytes reads) p →
      (∀ end', p.outcome = some end' → end' = cdc.chunkWhole sink bytes) ∧
      (p.outcome = none → ∃ a q, Pipe.step cdc pool sink p a = some q) ∧
      (∀ a q, Pipe.step cdc pool sink p a = some q → q.work < p.work) ∧
      ∃ q, Lib.Reaches (Pipe.step cdc pool sink) Lib.anyStep p q ∧
        q.outcome = some (cdc.chunkWhole sink bytes)) ∧
    (cdc.batch bytes).map Prod.fst = cdc.chunkBytes bytes ∧
    (∀ c ∈ cdc.batch bytes, c.1 = cdc.chunker.chunkRef c.2) ∧
    ((cdc.batch bytes).map Prod.snd).flatten = bytes ∧
    (sink.Accepts → (cdc.chunkWhole sink bytes).calls = cdc.batch bytes ∧
      (cdc.chunkWhole sink bytes).result = .ok (cdc.chunkBytes bytes, bytes.length % 2 ^ 64) ∧
      (bytes.length < 2 ^ 64 →
        (cdc.chunkWhole sink bytes).result = .ok (cdc.chunkBytes bytes, bytes.length))) ∧
    (∀ e, (cdc.chunkWhole sink bytes).result = .error e →
      ∃ k, 0 < k ∧ k ≤ (cdc.batch bytes).length ∧
        (cdc.chunkWhole sink bytes).calls = (cdc.batch bytes).take k ∧
        sink ((cdc.batch bytes).take k) = some e) := by
  refine ⟨fun window => chunkStreamWindowed_eq cdc sink window hsteady, fun pool p h => ?_,
    cdc.map_fst_batch bytes, fun c hc => ?_, cdc.flatten_batch bytes, fun hsink => ?_,
    fun e => FastCdc.chunkWhole_error⟩
  · have hinv := Pipe.reaches_inv hsteady h
    refine ⟨fun end' => Pipe.returned_eq hsteady h, Pipe.exists_step pool hinv,
      fun a q => Pipe.step_work_lt, ?_⟩
    obtain ⟨q, hreach, hq⟩ := Pipe.exists_returned pool hinv
    obtain ⟨end', hend⟩ := Option.ne_none_iff_exists'.mp hq
    refine ⟨q, hreach, ?_⟩
    rw [hend, Pipe.returned_eq hsteady (h.trans hreach) hend]
  · obtain ⟨piece, -, rfl⟩ := List.mem_map.mp hc
    rfl
  · rw [cdc.chunkWhole_accepts hsink]
    refine ⟨rfl, rfl, fun hlt => ?_⟩
    simp only [Nat.mod_eq_of_lt hlt]

/-- Pieces of `CDC_MAX` bytes, with the hash of two bytes. What is no longer than `CDC_MIN`
FastCDC leaves in one piece as well. -/
def slabs : FastCdc where
  hash := fun bytes =>
    if bytes = [7, 8] then 0xd241b5ab32d2206564b51c8ec05944f6af6d7622c2f607f34c0622223a2b3cd7
    else bytes.length % 256 ^ 32
  cutter :=
    { next := fun xs => min cdcMax xs.length
      next_pos := fun xs h => by
        have hpos := List.length_pos_iff.mpr h
        have hmax : 0 < cdcMax := by decide
        omega
      next_le := fun xs _ => min_le_right _ _
      next_take := fun xs => by
        rw [List.length_take]
        omega }

/-- A file of two bytes that arrive one at a time. -/
theorem chunking_agrees_trickle :
    (∀ j, (fun _ : Nat => some 1) j ≠ none) ∧
    chunkStreamWindowed slabs { rest := [7, 8], reads := fun _ => some 1, count := 0 } 0
        (fun _ => none) = slabs.chunkWhole (fun _ => none) [7, 8] :=
  ⟨fun _ => Option.some_ne_none _,
    (chunking_agrees slabs [7, 8] (fun _ => some 1) (fun _ => Option.some_ne_none _)
      (fun _ => none)).1 0⟩

end Tazamun
