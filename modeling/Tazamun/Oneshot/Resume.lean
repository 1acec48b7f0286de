import Tazamun.Oneshot.Transfer

set_option autoImplicit false

/-! # A resumed transfer

What a `receive` that returns `Ok` has put in place, whatever earlier attempts left in the
staging area. The receiver verifies each chunk it appends, so a finished part is what was
staged followed by the chunks from the resume index on (`recvEntry_file`). The file is then
right exactly when what was staged is the bytes of the chunks before that index.

`verified_prefix` counts only verified chunks, but it leaves the part as it found it when the
trim fails, or when the part cannot be opened for reading. The append then follows bytes that
nobody verified, and `receive` still returns `Ok`. So the transfer is faithful exactly when
every part could be opened and trimmed, or held nothing but verified chunks to begin with
(`receive_faithful_iff`, the main result).
-/

namespace Tazamun.Oneshot

variable {Path : Type} [LinearOrder Path]

/-! ## The verified prefix -/

/-- What the reading loop counted is there: the bytes it counted are the chunks it counted,
and none of these reads failed. -/
theorem countVerified_sound {ck : Chunker} (hinj : Function.Injective ck.hash)
    (reads : Nat → Bool) (cs : List Bytes) (j : Nat) (rest : Bytes) :
    (countVerified ck reads (cs.map ck.chunkRef) j rest).1 ≤ cs.length ∧
      rest.take (countVerified ck reads (cs.map ck.chunkRef) j rest).2
        = (cs.take (countVerified ck reads (cs.map ck.chunkRef) j rest).1).flatten ∧
      ∀ i < (countVerified ck reads (cs.map ck.chunkRef) j rest).1, reads (j + i) = true := by
  induction cs generalizing j rest with
  | nil =>
      simp [countVerified]
  | cons c cs ih =>
      rw [List.map_cons, countVerified]
      by_cases hread : reads j = true ∧ (ck.chunkRef c).len ≤ rest.length
      · rw [if_pos hread]
        by_cases hhash : ck.hash (rest.take (ck.chunkRef c).len) = (ck.chunkRef c).hash
        · rw [if_pos hhash]
          obtain ⟨hle, htake, hreads⟩ := ih (j + 1) (rest.drop (ck.chunkRef c).len)
          have hc : rest.take (ck.chunkRef c).len = c := hinj hhash
          refine ⟨Nat.succ_le_succ hle, ?_, ?_⟩
          · show rest.take (_ + (ck.chunkRef c).len) = (List.take (_ + 1) (c :: cs)).flatten
            rw [Nat.add_comm, List.take_add, hc, htake, List.take_succ_cons, List.flatten_cons]
          · intro i hi
            cases i with
            | zero =>
                exact hread.1
            | succ i =>
                have hstep := hreads i (by simpa using hi)
                rwa [Nat.add_right_comm, Nat.add_assoc] at hstep
        · simp [if_neg hhash]
      · simp [if_neg hread]

/-- Bytes that are leading chunks and can be read are all counted. -/
theorem countVerified_complete {ck : Chunker} (reads : Nat → Bool) {cs : List Bytes} (hlen : ∀ c ∈ cs, c.length ≤ cdcMax) (j k : Nat)
    (hreads : ∀ i < k, reads (j + i) = true) :
    (cs.take (countVerified ck reads (cs.map ck.chunkRef) j (cs.take k).flatten).1).flatten
      = (cs.take k).flatten := by
  induction cs generalizing j k with
  | nil =>
      simp
  | cons c cs ih =>
      have hc : (ck.chunkRef c).len = c.length := chunkRef_len ck (hlen c (by simp))
      have hcs : ∀ d ∈ cs, d.length ≤ cdcMax := fun d hd => hlen d (by simp [hd])
      rw [List.map_cons, countVerified, hc]
      cases k with
      | zero =>
          by_cases hread : reads j = true ∧ c.length ≤ (List.take 0 (c :: cs)).flatten.length
          · -- an empty chunk is read from an exhausted file, and verifies
            have hnil : c = [] := List.length_eq_zero_iff.mp (Nat.le_zero.mp hread.2)
            subst hnil
            rw [if_pos hread]
            have hrest := ih hcs (j + 1) 0 (by simp)
            simpa [Chunker.chunkRef] using hrest
          · rw [if_neg hread]
      | succ k =>
          have hread : reads j = true ∧
              c.length ≤ (List.take (k + 1) (c :: cs)).flatten.length := by
            have hj := hreads 0 (by omega)
            simp only [Nat.add_zero] at hj
            simp [hj]
          rw [if_pos hread, List.take_succ_cons, List.flatten_cons, List.take_left,
            if_pos (by simp [Chunker.chunkRef]), List.drop_left]
          show (List.take (_ + 1) (c :: cs)).flatten = _
          rw [List.take_succ_cons, List.flatten_cons]
          congr 1
          apply ih hcs (j + 1) k
          intro i hi
          have hstep := hreads (i + 1) (by omega)
          rwa [Nat.add_right_comm, Nat.add_assoc]

/-! ## Coverage -/

theorem streamed_indexes (start index : Nat) (cs : List Bytes) :
    (streamed start index cs).map Prod.fst
      = (List.range' index cs.length).filter (fun i => decide (start ≤ i)) := by
  induction cs generalizing index with
  | nil =>
      rfl
  | cons c cs ih =>
      rw [streamed, List.length_cons, List.range'_succ]
      by_cases h : index < start
      · rw [if_pos h, ih, List.filter_cons_of_neg (by simpa using h)]
      · rw [if_neg h, List.map_cons, ih, List.filter_cons_of_pos (by simpa using h)]

/-- The staged indexes followed by the requested ones are all of them, once and in order. -/
theorem range_append_streamed {start : Nat} {cs : List Bytes} (h : start ≤ cs.length) :
    List.range start ++ (streamed start 0 cs).map Prod.fst = List.range cs.length := by
  have hsplit : List.range' 0 cs.length
      = List.range' 0 start ++ List.range' start (cs.length - start) := by
    have happ := List.range'_append_1 (s := 0) (m := start) (n := cs.length - start)
    rw [Nat.zero_add, Nat.add_sub_cancel' h] at happ
    exact happ.symm
  have hlow : (List.range' 0 start).filter (fun i => decide (start ≤ i)) = [] := by
    apply List.filter_eq_nil_iff.mpr
    intro i hi
    have := List.mem_range'_1.mp hi
    simp only [decide_eq_true_eq]
    omega
  have hhigh : (List.range' start (cs.length - start)).filter (fun i => decide (start ≤ i))
      = List.range' start (cs.length - start) := by
    apply List.filter_eq_self.mpr
    intro i hi
    simpa using (List.mem_range'_1.mp hi).1
  rw [streamed_indexes, hsplit, List.filter_append, hlow, hhigh, List.nil_append,
    List.range_eq_range', List.range_eq_range', hsplit]

/-- The part left for the append is the bytes of the chunks below the resume index, and the
indexes the sender streams continue it to the whole chunk list. -/
def Covers (ck : Chunker) (bytes : Bytes) (planned : Nat × Option Bytes) : Prop :=
  planned.2.getD [] = ((ck.cut bytes).take planned.1).flatten ∧
    List.range planned.1 ++ (streamed planned.1 0 (ck.cut bytes)).map Prod.fst
      = List.range (ck.cut bytes).length

/-- The part file, if there is one, can be opened and trimmed; or it holds the first `k`
chunks and nothing else, and these can be read. -/
def CleanlyStaged (ck : Chunker) (bytes : Bytes) (part : Option Bytes) (io : PartIo) : Prop :=
  ∀ staged, part = some staged →
    (io.opens = true ∧ io.trims = true) ∨
      ∃ k, staged = ((ck.cut bytes).take k).flatten ∧ (k = 0 ∨ io.opens = true) ∧
        ∀ i < k, io.reads i = true

/-- The entry the sender builds for a file. -/
def Describes (ck : Chunker) (bytes : Bytes) (e : SendEntry Path) : Prop :=
  e.chunks = (ck.cut bytes).map ck.chunkRef

variable {ck : Chunker}

omit [LinearOrder Path] in
theorem verifiedPrefix_some {io : PartIo} (hopen : io.opens = true) (staged : Bytes)
    (e : SendEntry Path) :
    verifiedPrefix ck io (some staged) e
      = ((countVerified ck io.reads e.chunks 0 staged).1,
          some (if io.trims then staged.take (countVerified ck io.reads e.chunks 0 staged).2
            else staged)) := by
  simp [verifiedPrefix, hopen]

omit [LinearOrder Path] in
theorem verifiedPrefix_unopened {io : PartIo} (hopen : io.opens ≠ true) (staged : Bytes)
    (e : SendEntry Path) : verifiedPrefix ck io (some staged) e = (0, some staged) := by
  simp [verifiedPrefix, hopen]

omit [LinearOrder Path] in
/-- The resume index of a file is within its chunk list. -/
theorem verifiedPrefix_le (hck : ck.Sound) {bytes : Bytes} {e : SendEntry Path}
    (he : Describes ck bytes e) (io : PartIo) (part : Option Bytes) :
    (verifiedPrefix ck io part e).1 ≤ (ck.cut bytes).length := by
  cases part with
  | none =>
      exact Nat.zero_le _
  | some staged =>
      by_cases hopen : io.opens = true
      · rw [verifiedPrefix_some hopen, he]
        exact (countVerified_sound hck.hash_injective io.reads (ck.cut bytes) 0 staged).1
      · rw [verifiedPrefix_unopened hopen]
        exact Nat.zero_le _

omit [LinearOrder Path] in
/-- **A part is continued rightly exactly when it was cleanly staged.** -/
theorem covers_iff (hck : ck.Sound) {bytes : Bytes} {e : SendEntry Path}
    (he : Describes ck bytes e) (io : PartIo) (part : Option Bytes) :
    Covers ck bytes (verifiedPrefix ck io part e) ↔ CleanlyStaged ck bytes part io := by
  have hrange := range_append_streamed (verifiedPrefix_le hck he io part)
  rw [Covers, and_iff_left hrange]
  cases part with
  | none =>
      simp [verifiedPrefix, CleanlyStaged]
  | some staged =>
      obtain ⟨-, htake, hreads⟩ :=
        countVerified_sound hck.hash_injective io.reads (ck.cut bytes) 0 staged
      by_cases hopen : io.opens = true
      · rw [verifiedPrefix_some hopen, he]
        by_cases htrim : io.trims = true
        · rw [if_pos htrim]
          exact iff_of_true htake (fun _ _ => .inl ⟨hopen, htrim⟩)
        · rw [if_neg htrim]
          constructor
          · intro hstaged s hs
            cases hs
            refine .inr ⟨_, hstaged, .inr hopen, fun i hi => ?_⟩
            simpa using hreads i hi
          · intro hclean
            rcases hclean staged rfl with ⟨-, htrim'⟩ | ⟨k, hk, -, hkreads⟩
            · exact absurd htrim' htrim
            · rw [hk]
              exact (countVerified_complete io.reads (hck.length_le bytes) 0 k
                (by simpa using hkreads)).symm
      · rw [verifiedPrefix_unopened hopen]
        constructor
        · intro hstaged s hs
          cases hs
          exact .inr ⟨0, hstaged, .inl rfl, fun i hi => absurd hi (Nat.not_lt_zero i)⟩
        · intro hclean
          rcases hclean staged rfl with ⟨hopen', -⟩ | ⟨k, hk, rfl | hopen', -⟩
          · exact absurd hopen' hopen
          · exact hk
          · exact absurd hopen' hopen

/-! ## What is received -/

omit [LinearOrder Path] in
/-- Every chunk that passes the check is the one the manifest lists at its position, so what
was written and what is still to come always make up the same bytes. -/
theorem recvChunks_file (hck : ck.Sound) {bytes : Bytes} {e : SendEntry Path}
    (he : Describes ck bytes e) (io : PartIo) {frames rest : List (SendMsg Path)}
    {idx idx' : Nat} {file file' : Bytes}
    (h : recvChunks ck io e frames idx file = .ok (idx', file', rest)) :
    file' ++ ((ck.cut bytes).drop idx').flatten = file ++ ((ck.cut bytes).drop idx).flatten := by
  induction frames generalizing idx file with
  | nil =>
      cases h
  | cons frame frames ih =>
      cases frame with
      | chunk data =>
          rw [recvChunks, he, List.getElem?_map] at h
          cases hget : (ck.cut bytes)[idx]? with
          | none =>
              rw [hget] at h
              cases h
          | some c =>
              rw [hget] at h
              simp only [Option.map_some] at h
              by_cases hbad : ck.hash data ≠ (ck.chunkRef c).hash ∨
                  data.length % 2 ^ 32 ≠ (ck.chunkRef c).len
              · rw [if_pos hbad] at h
                cases h
              · rw [if_neg hbad] at h
                by_cases hwrite : (!io.writes idx) = true
                · rw [if_pos hwrite] at h
                  cases h
                · rw [if_neg hwrite] at h
                  have hdata : data = c :=
                    hck.hash_injective (not_not.mp (fun hne => hbad (.inl hne)))
                  obtain ⟨hlt, hc⟩ := List.getElem?_eq_some_iff.mp hget
                  rw [ih h, List.append_assoc, hdata, List.drop_eq_getElem_cons hlt, hc,
                    List.flatten_cons]
      | entryDone =>
          cases h
          rfl
      | fail msg =>
          cases h
      | manifest entries =>
          cases h
      | start resume =>
          cases h
      | allDone =>
          cases h
      | received =>
          cases h

omit [LinearOrder Path] in
/-- A finished part is what was staged, followed by the chunks from the resume index on. -/
theorem recvEntry_file (hck : ck.Sound) {bytes : Bytes} {e : SendEntry Path}
    (he : Describes ck bytes e) (io : PartIo) {planned : Nat × Option Bytes}
    {frames rest : List (SendMsg Path)} {file : Bytes}
    (h : recvEntry ck io e planned frames = .ok (file, rest)) :
    file = planned.2.getD [] ++ ((ck.cut bytes).drop planned.1).flatten := by
  rw [recvEntry] at h
  split at h
  · cases h
  · split at h
    · cases h
    · rename_i idx file' rest' hloop
      have hfile := recvChunks_file hck he io hloop
      split at h
      · cases h
      · split at h
        · cases h
        · rename_i _ hidx
          cases h
          have hlen : idx = (ck.cut bytes).length := by
            have := not_not.mp hidx
            rwa [he, List.length_map] at this
          rwa [hlen, List.drop_length, List.flatten_nil, List.append_nil] at hfile

omit [LinearOrder Path] in
theorem recvEntry_covers (hck : ck.Sound) {bytes : Bytes} {e : SendEntry Path}
    (he : Describes ck bytes e) (io : PartIo) {planned : Nat × Option Bytes}
    {frames rest : List (SendMsg Path)} {file : Bytes}
    (h : recvEntry ck io e planned frames = .ok (file, rest)) (hcov : Covers ck bytes planned) :
    file = bytes := by
  rw [recvEntry_file hck he io h, hcov.1, ← List.flatten_append, List.take_append_drop,
    hck.flatten_cut]

omit [LinearOrder Path] in
/-- The parts of the entries, each continued rightly, are the sender's files. -/
theorem recvEntries_files (hck : ck.Sound) (content : Path → Option Bytes) (io : Nat → PartIo)
    (l : List (SendEntry Path × (Nat × Option Bytes))) (i : Nat)
    {frames rest : List (SendMsg Path)} {files : List Bytes}
    (h : recvEntries ck io i l frames = .ok (files, rest))
    (hl : ∀ x ∈ l, ∃ bytes, content x.1.path = some bytes ∧ Describes ck bytes x.1 ∧
      Covers ck bytes x.2) :
    l.map (fun x => content x.1.path) = files.map some := by
  induction l generalizing i frames files with
  | nil =>
      cases h
      rfl
  | cons x l ih =>
      obtain ⟨e, planned⟩ := x
      rw [recvEntries] at h
      split at h
      · cases h
      · rename_i file frames' hone
        split at h
        · cases h
        · rename_i files' frames'' hrest
          cases h
          obtain ⟨bytes, hcontent, he, hcov⟩ := hl (e, planned) (by simp)
          have hfile := recvEntry_covers hck he (io i) hone hcov
          rw [List.map_cons, List.map_cons, ih (i + 1) hrest (fun x hx => hl x (by simp [hx])),
            hcontent, hfile]

omit [LinearOrder Path] in
/-- The parts of a completed stream, in the order of the entries. -/
theorem recvEntries_parts (hck : ck.Sound) (content : Path → Option Bytes) {io : Nat → PartIo}
    {staging : Nat → Option Bytes} {entries : List (SendEntry Path)}
    {frames rest : List (SendMsg Path)} {parts : List Bytes}
    (h : recvEntries ck io 0 (entries.zip (plan ck io staging entries)) frames
      = .ok (parts, rest))
    (hcovers : ∀ (i : Nat) e, entries[i]? = some e → ∃ bytes, content e.path = some bytes ∧
      Describes ck bytes e ∧ Covers ck bytes (verifiedPrefix ck (io i) (staging i) e)) :
    entries.map (fun e => content e.path) = parts.map some := by
  have hlen : (plan ck io staging entries).length = entries.length := List.length_mapIdx
  rw [← recvEntries_files hck content io _ 0 h]
  · have hfst : (entries.zip (plan ck io staging entries)).map Prod.fst = entries :=
      List.map_fst_zip hlen.ge
    conv_lhs => rw [← hfst, List.map_map]
    rfl
  · intro x hx
    obtain ⟨i, hi⟩ := List.mem_iff_getElem?.mp hx
    obtain ⟨he, hplanned⟩ := List.getElem?_zip_eq_some.mp hi
    rw [plan, List.getElem?_mapIdx, he] at hplanned
    obtain ⟨bytes, hbytes, hd, hcov⟩ := hcovers i x.1 he
    have hx2 : verifiedPrefix ck (io i) (staging i) x.1 = x.2 := Option.some_inj.mp hplanned
    exact ⟨bytes, hbytes, hd, hx2 ▸ hcov⟩

/-- Publication puts every part at its path. -/
theorem publish_dest (content : Path → Option Bytes) (io : Nat → PartIo)
    (l : List (SendEntry Path × Bytes)) (i : Nat) {dest dest' : Map Path Bytes}
    (h : publish io i l dest = .ok dest') (hl : ∀ x ∈ l, content x.1.path = some x.2) (p : Path)
    (hp : dest[p]? = content p ∨ ∃ x ∈ l, x.1.path = p) : dest'[p]? = content p := by
  induction l generalizing i dest with
  | nil =>
      cases h
      rcases hp with hp | ⟨x, hx, -⟩
      · exact hp
      · cases hx
  | cons x l ih =>
      obtain ⟨e, file⟩ := x
      rw [publish] at h
      split at h
      · cases h
      · apply ih (i + 1) h (fun x hx => hl x (by simp [hx]))
        have hfile : content e.path = some file := hl (e, file) (by simp)
        by_cases heq : e.path = p
        · left
          rw [heq, Map.get_insert_self, ← heq, hfile]
        · rw [Map.get_insert_ne _ _ heq]
          rcases hp with hp | ⟨x, hx, hxp⟩
          · exact .inl hp
          · rcases List.mem_cons.mp hx with rfl | hx
            · exact absurd hxp heq
            · exact .inr ⟨x, hx, hxp⟩

/-! ## The sender's entries -/

omit [LinearOrder Path] in
theorem entryFor_ok {s : Sender Path} {rel : Path} {e : SendEntry Path}
    (h : entryFor ck s rel = .ok e) :
    e.path = rel ∧ ∃ bytes, s.content rel = some bytes ∧ Describes ck bytes e := by
  rw [entryFor] at h
  split at h
  · cases h
  · rename_i bytes hbytes
    cases h
    exact ⟨rfl, bytes, hbytes, rfl⟩

omit [LinearOrder Path] in
theorem buildEntries_ok {s : Sender Path} {entries : List (SendEntry Path)}
    (h : buildEntries ck s = .ok entries) :
    s.offered = entries.map SendEntry.path ∧
      ∀ e ∈ entries, ∃ bytes, s.content e.path = some bytes ∧ Describes ck bytes e := by
  rw [buildEntries] at h
  generalize s.offered = offered at h
  induction offered generalizing entries with
  | nil =>
      cases h
      exact ⟨rfl, fun e he => absurd he (List.not_mem_nil)⟩
  | cons rel offered ih =>
      rw [List.mapM_cons] at h
      cases hone : entryFor ck s rel with
      | error e =>
          rw [hone] at h
          cases h
      | ok e =>
          cases hrest : offered.mapM (entryFor ck s) with
          | error e =>
              rw [hone, hrest] at h
              cases h
          | ok es =>
              rw [hone, hrest] at h
              cases h
              obtain ⟨hpaths, hdesc⟩ := ih hrest
              obtain ⟨hpath, bytes, hbytes, he⟩ := entryFor_ok hone
              refine ⟨by rw [List.map_cons, hpath, hpaths], fun e' he' => ?_⟩
              rcases List.mem_cons.mp he' with rfl | he'
              · exact ⟨bytes, by rw [hpath, hbytes], he⟩
              · exact hdesc e' he'

/-! ## The whole receive -/

theorem finish_ok {io : RecvIo} {entries : List (SendEntry Path)} {dest : Map Path Bytes}
    {parts : List Bytes} {frames : List (SendMsg Path)} {out : RecvOutcome Path}
    (h : finish io entries dest parts frames = .ok out) :
    publish io.part 0 (entries.zip parts) dest = .ok out.dest := by
  rw [finish.eq_def] at h
  split at h
  · split at h
    · cases h
    · rename_i dest' hpublish
      split at h
      · cases h
      · cases h
        exact hpublish
  · cases h
  · cases h
  · cases h

/-- An `Ok` comes from a stream that completed every entry, and from a publication of what
it left. -/
theorem receive_ok {sanitize : Path → Bool} {io : RecvIo} {staging : Nat → Option Bytes}
    {dest : Map Path Bytes} {talk : Conversation Path} {entries : List (SendEntry Path)}
    {out : RecvOutcome Path} (hoffer : talk.offer = some (.manifest entries))
    (h : receive ck sanitize io staging dest talk = .ok out) :
    ∃ parts frames,
      recvEntries ck io.part 0 (entries.zip (plan ck io.part staging entries))
        (talk.stream ((plan ck io.part staging entries).map Prod.fst)) = .ok (parts, frames) ∧
      publish io.part 0 (entries.zip parts) dest = .ok out.dest := by
  rw [receive, hoffer] at h
  dsimp only at h
  split at h
  · cases h
  · split at h
    · cases h
    · split at h
      · cases h
      · split at h
        · cases h
        · rename_i parts frames hrecv
          exact ⟨parts, frames, hrecv, finish_ok h⟩

/-- What a faithful transfer is: every offered file is at the destination with the sender's
bytes, and for every file the staged chunks and the requested ones are its chunk list. -/
structure Faithful (ck : Chunker) (s : Sender Path) (entries : List (SendEntry Path))
    (planned : List (Nat × Option Bytes)) (out : RecvOutcome Path) : Prop where
  files : ∀ p ∈ s.offered, (s.content p).isSome = true ∧ out.dest[p]? = s.content p
  covers : ∀ (i : Nat) (e : SendEntry Path) resumed bytes, entries[i]? = some e → planned[i]? = some resumed →
    s.content e.path = some bytes → Covers ck bytes resumed

/-- **A receive that returned `Ok` is faithful exactly when every part file was cleanly
staged**: absent, or opened and trimmed, or nothing but leading chunks that could be read. -/
theorem receive_faithful_iff (hck : ck.Sound) {s : Sender Path} {entries : List (SendEntry Path)}
    (hbuild : buildEntries ck s = .ok entries) {sanitize : Path → Bool} {io : RecvIo}
    {staging : Nat → Option Bytes} {dest : Map Path Bytes} {n : Nat} {out : RecvOutcome Path}
    (h : receive ck sanitize io staging dest (conversation ck s entries n) = .ok out) :
    Faithful ck s entries (plan ck io.part staging entries) out ↔
      ∀ i p bytes, s.offered[i]? = some p → s.content p = some bytes →
        CleanlyStaged ck bytes (staging i) (io.part i) := by
  obtain ⟨hpaths, hdesc⟩ := buildEntries_ok hbuild
  have hoffer : (conversation ck s entries n).offer = some (.manifest entries) := by
    by_cases hn : n = 0
    · rw [receive, conversation, if_pos hn] at h
      cases h
    · rw [conversation, if_neg hn]
  have hoffered : ∀ (i : Nat) e, entries[i]? = some e → s.offered[i]? = some e.path := by
    intro i e hi
    rw [hpaths, List.getElem?_map, hi]
    rfl
  have hplan : ∀ (i : Nat) e, entries[i]? = some e → (plan ck io.part staging entries)[i]?
      = some (verifiedPrefix ck (io.part i) (staging i) e) := by
    intro i e hi
    rw [plan, List.getElem?_mapIdx, hi]
    rfl
  constructor
  · -- each part is read off the coverage of its entry
    intro hfaith i p bytes hi hbytes
    rw [hpaths, List.getElem?_map, Option.map_eq_some_iff] at hi
    obtain ⟨e, he, rfl⟩ := hi
    obtain ⟨bytes', hbytes', hd⟩ := hdesc e (List.mem_of_getElem? he)
    obtain rfl : bytes' = bytes := Option.some_injective _ (hbytes'.symm.trans hbytes)
    exact (covers_iff hck hd _ _).mp (hfaith.covers i e _ bytes' he (hplan i e he) hbytes)
  · intro hclean
    have hcovers : ∀ (i : Nat) e, entries[i]? = some e → ∃ bytes, s.content e.path = some bytes ∧
        Describes ck bytes e ∧
        Covers ck bytes (verifiedPrefix ck (io.part i) (staging i) e) := by
      intro i e he
      obtain ⟨bytes, hbytes, hd⟩ := hdesc e (List.mem_of_getElem? he)
      exact ⟨bytes, hbytes, hd,
        (covers_iff hck hd _ _).mpr (hclean i e.path bytes (hoffered i e he) hbytes)⟩
    obtain ⟨parts, frames, hrecv, hpublish⟩ := receive_ok hoffer h
    have hparts := recvEntries_parts hck s.content hrecv hcovers
    constructor
    · intro p hp
      rw [hpaths, List.mem_map] at hp
      obtain ⟨e, he, rfl⟩ := hp
      obtain ⟨bytes, hbytes, -⟩ := hdesc e he
      refine ⟨by rw [hbytes]; rfl, ?_⟩
      apply publish_dest s.content io.part _ 0 hpublish
      · intro x hx
        obtain ⟨i, hi⟩ := List.mem_iff_getElem?.mp hx
        obtain ⟨hxe, hxp⟩ := List.getElem?_zip_eq_some.mp hi
        have hith := congrArg (fun l => l[i]?) hparts
        simpa [hxe, hxp] using hith
      · right
        have hlen := congrArg List.length hparts
        rw [List.length_map, List.length_map] at hlen
        have hfst : (entries.zip parts).map Prod.fst = entries := List.map_fst_zip hlen.le
        rw [← hfst, List.mem_map] at he
        obtain ⟨x, hx, rfl⟩ := he
        exact ⟨x, hx, rfl⟩
    · intro i e resumed bytes he hr hbytes
      rw [hplan i e he] at hr
      cases hr
      obtain ⟨bytes', hbytes', -, hcov⟩ := hcovers i e he
      obtain rfl : bytes' = bytes := Option.some_injective _ (hbytes'.symm.trans hbytes)
      exact hcov

/-! ## A torn part file

The chunker of the example cuts at `CDC_MAX`; on files below the least chunk size it makes
one chunk, as the real one does. A first attempt left two bytes of the file's only chunk. -/

/-- An injective stand-in for the hash. -/
def byteCode : Bytes → Nat
  | [] => 0
  | b :: bs => b.toNat + 1 + 257 * byteCode bs

theorem byteCode_injective : Function.Injective byteCode := by
  intro x
  induction x with
  | nil =>
      intro y h
      cases y with
      | nil =>
          rfl
      | cons b bs =>
          simp only [byteCode] at h
          omega
  | cons a as ih =>
      intro y h
      cases y with
      | nil =>
          simp only [byteCode] at h
          omega
      | cons b bs =>
          simp only [byteCode] at h
          have ha : a.toNat < 256 := a.toNat_lt
          have hb : b.toNat < 256 := b.toNat_lt
          have hab : a.toNat = b.toNat := by omega
          have htail : as = bs := ih (by omega)
          rw [htail, UInt8.toNat_inj.mp hab]

def slabs : Nat → Bytes → List Bytes
  | 0, _ => []
  | fuel + 1, bytes =>
      if bytes = [] then [] else bytes.take cdcMax :: slabs fuel (bytes.drop cdcMax)

theorem flatten_slabs (fuel : Nat) (bytes : Bytes) (h : bytes.length ≤ fuel) :
    (slabs fuel bytes).flatten = bytes := by
  induction fuel generalizing bytes with
  | zero =>
      rw [List.length_eq_zero_iff.mp (Nat.le_zero.mp h)]
      rfl
  | succ fuel ih =>
      rw [slabs]
      by_cases hnil : bytes = []
      · rw [if_pos hnil, hnil]
        rfl
      · have hpos : 0 < bytes.length := List.length_pos_iff.mpr hnil
        have hdrop : (bytes.drop cdcMax).length ≤ fuel := by
          rw [List.length_drop, cdcMax]
          omega
        rw [if_neg hnil, List.flatten_cons, ih _ hdrop, List.take_append_drop]

theorem length_slabs_le (fuel : Nat) (bytes : Bytes) :
    ∀ c ∈ slabs fuel bytes, c.length ≤ cdcMax := by
  induction fuel generalizing bytes with
  | zero =>
      intro c hc
      cases hc
  | succ fuel ih =>
      intro c hc
      rw [slabs] at hc
      split at hc
      · cases hc
      · rcases List.mem_cons.mp hc with rfl | hc
        · exact List.length_take_le _ _
        · exact ih _ c hc

def slabCutter : Chunker := { hash := byteCode, cut := fun bytes => slabs bytes.length bytes }

theorem slabCutter_sound : slabCutter.Sound where
  flatten_cut := fun bytes => flatten_slabs _ bytes le_rfl
  length_le := fun bytes => length_slabs_le _ bytes
  hash_injective := byteCode_injective

def smallSender : Sender Nat :=
  { source := .file 0
    content := fun p => if p = 0 then some [1, 2, 3] else none
    sanitize := fun _ => true
    isSync := fun _ => true }

def smallEntry : SendEntry Nat :=
  { path := 0, size := 3, chunks := [{ hash := byteCode [1, 2, 3], len := 3 }] }

/-- The disk obeys, up to the trim. -/
def smallIo (trims : Bool) : RecvIo :=
  { part := fun _ =>
      { opens := true, reads := fun _ => true, trims, appends := true, writes := fun _ => true
        flushes := true, publishes := true }
    creates := true
    starts := true
    confirms := true }

def tornStaging : Nat → Option Bytes := fun i => if i = 0 then some [1, 2] else none

/-- The trim succeeds: the torn bytes go, and the file arrives whole. -/
theorem receive_faithful_torn :
    ∃ out, receive slabCutter (fun _ => true) (smallIo true) tornStaging ∅
        (conversation slabCutter smallSender [smallEntry] 4) = .ok out ∧
      Faithful slabCutter smallSender [smallEntry]
        (plan slabCutter (smallIo true).part tornStaging [smallEntry]) out := by
  cases h : receive slabCutter (fun _ => true) (smallIo true) tornStaging ∅
      (conversation slabCutter smallSender [smallEntry] 4) with
  | error e =>
      have hok : (receive slabCutter (fun _ => true) (smallIo true) tornStaging ∅
          (conversation slabCutter smallSender [smallEntry] 4)).isOk = true := by decide +kernel
      rw [h] at hok
      cases hok
  | ok out =>
      refine ⟨out, rfl, (receive_faithful_iff slabCutter_sound (by decide +kernel) h).mpr ?_⟩
      intro i p bytes _ _ staged _
      exact .inl ⟨rfl, rfl⟩

/-- The trim fails: the whole chunk is appended to the torn bytes, and the receiver publishes
the result as `Ok`. -/
theorem receive_untrimmed_corrupt :
    buildEntries slabCutter smallSender = .ok [smallEntry] ∧
      smallSender.offered = [0] ∧ smallSender.content 0 = some [1, 2, 3] ∧
      ∃ out, receive slabCutter (fun _ => true) (smallIo false) tornStaging ∅
          (conversation slabCutter smallSender [smallEntry] 4) = .ok out ∧
        out.dest[(0 : Nat)]? = some [1, 2, 1, 2, 3] := by
  refine ⟨by decide +kernel, rfl, rfl, ?_⟩
  have hdest : ((receive slabCutter (fun _ => true) (smallIo false) tornStaging ∅
      (conversation slabCutter smallSender [smallEntry] 4)).toOption.bind
        (fun out => (out.dest[(0 : Nat)]? : Option Bytes))) = some [1, 2, 1, 2, 3] := by
    decide +kernel
  cases h : receive slabCutter (fun _ => true) (smallIo false) tornStaging ∅
      (conversation slabCutter smallSender [smallEntry] 4) with
  | error e =>
      rw [h] at hdest
      cases hdest
  | ok out =>
      rw [h] at hdest
      exact ⟨out, rfl, hdest⟩

end Tazamun.Oneshot
