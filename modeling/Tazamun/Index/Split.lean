import Tazamun.Daemon.Peers

set_option autoImplicit false

/-! # Splitting an index into frames

`split_index_parts` (`proto.rs`) turns an index into frames of at most `MAX_FRAME` bytes. An
index that fits goes out whole. Otherwise its entries are packed greedily into batches, one
batch per part, and the leases go with the last part or into one more part of their own.

The splitter never looks at the length of a part before it is built: it adds up the lengths of
the entries, with two bytes of slack for each and 256 for the rest. That the slack covers the
envelope of a part is arithmetic on the postcard format (`Host.Postcard`): the envelope is at
most 18 bytes and the varint of the number of entries, and that varint grows slower than the
slack does. An entry is left out only if it fits no frame by that count, whatever is around
it (`batches_flatten`).

The result is the same in all cases, a numbered stream of batches (`partStream`), and what is
sent and received is proved of that (`splitIndexParts_eq`).
-/

namespace Tazamun

variable {Id Path : Type} [LinearOrder Id] [LinearOrder Path]

/-! ## Encoded lengths -/

/-- The bytes of a varint: seven bits go into each. -/
def varintLen (n : Nat) : Nat := Nat.log 128 n + 1

theorem varintLen_le {n k : Nat} (hk : k ≠ 0) (h : n < 128 ^ k) : varintLen n ≤ k :=
  Nat.log_lt_of_lt_pow' hk h

theorem varintLen_le_succ (n : Nat) : varintLen n ≤ n + 1 := by
  have hlog : Nat.log 128 n ≤ n := Nat.log_le_self 128 n
  unfold varintLen
  omega

theorem varintLen_u32 (n : Nat) : varintLen (n % 2 ^ 32) ≤ 5 := by
  have hlt : n % 2 ^ 32 < 2 ^ 32 := Nat.mod_lt _ (by norm_num)
  exact varintLen_le (by norm_num) (by omega)

theorem varintLen_u64 (n : U64) : varintLen n.val ≤ 10 := by
  have hlt := n.isLt
  exact varintLen_le (by norm_num) (by omega)

/-- The bytes of a sequence: its length, then its elements. -/
def seqLen {α : Type} (len : α → Nat) (l : List α) : Nat :=
  varintLen l.length + (l.map len).sum

@[simp] theorem seqLen_nil {α : Type} (len : α → Nat) : seqLen len [] = 1 := by
  simp [seqLen, varintLen]

/-- The postcard format of the two index messages: a message takes the bytes of its tag and of
its fields, and `seq` is 32 bits wide. -/
structure Host.Postcard (h : Host Id Path) (leaseLen : LeaseInfo Id Path → Nat) : Prop where
  index : ∀ lamport files leases, h.encodedLen (.index lamport files leases) =
    1 + varintLen lamport.val + seqLen h.entryLen files + seqLen leaseLen leases
  part : ∀ seq last lamport files leases, h.encodedLen (.indexPart seq last lamport files leases) =
    1 + varintLen (seq % 2 ^ 32) + 1 + varintLen lamport.val + seqLen h.entryLen files +
      seqLen leaseLen leases

/-! ## Batches -/

section Batches

variable (h : Host Id Path)

/-- The entry fits a frame of its own, by the count of the splitter. -/
def fits (e : Path × FileRecord Id) : Bool := decide (h.entryLen e + 258 ≤ maxFrame)

/-- What the splitter counts for a part with these entries. -/
def batchLen (b : List (Path × FileRecord Id)) : Nat :=
  256 + (b.map fun e => h.entryLen e + 2).sum

omit [LinearOrder Path] in
theorem batchLen_append (b : List (Path × FileRecord Id)) (e : Path × FileRecord Id) :
    batchLen h (b ++ [e]) = batchLen h b + (h.entryLen e + 2) := by
  unfold batchLen
  rw [List.map_append, List.sum_append]
  simp only [List.map_cons, List.map_nil, List.sum_cons, List.sum_nil]
  omega

omit [LinearOrder Path] in
/-- The batches have all entries that fit a frame, in their order. -/
theorem batches_flatten (es cur : List (Path × FileRecord Id)) {bytes : Nat}
    (hb : 256 ≤ bytes) :
    (batches h es cur bytes).flatten = cur ++ es.filter (fits h) := by
  induction es generalizing cur bytes with
  | nil =>
      unfold batches
      split
      · rename_i hempty
        rw [List.isEmpty_iff.mp hempty]
        rfl
      · simp
  | cons e es ih =>
      unfold batches
      dsimp only
      split
      · -- the open batch is full: `e` opens the next one, or fits none
        split
        · rename_i hbig
          have hno : fits h e = false := by
            rw [fits, decide_eq_false_iff_not]
            omega
          rw [List.flatten_cons, ih [] (Nat.le_refl 256), List.filter_cons_of_neg (by simp [hno])]
          rfl
        · rename_i hsmall
          have hyes : fits h e = true := decide_eq_true (by omega)
          rw [List.flatten_cons, ih [e] (by omega), List.filter_cons_of_pos hyes]
          rfl
      · rename_i hroom
        split
        · rename_i hbig
          obtain ⟨hempty, hbig⟩ := Bool.and_eq_true_iff.mp hbig
          have hlen := of_decide_eq_true hbig
          have hno : fits h e = false := by
            rw [fits, decide_eq_false_iff_not]
            omega
          rw [ih cur hb, List.filter_cons_of_neg (by simp [hno])]
        · rename_i hfit
          -- in an open batch `e` stays within the budget, in a fresh one it was checked
          have hyes : fits h e = true := by
            refine decide_eq_true ?_
            cases hcur : cur.isEmpty with
            | true =>
                simp only [hcur, Bool.true_and, decide_eq_true_eq] at hfit
                omega
            | false =>
                simp only [hcur, Bool.not_false, Bool.true_and, decide_eq_true_eq] at hroom
                have hle : indexPartBudget ≤ maxFrame := Nat.sub_le _ _
                omega
          rw [ih _ (by omega), List.filter_cons_of_pos hyes, List.append_assoc]
          rfl

omit [LinearOrder Path] in
/-- No batch is empty, and each one stays within a frame. -/
theorem batches_bounded (es cur : List (Path × FileRecord Id)) (hcur : batchLen h cur ≤ maxFrame) :
    ∀ b ∈ batches h es cur (batchLen h cur), b ≠ [] ∧ batchLen h b ≤ maxFrame := by
  have hseed : batchLen h [] = 256 := rfl
  induction es generalizing cur with
  | nil =>
      intro b hb
      unfold batches at hb
      split at hb
      · cases hb
      · rename_i hne
        rw [List.mem_singleton.mp hb]
        exact ⟨fun hnil => hne (by rw [hnil]; rfl), hcur⟩
  | cons e es ih =>
      have hone : batchLen h [e] = 256 + (h.entryLen e + 2) := by
        rw [← hseed, ← batchLen_append h [] e]
        rfl
      intro b hb
      unfold batches at hb
      dsimp only at hb
      split at hb
      · rename_i hfull
        have hne : cur ≠ [] := by
          rintro rfl
          simp at hfull
        split at hb
        · rcases List.mem_cons.mp hb with rfl | hb
          · exact ⟨hne, hcur⟩
          · exact ih [] (by rw [hseed]; decide) b hb
        · rename_i hsmall
          rcases List.mem_cons.mp hb with rfl | hb
          · exact ⟨hne, hcur⟩
          · rw [← hone] at hb
            exact ih [e] (by omega) b hb
      · rename_i hroom
        split at hb
        · exact ih cur hcur b hb
        · rename_i hfit
          rw [← batchLen_append] at hb
          refine ih (cur ++ [e]) ?_ b hb
          rw [batchLen_append]
          cases hempty : cur.isEmpty with
          | true =>
              rw [List.isEmpty_iff.mp hempty] at hfit ⊢
              simp only [List.isEmpty_nil, Bool.true_and, decide_eq_true_eq] at hfit
              omega
          | false =>
              simp only [hempty, Bool.not_false, Bool.true_and, decide_eq_true_eq] at hroom
              have hle : indexPartBudget ≤ maxFrame := Nat.sub_le _ _
              omega

end Batches

/-! ## The stream of parts -/

section Stream

variable (h : Host Id Path)

/-- One part per batch, numbered from `k` on; the last one says so and has the leases. -/
def partStream (lamport : U64) (leases : List (LeaseInfo Id Path)) (k : Nat)
    (bs : List (List (Path × FileRecord Id))) : List (Msg Id Path) :=
  bs.mapIdx fun i b =>
    .indexPart (k + i) (decide (i + 1 = bs.length)) lamport b
      (if i + 1 = bs.length then leases else [])

omit [LinearOrder Path] in
theorem partStream_cons (lamport : U64) (leases : List (LeaseInfo Id Path)) (k : Nat)
    (b : List (Path × FileRecord Id)) (bs : List (List (Path × FileRecord Id))) :
    partStream lamport leases k (b :: bs) =
      .indexPart k (decide (bs = [])) lamport b (if bs = [] then leases else []) ::
        partStream lamport leases (k + 1) bs := by
  have hlast : (0 + 1 = (b :: bs).length) ↔ bs = [] := by
    rw [List.length_cons, ← List.length_eq_zero_iff]
    omega
  unfold partStream
  rw [List.mapIdx_cons]
  simp only [hlast, Nat.add_zero]
  congr 1
  refine List.mapIdx_eq_mapIdx_iff.mpr fun i hi => ?_
  have hshift : k + (i + 1) = k + 1 + i := by omega
  have hend : (i + 1 + 1 = (b :: bs).length) ↔ i + 1 = bs.length := by
    rw [List.length_cons]
    omega
  simp only [hshift, hend]

omit [LinearOrder Path] in
/-- Only the last part has leases, and only it is marked. -/
theorem partStream_concat (lamport : U64) (leases : List (LeaseInfo Id Path))
    (bs : List (List (Path × FileRecord Id))) (b : List (Path × FileRecord Id)) :
    partStream lamport leases 0 (bs ++ [b]) =
      (bs.mapIdx fun i b => .indexPart i false lamport b []) ++
        [.indexPart bs.length true lamport b leases] := by
  unfold partStream
  rw [List.mapIdx_concat]
  congr 1
  · refine List.mapIdx_eq_mapIdx_iff.mpr fun i hi => ?_
    have hend : ¬ (i + 1 = (bs ++ [b]).length) := by
      rw [List.length_append, List.length_singleton]
      omega
    simp only [Nat.zero_add, if_neg hend, decide_eq_false hend]
  · simp

variable {h} {leaseLen : LeaseInfo Id Path → Nat}

omit [LinearOrder Path] in
/-- The slack of the splitter covers the envelope of a part. -/
theorem encodedLen_part_le (hp : h.Postcard leaseLen) (seq : Nat) (last : Bool) (lamport : U64)
    (b : List (Path × FileRecord Id)) :
    h.encodedLen (.indexPart seq last lamport b []) ≤ batchLen h b := by
  have hseq := varintLen_u32 seq
  have hlamport := varintLen_u64 lamport
  have hcount := varintLen_le_succ b.length
  have hsum : (b.map fun e => h.entryLen e + 2).sum = (b.map h.entryLen).sum + b.length * 2 := by
    rw [List.sum_map_add, List.map_const', List.sum_replicate, smul_eq_mul]
  rw [hp.part, seqLen_nil, seqLen, batchLen, hsum]
  omega

omit [LinearOrder Path] in
/-- Leases are dropped until the part fits or none is left. -/
theorem leasesOnlyPart_eq (seq : Nat) (lamport : U64) (fuel : Nat)
    (leases : List (LeaseInfo Id Path)) (hfuel : leases.length ≤ fuel) :
    ∃ kept, kept <+: leases ∧
      leasesOnlyPart h seq lamport fuel leases = .indexPart seq true lamport [] kept ∧
      (kept = [] ∨ h.encodedLen (.indexPart seq true lamport [] kept) ≤ maxFrame) := by
  induction fuel generalizing leases with
  | zero =>
      have hnil : leases = [] := List.length_eq_zero_iff.mp (by omega)
      subst hnil
      exact ⟨[], List.prefix_rfl, rfl, .inl rfl⟩
  | succ fuel ih =>
      unfold leasesOnlyPart
      dsimp only
      split
      · rename_i hdone
        refine ⟨leases, List.prefix_rfl, rfl, ?_⟩
        rcases Bool.or_eq_true_iff.mp hdone with hnil | hfits
        · exact .inl (List.isEmpty_iff.mp hnil)
        · exact .inr (of_decide_eq_true hfits)
      · rename_i hmore
        -- a round drops a tenth, and at least one
        have hpos : leases.length ≠ 0 := by
          intro hzero
          rw [List.length_eq_zero_iff.mp hzero] at hmore
          exact hmore rfl
        have hless : (leases.take (leases.length - max (leases.length / 10) 1)).length ≤ fuel := by
          rw [List.length_take]
          omega
        obtain ⟨kept, hpre, heq, hlen⟩ := ih _ hless
        exact ⟨kept, hpre.trans (List.take_prefix _ _), heq, hlen⟩

/-- The frame was measured, or it is a part without leases that the splitter counted. -/
def Measured (h : Host Id Path) (lamport : U64) (m : Msg Id Path) : Prop :=
  h.encodedLen m ≤ maxFrame ∨
    ∃ seq last b, m = .indexPart seq last lamport b [] ∧ batchLen h b ≤ maxFrame

omit [LinearOrder Path] in
theorem Measured.encodedLen_le (hp : h.Postcard leaseLen) {lamport : U64} {m : Msg Id Path}
    (hm : Measured h lamport m) : h.encodedLen m ≤ maxFrame := by
  rcases hm with hlen | ⟨seq, last, b, rfl, hcount⟩
  · exact hlen
  · exact (encodedLen_part_le hp seq last lamport b).trans hcount

/-- **What the splitter returns** when the index does not fit a frame: a stream of parts with
all the entries that fit one and a prefix of the leases. -/
theorem splitIndexParts_eq (lamport : U64) (files : Map Path (FileRecord Id))
    (leases : List (LeaseInfo Id Path))
    (hbig : ¬ h.encodedLen (.index lamport files.toList leases) ≤ maxFrame) :
    ∃ bs kept, splitIndexParts h lamport files leases = partStream lamport kept 0 bs ∧
      bs.flatten = files.toList.filter (fits h) ∧ kept <+: leases ∧ bs ≠ [] ∧
      ∀ m ∈ splitIndexParts h lamport files leases, Measured h lamport m := by
  have hflat := batches_flatten h files.toList [] (Nat.le_refl 256)
  have hseed : batchLen h [] = 256 := rfl
  have hempty : batchLen h [] ≤ maxFrame := by
    rw [hseed]
    decide
  have hbound := batches_bounded h files.toList [] hempty
  rw [hseed] at hbound
  have hlast : ∀ seq kept, kept = [] ∨ h.encodedLen (.indexPart seq true lamport [] kept) ≤ maxFrame →
      Measured h lamport (.indexPart seq true lamport [] kept) := by
    rintro seq kept (rfl | hlen)
    · exact .inr ⟨seq, true, [], rfl, hempty⟩
    · exact .inl hlen
  unfold splitIndexParts
  rw [if_neg hbig]
  rcases List.eq_nil_or_concat (batches h files.toList [] 256) with hnil | ⟨init, b, hcat⟩
  · obtain ⟨kept, hpre, heq, hlen⟩ :=
      @leasesOnlyPart_eq _ _ _ h 0 lamport leases.length leases (Nat.le_refl _)
    rw [hnil] at hflat
    simp only [hnil, List.getLast?_nil, heq]
    refine ⟨[[]], kept, rfl, ?_, hpre, by simp, ?_⟩
    · simpa using hflat
    · intro m hm
      rw [List.mem_singleton.mp hm]
      exact hlast 0 kept hlen
  · rw [List.concat_eq_append] at hcat
    rw [hcat] at hflat hbound
    simp only [hcat, List.getLast?_concat, List.dropLast_concat, List.length_mapIdx]
    have hinit : ∀ m ∈ init.mapIdx (fun i b => (.indexPart i false lamport b [] : Msg Id Path)),
        Measured h lamport m := by
      intro m hm
      obtain ⟨i, hi, rfl⟩ := List.mem_mapIdx.mp hm
      exact .inr ⟨_, _, _, rfl, (hbound _ (List.mem_append_left _ (List.getElem_mem hi))).2⟩
    split
    · rename_i hfits
      refine ⟨init ++ [b], leases, (partStream_concat lamport leases init b).symm, ?_,
        List.prefix_rfl, by simp, ?_⟩
      · simpa using hflat
      · intro m hm
        rcases List.mem_append.mp hm with hm | hm
        · exact hinit m hm
        · rw [List.mem_singleton.mp hm]
          exact .inl hfits
    · -- the leases go into a part of their own
      obtain ⟨kept, hpre, heq, hlen⟩ :=
        @leasesOnlyPart_eq _ _ _ h (init.length + 1) lamport leases.length leases (Nat.le_refl _)
      rw [heq]
      refine ⟨init ++ [b] ++ [[]], kept, ?_, ?_, hpre, by simp, ?_⟩
      · rw [partStream_concat, List.mapIdx_concat, List.length_append, List.length_singleton,
          List.append_assoc]
        rfl
      · rw [List.flatten_append]
        simpa using hflat
      · intro m hm
        rcases List.mem_append.mp hm with hm | hm
        · exact hinit m hm
        · rcases List.mem_pair.mp hm with rfl | rfl
          · exact .inr ⟨_, _, b, rfl, (hbound b (by simp)).2⟩
          · exact hlast _ kept hlen

end Stream

end Tazamun
