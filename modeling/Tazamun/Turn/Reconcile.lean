import Tazamun.Turn.Pull

set_option autoImplicit false

/-! # Applying and reconciling are made of small changes

The second half of the pull pipeline: what happens to a record that has arrived, and to the
records of a peer's index. The functions of the cycle through the ignore file need of the
re-reading `rebuild` that it is a chain of small changes itself (`hre`); at the end the knot
is tied.
-/

namespace Tazamun.Actor

variable {Id Path : Type} [LinearOrder Id] [LinearOrder Path]
variable {c : Ctx Id Path} {hand : List (Advert Id Path)}

/-! ## What file operations leave alone -/

/-- The index and the leases are as they were. -/
structure KeepsIndex (a b : Actor Id Path) : Prop where
  files : b.files = a.files
  locks : b.locks = a.locks

namespace KeepsIndex

variable {a b d : Actor Id Path}

theorem refl : KeepsIndex a a := ⟨rfl, rfl⟩

theorem trans (h : KeepsIndex a b) (h' : KeepsIndex b d) : KeepsIndex a d :=
  ⟨h'.files.trans h.files, h'.locks.trans h.locks⟩

theorem isCurrent (h : KeepsIndex a b) (rel : Path) (record : FileRecord Id) :
    b.isCurrent rel record = a.isCurrent rel record := by
  unfold Actor.isCurrent
  rw [h.files]

end KeepsIndex

theorem loseCopy_keeps (a : Actor Id Path) (name : CopyName Path) :
    KeepsIndex a (a.loseCopy name) := by
  unfold loseCopy
  split
  · exact .refl
  · exact ⟨rfl, rfl⟩

theorem quarantine_keeps (a : Actor Id Path) (env : Env Path) (rel : Path) :
    KeepsIndex a (a.quarantine env rel).1 := by
  unfold quarantine
  split
  · exact .refl
  · split
    · exact (loseCopy_keeps a _).trans ⟨rfl, rfl⟩
    · exact .refl

theorem noteMode_keeps (a : Actor Id Path) (rel : Path) (readonly : Bool) :
    KeepsIndex a (a.noteMode rel readonly) := by
  unfold noteMode
  split
  · exact ⟨rfl, rfl⟩
  · exact .refl

theorem setMode_keeps (a : Actor Id Path) (env : Env Path) (rel : Path) (readonly : Bool) :
    KeepsIndex a (a.setMode env rel readonly).1 := by
  unfold setMode
  split
  · exact noteMode_keeps a rel readonly
  · rename_i f _
    split
    · have hdisk : KeepsIndex a { a with disk := a.disk.insert rel { f with readonly } } :=
        ⟨rfl, rfl⟩
      exact hdisk.trans (noteMode_keeps _ rel readonly)
    · exact .refl

theorem noteReplaced_keeps (h : Host Id Path) (a : Actor Id Path) (rel : Path) :
    KeepsIndex a (a.noteReplaced h rel) := by
  unfold noteReplaced
  split
  · exact .refl
  · exact ⟨rfl, rfl⟩

theorem persistTemp_keeps (h : Host Id Path) (env : Env Path) (a : Actor Id Path) (rel : Path)
    (bytes : Bytes) : KeepsIndex a (a.persistTemp h env rel bytes).1 := by
  unfold persistTemp
  split
  · dsimp only
    split
    · exact ((setMode_keeps a env rel false).trans (noteReplaced_keeps h _ rel)).trans ⟨rfl, rfl⟩
    · exact setMode_keeps a env rel false
  · exact .refl

theorem removeFile_keeps (h : Host Id Path) (env : Env Path) (a : Actor Id Path) (rel : Path) :
    KeepsIndex a (a.removeFile h env rel).1 := by
  unfold removeFile
  dsimp only
  split
  · exact setMode_keeps a env rel false
  · split
    · exact ((setMode_keeps a env rel false).trans (noteReplaced_keeps h _ rel)).trans ⟨rfl, rfl⟩
    · exact setMode_keeps a env rel false

theorem pushHistory_keeps (a : Actor Id Path) (rel : Path) (r : Option (FileRecord Id)) :
    KeepsIndex a (a.pushHistory rel r) := by
  unfold pushHistory
  split
  · exact .refl
  · exact ⟨rfl, rfl⟩

/-! ## Applying a record -/

theorem applyToDisk_steps (a : Actor Id Path) (rel : Path) (record : FileRecord Id)
    (staged : Option Bytes) :
    Steps c (hand, a) (hand, (a.applyToDisk c.host c.env rel record staged).1) := by
  unfold applyToDisk
  split
  · exact removeFile_steps a rel
  · split
    · exact .refl
    · rename_i bytes
      have hp := @persistTemp_steps _ _ _ _ c hand a rel bytes
      split
      · rename_i b hb
        rw [hb] at hp
        exact hp
      · rename_i b hb
        rw [hb] at hp
        split
        · exact hp.trans (setMode_steps b rel true)
        · exact hp

theorem applyToDisk_keeps (h : Host Id Path) (env : Env Path) (a : Actor Id Path) (rel : Path)
    (record : FileRecord Id) (staged : Option Bytes) :
    KeepsIndex a (a.applyToDisk h env rel record staged).1 := by
  unfold applyToDisk
  split
  · exact removeFile_keeps h env a rel
  · split
    · exact .refl
    · rename_i bytes
      have hp := persistTemp_keeps h env a rel bytes
      split
      · rename_i b hb
        rw [hb] at hp
        exact hp
      · rename_i b hb
        rw [hb] at hp
        split
        · exact hp.trans (setMode_keeps b env rel true)
        · exact hp

theorem prepareApply_steps (a : Actor Id Path) (rel : Path) :
    Steps c (hand, a) (hand, a.prepareApply c.env rel) := by
  unfold prepareApply
  refine .trans ?_ ((mute_steps _ rel).trans (pushHistory_steps _ rel _))
  split
  · exact quarantine_steps a rel
  · exact .refl

theorem prepareApply_keeps (env : Env Path) (a : Actor Id Path) (rel : Path) :
    KeepsIndex a (a.prepareApply env rel) := by
  unfold prepareApply
  have hmute : ∀ b : Actor Id Path, KeepsIndex b (b.mute env rel) := fun b => ⟨rfl, rfl⟩
  refine .trans ?_ ((hmute _).trans (pushHistory_keeps _ rel _))
  split
  · exact quarantine_keeps a env rel
  · exact .refl

/-- An applied record is covered by the index. -/
theorem commitApplied_excused (a : Actor Id Path) (rel : Path) (sender : Id)
    (record : FileRecord Id) (staged : Option Bytes) :
    (a.commitApplied rel record staged).Excused (rel, sender, record) := by
  refine .inl ⟨_, Map.get_insert_self _ _ _, ?_⟩
  dsimp only
  split
  · exact VClock.le_merge_right _ _
  · exact VClock.Le.refl _

/-- The record waits until the path is free. -/
theorem defer_steps {a : Actor Id Path} {rel : Path} {sender : Id} {record : FileRecord Id}
    {staged : Option Bytes} (hlease : c.quietWins → a.locks.isHeldByMe rel = false)
    (hcontent : ∀ bytes, staged = some bytes → c.Backs record.manifest bytes) :
    Steps c ((rel, sender, record) :: hand, a)
      (hand, let b := a.displace rel (a.deferred[rel]?.map fun d => (d.sender, d.record)) record
        { b with deferred := b.deferred.insert rel ⟨sender, record, staged⟩ }) := by
  refine (displace_steps a rel (a.deferred[rel]?.map fun d => (d.sender, d.record))
    record).trans ?_
  have hout : ∀ d, a.deferred[rel]? = some d → VClock.Le d.record.vv record.vv ∨
      (a.displace rel (a.deferred[rel]?.map fun d => (d.sender, d.record)) record).Excused
        (rel, d.sender, d.record) := by
    intro d hd
    rw [hd]
    exact displace_excused a rel d.sender d.record record
  dsimp only
  generalize hb : a.displace rel (a.deferred[rel]?.map fun d => (d.sender, d.record)) record = b
    at hout ⊢
  have hdef : b.deferred = a.deferred := by rw [← hb]; rfl
  have hlocks : b.locks = a.locks := by rw [← hb]; rfl
  refine shift_of_waits ?_ ?_ ?_ ?_ id
  · rintro x (hx | hx | hx | ⟨d, hd, hx⟩ | hx)
    · exact .inl (List.mem_cons_of_mem _ hx)
    · exact .inr (.inl hx)
    · exact .inr (.inr (.inl hx))
    · rw [Map.get_insert] at hd
      split at hd
      · rename_i hrel
        cases hd
        exact .inl (List.mem_cons.mpr (.inl (Prod.ext hrel.symm hx.symm)))
      · exact .inr (.inr (.inr (.inl ⟨d, hd, hx⟩)))
    · exact .inr (.inr (.inr (.inr hx)))
  · have hnew : ({ b with deferred := b.deferred.insert rel ⟨sender, record, staged⟩ } :
        Actor Id Path).Owed hand (rel, sender, record) :=
      .inr (.inl (.inr (.inr (.inl ⟨_, Map.get_insert_self _ _ _, rfl⟩))))
    rintro x (hx | hx | hx | ⟨d, hd, hx⟩ | hx)
    · rcases List.mem_cons.mp hx with rfl | hx
      · exact .of_owed hnew
      · exact .of_owed (.inl hx)
    · exact .of_owed (.inr (.inl (.inl hx)))
    · exact .of_owed (.inr (.inl (.inr (.inl hx))))
    · by_cases hrel : rel = x.1
      · obtain ⟨r, s, w⟩ := x
        obtain rfl : rel = r := hrel
        cases hx
        rw [hdef] at hd
        rcases hout d hd with hle | hex
        · exact .of_covered hnew rfl hle
        · exact .of_excused hex
      · refine .of_owed (.inr (.inl (.inr (.inr (.inl ⟨d, ?_, hx⟩)))))
        rw [Map.get_insert_ne _ _ hrel]
        exact hd
    · exact .of_owed (.inr (.inl (.inr (.inr (.inr hx)))))
  · intro hq p hp hquiet
    have hne : rel ≠ p := by
      rintro rfl
      rw [hlocks, hlease hq] at hp
      cases hp
    exact ⟨hquiet.1, by rw [Map.get_insert_ne _ _ hne]; exact hquiet.2.1, hquiet.2.2⟩
  · intro q d bytes hd hbytes
    rw [Map.get_insert] at hd
    split at hd
    · cases hd
      exact .inr (hcontent bytes hbytes)
    · exact .inl hd

/-- A record asserted against a concurrent one covers it. -/
theorem reassert_steps {a : Actor Id Path} {rel : Path} {sender : Id}
    {record mine : FileRecord Id} (hmine : a.files[rel]? = some mine) :
    Steps c ((rel, sender, record) :: hand, a) (hand, a.tick.commitLocal .reassert rel
      { mine with
        vv := VClock.inc (VClock.merge mine.vv record.vv) a.me, updatedAtMs := c.env.nowMs }) := by
  have hm : MayCommit c ((rel, sender, record) :: hand) a.tick .reassert rel { mine with
      vv := VClock.inc (VClock.merge mine.vv record.vv) a.me, updatedAtMs := c.env.nowMs } :=
    ⟨.inr (.inl rfl), .inr ⟨mine, (rel, sender, record), rfl, List.mem_cons_self, rfl, hmine, rfl⟩,
      fun h => absurd rfl h⟩
  refine .trans (.single .tick) (.trans (.single (.committed .reassert rel _ hm)) ?_)
  refine release_steps (.of_excused (.inl ⟨_, Map.get_insert_self _ _ _, ?_⟩))
  exact (VClock.le_merge_right _ _).trans (VClock.le_inc _ _)

theorem skip_steps {a : Actor Id Path} {rel : Path} {sender : Id} {record : FileRecord Id}
    (hnone : a.files[rel]? = none) (hdel : record.deleted = true) :
    Steps c ((rel, sender, record) :: hand, a) (hand, a.skip sender rel record) := by
  refine .single (.shift a.pendingPulls a.pullBacklog a.deferred a.tasks a.peerIndex
    a.indexStaging (a.skipped ++ [(sender, rel, record)]) a.peers
    ⟨fun _ h => h, fun _ h => List.mem_append_left _ h, ?_, ?_, fun _ _ _ h => h,
      fun _ _ _ h _ => .inl h, id⟩ .refl)
  · rintro x ((hx | hx) | hx | hx)
    · exact .inl (.inl (List.mem_cons_of_mem _ hx))
    · exact .inl (.inr hx)
    · exact .inr (.inl hx)
    · rcases List.mem_append.mp hx with hx | hx
      · exact .inr (.inr hx)
      · obtain ⟨r, s, w⟩ := x
        cases List.mem_singleton.mp hx
        exact .inl (.inl List.mem_cons_self)
  · rintro x (hx | hx)
    · rcases List.mem_cons.mp hx with rfl | hx
      · exact .inr (.inr ⟨hnone, hdel, by simp⟩)
      · exact .of_owed (.inl hx)
    · exact .of_owed (.inr hx)

/-- The entries of an index, as records of its sender. -/
def adverts (sender : Id) (entries : List (Path × FileRecord Id)) : List (Advert Id Path) :=
  entries.map fun e => (e.1, sender, e.2)

omit [LinearOrder Path] in
theorem mem_adverts {sender : Id} {entries : List (Path × FileRecord Id)} {x : Advert Id Path} :
    x ∈ adverts sender entries ↔ (x.1, x.2.2) ∈ entries ∧ x.2.1 = sender := by
  simp only [adverts, List.mem_map]
  constructor
  · rintro ⟨e, he, rfl⟩
    exact ⟨he, rfl⟩
  · rintro ⟨he, rfl⟩
    exact ⟨_, he, rfl⟩

/-- A record that a peer is known to have is taken into the hand. -/
theorem take_steps {a : Actor Id Path} {x : Advert Id Path} (hx : a.Viewed x) :
    Steps c (hand, a) (x :: hand, a) := by
  refine .single (.shift a.pendingPulls a.pullBacklog a.deferred a.tasks a.peerIndex
    a.indexStaging a.skipped a.peers ⟨fun _ h => h, fun _ h => h, ?_, ?_, fun _ _ _ h => h,
      fun _ _ _ h _ => .inl h, id⟩ .refl)
  · rintro y ((hy | hy) | hy)
    · rcases List.mem_cons.mp hy with rfl | hy
      · exact .inr (.inl hx)
      · exact .inl (.inl hy)
    · exact .inl (.inr hy)
    · exact .inr hy
  · rintro y (hy | hy)
    · exact .of_owed (.inl (List.mem_cons_of_mem _ hy))
    · exact .of_owed (.inr hy)

/-- Of an index in the hand only the news and the conflicts are left. -/
theorem sort_steps (a : Actor Id Path) (sender : Id) (entries : List (Path × FileRecord Id)) :
    Steps c (adverts sender entries ++ hand, a)
      (adverts sender (entries.filter (isNews a.files)) ++
        (adverts sender (entries.filter (isConflict a.files)) ++ hand),
        a.skipUnknown sender entries) := by
  refine .single (.shift a.pendingPulls a.pullBacklog a.deferred a.tasks a.peerIndex
    a.indexStaging (a.skipped ++ _) a.peers ⟨fun _ h => h, fun _ h => List.mem_append_left _ h,
      ?_, ?_, fun _ _ _ h => h, fun _ _ _ h _ => .inl h, id⟩ .refl)
  · rintro x ((hx | hx) | hx | hx)
    · refine .inl (.inl ?_)
      rw [List.mem_append, List.mem_append, mem_adverts, mem_adverts] at hx
      rw [List.mem_append, mem_adverts]
      rcases hx with hx | hx | hx
      · exact .inl ⟨List.mem_of_mem_filter hx.1, hx.2⟩
      · exact .inl ⟨List.mem_of_mem_filter hx.1, hx.2⟩
      · exact .inr hx
    · exact .inl (.inr hx)
    · exact .inr (.inl hx)
    · rcases List.mem_append.mp hx with hx | hx
      · exact .inr (.inr hx)
      · obtain ⟨e, he, heq⟩ := List.mem_map.mp hx
        cases heq
        exact .inl (.inl (List.mem_append_left _
          (mem_adverts.mpr ⟨List.mem_of_mem_filter he, rfl⟩)))
  · rintro ⟨rel, s, record⟩ (hx | hx)
    · rcases List.mem_append.mp hx with hx | hx
      · obtain ⟨he, rfl⟩ := mem_adverts.mp hx
        cases hmine : a.files[rel]? with
        | none =>
            cases hdel : record.deleted with
            | true =>
                refine .inr (.inr ⟨hmine, hdel, List.mem_append_right _ ?_⟩)
                exact List.mem_map.mpr ⟨(rel, record),
                  List.mem_filter.mpr ⟨he, by simp [hdel, hmine]⟩, rfl⟩
            | false =>
                refine .of_owed (.inl (List.mem_append_left _ (mem_adverts.mpr ⟨?_, rfl⟩)))
                exact List.mem_filter.mpr ⟨he, by simp [isNews, hmine, hdel]⟩
        | some mine =>
            cases hc : VClock.compare mine.vv record.vv with
            | equal => exact .of_excused (.inl ⟨mine, hmine, (VClock.compare_eq_equal.mp hc).2⟩)
            | after => exact .of_excused (.inl ⟨mine, hmine, (VClock.compare_eq_after.mp hc).2⟩)
            | before =>
                refine .of_owed (.inl (List.mem_append_left _ (mem_adverts.mpr ⟨?_, rfl⟩)))
                exact List.mem_filter.mpr ⟨he, by simp [isNews, hmine, hc]⟩
            | concurrent =>
                refine .of_owed (.inl (List.mem_append_right _ (List.mem_append_left _
                  (mem_adverts.mpr ⟨?_, rfl⟩))))
                exact List.mem_filter.mpr ⟨he, by simp [isConflict, hmine, hc]⟩
      · exact .of_owed (.inl (List.mem_append_right _ (List.mem_append_right _ hx)))
    · exact .of_owed (.inr hx)

/-- A loop over entries of an index that deals with one after the other. -/
theorem foldEntries_steps {f : Actor Id Path → Path → FileRecord Id → Actor Id Path}
    {sender : Id}
    (hf : ∀ (hand : List (Advert Id Path)) (a : Actor Id Path) (rel : Path)
      (record : FileRecord Id),
      Steps c ((rel, sender, record) :: hand, a) (hand, f a rel record))
    {records : Map Path (FileRecord Id)} {entries : List (Path × FileRecord Id)}
    (hsub : ∀ e ∈ entries, e ∈ records.toList) (a : Actor Id Path) :
    Steps c (adverts sender entries ++ hand, a) (hand, (entries.map Prod.fst).foldl
      (fun a rel =>
        match records[rel]? with
        | some r => f a rel r
        | none => a) a) := by
  induction entries generalizing a with
  | nil => exact .refl
  | cons e entries ih =>
      have he : records[e.1]? = some e.2 :=
        Std.ExtTreeMap.mem_toList_iff_getElem?_eq_some.mp (hsub e List.mem_cons_self)
      rw [List.map_cons, List.foldl_cons, he]
      exact (hf (adverts sender entries ++ hand) a e.1 e.2).trans
        (ih (fun e he => hsub e (List.mem_cons_of_mem _ he)) _)

section Cycle

variable {rebuild : Actor Id Path → Actor Id Path}
  (hre : ∀ (hand : List (Advert Id Path)) (a : Actor Id Path),
    Steps c (hand, a) (hand, rebuild a))

include hre

theorem applyNow_steps {a : Actor Id Path} {rel : Path} {sender : Id} {record : FileRecord Id}
    {staged : Option Bytes} (hnews : a.isCurrent rel record = false)
    (hlease : c.quietWins → a.locks.isHeldByMe rel = false)
    (hcontent : ∀ bytes, staged = some bytes → c.Backs record.manifest bytes) :
    Steps c ((rel, sender, record) :: hand, a)
      (hand, a.applyNow rebuild c.host c.env rel sender record staged) := by
  unfold applyNow
  dsimp only
  refine (prepareApply_steps a rel).trans ?_
  have hkeep := prepareApply_keeps c.env a rel
  generalize a.prepareApply c.env rel = b at hkeep ⊢
  have hdisk := @applyToDisk_steps _ _ _ _ c ((rel, sender, record) :: hand) b rel record
    staged
  have hkeep' := hkeep.trans (applyToDisk_keeps c.host c.env b rel record staged)
  refine .trans ?_ (finishPull_steps _ rel)
  split
  · rename_i d hd
    rw [hd] at hdisk hkeep'
    refine hdisk.trans ?_
    have hm : MayApply c ((rel, sender, record) :: hand) d rel sender record staged :=
      ⟨List.mem_cons_self, by rw [hkeep'.isCurrent]; exact hnews,
        fun hq => by rw [hkeep'.locks]; exact hlease hq, hcontent⟩
    refine .trans (.single (.applied rel sender record staged hm)) ?_
    refine (release_steps (.of_excused (commitApplied_excused d rel sender record staged))).trans ?_
    split
    · exact hre _ _
    · exact .refl
  · rename_i d hd
    rw [hd] at hdisk
    exact hdisk.trans (abandon_steps d rel sender record)

theorem applyRemoteWith_steps {a : Actor Id Path} {rel : Path} {sender : Id}
    {record : FileRecord Id} {staged : Option Bytes}
    (hlease : c.quietWins → a.locks.isHeldByMe rel = false)
    (hcontent : ∀ bytes, staged = some bytes → c.Backs record.manifest bytes) :
    Steps c ((rel, sender, record) :: hand, a)
      (hand, a.applyRemoteWith rebuild c.host c.env rel sender record staged) := by
  unfold applyRemoteWith
  split
  · exact defer_steps hlease hcontent
  · split
    · rename_i hcur
      exact (release_steps (.of_excused (.inl (le_of_isCurrent hcur)))).trans
        (finishPull_steps a rel)
    · rename_i hnews
      exact applyNow_steps hre (by simpa using hnews) hlease hcontent

/-! ## Reconciliation -/

theorem maybePullWith_steps (a : Actor Id Path) (rel : Path) (sender : Id)
    (record : FileRecord Id) :
    Steps c ((rel, sender, record) :: hand, a)
      (hand, a.maybePullWith rebuild c.host c.env rel sender record) := by
  unfold maybePullWith
  split
  · exact abandon_steps a rel sender record
  · rename_i hheld
    rw [Bool.not_eq_true] at hheld
    split
    · refine .trans (.single (.misc ..)) (applyRemoteWith_steps hre (fun _ => hheld) ?_)
      rintro bytes ⟨⟩
    · split
      · refine (abandon_steps a rel sender record).trans ?_
        unfold hold
        split
        · split
          · exact .refl
          · exact .single (.misc ..)
        · exact .single (.misc ..)
      · exact schedulePull_steps a sender record hheld

theorem onConcurrentWith_steps (a : Actor Id Path) (rel : Path) (sender : Id)
    (record : FileRecord Id) :
    Steps c ((rel, sender, record) :: hand, a)
      (hand, a.onConcurrentWith rebuild c.host c.env rel sender record) := by
  unfold onConcurrentWith
  split
  · split
    · exact abandon_steps a rel sender record
    · rename_i mine hmine
      exact reassert_steps hmine
  · exact (quarantine_steps a rel).trans (maybePullWith_steps hre _ rel sender record)

theorem reconcileOneWith_steps (a : Actor Id Path) (sender : Id) (rel : Path)
    (record : FileRecord Id) :
    Steps c ((rel, sender, record) :: hand, a)
      (hand, a.reconcileOneWith rebuild c.host c.env sender rel record) := by
  unfold reconcileOneWith
  have hclear : Steps c ((rel, sender, record) :: hand, a)
      ((rel, sender, record) :: hand, a.maybeClearUnapplied rel record) := by
    unfold maybeClearUnapplied
    split
    · exact .single (.misc ..)
    · exact .refl
  refine hclear.trans ?_
  dsimp only
  generalize a.maybeClearUnapplied rel record = b
  split
  · rename_i hnone
    split
    · rename_i hdel
      exact skip_steps hnone hdel
    · exact maybePullWith_steps hre b rel sender record
  · rename_i mine hmine
    split
    · exact maybePullWith_steps hre b rel sender record
    · exact onConcurrentWith_steps hre b rel sender record
    · rename_i hc
      exact release_steps (.of_excused (.inl ⟨mine, hmine, (VClock.compare_eq_equal.mp hc).2⟩))
    · rename_i hc
      exact release_steps (.of_excused (.inl ⟨mine, hmine, (VClock.compare_eq_after.mp hc).2⟩))

theorem reconcileWith_steps {a : Actor Id Path} {sender : Id}
    {records : Map Path (FileRecord Id)} (hrec : a.peerIndex[sender]? = some records) :
    Steps c (adverts sender records.toList ++ hand, a)
      (hand, a.reconcileWith rebuild c.host c.env sender) := by
  unfold reconcileWith
  rw [hrec]
  dsimp only
  rw [diff_eq]
  have hclear : Steps c (adverts sender records.toList ++ hand, a)
      (adverts sender records.toList ++ hand, a.clearDeleted records) := .single (.misc ..)
  refine hclear.trans ((sort_steps _ sender records.toList).trans ?_)
  refine .trans (foldEntries_steps
    (fun hand a rel record => @maybePullWith_steps _ _ _ _ _ hand _ hre a rel sender record)
    (fun _ => List.mem_of_mem_filter) _) ?_
  exact foldEntries_steps
    (fun hand a rel record => @onConcurrentWith_steps _ _ _ _ _ hand _ hre a rel sender record)
    (fun _ => List.mem_of_mem_filter) _

theorem releaseHeld_steps (a : Actor Id Path) (rel : Path) :
    Steps c (hand, a) (hand, a.releaseHeld rebuild c.host c.env rel) := by
  unfold releaseHeld
  dsimp only
  have hclear : Steps c (hand, a) (hand, { a with unapplied := a.unapplied.erase rel }) :=
    .single (.misc ..)
  refine hclear.trans ?_
  split
  · rename_i sender record hfind
    obtain ⟨e, he, hmap⟩ := List.exists_of_findSome?_eq_some hfind
    obtain ⟨r, hr, heq⟩ := Option.map_eq_some_iff.mp hmap
    cases heq
    have hview : ({ a with unapplied := a.unapplied.erase rel } : Actor Id Path).Viewed
        (rel, e.1, record) :=
      ⟨e.2, Std.ExtTreeMap.mem_toList_iff_getElem?_eq_some.mp he, hr⟩
    exact (take_steps hview).trans (reconcileOneWith_steps hre _ e.1 rel record)
  · exact .refl

theorem rebuildIgnoreWith_steps (a : Actor Id Path) :
    Steps c (hand, a) (hand, a.rebuildIgnoreWith rebuild c.host c.env) := by
  have hreload : Steps c (hand, a) (hand, a.reloadRules c.host) := .single (.misc ..)
  exact hreload.trans (foldl_steps (fun a rel => releaseHeld_steps hre a rel) _ _)

end Cycle

/-! ## Tying the knot -/

theorem rebuildIgnoreN_steps (n : Nat) (hand : List (Advert Id Path)) (a : Actor Id Path) :
    Steps c (hand, a) (hand, rebuildIgnoreN c.host c.env n a) := by
  induction n generalizing hand a with
  | zero => exact .refl
  | succ n ih => exact rebuildIgnoreWith_steps ih a

theorem rebuildIgnore_steps (hand : List (Advert Id Path)) (a : Actor Id Path) :
    Steps c (hand, a) (hand, a.rebuildIgnore c.host c.env) :=
  rebuildIgnoreN_steps 2 hand a

theorem applyRemote_steps {a : Actor Id Path} {rel : Path} {sender : Id}
    {record : FileRecord Id} {staged : Option Bytes}
    (hlease : c.quietWins → a.locks.isHeldByMe rel = false)
    (hcontent : ∀ bytes, staged = some bytes → c.Backs record.manifest bytes) :
    Steps c ((rel, sender, record) :: hand, a)
      (hand, a.applyRemote c.host c.env rel sender record staged) :=
  applyRemoteWith_steps rebuildIgnore_steps hlease hcontent

theorem reconcileOne_steps (a : Actor Id Path) (sender : Id) (rel : Path)
    (record : FileRecord Id) :
    Steps c ((rel, sender, record) :: hand, a)
      (hand, a.reconcileOne c.host c.env sender rel record) :=
  reconcileOneWith_steps rebuildIgnore_steps a sender rel record

theorem reconcile_steps {a : Actor Id Path} {sender : Id} {records : Map Path (FileRecord Id)}
    (hrec : a.peerIndex[sender]? = some records) :
    Steps c (adverts sender records.toList ++ hand, a)
      (hand, a.reconcile c.host c.env sender) :=
  reconcileWith_steps rebuildIgnore_steps hrec

end Tazamun.Actor
