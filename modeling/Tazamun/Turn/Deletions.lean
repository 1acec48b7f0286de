import Tazamun.Turn.Aside
import Tazamun.Turn.Covered

set_option autoImplicit false

/-! # Deleted files stay deleted

A tombstone reaches a node in a `FileMeta` or as an entry of an index. Where the node has a
record of the path, the tombstone is applied or already covered, and from then on nothing as
old as it enters the index: a stale version that comes later, or whose pull was under way, is
found to be old news (`Turn.Covered`).

Three things make the node forget a tombstone instead. For a path without a record it is
skipped, and nothing remembers it; under a lease of our own it is refused; and it is dropped
when the file cannot be removed. `TombstonesLand` excludes these, and `deletions_stay` is the
result. While the path is busy a tombstone waits, and counts as processed when it is applied.
-/

namespace Tazamun

open Lib

variable {Id Path : Type} [LinearOrder Id] [LinearOrder Path]

namespace Actor

/-! ## A tombstone that is let in -/

/-- The path takes a tombstone now: nobody works on it, it is not ours to keep, and its file
is gone or can be removed. -/
structure Ready (env : Env Path) (a : Actor Id Path) (rel : Path) : Prop where
  busy : a.busy.contains rel = false
  leaseless : a.locks.isHeldByMe rel = false
  removable : env.io.remove rel = true ∨ a.disk[rel]? = none

theorem Ready.frame {env : Env Path} {a b : Actor Id Path} {rel : Path} (h : Ready env a rel)
    (hf : Frame a b) : Ready env b rel := by
  refine ⟨by rw [hf.busy]; exact h.busy, by rw [hf.locks]; exact h.leaseless, ?_⟩
  rcases h.removable with hio | hgone
  · exact .inl hio
  · exact .inr (hf.absent rel hgone)

theorem removeFile_ok (h : Host Id Path) {env : Env Path} {a : Actor Id Path} {rel : Path}
    (hgone : env.io.remove rel = true ∨ a.disk[rel]? = none) :
    (a.removeFile h env rel).2 = true := by
  unfold removeFile
  dsimp only
  split
  · rfl
  · rename_i f hf
    rcases hgone with hio | hgone
    · rw [if_pos hio]
    · rw [(setMode_frame a env rel false).absent rel hgone] at hf
      cases hf

/-- A loop over paths of an index keeps what each round keeps. -/
theorem foldEntries_keep {f : Actor Id Path → Path → FileRecord Id → Actor Id Path}
    (records : Map Path (FileRecord Id)) {P : Actor Id Path → Prop}
    (hP : ∀ a q r, P a → P (f a q r)) (l : List Path) {a : Actor Id Path} (ha : P a) :
    P (l.foldl (fun a rel => match records[rel]? with | some r => f a rel r | none => a) a) := by
  induction l generalizing a with
  | nil => exact ha
  | cons q l ih =>
      rw [List.foldl_cons]
      refine ih ?_
      split
      · exact hP a q _ ha
      · exact ha

/-- One of the paths is dealt with, and the rounds after it leave it so. -/
theorem foldEntries_covered {f : Actor Id Path → Path → FileRecord Id → Actor Id Path}
    {records : Map Path (FileRecord Id)} {I : Actor Id Path → Prop} {p : Path}
    {record : FileRecord Id} {v : VClock Id} (hrec : records[p]? = some record)
    (hI : ∀ a q r, I a → I (f a q r)) (hhit : ∀ a, I a → (f a p record).Covered p v)
    (hkeep : ∀ a q r, a.Covered p v → (f a q r).Covered p v) {l : List Path} (hp : p ∈ l)
    {a : Actor Id Path} (ha : I a) :
    (l.foldl (fun a rel => match records[rel]? with | some r => f a rel r | none => a) a).Covered
      p v := by
  induction l generalizing a with
  | nil => cases hp
  | cons q l ih =>
      rw [List.foldl_cons]
      by_cases hq : q = p
      · subst hq
        rw [hrec]
        exact foldEntries_keep records hkeep l (hhit a ha)
      · rcases List.mem_cons.mp hp with rfl | hp
        · exact absurd rfl hq
        · refine ih hp ?_
          split
          · exact hI a q _ ha
          · exact ha

section Cycle

variable {c : Ctx Id Path} {rebuild : Actor Id Path → Actor Id Path}
  (hre : ∀ (hand : List (Advert Id Path)) (a : Actor Id Path),
    Steps c (hand, a) (hand, rebuild a))

include hre

theorem applyRemoteWith_covered {a : Actor Id Path} {rel : Path} {sender : Id}
    {record : FileRecord Id} (hdel : record.deleted = true) (hready : Ready c.env a rel) :
    (a.applyRemoteWith rebuild c.host c.env rel sender record none).Covered rel record.vv := by
  rw [applyRemoteWith, if_neg (by rw [hready.busy]; exact Bool.false_ne_true)]
  split
  · rename_i hcur
    exact (@finishPull_steps _ _ _ _ c [] a rel).covered (le_of_isCurrent hcur)
  · unfold applyNow
    have happly : (a.prepareApply c.env rel).applyToDisk c.host c.env rel record none
        = (a.prepareApply c.env rel).removeFile c.host c.env rel := by
      rw [applyToDisk, if_pos hdel]
    have hok := removeFile_ok c.host (hready.frame (prepareApply_frame c.env a rel)).removable
    rw [happly]
    refine (@finishPull_steps _ _ _ _ c [] _ rel).covered ?_
    split
    · rename_i d hd
      have hcommit : (d.commitApplied rel record none).Covered rel record.vv := by
        refine ⟨_, Map.get_insert_self _ _ _, ?_⟩
        dsimp only
        split
        · exact VClock.le_merge_right _ _
        · exact VClock.Le.refl _
      dsimp only
      split
      · exact (hre [] _).covered hcommit
      · exact hcommit
    · rename_i d hd
      rw [hd] at hok
      cases hok

theorem maybePullWith_covered {a : Actor Id Path} {rel : Path} {sender : Id}
    {record : FileRecord Id} (hdel : record.deleted = true) (hready : Ready c.env a rel) :
    (a.maybePullWith rebuild c.host c.env rel sender record).Covered rel record.vv := by
  rw [maybePullWith, if_neg (by rw [hready.leaseless]; exact Bool.false_ne_true), if_pos hdel]
  exact applyRemoteWith_covered hre hdel ⟨hready.busy, hready.leaseless, hready.removable⟩

/-- Against a concurrent copy the tombstone wins or the copy is asserted over it. -/
theorem onConcurrentWith_covered {a : Actor Id Path} {rel : Path} {sender : Id}
    {record mine : FileRecord Id} (hdel : record.deleted = true)
    (hmine : a.files[rel]? = some mine) (hready : sender < a.me ∨ Ready c.env a rel) :
    (a.onConcurrentWith rebuild c.host c.env rel sender record).Covered rel record.vv := by
  unfold onConcurrentWith
  by_cases hlt : sender < a.me
  · rw [if_pos hlt, hmine]
    exact ⟨_, Map.get_insert_self _ _ _,
      (VClock.le_merge_right _ _).trans (VClock.le_inc _ _)⟩
  · rw [if_neg hlt]
    exact maybePullWith_covered hre hdel
      ((hready.resolve_left hlt).frame (quarantine_frame a c.env rel))

end Cycle

/-- **A tombstone in an index lands**: the own record covers it, or is asserted over it, or
makes way. -/
theorem reconcile_covered (h : Host Id Path) (env : Env Path) {a : Actor Id Path} {sender : Id}
    {records : Map Path (FileRecord Id)} (hrecords : a.peerIndex[sender]? = some records)
    {p : Path} {record mine : FileRecord Id} (hentry : records[p]? = some record)
    (hdel : record.deleted = true) (hmine : a.files[p]? = some mine)
    (hland : VClock.Le record.vv mine.vv ∨
      (VClock.compare mine.vv record.vv = .concurrent ∧ sender < a.me) ∨ Ready env a p) :
    (a.reconcile h env sender).Covered p record.vv := by
  have hre := @rebuildIgnore_steps _ _ _ _ (ctx h Terms.none env)
  have hpull : ∀ (a : Actor Id Path) (q : Path) (r : FileRecord Id),
      Steps (ctx h Terms.none env) ([(q, sender, r)], a)
        ([], a.maybePullWith (rebuildIgnore h env) h env q sender r) :=
    fun a q r => @maybePullWith_steps _ _ _ _ (ctx h Terms.none env) [] _ hre a q sender r
  have hconc : ∀ (a : Actor Id Path) (q : Path) (r : FileRecord Id),
      Steps (ctx h Terms.none env) ([(q, sender, r)], a)
        ([], a.onConcurrentWith (rebuildIgnore h env) h env q sender r) :=
    fun a q r => @onConcurrentWith_steps _ _ _ _ (ctx h Terms.none env) [] _ hre a q sender r
  by_cases hle : VClock.Le record.vv mine.vv
  · exact (@reconcile_steps _ _ _ _ (ctx h Terms.none env) [] _ _ _ hrecords).covered
      ⟨mine, hmine, hle⟩
  · have hopen := hland.resolve_left hle
    have hin : (p, record) ∈ records.toList := Map.mem_toList.mpr hentry
    unfold reconcile reconcileWith
    rw [hrecords]
    dsimp only
    rw [diff_eq]
    have hb : Frame a ((a.clearDeleted records).skipUnknown sender records.toList) :=
      ⟨⟨rfl, rfl, rfl, rfl, rfl, rfl, rfl, fun _ h => h⟩, fun _ h => h⟩
    have hbmine : ((a.clearDeleted records).skipUnknown sender records.toList).Covered p
        mine.vv := ⟨mine, hmine, VClock.Le.refl _⟩
    generalize (a.clearDeleted records).skipUnknown sender records.toList = b at hb hbmine ⊢
    cases hcmp : VClock.compare mine.vv record.vv with
    | equal => exact absurd (VClock.compare_eq_equal.mp hcmp).2 hle
    | after => exact absurd (VClock.compare_eq_after.mp hcmp).2 hle
    | before =>
        -- the loop over the news applies it, the one over the conflicts leaves it
        have hready : Ready env a p := by
          rcases hopen with ⟨hc, -⟩ | hready
          · rw [hcmp] at hc
            cases hc
          · exact hready
        refine foldEntries_keep (P := fun a => a.Covered p record.vv) records
          (fun a q r hc => (hconc a q r).covered hc) _ ?_
        refine foldEntries_covered hentry
          (fun d q r hd => hd.frame (maybePullWith_frame h env (rebuildIgnore_frame h env) d q
            sender r))
          (fun d hd => @maybePullWith_covered _ _ _ _ (ctx h Terms.none env) _ hre d p sender
            record hdel hd)
          (fun a q r hc => (hpull a q r).covered hc) ?_ (hready.frame hb)
        exact List.mem_map.mpr ⟨(p, record),
          List.mem_filter.mpr ⟨hin, by simp [isNews, hmine, hcmp]⟩, rfl⟩
    | concurrent =>
        -- nothing in the loop over the news decides it
        let I : Actor Id Path → Prop := fun d =>
          d.Covered p mine.vv ∧ (sender < d.me ∨ Ready env d p)
        have hI : ∀ {d e : Actor Id Path}, Frame d e → e.Covered p mine.vv → I d → I e := by
          rintro d e hf hc ⟨-, hlt | hr⟩
          · exact ⟨hc, .inl (by rw [hf.me]; exact hlt)⟩
          · exact ⟨hc, .inr (hr.frame hf)⟩
        have hbI : I b := by
          refine ⟨hbmine, ?_⟩
          rcases hopen with ⟨-, hlt⟩ | hready
          · exact .inl (by rw [hb.me]; exact hlt)
          · exact .inr (hready.frame hb)
        refine foldEntries_covered hentry
          (fun d q r hd => hI (onConcurrentWith_frame h env (rebuildIgnore_frame h env) d q
            sender r) ((hconc d q r).covered hd.1) hd)
          (fun d hd => ?_) (fun a q r hc => (hconc a q r).covered hc) ?_
          (foldEntries_keep records (fun d q r hd =>
            hI (maybePullWith_frame h env (rebuildIgnore_frame h env) d q sender r)
              ((hpull d q r).covered hd.1) hd) _ hbI)
        · obtain ⟨⟨mine', hmine', -⟩, hr⟩ := hd
          exact @onConcurrentWith_covered _ _ _ _ (ctx h Terms.none env) _ hre d p sender record
            mine' hdel hmine' hr
        · exact List.mem_map.mpr ⟨(p, record),
            List.mem_filter.mpr ⟨hin, by simp [isConflict, hmine, hcmp]⟩, rfl⟩

theorem reconcileOne_covered (h : Host Id Path) (env : Env Path) {a : Actor Id Path}
    {sender : Id} {p : Path} {record mine : FileRecord Id} (hdel : record.deleted = true)
    (hmine : a.files[p]? = some mine)
    (hland : VClock.Le record.vv mine.vv ∨
      (VClock.compare mine.vv record.vv = .concurrent ∧ sender < a.me) ∨ Ready env a p) :
    (a.reconcileOne h env sender p record).Covered p record.vv := by
  have hre := @rebuildIgnore_steps _ _ _ _ (ctx h Terms.none env)
  by_cases hle : VClock.Le record.vv mine.vv
  · exact (@reconcileOne_steps _ _ _ _ (ctx h Terms.none env) [] a sender p record).covered
      ⟨mine, hmine, hle⟩
  · have hopen := hland.resolve_left hle
    have hclear : a.maybeClearUnapplied p record
        = { a with unapplied := a.unapplied.erase p } := by
      rw [maybeClearUnapplied, if_pos hdel]
    unfold reconcileOne reconcileOneWith
    rw [hclear]
    simp only [hmine]
    cases hcmp : VClock.compare mine.vv record.vv with
    | equal => exact absurd (VClock.compare_eq_equal.mp hcmp).2 hle
    | after => exact absurd (VClock.compare_eq_after.mp hcmp).2 hle
    | before =>
        rcases hopen with ⟨hc, -⟩ | hready
        · rw [hcmp] at hc
          cases hc
        · exact @maybePullWith_covered _ _ _ _ (ctx h Terms.none env) _ hre _ p sender record
            hdel ⟨hready.busy, hready.leaseless, hready.removable⟩
    | concurrent =>
        refine @onConcurrentWith_covered _ _ _ _ (ctx h Terms.none env) _ hre _ p sender record
          mine hdel hmine ?_
        rcases hopen with ⟨-, hlt⟩ | hready
        · exact .inl hlt
        · exact .inr ⟨hready.busy, hready.leaseless, hready.removable⟩

/-! ## The tombstones of an event -/

/-- The tombstones that an event makes the node reconcile with its index. -/
def tombstones (h : Host Id Path) (a : Actor Id Path) : Event Id Path → List (Advert Id Path)
  | .msg sender (.fileMeta rel record _) =>
      if a.peers.contains sender && h.sanitize rel && recordAcceptable record &&
        record.deleted then [(rel, sender, record)] else []
  | .msg sender (.index _ files _) =>
      if a.peers.contains sender then
        adverts sender ((ingestMap h ∅ files).toList.filter fun e => e.2.deleted)
      else []
  | .msg sender (.indexPart seq last _ files _) =>
      if a.peers.contains sender && last && a.accepts sender seq files then
        adverts sender ((ingestMap h (a.indexStaging[sender]?.getD (0, ∅)).2 files).toList.filter
          fun e => e.2.deleted)
      else []
  | _ => []

/-- The node has a record of the path. It covers the tombstone, or is asserted over it; or the
path is not self-held, after the leases of the event, and its file can be removed. -/
def Lands (h : Host Id Path) (env : Env Path) (a : Actor Id Path) (ev : Event Id Path)
    (x : Advert Id Path) : Prop :=
  ∃ mine, a.files[x.1]? = some mine ∧
    (VClock.Le x.2.2.vv mine.vv ∨
      (VClock.compare mine.vv x.2.2.vv = .concurrent ∧ x.2.1 < a.me) ∨
      ((a.lockGain h env ev).isHeldByMe x.1 = false ∧
        (env.io.remove x.1 = true ∨ a.disk[x.1]? = none)))

/-- Every tombstone for a path that is not busy lands. -/
def TombstonesLand (h : Host Id Path) (a : Actor Id Path) (s : Env Path × Act Id Path) : Prop :=
  match a.handled s.2 with
  | some ev => ∀ x ∈ a.tombstones h ev, a.busy.contains x.1 = false → a.Lands h s.1 ev x
  | none => True

theorem commitPeerIndex_covered (h : Host Id Path) (env : Env Path) {a : Actor Id Path}
    {sender : Id} {map : Map Path (FileRecord Id)} {leases : List (LeaseInfo Id Path)} {p : Path}
    {record mine : FileRecord Id} (hentry : map[p]? = some record)
    (hdel : record.deleted = true) (hbusy : a.busy.contains p = false)
    (hmine : a.files[p]? = some mine)
    (hland : VClock.Le record.vv mine.vv ∨
      (VClock.compare mine.vv record.vv = .concurrent ∧ sender < a.me) ∨
      ((a.observeLeases h env leases).locks.isHeldByMe p = false ∧
        (env.io.remove p = true ∨ a.disk[p]? = none))) :
    (a.commitPeerIndex h env sender map leases).Covered p record.vv := by
  refine reconcile_covered h env (Map.get_insert_self _ _ _) hentry hdel hmine ?_
  rcases hland with hle | hlt | ⟨hheld, hgone⟩
  · exact .inl hle
  · exact .inr (.inl hlt)
  · exact .inr (.inr ⟨hbusy, hheld, hgone⟩)

omit [LinearOrder Path] in
theorem mem_adverts_filter {sender : Id} {l : List (Path × FileRecord Id)} {x : Advert Id Path}
    (hx : x ∈ adverts sender (l.filter fun e => e.2.deleted)) :
    (x.1, x.2.2) ∈ l ∧ x.2.2.deleted = true ∧ x.2.1 = sender := by
  obtain ⟨hin, hs⟩ := mem_adverts.mp hx
  obtain ⟨hin, hdel⟩ := List.mem_filter.mp hin
  exact ⟨hin, hdel, hs⟩

/-- **A tombstone that lands is covered when the turn is over.** -/
theorem handle_covered (h : Host Id Path) (env : Env Path) {a : Actor Id Path}
    {ev : Event Id Path} {x : Advert Id Path} (hx : x ∈ a.tombstones h ev)
    (hbusy : a.busy.contains x.1 = false) (hland : a.Lands h env ev x) :
    (a.handle h env ev).Covered x.1 x.2.2.vv := by
  obtain ⟨p, s, record⟩ := x
  obtain ⟨mine, hmine, hland⟩ := hland
  cases ev with
  | msg sender msg =>
      cases msg with
      | fileMeta rel record' lamport =>
          rw [tombstones] at hx
          split at hx
          · rename_i hok
            obtain ⟨rfl, rfl, rfl⟩ : p = rel ∧ s = sender ∧ record = record' := by
              simpa using hx
            simp only [Bool.and_eq_true] at hok
            obtain ⟨⟨⟨hpeer, hsan⟩, hacc⟩, hdel⟩ := hok
            obtain ⟨peer, hpeer⟩ := Option.isSome_iff_exists.mp
              ((Map.contains_eq _ _).symm.trans hpeer)
            simp only [handle, onCtl, hpeer, onFileMeta, hsan, hacc, Bool.and_self, if_true]
            refine reconcileOne_covered h env hdel hmine ?_
            rcases hland with hle | hlt | ⟨hheld, hgone⟩
            · exact .inl hle
            · exact .inr (.inl hlt)
            · exact .inr (.inr ⟨hbusy, hheld, hgone⟩)
          · cases hx
      | index lamport files leases =>
          rw [tombstones] at hx
          split at hx
          · rename_i hpeer
            obtain ⟨hin, hdel, rfl⟩ := mem_adverts_filter hx
            simp only [lockGain, hpeer, if_true] at hland
            obtain ⟨peer, hpeer⟩ := Option.isSome_iff_exists.mp
              ((Map.contains_eq _ _).symm.trans hpeer)
            simp only [handle, onCtl, hpeer, onIndex, ingest_map]
            obtain ⟨journal, hj⟩ := ingest_eq h
              { a with lamport := max a.lamport lamport, indexStaging := a.indexStaging.erase s }
              s ∅ files
            rw [hj]
            obtain ⟨journal', hj'⟩ := supersede_eq
              ({ a with lamport := max a.lamport lamport
                        indexStaging := a.indexStaging.erase s, journal } : Actor Id Path)
              s (ingestMap h ∅ files) (a.indexStaging[s]?.getD (0, ∅)).2.toList
            rw [hj']
            exact commitPeerIndex_covered h env (Map.mem_toList.mp hin) hdel hbusy hmine hland
          · cases hx
      | indexPart seq last lamport files leases =>
          rw [tombstones] at hx
          split at hx
          · rename_i hok
            obtain ⟨hin, hdel, rfl⟩ := mem_adverts_filter hx
            simp only [lockGain, hok, if_true] at hland
            simp only [Bool.and_eq_true] at hok
            obtain ⟨⟨hpeer, rfl⟩, haccept⟩ := hok
            obtain ⟨peer, hpeer⟩ := Option.isSome_iff_exists.mp
              ((Map.contains_eq _ _).symm.trans hpeer)
            have hfits : ¬ (seq ≠ (a.indexStaging[s]?.getD (0, ∅)).1 ∨ maxIndexParts ≤ seq ∨
                maxIndexEntries < (a.indexStaging[s]?.getD (0, ∅)).2.size + files.length) := by
              simp only [accepts, decide_eq_true_eq] at haccept
              omega
            simp only [handle, onCtl, hpeer, onIndexPart, if_neg hfits, ingest_map, if_true]
            obtain ⟨journal, hj⟩ := ingest_eq h
              { a with lamport := max a.lamport lamport, indexStaging := a.indexStaging.erase s }
              s (a.indexStaging[s]?.getD (0, ∅)).2 files
            rw [hj]
            exact commitPeerIndex_covered h env (Map.mem_toList.mp hin) hdel hbusy hmine hland
          · cases hx
      | _ => cases hx
  | _ => cases hx

/-! ## Runs -/

/-- The step has processed a tombstone of `rel` with the vector `v`: it reconciled one with
the index while the path was not busy, or it has applied one. -/
def Deletes (h : Host Id Path) (a : Actor Id Path) (s : Env Path × Act Id Path)
    (b : Actor Id Path) (rel : Path) (v : VClock Id) : Prop :=
  (∃ ev x, a.handled s.2 = some ev ∧ x ∈ a.tombstones h ev ∧ a.busy.contains x.1 = false ∧
    x.1 = rel ∧ x.2.2.vv = v) ∨
  ∃ record prev leased, .applied rel record prev leased ∈ b.journal ∧ record.deleted = true ∧
    record.vv = v

theorem Deletes.covered {h : Host Id Path} {a b : Actor Id Path} {s : Env Path × Act Id Path}
    {rel : Path} {v : VClock Id} (hdel : Deletes h a s b rel v) (hok : a.TombstonesLand h s)
    (hstep : a.step h s = some b) (happlied : b.AppliedCovered) : b.Covered rel v := by
  rcases hdel with ⟨ev, x, hev, hx, hbusy, rfl, rfl⟩ | ⟨record, prev, leased, he, -, rfl⟩
  · rw [TombstonesLand, hev] at hok
    have hland := hok x hx hbusy
    rcases step_cases hstep with ⟨a', ev', rfl | ⟨n, rfl⟩, hev', rfl⟩ | ⟨hnone, -⟩
    · obtain rfl : ev = ev' := Option.some_injective _ (hev.symm.trans hev')
      exact handle_covered h s.1 hx hbusy hland
    · obtain rfl : ev = ev' := Option.some_injective _ (hev.symm.trans hev')
      have hx' : x ∈ ({ a with inbox := a.inbox.eraseIdx n } : Actor Id Path).tombstones h ev := hx
      refine handle_covered h s.1 hx' hbusy ?_
      obtain ⟨mine, hmine, hland⟩ := hland
      exact ⟨mine, hmine, hland⟩
    · rw [hnone] at hev
      cases hev
  · exact happlied rel record prev leased he

def deletedVv : VClock Nat := ((∅ : VClock Nat).insert 0 1).insert 1 2

def staleVv : VClock Nat := ((∅ : VClock Nat).insert 0 1).insert 1 1

def rewrittenVv : VClock Nat := deletedVv.insert 2 1

def twoPeers : List (Env Nat × Act Nat Nat) :=
  now [.event (.authed 1 0 true), .event (.authed 2 1 true)]

def deletion (path : Nat) : Env Nat × Act Nat Nat :=
  (plainEnv 0, .event (.msg 1 (.fileMeta path (.tombstone deletedVv 0) 1)))

def announced (path : Nat) (vv : VClock Nat) : Act Nat Nat :=
  .event (.msg 2 (.fileMeta path (plainRecord 9 vv) 1))

/-- A test for steps whose tombstones land because the path makes way. -/
def landsTest (a : Actor Nat Nat) (s : Env Nat × Act Nat Nat) : Bool :=
  match a.handled s.2 with
  | some ev => (a.tombstones plainHost ev).all fun x =>
      a.files[x.1]?.isSome && !(a.lockGain plainHost s.1 ev).isHeldByMe x.1 && s.1.io.remove x.1
  | none => true

theorem tombstonesLand_of_test {a : Actor Nat Nat} {s : Env Nat × Act Nat Nat}
    (h : landsTest a s = true) : a.TombstonesLand plainHost s := by
  rw [landsTest] at h
  rw [TombstonesLand]
  split
  · rename_i ev hev
    simp only [hev, List.all_eq_true, Bool.and_eq_true, Bool.not_eq_true'] at h
    intro x hx _
    obtain ⟨⟨hsome, hheld⟩, hio⟩ := h x hx
    obtain ⟨mine, hmine⟩ := Option.isSome_iff_exists.mp hsome
    exact ⟨mine, hmine, .inr (.inr ⟨hheld, .inl hio⟩)⟩
  · exact trivial

/-- A test for journals without a commit. -/
def commitless (a : Actor Nat Nat) : Bool :=
  a.journal.all fun
    | .committed _ _ _ _ _ => false
    | _ => true

theorem unsaturated_of_commitless {a : Actor Nat Nat} (h : commitless a = true) :
    a.Unsaturated := by
  intro e he
  have hall := List.all_eq_true.mp h e he
  cases e with
  | committed => cases hall
  | _ => exact trivial

/-- The tombstone of `path` is handled while the path is not busy. -/
def deletes (a : Actor Nat Nat) (path : Nat) : Bool :=
  decide ((path, 1, (.tombstone deletedVv 0 : FileRecord Nat)) ∈
    a.tombstones plainHost (.msg 1 (.fileMeta path (.tombstone deletedVv 0) 1))) &&
    !a.busy.contains path

theorem deletes_sound {a b : Actor Nat Nat} {path : Nat} (h : deletes a path = true) :
    Deletes plainHost a (deletion path) b path deletedVv := by
  simp only [deletes, Bool.and_eq_true, decide_eq_true_eq, Bool.not_eq_true'] at h
  exact .inl ⟨_, _, rfl, h.1, h.2, rfl, rfl⟩

end Actor

end Tazamun
