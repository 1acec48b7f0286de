import Tazamun.Turn.Aside
import Tazamun.Turn.Basic

set_option autoImplicit false

/-! # What may come into the state

Some invariants do not follow the fate of single records but say what there can be at all:
which paths occur, which records are stored, how many pulls there are. A `Guard` says what
may come in with the events: the paths, the records of the peers, the manifests of our own
commits, and, for one turn, the records that may be applied and the paths that may be
committed. `Within` is the state in which everything has passed the guard.

`Move` lists the changes that handlers are made of, at the grain that such invariants need:
the pull scheduler moves in whole operations, the index record by record, and everything else
may change at will. The modules after this one show that every handler is a chain of moves,
once for all guards, so an invariant of this kind has to be proved for the moves only
(`Kept`).
-/

namespace Tazamun

variable {Id Path : Type} [LinearOrder Id] [LinearOrder Path]

/-- The message announces a single record. -/
def Msg.isFileMeta : Msg Id Path → Bool
  | .fileMeta _ _ _ => true
  | _ => false

/-- What may come into the state. -/
structure Guard (Id Path : Type) [LinearOrder Id] [LinearOrder Path] where
  /-- Paths of records, operations, marks and leases. -/
  path : Path → Prop
  /-- Records that peers advertise. -/
  record : Path → FileRecord Id → Prop
  /-- Manifests in the index and in the history. -/
  content : Path → ManifestRef → Prop
  /-- Records that may be applied in this turn. -/
  apply : Path → FileRecord Id → Prop
  /-- Paths that we may commit content of in this turn. -/
  commit : Path → Prop
  /-- Paths whose deferred record this turn may take up. -/
  release : Path → Prop
  path_of_record : ∀ {p r}, record p r → path p
  content_of_record : ∀ {p r}, record p r → content p r.manifest
  content_empty : ∀ {p}, path p → content p .empty
  apply_tombstone : ∀ {p r}, record p r → r.deleted = true → apply p r

namespace Guard

/-- Everything passes. -/
def all : Guard Id Path where
  path _ := True
  record _ _ := True
  content _ _ := True
  apply _ _ := True
  commit _ := True
  release _ := True
  path_of_record _ := trivial
  content_of_record _ := trivial
  content_empty _ := trivial
  apply_tombstone _ _ := trivial

/-- New keys of a map have passed the guard. -/
def Extends (g : Guard Id Path) {ν : Type} (m m' : Map Path ν) : Prop :=
  ∀ p : Path, m'.contains p = true → m.contains p = true ∨ g.path p

/-- All keys of a map have passed the guard. -/
def Keys (g : Guard Id Path) {ν : Type} (m : Map Path ν) : Prop :=
  ∀ p : Path, m.contains p = true → g.path p

/-- All records in the books on the peers have passed the guard. -/
def Records (g : Guard Id Path) (m : Map Path (FileRecord Id)) : Prop :=
  ∀ (p : Path) r, m[p]? = some r → g.record p r

variable {g : Guard Id Path} {ν : Type} {m m' : Map Path ν}

theorem Extends.refl : g.Extends m m := fun _ h => .inl h

theorem Extends.insert {rel : Path} (hp : g.path rel) (v : ν) :
    g.Extends m (m.insert rel v) := by
  intro p h
  rcases Map.contains_insert_iff.mp h with rfl | h
  · exact .inr hp
  · exact .inl h

theorem Extends.erase (rel : Path) : g.Extends m (m.erase rel) :=
  fun _ h => .inl (Map.contains_erase_iff.mp h).2

theorem contains_of_filter {κ ν : Type} [LinearOrder κ] {m : Map κ ν} {f : κ → ν → Bool} {k : κ}
    (h : (m.filter f).contains k = true) : m.contains k = true := by
  rw [Map.contains_eq, Option.isSome_iff_exists] at h
  obtain ⟨v, hv⟩ := h
  rw [Std.ExtTreeMap.getElem?_filter', Option.filter_eq_some_iff] at hv
  exact Map.contains_of_get hv.1

theorem Extends.filter (f : Path → ν → Bool) : g.Extends m (m.filter f) :=
  fun _ h => .inl (contains_of_filter h)

theorem Keys.extend (h : g.Keys m) (he : g.Extends m m') : g.Keys m' :=
  fun p hp => (he p hp).elim (h p) id

theorem Keys.of_get (h : g.Keys m) {p : Path} {v : ν} (hp : m[p]? = some v) : g.path p :=
  h p (Map.contains_of_get hp)

theorem Records.insert {m : Map Path (FileRecord Id)} (h : g.Records m) {rel : Path}
    {record : FileRecord Id} (hr : g.record rel record) : g.Records (m.insert rel record) := by
  intro p r hp
  rw [Map.get_insert] at hp
  split at hp
  · rename_i heq
    subst heq
    cases hp
    exact hr
  · exact h p r hp

theorem Records.empty : g.Records (∅ : Map Path (FileRecord Id)) := by
  intro p r hp
  simp at hp

end Guard

/-- The task has passed the guard. -/
def Task.Within (g : Guard Id Path) : Task Id Path → Prop
  | .inspect rel _ _ | .publish rel _ | .pullTimer rel | .violation rel _ _ | .autolock rel _
  | .revert rel _ _ | .conflictApply rel _ _ | .acquireTimer rel _ => g.path rel
  | .pull rel _ record => g.record rel record
  | .restore rel entry _ => g.path rel ∧ g.content rel entry.manifest

namespace Actor

/-! ## States that have passed the guard -/

/-- **Everything in the state has passed the guard.** -/
structure Within (g : Guard Id Path) (a : Actor Id Path) : Prop where
  files : ∀ (p : Path) r, a.files[p]? = some r → g.path p ∧ g.content p r.manifest
  history : ∀ (p : Path) l, a.history[p]? = some l → ∀ e ∈ l, g.content p e.manifest
  unapplied : g.Keys a.unapplied
  pulling : g.Keys a.pulling
  index : ∀ (id : Id) m, a.peerIndex[id]? = some m → g.Records m
  staging : ∀ (id : Id) m, a.indexStaging[id]? = some m → g.Records m.2
  pending : ∀ (p : Path) job, a.pendingPulls[p]? = some job → g.record p job.record ∧
    ∀ x, job.queued = some x → g.record p x.2
  backlog : ∀ e ∈ a.pullBacklog, g.record e.1 e.2.2
  deferred : ∀ (p : Path) d, a.deferred[p]? = some d → g.record p d.record
  busy : g.Keys a.busy
  recheck : g.Keys a.recheck
  acquires : g.Keys a.pendingAcquires
  autolocks : g.Keys a.autolockPending
  interest : g.Keys a.interest
  locks : g.Keys a.locks.states
  tasks : ∀ t ∈ a.tasks, t.Within g

/-- The deferred records that this turn may take up may be applied. -/
def MayRelease (g : Guard Id Path) (a : Actor Id Path) : Prop :=
  ∀ (p : Path) d, a.deferred[p]? = some d → g.release p → g.apply p d.record

/-! ## Moves -/

/-- One change. -/
inductive Move (g : Guard Id Path) (a : Actor Id Path) : Actor Id Path → Prop
  /-- Parts of the state that no guard is about. -/
  | misc config peers peerRoles indexReceived lamport pendingUnlocks myWaits autolockIdle
      ignoreRules heldLocal muted disk conflicts replies journal known skipped opened :
      Move g a { a with
        config := config, peers := peers, peerRoles := peerRoles
        indexReceived := indexReceived, lamport := lamport, pendingUnlocks := pendingUnlocks
        myWaits := myWaits, autolockIdle := autolockIdle, ignoreRules := ignoreRules
        heldLocal := heldLocal, muted := muted, disk := disk, conflicts := conflicts
        replies := replies, journal := journal, known := known, skipped := skipped
        opened := opened }
  /-- Records are sent only as they are committed, and in indexes. -/
  | sends sent (hs : ∀ e ∈ sent, e ∈ a.sent ∨ e.2.isFileMeta = false) : Move g a { a with sent }
  | marks busy recheck (hb : g.Extends a.busy busy) (hr : g.Extends a.recheck recheck) :
      Move g a { a with busy, recheck }
  | rounds pendingAcquires autolockPending (hp : g.Extends a.pendingAcquires pendingAcquires)
      (ha : g.Extends a.autolockPending autolockPending) :
      Move g a { a with pendingAcquires, autolockPending }
  | interest interest (hi : g.Extends a.interest interest) : Move g a { a with interest }
  | locks locks (hl : g.Extends a.locks.states locks.states) : Move g a { a with locks }
  | unapplied unapplied (hu : g.Extends a.unapplied unapplied) : Move g a { a with unapplied }
  | pulling pulling (hp : g.Extends a.pulling pulling) : Move g a { a with pulling }
  | history history (hh : ∀ (p : Path) l, history[p]? = some l → ∀ e ∈ l,
      g.content p e.manifest) : Move g a { a with history }
  | books peerIndex indexStaging
      (hi : ∀ (id : Id) m, peerIndex[id]? = some m → g.Records m)
      (hs : ∀ (id : Id) m, indexStaging[id]? = some m → g.Records m.2) :
      Move g a { a with peerIndex, indexStaging }
  | spawn t (ht : t.Within g) : Move g a (a.spawn t)
  | defer rel d (hd : g.record rel d.record) (ha : g.release rel → g.apply rel d.record) :
      Move g a { a with deferred := a.deferred.insert rel d }
  | takeUp rel : Move g a { a with deferred := a.deferred.erase rel }
  | schedule rel sender record (hr : g.record rel record) :
      Move g a (a.schedulePull rel sender record)
  | finish rel : Move g a (a.finishPull rel)
  | retried rel job (hj : a.pendingPulls[rel]? = some job) :
      Move g a { a with pendingPulls :=
        a.pendingPulls.insert rel { job with attempts := job.attempts + 1 } }
  | restart rel job (hj : a.pendingPulls[rel]? = some job) :
      Move g a (a.startPull rel job.sender job.record)
  | applied rel record staged (hr : g.record rel record) (ha : g.apply rel record) :
      Move g a (a.commitApplied rel record staged)
  /-- A record of our own that goes on from the one in the index. -/
  | committed kind rel record (hp : g.path rel) (hv : record.vv = VClock.inc (a.vvOf rel) a.me)
      (hm : g.content rel record.manifest) (hc : record.deleted = true ∨ g.commit rel) :
      Move g a (a.commitLocal kind rel record)
  /-- Our copy is asserted against a concurrent record of a peer. -/
  | reasserted rel mine record (updatedAtMs : U64) (hf : a.files[rel]? = some mine)
      (hr : g.record rel record) :
      Move g a (a.commitLocal .reassert rel { mine with
        vv := VClock.inc (VClock.merge mine.vv record.vv) a.me, updatedAtMs })

/-! ### Moves keep to the guard -/

namespace Within

variable {g : Guard Id Path} {a : Actor Id Path} {rel : Path} {sender : Id}
  {record : FileRecord Id}

/-- A job that is written into the table. -/
theorem job (hw : Within g a) {job : PullJob Id} (hr : g.record rel job.record)
    (hq : ∀ x, job.queued = some x → g.record rel x.2) :
    Within g { a with pendingPulls := a.pendingPulls.insert rel job } := by
  refine { hw with pending := fun p j hj => ?_ }
  change (a.pendingPulls.insert rel job)[p]? = some j at hj
  rw [Map.get_insert] at hj
  split at hj
  · rename_i heq
    subst heq
    cases hj
    exact ⟨hr, hq⟩
  · exact hw.pending p j hj

theorem start (hw : Within g a) (hr : g.record rel record) :
    Within g (a.startPull rel sender record) := by
  have htasks : ∀ t ∈ a.tasks ++ [.pull rel sender record], t.Within g := by
    intro t ht
    rcases List.mem_append.mp ht with ht | ht
    · exact hw.tasks t ht
    · rw [List.mem_singleton.mp ht]
      exact hr
  unfold startPull
  split
  · exact { hw with tasks := htasks }
  · exact { hw with
      tasks := htasks, pulling := hw.pulling.extend (.insert (g.path_of_record hr) _) }

theorem begin (hw : Within g a) (hr : g.record rel record) :
    Within g (a.beginPull rel sender record) :=
  (hw.job hr (by rintro x ⟨⟩)).start hr

theorem journal (hw : Within g a) (journal : List (Effect Id Path)) :
    Within g { a with journal } := { hw with }

theorem enqueue (hw : Within g a) (hr : g.record rel record) :
    Within g (a.enqueuePullBacklog rel sender record) := by
  unfold enqueuePullBacklog
  split
  · refine { hw with backlog := fun e he => ?_ }
    rcases List.mem_or_eq_of_mem_set he with he | rfl
    · exact hw.backlog e he
    · exact hr
  · split
    · refine { hw with backlog := fun e he => ?_ }
      rcases List.mem_append.mp he with he | he
      · exact hw.backlog e he
      · rw [List.mem_singleton.mp he]
        exact hr
    · exact hw.journal _

theorem schedule (hw : Within g a) (hr : g.record rel record) :
    Within g (a.schedulePull rel sender record) := by
  unfold schedulePull
  split
  · rename_i job hjob
    split
    · exact hw
    · refine (hw.journal _).job (hw.pending rel job hjob).1 ?_
      rintro x ⟨⟩
      exact hr
  · split
    · exact hw.enqueue hr
    · exact hw.begin hr

/-- The entry that is picked is one of the backlog. -/
theorem mem_of_minByKey {α κ : Type} [LT κ] [DecidableLT κ] {key : α → κ} {l : List α} {i : Nat}
    {x : α} (h : minByKey key l = some (i, x)) : l[i]? = some x := by
  induction l generalizing i x with
  | nil => cases h
  | cons y l ih =>
      rw [minByKey] at h
      split at h
      · cases h
        rfl
      · rename_i j z hrest
        split at h
        · cases h
          exact ih hrest
        · cases h
          rfl

theorem drain (hw : Within g a) (n : Nat) : Within g (drainLoop n a) := by
  induction n generalizing a with
  | zero => exact hw
  | succ n ih =>
      unfold drainLoop
      split
      · split
        · exact hw
        · rename_i i rel sender record hpick
          have hin : (rel, sender, record) ∈ a.pullBacklog :=
            List.mem_of_getElem? (mem_of_minByKey hpick)
          have hout : Within g { a with pullBacklog := a.pullBacklog.eraseIdx i } :=
            { hw with backlog := fun e he => hw.backlog e (List.mem_of_mem_eraseIdx he) }
          dsimp only
          split
          · exact ih (hout.journal _)
          · exact ih (hout.begin (hw.backlog _ hin))
      · exact hw

theorem next (hw : Within g a) (rel : Path) : Within g (a.nextPull rel) := by
  unfold nextPull
  split
  · exact hw
  · rename_i job hjob
    dsimp only
    have hover : ∀ b : Actor Id Path, Within g b →
        Within g { b with pendingPulls := b.pendingPulls.erase rel } := by
      intro b hb
      refine { hb with pending := fun p j hj => ?_ }
      change (b.pendingPulls.erase rel)[p]? = some j at hj
      rw [Map.get_erase] at hj
      split at hj
      · cases hj
      · exact hb.pending p j hj
    have hlet : Within g (if a.isPulling rel job.sender job.record then a
        else a.letGo rel job.sender job.record) := by
      split
      · exact hw
      · exact hw.journal _
    split
    · rename_i sender record hqueued
      exact (hover _ hlet).begin ((hw.pending rel job hjob).2 _ hqueued)
    · exact hover _ hlet

theorem finish (hw : Within g a) (rel : Path) : Within g (a.finishPull rel) :=
  (hw.next rel).drain _

/-- A record is written into the index. -/
theorem file (hw : Within g a) (hp : g.path rel) (hm : g.content rel record.manifest) :
    ∀ (p : Path) r, (a.files.insert rel record)[p]? = some r →
      g.path p ∧ g.content p r.manifest := by
  intro p r hr
  rw [Map.get_insert] at hr
  split at hr
  · rename_i heq
    subst heq
    cases hr
    exact ⟨hp, hm⟩
  · exact hw.files p r hr

theorem move {b : Actor Id Path} (hw : Within g a) (hm : Move g a b) : Within g b := by
  cases hm with
  | marks busy recheck hb hr =>
      exact { hw with busy := hw.busy.extend hb, recheck := hw.recheck.extend hr }
  | rounds acquires autolocks hp ha =>
      exact { hw with acquires := hw.acquires.extend hp, autolocks := hw.autolocks.extend ha }
  | interest interest hi => exact { hw with interest := hw.interest.extend hi }
  | locks locks hl => exact { hw with locks := hw.locks.extend hl }
  | unapplied unapplied hu => exact { hw with unapplied := hw.unapplied.extend hu }
  | pulling pulling hp => exact { hw with pulling := hw.pulling.extend hp }
  | history history hh => exact { hw with history := hh }
  | books index staging hi hs => exact { hw with index := hi, staging := hs }
  | spawn t ht =>
      refine { hw with tasks := fun t' ht' => ?_ }
      rcases List.mem_append.mp ht' with ht' | ht'
      · exact hw.tasks t' ht'
      · rw [List.mem_singleton.mp ht']
        exact ht
  | defer rel d hd ha =>
      refine { hw with deferred := fun p d' hd' => ?_ }
      change (a.deferred.insert rel d)[p]? = some d' at hd'
      rw [Map.get_insert] at hd'
      split at hd'
      · rename_i heq
        subst heq
        cases hd'
        exact hd
      · exact hw.deferred p d' hd'
  | takeUp rel =>
      refine { hw with deferred := fun p d hd => ?_ }
      change (a.deferred.erase rel)[p]? = some d at hd
      rw [Map.get_erase] at hd
      split at hd
      · cases hd
      · exact hw.deferred p d hd
  | schedule rel sender record hr => exact hw.schedule hr
  | finish rel => exact hw.finish rel
  | retried rel job hj => exact hw.job (hw.pending rel job hj).1 (hw.pending rel job hj).2
  | restart rel job hj => exact hw.start (hw.pending rel job hj).1
  | applied rel record staged hr ha =>
      have hm : g.content rel record.manifest := g.content_of_record hr
      exact { hw with
        files := hw.file (g.path_of_record hr) hm
        pulling := hw.pulling.extend (.erase rel) }
  | committed kind rel record hp hv hm hc => exact { hw with files := hw.file hp hm }
  | reasserted rel mine record updatedAtMs hf hr =>
      exact { hw with files := hw.file (hw.files rel mine hf).1 (hw.files rel mine hf).2 }
  | misc | sends => exact { hw with }

end Within

/-! ### What is deferred -/

theorem MayRelease.move {g : Guard Id Path} {a b : Actor Id Path} (hd : MayRelease g a)
    (hm : Move g a b) : MayRelease g b := by
  cases hm with
  | defer rel d _ ha =>
      intro p d' hd' hp
      change (a.deferred.insert rel d)[p]? = some d' at hd'
      rw [Map.get_insert] at hd'
      split at hd'
      · rename_i heq
        subst heq
        cases hd'
        exact ha hp
      · exact hd p d' hd' hp
  | takeUp rel =>
      intro p d hd' hp
      change (a.deferred.erase rel)[p]? = some d at hd'
      rw [Map.get_erase] at hd'
      split at hd'
      · cases hd'
      · exact hd p d hd' hp
  | schedule rel sender record _ =>
      unfold MayRelease
      rw [(schedulePull_onPulls a rel sender record).deferred]
      exact hd
  | finish rel =>
      unfold MayRelease
      rw [(finishPull_onPulls a rel).deferred]
      exact hd
  | restart rel job _ =>
      unfold MayRelease
      rw [(startPull_onPulls a rel job.sender job.record).deferred]
      exact hd
  | _ => exact hd

/-! ## Invariants that moves keep -/

/-- A property of guarded states that every move keeps. -/
structure Kept (g : Guard Id Path) (P : Actor Id Path → Prop) : Prop where
  within : ∀ {a}, P a → Within g a
  release : ∀ {a}, P a → MayRelease g a
  move : ∀ {a b}, P a → Move g a b → P b

/-- Such properties come from what moves keep in guarded states. -/
theorem Kept.of {g : Guard Id Path} {Q : Actor Id Path → Prop}
    (hQ : ∀ {a b}, Within g a → Q a → Move g a b → Q b) :
    Kept g fun a => (Within g a ∧ MayRelease g a) ∧ Q a where
  within h := h.1.1
  release h := h.1.2
  move h hm := ⟨⟨h.1.1.move hm, h.1.2.move hm⟩, hQ h.1.1 h.2 hm⟩

namespace Kept

variable {g : Guard Id Path} {P : Actor Id Path → Prop} (k : Kept g P) {a b : Actor Id Path}

include k

theorem onDisk (ha : P a) (h : OnDisk a b) : P b := by
  obtain ⟨_, _, _, _, _, _, rfl⟩ := h
  exact k.move ha (.misc ..)

theorem marked (ha : P a) {busy : Map Path Unit} (hb : g.Extends a.busy busy) :
    P { a with busy } :=
  k.move ha (.marks busy a.recheck hb .refl)

/-- A path is marked for as long as the task runs. -/
theorem begun (ha : P a) {rel : Path} (hp : g.path rel) {t : Task Id Path} (ht : t.Within g) :
    P (({ a with busy := a.busy.insert rel () } : Actor Id Path).spawn t) :=
  k.move (k.marked ha (.insert hp _)) (.spawn t ht)

omit k in
theorem foldl {α : Type} {f : Actor Id Path → α → Actor Id Path} {l : List α} (ha : P a)
    (hf : ∀ b, ∀ x ∈ l, P b → P (f b x)) : P (l.foldl f a) := by
  induction l generalizing a with
  | nil => exact ha
  | cons x l ih =>
      exact ih (hf a x List.mem_cons_self ha) fun b y hy => hf b y (List.mem_cons_of_mem x hy)

end Kept

end Actor

end Tazamun
