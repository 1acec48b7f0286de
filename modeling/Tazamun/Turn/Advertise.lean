import Tazamun.Index.Sizes
import Tazamun.Turn.Runs
import Tazamun.Turn.Steady

set_option autoImplicit false

/-! # Records that can be advertised

The wire boundary rejects a record with more than `MAX_VV_ENTRIES` entries, so that every
stored record fits a frame. What it looks at is the record that comes in. What is stored is the
merge of that record with the one in the index, and our own increments on top; and of the
lengths of the ids and of the manifest it takes no notice.

So the limit holds if it holds of everything a path can come to. A `Ceiling` gives each path
the writers it may have, ourselves among them, with their largest counters, and asks that they
are few enough and leave room in a frame. In a run in which all accepted records stay under the
ceiling, every record in the index and every announcement fits (`records_advertisable`). Two
writers with long names are enough to leave it: each record fits a frame, and their merge
fits none (`advertise_oversized`).
-/

namespace Tazamun

open Lib Transfer

variable {Id Path : Type} [LinearOrder Id] [LinearOrder Path]

/-! ## What fits -/

/-- The entries of an index or of an announcement. -/
def Msg.entries : Msg Id Path → List (Path × FileRecord Id)
  | .index _ files _ | .indexPart _ _ _ files _ => files
  | .fileMeta rel record _ => [(rel, record)]
  | _ => []

/-- The record fits a frame with its path, alone in an announcement or in an index part, and
the receiver accepts it. -/
structure Advertisable (h : Host Id Path) (rel : Path) (record : FileRecord Id) : Prop where
  fileMeta : ∀ lamport, h.encodedLen (.fileMeta rel record lamport) ≤ maxFrame
  part : ∀ seq last lamport,
    h.encodedLen (.indexPart seq last lamport [(rel, record)] []) ≤ maxFrame
  fits : fits h (rel, record) = true
  vv : record.vv.size ≤ maxVvEntries

/-- **The splitter leaves nothing out** of an index whose entries all fit a frame. -/
theorem splitIndexParts_entries {h : Host Id Path} (lamport : U64)
    {files : Map Path (FileRecord Id)} (leases : List (LeaseInfo Id Path))
    (hfit : ∀ e ∈ files.toList, fits h e = true) :
    (splitIndexParts h lamport files leases).flatMap Msg.entries = files.toList := by
  by_cases hwhole : h.encodedLen (.index lamport files.toList leases) ≤ maxFrame
  · rw [splitIndexParts, if_pos hwhole, List.flatMap_singleton]
    rfl
  · obtain ⟨bs, kept, heq, hflat, -⟩ := splitIndexParts_eq lamport files leases hwhole
    have hstream : ∀ (bs : List (List (Path × FileRecord Id))) k,
        (partStream lamport kept k bs).flatMap Msg.entries = bs.flatten := by
      intro bs
      induction bs with
      | nil => exact fun _ => rfl
      | cons b bs ih =>
          intro k
          rw [partStream_cons, List.flatMap_cons, ih (k + 1), List.flatten_cons]
          rfl
    rw [heq, hstream, hflat, List.filter_eq_self.mpr hfit]

/-! ## Ceilings -/

section Ceilings

variable (h : Host Id Path) (names : NameLens Id Path) (top : Path → VClock Id)

/-- A record of the path with such a manifest and the largest vector fits a frame: the bytes
of its numbers are 21, and the splitter counts 258 for the envelope. -/
def HasRoom (rel : Path) (manifest : Nat) : Prop :=
  names.path rel + manifest + names.clockLen (top rel) + 279 ≤ maxFrame

/-- What the paths can come to: the ceiling has few enough writers, us among them without a
limit, and leaves room for our own manifests. -/
structure Ceiling (me : Id) : Prop where
  own : ∀ rel, (top rel)[me]? = some U64.max
  count : ∀ rel, (top rel).size ≤ maxVvEntries
  room : ∀ rel, h.sanitize rel = true → HasRoom names top rel ownManifestLen

/-- The record stays under the ceiling of its path. -/
structure StaysUnder (rel : Path) (record : FileRecord Id) : Prop where
  vv : VClock.Under record.vv (top rel)
  room : HasRoom names top rel (manifestLen record.manifest)

/-- The records that the wire boundary accepts stay under the ceiling. Watch events come with
sanitized paths. -/
def StepsUnder (_ : Actor Id Path) (s : Env Path × Act Id Path) : Prop :=
  match s.2 with
  | .event (.msg _ m) => ∀ e ∈ m.entries, recordAcceptable e.2 = true → h.sanitize e.1 = true →
      StaysUnder names top e.1 e.2
  | .event (.watch rel) => h.sanitize rel = true
  | _ => True

/-- So does what is on disk when the daemon starts. -/
structure StartsUnder (p : Actor.Persisted Id Path) : Prop where
  files : ∀ (rel : Path) record, p.files[rel]? = some record →
    h.sanitize rel = true ∧ StaysUnder names top rel record
  history : ∀ (rel : Path) l, p.history[rel]? = some l →
    ∀ e ∈ l, HasRoom names top rel (manifestLen e.manifest)
  unapplied : ∀ rel : Path, p.unapplied.contains rel = true → h.sanitize rel = true
  pulling : ∀ rel : Path, p.pulling.contains rel = true → h.sanitize rel = true

/-- The guard of a ceiling. -/
def Guard.under : Guard Id Path where
  path rel := h.sanitize rel = true ∧ HasRoom names top rel (manifestLen .empty)
  record rel record := (h.sanitize rel = true ∧ HasRoom names top rel (manifestLen .empty)) ∧
    StaysUnder names top rel record
  content rel manifest := HasRoom names top rel (manifestLen manifest)
  apply rel record := StaysUnder names top rel record
  commit _ := True
  release _ := True
  path_of_record h := h.1
  content_of_record h := h.2.room
  content_empty h := h.2
  apply_tombstone h _ := h.2

theorem Guard.under_steady : (Guard.under h names top).Steady :=
  ⟨fun _ _ hr => hr.2, fun _ => trivial, fun _ => trivial⟩

end Ceilings

variable {h : Host Id Path} {names : NameLens Id Path} {top : Path → VClock Id} {me : Id}
  {leaseLen : LeaseInfo Id Path → Nat}

omit [LinearOrder Path] in
/-- **What stays under the ceiling can be advertised.** -/
theorem StaysUnder.advertisable (hp : h.Postcard leaseLen) (hw : h.Wire names)
    (hc : Ceiling h names top me) {rel : Path} {record : FileRecord Id}
    (hu : StaysUnder names top rel record) : Advertisable h rel record := by
  have hroom : names.path rel + manifestLen record.manifest + names.clockLen (top rel) + 279 ≤
    maxFrame := hu.room
  have hlen : names.recordLen record ≤
      manifestLen record.manifest + names.clockLen (top rel) + 21 := recordLen_le hu.vv
  have hentry : h.entryLen (rel, record) + 258 ≤ maxFrame := by
    rw [hw.entry]
    show names.path rel + names.recordLen record + 258 ≤ maxFrame
    omega
  refine ⟨fun lamport => ?_, fun seq last lamport => ?_, decide_eq_true hentry,
    hu.vv.size_le.trans (hc.count rel)⟩
  · have hlamport := varintLen_u64 lamport
    rw [hw.fileMeta]
    omega
  · refine (encodedLen_part_le hp seq last lamport _).trans ?_
    show 256 + (h.entryLen (rel, record) + 2 + 0) ≤ maxFrame
    omega

omit [LinearOrder Path] in
theorem HasRoom.mono {rel : Path} {n m : Nat} (hr : HasRoom names top rel m) (hle : n ≤ m) :
    HasRoom names top rel n := by
  unfold HasRoom at hr ⊢
  omega

theorem Ceiling.path (hc : Ceiling h names top me) {rel : Path} (hs : h.sanitize rel = true) :
    (Guard.under h names top).path rel := by
  refine ⟨hs, (hc.room rel hs).mono ?_⟩
  show 1 + seqLen chunkLen [] ≤ ownManifestLen
  rw [seqLen_nil]
  unfold ownManifestLen inlineManifestMax
  omega

namespace Actor

variable {env : Env Path} {a b : Actor Id Path}

/-! ## Runs under a ceiling -/

/-- The vectors in the index are under the ceiling, and what was announced fits. -/
structure KeepsUnder (h : Host Id Path) (top : Path → VClock Id) (me : Id)
    (a : Actor Id Path) : Prop where
  me : a.me = me
  files : ∀ (rel : Path) record, a.files[rel]? = some record → VClock.Under record.vv (top rel)
  sent : ∀ dst rel record lamport, (dst, .fileMeta rel record lamport) ∈ a.sent →
    Advertisable h rel record

theorem KeepsUnder.insert (hk : KeepsUnder h top me a) {rel : Path} {record : FileRecord Id}
    (hu : VClock.Under record.vv (top rel)) :
    ∀ (p : Path) r, (a.files.insert rel record)[p]? = some r → VClock.Under r.vv (top p) := by
  intro p r hp
  rw [Map.get_insert] at hp
  split at hp
  · rename_i heq
    subst heq
    cases hp
    exact hu
  · exact hk.files p r hp

theorem KeepsUnder.vvOf (hk : KeepsUnder h top me a) (rel : Path) :
    VClock.Under (a.vvOf rel) (top rel) := by
  unfold Actor.vvOf
  cases hprev : a.files[rel]? with
  | none => exact .empty
  | some prev => exact hk.files rel prev hprev

/-- A commit of our own is announced as it is stored. -/
theorem KeepsUnder.commit (hp : h.Postcard leaseLen) (hw : h.Wire names)
    (hc : Ceiling h names top me) (hk : KeepsUnder h top me a) (kind : CommitKind) {rel : Path}
    {record : FileRecord Id} (hu : StaysUnder names top rel record) :
    KeepsUnder h top me (a.commitLocal kind rel record) := by
  refine ⟨hk.me, hk.insert hu.vv, fun dst p r lamport hin => ?_⟩
  rcases List.mem_append.mp hin with hin | hin
  · exact hk.sent dst p r lamport hin
  · obtain ⟨id, -, heq⟩ := List.mem_map.mp hin
    cases heq
    exact hu.advertisable hp hw hc

theorem KeepsUnder.pulls (hk : KeepsUnder h top me a) (hb : OnPulls a b) :
    KeepsUnder h top me b := by
  obtain ⟨_, _, _, _, _, rfl⟩ := hb
  exact ⟨hk.me, hk.files, hk.sent⟩

/-- Merging and increments stay under the ceiling. -/
theorem KeepsUnder.move (hp : h.Postcard leaseLen) (hw : h.Wire names)
    (hc : Ceiling h names top me) (hin : Within (Guard.under h names top) a)
    (hk : KeepsUnder h top me a) (hm : Move (Guard.under h names top) a b) :
    KeepsUnder h top me b := by
  have hown : ∀ rel, (top rel)[a.me]? = some U64.max := fun rel => by
    rw [hk.me]
    exact hc.own rel
  cases hm with
  | applied rel record staged hr _ =>
      refine ⟨hk.me, hk.insert ?_, hk.sent⟩
      show VClock.Under (a.appliedVv rel record) (top rel)
      unfold appliedVv
      cases hprev : a.files[rel]? with
      | none => exact hr.2.vv
      | some prev => exact (hk.files rel prev hprev).merge hr.2.vv
  | committed kind rel record _ hv hroom _ =>
      refine hk.commit hp hw hc kind ⟨?_, hroom⟩
      rw [hv]
      exact (hk.vvOf rel).inc (hown rel)
  | reasserted rel mine record updatedAtMs hf hr =>
      have hmerged := (hk.files rel mine hf).merge hr.2.vv
      exact hk.commit hp hw hc .reassert ⟨hmerged.inc (hown rel), (hin.files rel mine hf).2⟩
  | sends sent hs =>
      refine ⟨hk.me, hk.files, fun dst rel record lamport hsent => ?_⟩
      rcases hs _ hsent with hold | hno
      · exact hk.sent dst rel record lamport hold
      · cases hno
  | schedule rel sender record _ => exact hk.pulls (schedulePull_onPulls a rel sender record)
  | finish rel => exact hk.pulls (finishPull_onPulls a rel)
  | restart rel job _ => exact hk.pulls (startPull_onPulls a rel job.sender job.record)
  | _ => exact ⟨hk.me, hk.files, hk.sent⟩

/-- The wire boundary and the sanitizer let through what the guard does. -/
theorem StepsUnder.admits (hc : Ceiling h names top me) {s : Env Path × Act Id Path}
    (hs : StepsUnder h names top a s) : Admits (Guard.under h names top) h a s := by
  have hpath : ∀ {rel : Path}, h.sanitize rel = true → (Guard.under h names top).path rel :=
    fun h => hc.path h
  obtain ⟨env, act⟩ := s
  rintro ev rfl hext
  cases ev with
  | msg id m =>
      cases m with
      | index lamport files leases | indexPart seq last lamport files leases =>
          exact ⟨fun e he hacc hclean => ⟨hpath hclean, hs e he hacc hclean⟩,
            fun l _ hclean => hpath hclean⟩
      | fileMeta rel record lamport =>
          exact fun hacc hclean =>
            ⟨hpath hclean, hs (rel, record) List.mem_cons_self hacc hclean⟩
      | lock m => exact fun hclean => ⟨hpath hclean, fun _ => trivial⟩
      | lockInterest rel => exact fun hclean => hpath hclean
      | _ => exact trivial
  | watch rel => exact hpath hs
  | ipc req reply =>
      cases req <;> first | exact trivial | exact fun hclean => hpath hclean
  | sweep => exact fun _ _ => trivial
  | authed | gone | renew => exact trivial
  | _ => cases hext

/-- **Stored records stay advertisable** in every run whose records stay under a ceiling: each
fits a frame with its path, so the splitter leaves none out, and so does each announcement. -/
theorem records_advertisable (h : Host Id Path) (names : NameLens Id Path)
    (leaseLen : LeaseInfo Id Path → Nat) (hp : h.Postcard leaseLen) (hw : h.Wire names) (me : Id)
    (top : Path → VClock Id) (hc : Ceiling h names top me) (env : Env Path)
    (p : Persisted Id Path) (hstart : StartsUnder h names top p) (founding : Bool)
    (a : Actor Id Path)
    (hrun : Reaches (step h) (StepsUnder h names top) (boot h env me p founding) a) :
    (∀ (rel : Path) record, a.files[rel]? = some record → Advertisable h rel record) ∧
    (∀ lamport leases,
      (splitIndexParts h lamport a.files leases).flatMap Msg.entries = a.files.toList) ∧
    ∀ dst rel record lamport, (dst, .fileMeta rel record lamport) ∈ a.sent →
      h.encodedLen (.fileMeta rel record lamport) ≤ maxFrame := by
  have hheld : Held (Guard.under h names top) (KeepsUnder h top me) :=
    ⟨fun hin hk hm => hk.move hp hw hc hin hm, fun _ _ hk => ⟨hk.me, hk.files, hk.sent⟩⟩
  have hwithin : p.Within (Guard.under h names top) h := by
    refine ⟨fun rel record hr => ?_, hstart.history, fun rel hin => hc.path (hstart.unapplied rel hin),
      fun rel hin => hc.path (hstart.pulling rel hin), fun rel _ hclean => hc.path hclean⟩
    obtain ⟨hclean, hu⟩ := hstart.files rel record hr
    exact ⟨hc.path hclean, hu.room⟩
  have hpublish : ∀ rel bytes, (Guard.under h names top).path rel →
      (Guard.under h names top).content rel (h.manifestOf bytes) :=
    fun rel bytes hrel => (hc.room rel hrel.1).mono (hw.manifest bytes)
  have hload : KeepsUnder h top me (load h me p) := by
    refine ⟨rfl, fun rel record hr => (hstart.files rel record hr).2.vv, ?_⟩
    rintro dst rel record lamport ⟨⟩
  have hsteady := reached_steady hheld (Guard.under_steady h names top) hpublish
    (fun b s hs => StepsUnder.admits hc hs) hwithin hload hrun
  have hfiles : ∀ (rel : Path) record, a.files[rel]? = some record →
      Advertisable h rel record := by
    intro rel record hr
    have hu : StaysUnder names top rel record :=
      ⟨hsteady.holds.files rel record hr, (hsteady.within.files rel record hr).2⟩
    exact hu.advertisable hp hw hc
  refine ⟨hfiles, fun lamport leases => ?_, fun dst rel record lamport hsent => ?_⟩
  · exact splitIndexParts_entries lamport leases fun e he =>
      (hfiles e.1 e.2 (Map.mem_toList.mp he)).fits
  · exact (hsteady.holds.sent dst rel record lamport hsent).fileMeta lamport

/-! ## Two writers -/

/-- The host of a node with names of the given lengths: the lengths of the messages are those
of the format, and manifests of more than 256 chunks are blobs. -/
def wireHost (names : NameLens Nat Nat) : Host Nat Nat :=
  { plainHost with
    manifestOf := fun bytes =>
      if bytes.length ≤ inlineManifestMax then plainHost.manifestOf bytes else .blob 0
    entryLen := fun e => names.path e.1 + names.recordLen e.2
    encodedLen := fun
      | .index lamport files leases => 1 + varintLen lamport.val +
          seqLen (fun e => names.path e.1 + names.recordLen e.2) files +
          seqLen (fun _ => 100) leases
      | .indexPart seq _ lamport files leases => 1 + varintLen (seq % 2 ^ 32) + 1 +
          varintLen lamport.val + seqLen (fun e => names.path e.1 + names.recordLen e.2) files +
          seqLen (fun _ => 100) leases
      | .fileMeta rel record lamport =>
          1 + (names.path rel + names.recordLen record) + varintLen lamport.val
      | _ => 1 }

theorem wireHost_postcard (names : NameLens Nat Nat) :
    (wireHost names).Postcard fun _ => 100 :=
  ⟨fun _ _ _ => rfl, fun _ _ _ _ _ => rfl⟩

theorem wireHost_wire (names : NameLens Nat Nat) : (wireHost names).Wire names := by
  refine ⟨fun _ => rfl, fun _ _ _ => rfl, fun bytes => ?_⟩
  show manifestLen (if bytes.length ≤ inlineManifestMax then plainHost.manifestOf bytes
    else .blob 0) ≤ ownManifestLen
  split
  · rename_i hshort
    have hsum : ((bytes.map fun b => (⟨b.toNat, 1⟩ : ChunkRef)).map chunkLen).sum =
        bytes.length * 33 := by
      rw [List.map_map, show chunkLen ∘ (fun b : UInt8 => (⟨b.toNat, 1⟩ : ChunkRef)) =
        fun _ => 33 from rfl, List.map_const', List.sum_replicate, smul_eq_mul]
    have hcount := varintLen_mono hshort
    show 1 + seqLen chunkLen (bytes.map fun b => (⟨b.toNat, 1⟩ : ChunkRef)) ≤ ownManifestLen
    unfold seqLen ownManifestLen
    rw [hsum, List.length_map]
    omega
  · show 33 ≤ ownManifestLen
    unfold ownManifestLen inlineManifestMax
    omega

/-- The writers other than us have names of three million bytes. -/
def longNames : NameLens Nat Nat where
  id k := if k = 0 then 66 else 3000000
  path _ := 2

/-- Node 1 announces a version of path 5 by one writer. -/
def announceOf (writer : Nat) : Msg Nat Nat :=
  .fileMeta 5 (plainRecord 8 ((∅ : VClock Nat).insert writer 1)) 0

/-- Two concurrent versions are announced, each of which fits a frame and is accepted. What
is stored in the end fits none, and the splitter leaves it out. -/
theorem advertise_oversized :
    (∀ writer ∈ [1, 2], (wireHost longNames).encodedLen (announceOf writer) ≤ maxFrame ∧
      ∀ e ∈ (announceOf writer).entries, recordAcceptable e.2 = true) ∧
    ∃ a : Actor Nat Nat,
      Reaches (step (wireHost longNames)) anyStep
        (boot (wireHost longNames) (plainEnv 0) 0 plainState false) a ∧
      ∃ record, a.files[5]? = some record ∧ ¬ Advertisable (wireHost longNames) 5 record ∧
        fits (wireHost longNames) (5, record) = false := by
  refine ⟨by decide +kernel, ?_⟩
  have hexec : (execute (step (wireHost longNames)) (now [.event (.authed 1 0 true),
      .event (.msg 1 (announceOf 1)), .task 0 none, .inbox 0,
      .event (.msg 1 (announceOf 2)), .task 0 none, .inbox 0])
      (boot (wireHost longNames) (plainEnv 0) 0 plainState false)).any (fun a =>
        a.files[5]?.any fun r => decide (fits (wireHost longNames) (5, r) = false)) = true := by
    decide +kernel
  obtain ⟨a, hrun, hp⟩ := exists_reaches_of_execute anyStep (fun _ _ _ => trivial) hexec
  obtain ⟨record, hr, hno⟩ := Option.any_eq_true _ _ |>.mp hp
  have hno := of_decide_eq_true hno
  refine ⟨a, hrun, record, hr, fun hyes => ?_, hno⟩
  rw [hyes.fits] at hno
  cases hno

/-- Names of 66 bytes. -/
def keyNames : NameLens Nat Nat where
  id _ := 66
  path _ := 2

/-- Every path may have two writers, us and node 1, which has written it ten times at most. -/
def twoWriters : Nat → VClock Nat := fun _ => ((∅ : VClock Nat).insert 0 U64.max).insert 1 10

theorem twoWriters_ceiling : Ceiling (wireHost keyNames) keyNames twoWriters 0 := by
  have hcount : (twoWriters 0).size ≤ maxVvEntries := by decide +kernel
  have hroom : HasRoom keyNames twoWriters 0 ownManifestLen := by
    show _ ≤ _
    decide +kernel
  exact ⟨fun _ => rfl, fun _ => hcount, fun _ _ => hroom⟩

/-- One byte by one of the writers. -/
theorem twoWriters_under {rel byte writer : Nat} {c : U64}
    (hw : (twoWriters rel)[writer]? = some c) (hc : 1 ≤ c) :
    StaysUnder keyNames twoWriters rel (plainRecord byte ((∅ : VClock Nat).insert writer 1)) := by
  have hroom : HasRoom keyNames twoWriters 0 35 := by
    show _ ≤ _
    decide +kernel
  refine ⟨VClock.Under.empty.insert hw hc, ?_⟩
  show HasRoom keyNames twoWriters rel 35
  exact hroom

/-- A version of node 1 is pulled. -/
theorem records_advertisable_pulled : ∃ a : Actor Nat Nat, ∃ record,
    a.files[5]? = some record ∧ Advertisable (wireHost keyNames) 5 record := by
  have hstart : StartsUnder (wireHost keyNames) keyNames twoWriters plainState := by
    refine ⟨fun rel record hr => ?_, fun rel l hl => ?_, fun _ hin => ?_, fun _ hin => ?_⟩
    · obtain ⟨rfl, rfl⟩ := plainState_files hr
      exact ⟨rfl, twoWriters_under (c := U64.max) rfl (by decide)⟩
    · simp [plainState] at hl
    · simp [plainState] at hin
    · simp [plainState] at hin
  have hexec : (execute (step (wireHost keyNames)) (now [.event (.authed 1 0 true),
      .event (.msg 1 (announceOf 1)), .task 0 none, .inbox 0])
      (boot (wireHost keyNames) (plainEnv 0) 0 plainState false)).any
      (fun a => a.files[5]?.isSome) = true := by
    decide +kernel
  have hok : ∀ s ∈ now [.event (.authed 1 0 true), .event (.msg 1 (announceOf 1)), .task 0 none,
      .inbox 0], ∀ a, StepsUnder (wireHost keyNames) keyNames twoWriters a s := by
    intro s hs a
    simp only [now, List.map_cons, List.map_nil, List.mem_cons, List.not_mem_nil, or_false] at hs
    rcases hs with rfl | rfl | rfl | rfl
    · exact trivial
    · intro e he _ _
      rw [announceOf, Msg.entries, List.mem_singleton] at he
      subst he
      exact twoWriters_under (c := 10) rfl (by decide)
    · exact trivial
    · exact trivial
  obtain ⟨a, hrun, hp⟩ := exists_reaches_of_execute _ hok hexec
  obtain ⟨record, hr⟩ := Option.isSome_iff_exists.mp hp
  refine ⟨a, record, hr, ?_⟩
  exact (records_advertisable (wireHost keyNames) keyNames (fun _ => 100)
    (wireHost_postcard keyNames) (wireHost_wire keyNames) 0 twoWriters twoWriters_ceiling
    (plainEnv 0) plainState hstart false a hrun).1 5 record hr

end Actor

end Tazamun
