import Tazamun.Turn.Observers
import Tazamun.Turn.Runs
import Tazamun.Turn.Steady

set_option autoImplicit false

/-! # Paths at the wire boundary

Every path in a message goes through `sanitize_rel_path` before it is used. There are ten
containers that messages feed (`Stores`), some at once and some by way of others. The guard
that keeps out a single path that the sanitizer rejects shows that it gets into none of them,
in any run, however the records move on from where they were taken in (`absent_reached`).

A part of a message with a rejected path is passed over. In a message about one path nothing
is left then (`Msg.Rejected`). In an index the part is taken out of the list (`Msg.Drops`), and
the daemon goes on as if it had not been there, except that it counts: an index with too many
entries is refused as a whole.
-/

namespace Tazamun

open Lib

variable {Id Path : Type} [LinearOrder Id] [LinearOrder Path]

/-- What messages feed. -/
structure Stores (Id Path : Type) [LinearOrder Id] [LinearOrder Path] where
  peerIndex : Map Id (Map Path (FileRecord Id))
  indexStaging : Map Id (Nat × Map Path (FileRecord Id))
  files : Map Path (FileRecord Id)
  unapplied : Map Path (UnappliedEntry Id)
  pulling : Map Path (FileRecord Id)
  pendingPulls : Map Path (PullJob Id)
  pullBacklog : List (Path × Id × FileRecord Id)
  deferred : Map Path (DeferredApply Id)
  locks : LockTable Id Path
  interest : Map Path (Map Id Unit)

/-- The path is in none of them. -/
structure Stores.Absent (s : Stores Id Path) (rel : Path) : Prop where
  peerIndex : ∀ (id : Id) m, s.peerIndex[id]? = some m → m.contains rel = false
  indexStaging : ∀ (id : Id) m, s.indexStaging[id]? = some m → m.2.contains rel = false
  files : s.files.contains rel = false
  unapplied : s.unapplied.contains rel = false
  pulling : s.pulling.contains rel = false
  pendingPulls : s.pendingPulls.contains rel = false
  pullBacklog : ∀ e ∈ s.pullBacklog, e.1 ≠ rel
  deferred : s.deferred.contains rel = false
  locks : s.locks.states.contains rel = false
  interest : s.interest.contains rel = false

/-- The message is about one path, and that is rejected. -/
def Msg.Rejected (h : Host Id Path) : Msg Id Path → Prop
  | .fileMeta rel _ _ | .lockInterest rel | .lockFreed rel => h.sanitize rel = false
  | .lock m => h.sanitize m.path = false
  | .handshake | .index _ _ _ | .indexPart _ _ _ _ _ | .bye | .identity _ => False

/-- The second message is the first without a part whose path is rejected. -/
inductive Msg.Drops (h : Host Id Path) : Msg Id Path → Msg Id Path → Prop
  | file lamport rel record files₁ files₂ leases (hrel : h.sanitize rel = false) :
      Msg.Drops h (.index lamport (files₁ ++ (rel, record) :: files₂) leases)
        (.index lamport (files₁ ++ files₂) leases)
  | lease lamport files l leases₁ leases₂ (hrel : h.sanitize l.path = false) :
      Msg.Drops h (.index lamport files (leases₁ ++ l :: leases₂))
        (.index lamport files (leases₁ ++ leases₂))
  | partFile seq last lamport rel record files₁ files₂ leases (hrel : h.sanitize rel = false) :
      Msg.Drops h (.indexPart seq last lamport (files₁ ++ (rel, record) :: files₂) leases)
        (.indexPart seq last lamport (files₁ ++ files₂) leases)
  | partLease seq last lamport files l leases₁ leases₂ (hrel : h.sanitize l.path = false) :
      Msg.Drops h (.indexPart seq last lamport files (leases₁ ++ l :: leases₂))
        (.indexPart seq last lamport files (leases₁ ++ leases₂))

/-- The guard that keeps one path out. -/
def Guard.except (rel : Path) : Guard Id Path where
  path p := p ≠ rel
  record p _ := p ≠ rel
  content _ _ := True
  apply p _ := p ≠ rel
  commit _ := True
  release _ := True
  path_of_record h := h
  content_of_record _ := trivial
  content_empty _ := trivial
  apply_tombstone h _ := h

theorem Guard.except_steady (rel : Path) : (Guard.except rel : Guard Id Path).Steady :=
  ⟨fun _ _ h => h, fun _ => trivial, fun _ => trivial⟩

namespace Actor

def stores (a : Actor Id Path) : Stores Id Path where
  peerIndex := a.peerIndex
  indexStaging := a.indexStaging
  files := a.files
  unapplied := a.unapplied
  pulling := a.pulling
  pendingPulls := a.pendingPulls
  pullBacklog := a.pullBacklog
  deferred := a.deferred
  locks := a.locks
  interest := a.interest

variable {h : Host Id Path} {env : Env Path}

/-! ## No rejected path gets in -/

theorem Within.absent {a : Actor Id Path} {rel : Path}
    (hw : Within (Guard.except rel) a) : a.stores.Absent rel := by
  have hkeys : ∀ {ν : Type} {m : Map Path ν}, (Guard.except rel : Guard Id Path).Keys m →
      m.contains rel = false := by
    intro ν m hm
    rw [← Bool.not_eq_true]
    exact fun hin => hm rel hin rfl
  have hrecords : ∀ {m : Map Path (FileRecord Id)}, (Guard.except rel : Guard Id Path).Records m →
      m.contains rel = false := by
    intro m hm
    rw [← Bool.not_eq_true, Map.contains_eq, Option.isSome_iff_exists]
    rintro ⟨r, hr⟩
    exact hm rel r hr rfl
  constructor
  · exact fun id m hm => hrecords (hw.index id m hm)
  · exact fun id m hm => hrecords (hw.staging id m hm)
  · exact hkeys fun p hin => by
      rw [Map.contains_eq, Option.isSome_iff_exists] at hin
      obtain ⟨r, hr⟩ := hin
      exact (hw.files p r hr).1
  · exact hkeys hw.unapplied
  · exact hkeys hw.pulling
  · exact hkeys fun p hin => by
      rw [Map.contains_eq, Option.isSome_iff_exists] at hin
      obtain ⟨job, hjob⟩ := hin
      exact (hw.pending p job hjob).1
  · exact hw.backlog
  · exact hkeys fun p hin => by
      rw [Map.contains_eq, Option.isSome_iff_exists] at hin
      obtain ⟨d, hd⟩ := hin
      exact hw.deferred p d hd
  · exact hkeys hw.locks
  · exact hkeys hw.interest

/-- Messages and requests with the path are turned away, so only a watch event could bring
it in. -/
theorem passes_except {rel : Path} (hrel : h.sanitize rel = false) {ev : Event Id Path}
    (hext : ev.isExternal = true) (hwatch : ev ≠ .watch rel) (a : Actor Id Path) :
    ev.Passes (Guard.except rel) h env a := by
  have hne : ∀ {p : Path}, h.sanitize p = true → p ≠ rel := by
    rintro p hp rfl
    rw [hrel] at hp
    cases hp
  have hparts : ∀ files leases, (Guard.except rel : Guard Id Path).Parts h files leases :=
    fun _ _ => ⟨fun _ _ _ hp => hne hp, fun _ _ hp => hne hp⟩
  cases ev with
  | msg id m =>
      cases m with
      | index lamport files leases => exact hparts files leases
      | indexPart seq last lamport files leases => exact hparts files leases
      | fileMeta p record lamport => exact fun _ hp => hne hp
      | lock m => exact fun hp => ⟨hne hp, fun _ => trivial⟩
      | lockInterest p => exact fun hp => hne hp
      | _ => exact trivial
  | watch p =>
      rintro rfl
      exact hwatch rfl
  | ipc req reply =>
      cases req <;> first | exact trivial | exact fun hp => hne hp
  | sweep => exact fun _ _ => trivial
  | authed | gone | renew => exact trivial
  | _ => cases hext

/-- **A rejected path that is not there when the daemon starts, and that no watch event names,
gets into none of the containers.** -/
theorem absent_reached {me : Id} {p : Persisted Id Path} {founding : Bool} {a : Actor Id Path}
    {rel : Path} (hrel : h.sanitize rel = false) (hfiles : p.files.contains rel = false)
    (hheld : p.unapplied.contains rel = false) (hpulling : p.pulling.contains rel = false)
    (hrun : Reaches (step h) (fun _ s => s.2 ≠ .event (.watch rel))
      (boot h env me p founding) a) : a.stores.Absent rel := by
  have hkeys : ∀ {ν : Type} {m : Map Path ν}, m.contains rel = false →
      (Guard.except rel : Guard Id Path).Keys m := by
    rintro ν m hm q hin rfl
    rw [hm] at hin
    cases hin
  have hstart : p.Within (Guard.except rel) h := by
    refine ⟨fun q r hr => ⟨hkeys hfiles q (Map.contains_of_get hr), trivial⟩,
      fun _ _ _ _ _ => trivial, hkeys hheld, hkeys hpulling, ?_⟩
    rintro q - hclean rfl
    rw [hrel] at hclean
    cases hclean
  have hheldall : Held (Guard.except rel : Guard Id Path) fun _ => True :=
    ⟨fun _ _ _ => trivial, fun _ _ _ => trivial⟩
  have hok : ∀ (b : Actor Id Path) (s : Env Path × Act Id Path), s.2 ≠ .event (.watch rel) →
      Admits (Guard.except rel) h b s := by
    intro b s hs ev hev hext
    refine passes_except hrel hext ?_ b
    rintro rfl
    exact hs hev
  exact (reached_steady hheldall (Guard.except_steady rel) (fun _ _ _ => trivial) hok hstart
    trivial hrun).within.absent

/-! ## A part that is rejected changes nothing -/

theorem Alike.stores {a b : Actor Id Path} (hab : Alike a b) : b.stores = a.stores := by
  obtain ⟨j, rfl⟩ := hab
  rfl

/-- Nothing is left of a message about a rejected path. -/
theorem onCtl_rejected (a : Actor Id Path) (sender : Id) {m : Msg Id Path}
    (hm : m.Rejected h) : (a.onCtl h env sender m).stores = a.stores := by
  unfold onCtl
  split
  · rfl
  · cases m with
    | fileMeta rel record lamport =>
        have hno : (h.sanitize rel && recordAcceptable record) = false := by
          rw [show h.sanitize rel = false from hm, Bool.false_and]
        simp only [onFileMeta, hno, Bool.false_eq_true, if_false]
        rfl
    | lock m =>
        cases m with
        | lockReq rel lamport ttlMs | lockRenew rel lamport ttlMs =>
            have hno : h.sanitize rel = false := hm
            simp only [onLockMsg, onLockReq, hno, Bool.not_false, Bool.false_eq_true, if_true,
              if_false]
            rfl
        | lockGrant rel | lockDeny rel | lockRelease rel =>
            have hno : h.sanitize rel = false := hm
            simp only [onLockMsg, onLockGrant, onLockDeny, hno, Bool.not_false,
              Bool.false_eq_true, if_true, if_false]
    | lockInterest rel =>
        have hno : h.sanitize rel = false := hm
        simp only [onLockInterest, hno, Bool.not_false, if_true]
    | lockFreed rel =>
        have hno : h.sanitize rel = false := hm
        simp only [hno, Bool.false_eq_true, if_false]
    | _ => exact hm.elim

theorem ingest_alike {a b : Actor Id Path} (hab : Alike a b) (sender : Id)
    (map : Map Path (FileRecord Id)) (files : List (Path × FileRecord Id)) :
    AlikeRes (a.ingest h sender map files) (b.ingest h sender map files) := by
  unfold ingest
  induction files generalizing a b map with
  | nil => exact ⟨hab, rfl⟩
  | cons e files ih =>
      rw [List.foldl_cons, List.foldl_cons]
      dsimp only
      split
      · exact ih (displace_alike hab e.1 _ e.2) _
      · exact ih (letGo_alike hab e.1 sender e.2) _

/-- An entry with a rejected path is let go. -/
theorem ingest_rejected (a : Actor Id Path) (sender : Id) (map : Map Path (FileRecord Id))
    {rel : Path} (hrel : h.sanitize rel = false) (record : FileRecord Id)
    (files₁ files₂ : List (Path × FileRecord Id)) :
    AlikeRes (a.ingest h sender map (files₁ ++ files₂))
      (a.ingest h sender map (files₁ ++ (rel, record) :: files₂)) := by
  have hsplit : ∀ files, a.ingest h sender map (files₁ ++ files) =
      (a.ingest h sender map files₁).1.ingest h sender (a.ingest h sender map files₁).2 files :=
    fun files => List.foldl_append ..
  rw [hsplit, hsplit]
  generalize a.ingest h sender map files₁ = r
  have hno : ¬ (recordAcceptable record && h.sanitize rel) = true := by
    rw [hrel, Bool.and_false]
    exact Bool.false_ne_true
  have hskip : r.1.ingest h sender r.2 ((rel, record) :: files₂) =
      (r.1.letGo rel sender record).ingest h sender r.2 files₂ := by
    unfold ingest
    rw [List.foldl_cons]
    dsimp only
    rw [if_neg hno]
  rw [hskip]
  exact ingest_alike ⟨_, rfl⟩ sender r.2 files₂

/-- A lease with a rejected path is not observed. -/
theorem observeLeases_rejected (a : Actor Id Path) {l : LeaseInfo Id Path}
    (hrel : h.sanitize l.path = false) (leases₁ leases₂ : List (LeaseInfo Id Path)) :
    a.observeLeases h env (leases₁ ++ l :: leases₂) = a.observeLeases h env (leases₁ ++ leases₂) := by
  unfold observeLeases
  rw [List.foldl_append, List.foldl_append, List.foldl_cons, hrel, if_neg Bool.false_ne_true]

/-- Installing an index depends on its leases only in so far as they are observed. -/
theorem commitPeerIndex_alike {a b : Actor Id Path} (hab : Alike a b) (sender : Id)
    (map : Map Path (FileRecord Id)) {leases leases' : List (LeaseInfo Id Path)}
    (hl : ∀ a : Actor Id Path, a.observeLeases h env leases' = a.observeLeases h env leases) :
    Alike (a.commitPeerIndex h env sender map leases)
      (b.commitPeerIndex h env sender map leases') := by
  obtain ⟨j, rfl⟩ := hab
  unfold commitPeerIndex reconcile
  dsimp only
  rw [hl]
  refine reconcileWith_alike h env (rebuildIgnore_alike h env) ?_ sender
  exact observeLeases_alike h env ⟨_, rfl⟩ leases

/-- The part is not taken in: it is out of order, or there are too many. -/
def Refuses (a : Actor Id Path) (sender : Id) (seq : Nat) (files : List (Path × FileRecord Id)) :
    Prop :=
  seq ≠ (a.indexStaging[sender]?.getD (0, ∅)).1 ∨ maxIndexParts ≤ seq ∨
    maxIndexEntries < (a.indexStaging[sender]?.getD (0, ∅)).2.size + files.length

theorem onIndex_drops (a : Actor Id Path) (sender : Id) (lamport : U64)
    {files files' : List (Path × FileRecord Id)} {leases leases' : List (LeaseInfo Id Path)}
    (hf : ∀ (a : Actor Id Path) map, AlikeRes (a.ingest h sender map files')
      (a.ingest h sender map files))
    (hl : ∀ a : Actor Id Path, a.observeLeases h env leases = a.observeLeases h env leases') :
    Alike (a.onIndex h env sender lamport files' leases')
      (a.onIndex h env sender lamport files leases) := by
  unfold onIndex
  dsimp only
  obtain ⟨hread, hmap⟩ := hf { a with
    lamport := max a.lamport lamport, indexStaging := a.indexStaging.erase sender } ∅
  rw [hmap]
  exact commitPeerIndex_alike (supersede_alike hread sender _ _) sender _ hl

theorem onIndexPart_drops (a : Actor Id Path) (sender : Id) (seq : Nat) (last : Bool)
    (lamport : U64) {files files' : List (Path × FileRecord Id)}
    {leases leases' : List (LeaseInfo Id Path)} (hlen : files'.length ≤ files.length)
    (hf : ∀ (a : Actor Id Path) map, AlikeRes (a.ingest h sender map files')
      (a.ingest h sender map files))
    (hl : ∀ a : Actor Id Path, a.observeLeases h env leases = a.observeLeases h env leases') :
    Alike (a.onIndexPart h env sender seq last lamport files' leases')
        (a.onIndexPart h env sender seq last lamport files leases) ∨
      a.Refuses sender seq files ∧ (a.onIndexPart h env sender seq last lamport files leases).stores =
        { a.stores with indexStaging := a.indexStaging.erase sender } := by
  by_cases hrefused : a.Refuses sender seq files
  · refine .inr ⟨hrefused, ?_⟩
    unfold Refuses at hrefused
    unfold onIndexPart
    dsimp only
    rw [if_pos hrefused]
    rfl
  · refine .inl ?_
    have hless : ¬ a.Refuses sender seq files' := by
      intro hno
      refine hrefused (hno.imp_right (Or.imp_right fun hmany => ?_))
      omega
    obtain ⟨hread, hmap⟩ := hf { a with
      lamport := max a.lamport lamport, indexStaging := a.indexStaging.erase sender }
      (a.indexStaging[sender]?.getD (0, ∅)).2
    unfold Refuses at hrefused hless
    unfold onIndexPart
    dsimp only
    rw [if_neg hrefused, if_neg hless, hmap]
    split
    · exact commitPeerIndex_alike hread sender _ hl
    · obtain ⟨j, hj⟩ := hread
      rw [hj]
      exact ⟨j, rfl⟩

/-- The index without the part leads to the same containers, unless the part is one too many. -/
theorem onCtl_drops (a : Actor Id Path) (sender : Id) {m m' : Msg Id Path} (hm : m.Drops h m') :
    (a.onCtl h env sender m).stores = (a.onCtl h env sender m').stores ∨
      (∃ seq last lamport files leases, m = .indexPart seq last lamport files leases ∧
        a.Refuses sender seq files) ∧
      (a.onCtl h env sender m).stores =
        { a.stores with indexStaging := a.indexStaging.erase sender } := by
  unfold onCtl
  split
  · exact .inl rfl
  · cases hm with
    | file lamport rel record files₁ files₂ leases hrel =>
        exact .inl (onIndex_drops a sender lamport
          (fun a map => ingest_rejected a sender map hrel record files₁ files₂)
          fun _ => rfl).stores
    | lease lamport files l leases₁ leases₂ hrel =>
        exact .inl (onIndex_drops a sender lamport (fun a map => ⟨.refl, rfl⟩)
          fun a => observeLeases_rejected a hrel leases₁ leases₂).stores
    | partFile seq last lamport rel record files₁ files₂ leases hrel =>
        rcases @onIndexPart_drops _ _ _ _ h env a sender seq last lamport
          (files₁ ++ (rel, record) :: files₂) (files₁ ++ files₂) leases leases (by simp)
          (fun a map => ingest_rejected a sender map hrel record files₁ files₂)
          (fun _ => rfl) with hsame | ⟨hrefused, hout⟩
        · exact .inl hsame.stores
        · exact .inr ⟨⟨_, _, _, _, _, rfl, hrefused⟩, hout⟩
    | partLease seq last lamport files l leases₁ leases₂ hrel =>
        rcases onIndexPart_drops a sender seq last lamport le_rfl
          (fun a map => (⟨.refl, rfl⟩ : AlikeRes _ _))
          (fun a => @observeLeases_rejected _ _ _ _ h env a l hrel leases₁ leases₂)
          with hsame | ⟨hrefused, hout⟩
        · exact .inl hsame.stores
        · exact .inr ⟨⟨_, _, _, _, _, rfl, hrefused⟩, hout⟩

/-- **Paths are sanitized at the wire boundary.** A path that the sanitizer rejects gets into
none of the containers by way of messages, in any run. A message about such a path leaves them
all as they are, and so does such a part of an index: the rest of the message is handled as
if the part were not there, or, where there are too many, the index is refused. -/
theorem paths_sanitized (h : Host Id Path) :
    (∀ (env : Env Path) (me : Id) (p : Persisted Id Path) (founding : Bool)
      (a : Actor Id Path) (rel : Path), h.sanitize rel = false →
      p.files.contains rel = false → p.unapplied.contains rel = false →
      p.pulling.contains rel = false →
      Reaches (step h) (fun _ s => s.2 ≠ .event (.watch rel)) (boot h env me p founding) a →
      a.stores.Absent rel) ∧
    (∀ (env : Env Path) (a : Actor Id Path) (sender : Id) (m : Msg Id Path), m.Rejected h →
      (a.onCtl h env sender m).stores = a.stores) ∧
    ∀ (env : Env Path) (a : Actor Id Path) (sender : Id) (m m' : Msg Id Path), m.Drops h m' →
      (a.onCtl h env sender m).stores = (a.onCtl h env sender m').stores ∨
      (∃ seq last lamport files leases, m = .indexPart seq last lamport files leases ∧
        a.Refuses sender seq files) ∧
      (a.onCtl h env sender m).stores =
        { a.stores with indexStaging := a.indexStaging.erase sender } :=
  ⟨fun _ _ _ _ _ _ hrel hfiles hheld hpulling hrun =>
      absent_reached hrel hfiles hheld hpulling hrun,
    fun _ a sender _ hm => onCtl_rejected a sender hm,
    fun _ a sender _ _ hm => onCtl_drops a sender hm⟩

/-- The sanitizer rejects path 9. -/
def strictHost : Host Nat Nat := { plainHost with sanitize := fun p => decide (p ≠ 9) }

def someLease (path : Nat) : LeaseInfo Nat Nat := ⟨path, 1, 1, 60000⟩

/-- Node 1 advertises paths 5 and 9, and a lease of each. -/
def advertiseBoth : List (Env Nat × Act Nat Nat) :=
  now [.event (.authed 1 0 true),
    .event (.msg 1 (.index 0 ([(5, plainRecord 8 ((∅ : VClock Nat).insert 1 1))] ++
      (9, plainRecord 8 ((∅ : VClock Nat).insert 1 1)) :: [])
      ([someLease 5] ++ someLease 9 :: [])))]

/-- Path 5 is pulled and leased, and path 9 is nowhere, nor is it after another message. -/
theorem paths_sanitized_both : ∃ a : Actor Nat Nat,
    a.pendingPulls.contains 5 = true ∧ a.locks.states.contains 5 = true ∧
    a.stores.Absent 9 ∧
    (a.onCtl strictHost (plainEnv 0) 1 (.lockInterest 9)).stores = a.stores ∧
    (a.onCtl strictHost (plainEnv 0) 1 (.index 0 [] ([someLease 5] ++ someLease 9 :: []))).stores
      = (a.onCtl strictHost (plainEnv 0) 1 (.index 0 [] ([someLease 5] ++ []))).stores := by
  have hexec : (execute (step strictHost) advertiseBoth
      (boot strictHost (plainEnv 0) 0 plainState false)).any (fun a =>
        a.pendingPulls.contains 5 && a.locks.states.contains 5) = true := by
    decide +kernel
  have hok : ∀ s ∈ advertiseBoth, ∀ _ : Actor Nat Nat,
      s.2 ≠ (.event (.watch 9) : Act Nat Nat) := by
    intro s hs _
    rcases List.mem_cons.mp hs with rfl | hs
    · rintro ⟨⟩
    · rw [List.mem_singleton.mp hs]
      rintro ⟨⟩
  obtain ⟨a, hrun, hp⟩ := exists_reaches_of_execute
    (fun _ s => s.2 ≠ (.event (.watch 9) : Act Nat Nat)) hok hexec
  obtain ⟨hpull, hlease⟩ := Bool.and_eq_true_iff.mp hp
  obtain ⟨habsent, hwhole, hpart⟩ := paths_sanitized strictHost
  refine ⟨a, hpull, hlease, ?_, hwhole (plainEnv 0) a 1 (.lockInterest 9) rfl, ?_⟩
  · exact habsent (plainEnv 0) 0 plainState false a 9 rfl (by decide +kernel)
      (by decide +kernel) (by decide +kernel) hrun
  · rcases hpart (plainEnv 0) a 1 _ _ (.lease 0 [] (someLease 9) [someLease 5] [] rfl) with
      hsame | ⟨⟨_, _, _, _, _, hno, _⟩, _⟩
    · exact hsame
    · cases hno

end Actor

end Tazamun
