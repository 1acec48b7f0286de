import Tazamun.Turn.Runs

set_option autoImplicit false

/-! # Books and file modes over whole runs

Two things that the daemon keeps up over all of its runs, each as long as one kind of step
does not happen.

* What is on record of peers is about connected peers, and so is whom a lock request waits
  for (`peers_booked`). The step to avoid is the drop of a peer that broke the protocol and
  of which something is on record: `on_peer_gone` then finds the connection gone already and
  clears nothing.
* With files clamped read-only, a file that was made writable for a lease is read-only again
  when the lease is over (`leases_end_clamped`). The step to avoid is the end of a lease of
  ours inside the lock table: an expired lease is dropped there when a request or an
  advertised lease for the path comes in before the sweep, and a lower advertised claim
  displaces ours.

Both are part of what every small change keeps (`Sound`), so nothing is left to prove here but
the runs.
-/

namespace Tazamun.Actor

open Lib

variable {Id Path : Type} [LinearOrder Id] [LinearOrder Path]

/-! ## The books on the peers -/

/-- **The books are in order.** In every run in which no peer is dropped with something on
record, what is on record is about connected peers, and so is whom a request waits for. -/
theorem peers_booked (h : Host Id Path) (env : Env Path) (me : Id) (p : Persisted Id Path)
    (founding : Bool) {a : Actor Id Path}
    (hrun : Reaches (step h) TidyDrops (Actor.boot h env me p founding) a) : a.Booked := by
  have hi : RunInv h { Terms.none with tidy := True } a :=
    .reached False.elim (fun _ _ hs => ⟨False.elim, False.elim, fun _ => hs, False.elim⟩)
      (fun hc => False.elim hc) False.elim hrun
  exact (hi.sound env fun hc => False.elim hc).booked trivial

/-- A voter that says goodbye takes its vote and its books with it. -/
theorem peers_booked_bye : ∃ a : Actor Nat Nat,
    Reaches (step plainHost) TidyDrops plainStart a ∧ a.indexReceived.contains 1 = false ∧
      a.Booked := by
  have hexec : (execute (step plainHost) (askLease ++ now [.event (.msg 1 .bye)])
      plainStart).any (fun a => !a.indexReceived.contains 1) = true := by
    decide +kernel
  have hok : ∀ s ∈ askLease ++ now [.event (.msg 1 .bye)], ∀ a : Actor Nat Nat,
      a.TidyDrops s := by
    intro s hs a
    simp only [askLease, now, List.map_cons, List.map_nil, List.cons_append, List.nil_append,
      List.mem_cons, List.not_mem_nil, or_false] at hs
    rcases hs with rfl | rfl | rfl | rfl <;> trivial
  obtain ⟨a, hrun, hgone⟩ := exists_reaches_of_execute TidyDrops hok hexec
  exact ⟨a, hrun, by simpa using hgone, peers_booked plainHost (plainEnv 0) 0 plainState false hrun⟩

/-- Node 1 votes on a lease of ours and breaks the protocol by a second handshake. -/
def awaited (a : Actor Nat Nat) : Bool :=
  !a.peers.contains 1 && a.indexReceived.contains 1 &&
    match (a.locks.states[(1 : Nat)]? : Option (LockState Nat)) with
    | some (.pendingLocal _ needed granted _) => decide (1 ∈ needed ∧ 1 ∉ granted)
    | _ => false

/-- The peer is dropped, its index stays on record, and our request waits for its vote. -/
theorem dropped_voter_awaited : ∃ a : Actor Nat Nat,
    Reaches (step plainHost) anyStep plainStart a ∧ ¬ a.Booked := by
  have hexec : (execute (step plainHost) (askLease ++ now [.event (.msg 1 .handshake)])
      plainStart).any awaited = true := by
    decide +kernel
  obtain ⟨a, hrun, hw⟩ := exists_reaches_of_execute anyStep (fun _ _ _ => trivial) hexec
  refine ⟨a, hrun, fun hbooked => ?_⟩
  simp only [awaited, Bool.and_eq_true, Bool.not_eq_true'] at hw
  have hin := hbooked.received 1 hw.1.2
  rw [hw.1.1] at hin
  cases hin

/-! ## Files under a lease -/

section Shutdown

variable {env : Env Path} (hmodes : ∀ p, env.io.setMode p = true)

include hmodes

/-- A clamp takes the file off the open ones. -/
theorem settleMode_closes {a : Actor Id Path} (hro : a.config.enforceReadonly = true)
    (rel : Path) :
    (a.settleMode env rel).opened = a.opened.erase rel ∧
      (a.settleMode env rel).config = a.config := by
  unfold settleMode setMode noteMode
  dsimp only
  rw [hro, hmodes rel]
  split <;> exact ⟨rfl, rfl⟩

/-- The shutdown clamps the files of all paths in the list. -/
theorem shutdownLoop_closes (paths : List Path) {a : Actor Id Path}
    (hro : a.config.enforceReadonly = true) (rel : Path)
    (hopen : (paths.foldl
      (fun a rel => (a.settleMode env rel).broadcast (.lock (.lockRelease rel))) a).opened.contains
        rel = true) :
    a.opened.contains rel = true ∧ rel ∉ paths := by
  induction paths generalizing a with
  | nil => exact ⟨hopen, List.not_mem_nil⟩
  | cons p paths ih =>
      obtain ⟨hopened, hconfig⟩ := settleMode_closes hmodes hro p
      have hrest := ih (a := (a.settleMode env p).broadcast (.lock (.lockRelease p)))
        (by rw [← hro, ← hconfig]; rfl) hopen
      have hin : (a.opened.erase p).contains rel = true := by
        rw [← hopened]
        exact hrest.1
      rw [Std.ExtTreeMap.contains_erase] at hin
      obtain ⟨hne, hold⟩ := Bool.and_eq_true_iff.mp hin
      refine ⟨hold, fun hmem => ?_⟩
      rcases List.mem_cons.mp hmem with rfl | hmem
      · simp at hne
      · exact hrest.2 hmem

end Shutdown

theorem mem_selfHeldPaths {t : LockTable Id Path} {rel : Path} (h : t.isHeldByMe rel = true) :
    rel ∈ t.selfHeldPaths := by
  obtain ⟨l, e, s, hs⟩ := LockTable.isHeldByMe_iff_held.mp h
  refine List.mem_map.mpr ⟨(rel, .held t.me l e s), ?_, rfl⟩
  exact List.mem_filter.mpr ⟨Map.mem_toList.mpr hs, decide_eq_true rfl⟩

/-- **A lease ends with its file read-only.** With files clamped, in every run in which no
lease of ours ends inside the lock table, a file that is open for a lease is self-held, and
the shutdown leaves none open. -/
theorem leases_end_clamped (h : Host Id Path) {env : Env Path}
    (hmodes : ∀ p, env.io.setMode p = true) (me : Id) {p : Persisted Id Path}
    (hro : p.config.enforceReadonly = true) (founding : Bool) {a : Actor Id Path}
    (hrun : Reaches (step h) (EndsClamped h) (Actor.boot h env me p founding) a) :
    (∀ rel, a.opened.contains rel = true → a.locks.isHeldByMe rel = true) ∧
      ∀ env' : Env Path, (∀ p, env'.io.setMode p = true) →
        ∀ rel, (a.gracefulShutdown env').opened.contains rel = false := by
  have hi : RunInv h { Terms.none with clamps := True } a :=
    .reached False.elim (fun _ _ hs => ⟨False.elim, False.elim, False.elim, fun _ => hs⟩)
      (fun _ => hmodes) (fun _ => hro) hrun
  have hs := hi.sound env fun _ => hmodes
  refine ⟨hs.opened trivial, fun env' hmodes' rel => ?_⟩
  by_contra hopen
  have hclosed := shutdownLoop_closes hmodes' a.locks.selfHeldPaths (hs.readonly trivial) rel
    ((Bool.not_eq_false _).mp hopen)
  exact hclosed.2 (mem_selfHeldPaths (hs.opened trivial rel hclosed.1))

/-- A granted lease opens its file. -/
theorem leases_end_clamped_granted : ∃ a : Actor Nat Nat,
    Reaches (step plainHost) (EndsClamped plainHost) plainStart a ∧
      a.opened.contains 1 = true ∧ a.locks.isHeldByMe 1 = true := by
  have hexec : (execute (step plainHost) (askLease ++ now [grantLease])
      plainStart).any (fun a => a.opened.contains 1) = true := by
    decide +kernel
  have hok : ∀ s ∈ askLease ++ now [grantLease], ∀ a : Actor Nat Nat,
      a.EndsClamped plainHost s := by
    intro s hs a
    simp only [askLease, grantLease, now, List.map_cons, List.map_nil, List.cons_append,
      List.nil_append, List.mem_cons, List.not_mem_nil, or_false] at hs
    rcases hs with rfl | rfl | rfl | rfl
    · exact ⟨fun _ => rfl, trivial⟩
    · exact ⟨fun _ => rfl, fun _ => trivial⟩
    · exact ⟨fun _ => rfl, trivial⟩
    · exact ⟨fun _ => rfl, trivial⟩
  obtain ⟨a, hrun, hopen⟩ := exists_reaches_of_execute (EndsClamped plainHost) hok hexec
  exact ⟨a, hrun, hopen, (leases_end_clamped plainHost (fun _ => rfl) 0 rfl false hrun).1 1 hopen⟩

/-- The modes of files can be set, and nobody else sets them. -/
def ModesOurs (_ : Actor Id Path) (s : Env Path × Act Id Path) : Prop :=
  (∀ p, s.1.io.setMode p = true) ∧ ∀ rel readonly, s.2 ≠ .chmod rel readonly

/-- An indexed file that is open, writable and not under our lease. -/
def leftOpen (a : Actor Nat Nat) : Bool :=
  FileRecord.isLive (a.files[(1 : Nat)]? : Option (FileRecord Nat)) && a.opened.contains 1 &&
    !a.locks.isHeldByMe 1 && a.isWritable 1

/-- A lease expires, and before the next sweep another node asks for it. The table drops the
expired lease for the request, and the file stays writable. -/
theorem expired_lease_left_open : ∃ a : Actor Nat Nat,
    Reaches (step plainHost) ModesOurs plainStart a ∧
      FileRecord.isLive a.files[1]? = true ∧ a.opened.contains 1 = true ∧
      a.locks.isHeldByMe 1 = false ∧ a.isWritable 1 = true := by
  have hexec : (execute (step plainHost) (askLease ++ now [grantLease] ++
      [(plainEnv 100000, .event (.msg 1 (.lock (.lockReq 1 5 0))))])
      plainStart).any leftOpen = true := by
    decide +kernel
  have hok : ∀ s ∈ askLease ++ now [grantLease] ++
      [(plainEnv 100000, .event (.msg 1 (.lock (.lockReq 1 5 0))))], ∀ a : Actor Nat Nat,
      a.ModesOurs s := by
    intro s hs a
    simp only [askLease, grantLease, now, List.map_cons, List.map_nil, List.cons_append,
      List.nil_append, List.mem_cons, List.not_mem_nil, or_false] at hs
    rcases hs with rfl | rfl | rfl | rfl | rfl
    all_goals exact ⟨fun _ => rfl, fun _ _ h => by cases h⟩
  obtain ⟨a, hrun, hleft⟩ := exists_reaches_of_execute ModesOurs hok hexec
  simp only [leftOpen, Bool.and_eq_true, Bool.not_eq_true'] at hleft
  exact ⟨a, hrun, hleft.1.1.1, hleft.1.1.2, hleft.1.2, hleft.2⟩

end Tazamun.Actor
