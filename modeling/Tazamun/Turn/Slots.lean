import Tazamun.Turn.Retry

set_option autoImplicit false

/-! # Records that wait

A record that cannot be pulled or applied at once waits for its path in one of three slots:
behind the running pull, in the backlog, or, once its content is there, until the path is no
longer busy. A slot holds one record, and a record that arrives takes the place of the one
that waits there, whichever of the two is newer. The peers' records arrive in any order, so a
newer version can make way for an older one.

`Regresses` says that this happens, `slotFor` which slot a record goes to, and the main result
is that nothing regresses exactly if the record in that slot is not the newer one.
-/

namespace Tazamun

open Lib

variable {Id Path : Type} [LinearOrder Id] [LinearOrder Path]

/-- Where a record waits for its path. -/
inductive Slot where
  | queued
  | backlog
  | deferred
deriving DecidableEq

namespace Actor

/-- The record that waits for `rel`. -/
def waiting (a : Actor Id Path) (rel : Path) : Slot → Option (FileRecord Id)
  | .queued => (a.pendingPulls[rel]?.bind PullJob.queued).map Prod.snd
  | .backlog => (a.pullBacklog.find? fun e => decide (e.1 = rel)).map fun e => e.2.2
  | .deferred => a.deferred[rel]?.map DeferredApply.record

/-- An older record has taken the place of one that waited for `rel`. -/
def Regresses (a b : Actor Id Path) (rel : Path) : Prop :=
  ∃ slot old new, a.waiting rel slot = some old ∧ b.waiting rel slot = some new ∧
    VClock.compare old.vv new.vv = .after

/-- The slot for a record that is to be pulled: behind the pull of another one, or in the
backlog if there is no room. -/
def pullSlot (a : Actor Id Path) (rel : Path) (record : FileRecord Id) : Option Slot :=
  match a.pendingPulls[rel]? with
  | some job =>
      if job.record.manifest = record.manifest ∧ job.record.vv = record.vv then none
      else some .queued
  | none => if maxConcurrentPulls ≤ a.pendingPulls.size then some .backlog else none

/-- The slot for a record that may be taken over: tombstones are applied, which has to wait
while the path is busy, and the rest is pulled unless it is held. -/
def takeSlot (h : Host Id Path) (a : Actor Id Path) (rel : Path) (record : FileRecord Id) :
    Option Slot :=
  if a.locks.isHeldByMe rel then none
  else if record.deleted then if a.busy.contains rel then some .deferred else none
  else if (a.holdReason h rel record).isSome then none
  else a.pullSlot rel record

/-- The slot for a record of a peer. -/
def slotFor (h : Host Id Path) (a : Actor Id Path) (sender : Id) (rel : Path)
    (record : FileRecord Id) : Option Slot :=
  match a.files[rel]? with
  | none => if record.deleted then none else a.takeSlot h rel record
  | some mine =>
      match VClock.compare mine.vv record.vv with
      | .before => a.takeSlot h rel record
      | .concurrent => if sender < a.me then none else a.takeSlot h rel record
      | .equal | .after => none

/-! ## One record, one slot -/

/-- The record goes into the slot, and no other record that waits is touched. -/
structure Puts (a b : Actor Id Path) (rel : Path) (slot : Option Slot) (record : FileRecord Id) :
    Prop where
  others : ∀ p s, b.waiting p s = a.waiting p s ∨
    p = rel ∧ slot = some s ∧ b.waiting p s = some record
  replaces : ∀ s old, slot = some s → a.waiting rel s = some old → b.waiting rel s = some record

/-- **Nothing regresses exactly if the record that makes way is not the newer one.** -/
theorem Puts.regresses_iff {a b : Actor Id Path} {rel : Path} {slot : Option Slot}
    {record : FileRecord Id} (h : Puts a b rel slot record) :
    (∀ p, ¬ Regresses a b p) ↔ ∀ s old, slot = some s → a.waiting rel s = some old →
      VClock.compare old.vv record.vv ≠ .after := by
  constructor
  · intro hno s old hs hold hafter
    exact hno rel ⟨s, old, record, hold, h.replaces s old hs hold, hafter⟩
  · rintro hok p ⟨s, old, new, hold, hnew, hafter⟩
    rcases h.others p s with hsame | ⟨rfl, hs, hput⟩
    · -- a record is not newer than itself
      rw [hsame, hold] at hnew
      cases hnew
      exact (VClock.compare_eq_after.mp hafter).1 (VClock.Le.refl _)
    · rw [hput] at hnew
      cases hnew
      exact hok s old hs hold hafter

theorem Puts.of_same {a b : Actor Id Path} (rel : Path) (record : FileRecord Id)
    (h : ∀ p s, b.waiting p s = a.waiting p s) : Puts a b rel none record :=
  ⟨fun p s => .inl (h p s), fun s old hs => by cases hs⟩

/-- What comes before leaves the slots alone. -/
theorem Puts.after {a b d : Actor Id Path} {rel : Path} {slot : Option Slot}
    {record : FileRecord Id} (h : Puts b d rel slot record)
    (hsame : ∀ p s, b.waiting p s = a.waiting p s) : Puts a d rel slot record := by
  refine ⟨fun p s => ?_, fun s old hs hold => h.replaces s old hs ((hsame rel s).trans hold)⟩
  rcases h.others p s with heq | hput
  · exact .inl (heq.trans (hsame p s))
  · exact .inr hput

/-- The slots depend on the pull pipeline alone. -/
theorem waiting_congr {a b : Actor Id Path} (hpending : b.pendingPulls = a.pendingPulls)
    (hbacklog : b.pullBacklog = a.pullBacklog) (hdeferred : b.deferred = a.deferred) (p : Path)
    (s : Slot) : b.waiting p s = a.waiting p s := by
  cases s with
  | queued => simp only [waiting, hpending]
  | backlog => simp only [waiting, hbacklog]
  | deferred => simp only [waiting, hdeferred]

/-- The entry of `rel` is overwritten, and every other path finds the entry it had. -/
theorem find_set {rel : Path} {l : List (Path × Id × FileRecord Id)} {i : Nat} (sender : Id)
    (record : FileRecord Id) (hi : (l.findIdx? fun e => decide (e.1 = rel)) = some i) (p : Path) :
    ((l.set i (rel, sender, record)).find? fun e => decide (e.1 = p)) =
      if p = rel then some (rel, sender, record) else l.find? fun e => decide (e.1 = p) := by
  induction l generalizing i with
  | nil => cases hi
  | cons e l ih =>
      rw [List.findIdx?_cons] at hi
      by_cases he : e.1 = rel
      · rw [if_pos (decide_eq_true he)] at hi
        cases hi
        by_cases hp : p = rel
        · simp [hp]
        · have hpe : ¬ e.1 = p := fun h => hp (h.symm.trans he)
          simp [hp, hpe, Ne.symm hp]
      · rw [if_neg (by simpa using he)] at hi
        obtain ⟨j, hj, rfl⟩ := Option.map_eq_some_iff.mp hi
        rw [List.set_cons_succ, List.find?_cons, List.find?_cons, ih hj]
        by_cases hp : p = rel
        · simp [hp, he]
        · simp [hp]

/-! ## What goes where -/

theorem enqueuePullBacklog_puts (a : Actor Id Path) (rel : Path) (sender : Id)
    (record : FileRecord Id) :
    Puts a (a.enqueuePullBacklog rel sender record) rel (some .backlog) record := by
  unfold enqueuePullBacklog
  split
  · rename_i i hi
    have hset : ∀ p, ({ a.displace rel (a.pullBacklog[i]?.map Prod.snd) record with
        pullBacklog := a.pullBacklog.set i (rel, sender, record) } : Actor Id Path).waiting p
          .backlog = if p = rel then some record else a.waiting p .backlog := by
      intro p
      simp only [waiting, find_set sender record hi p]
      split <;> rfl
    refine ⟨fun p s => ?_, fun s old hs hold => ?_⟩
    · cases s with
      | backlog =>
          by_cases hp : p = rel
          · exact .inr ⟨hp, rfl, (hset p).trans (if_pos hp)⟩
          · exact .inl ((hset p).trans (if_neg hp))
      | _ => exact .inl rfl
    · cases hs
      exact (hset rel).trans (if_pos rfl)
  · rename_i hnone
    have hfree : a.waiting rel .backlog = none := by
      rw [List.findIdx?_eq_none_iff] at hnone
      simp only [waiting, Option.map_eq_none_iff, List.find?_eq_none]
      intro e he hdec
      exact absurd hdec (by simpa using hnone e he)
    split
    · refine ⟨fun p s => ?_, fun s old hs hold => ?_⟩
      · cases s with
        | backlog =>
            simp only [waiting, List.find?_append]
            cases hf : a.pullBacklog.find? fun e => decide (e.1 = p) with
            | some e => exact .inl rfl
            | none =>
                by_cases hp : p = rel
                · refine .inr ⟨hp, trivial, ?_⟩
                  simp [hp]
                · refine .inl ?_
                  simp [Ne.symm hp]
        | _ => exact .inl rfl
      · cases hs
        rw [hfree] at hold
        cases hold
    · refine ⟨fun p s => .inl (waiting_congr rfl rfl rfl p s), fun s old hs hold => ?_⟩
      cases hs
      rw [hfree] at hold
      cases hold

theorem schedulePull_puts (a : Actor Id Path) (rel : Path) (sender : Id)
    (record : FileRecord Id) :
    Puts a (a.schedulePull rel sender record) rel (a.pullSlot rel record) record := by
  unfold schedulePull pullSlot
  cases hjob : a.pendingPulls[rel]? with
  | some job =>
      dsimp only
      by_cases hdup : job.record.manifest = record.manifest ∧ job.record.vv = record.vv
      · rw [if_pos hdup, if_pos hdup]
        exact .of_same rel record fun _ _ => rfl
      · rw [if_neg hdup, if_neg hdup]
        have hset : ∀ p, ({ a.displace rel job.queued record with
            pendingPulls := a.pendingPulls.insert rel
              { job with queued := some (sender, record) } } : Actor Id Path).waiting p .queued =
              if rel = p then some record else a.waiting p .queued := by
          intro p
          simp only [waiting, Map.get_insert]
          split <;> rfl
        refine ⟨fun p s => ?_, fun s old hs hold => ?_⟩
        · cases s with
          | queued =>
              by_cases hp : rel = p
              · exact .inr ⟨hp.symm, rfl, (hset p).trans (if_pos hp)⟩
              · exact .inl ((hset p).trans (if_neg hp))
          | _ => exact .inl rfl
        · cases hs
          exact (hset rel).trans (if_pos rfl)
  | none =>
      dsimp only
      split
      · exact enqueuePullBacklog_puts a rel sender record
      · refine .of_same rel record fun p s => ?_
        have hback : (a.beginPull rel sender record).pullBacklog = a.pullBacklog ∧
            (a.beginPull rel sender record).deferred = a.deferred := by
          unfold beginPull startPull
          dsimp only
          split <;> exact ⟨rfl, rfl⟩
        cases s with
        | queued =>
            simp only [waiting, beginPull_pending, Map.get_insert]
            split
            · rename_i hp
              rw [← hp, hjob]
              rfl
            · rfl
        | backlog => simp only [waiting, hback.1]
        | deferred => simp only [waiting, hback.2]

/-- A record that is applied to a busy path is put off. -/
theorem applyRemoteWith_puts {rebuild : Actor Id Path → Actor Id Path} (h : Host Id Path)
    (env : Env Path) {a : Actor Id Path} {rel : Path} (hbusy : a.busy.contains rel = true)
    (sender : Id) (record : FileRecord Id) (staged : Option Bytes) :
    Puts a (a.applyRemoteWith rebuild h env rel sender record staged) rel (some .deferred)
      record := by
  unfold applyRemoteWith
  rw [if_pos hbusy]
  have hset : ∀ p, ({ a.displace rel (a.deferred[rel]?.map fun d => (d.sender, d.record)) record
      with deferred := a.deferred.insert rel ⟨sender, record, staged⟩ } : Actor Id Path).waiting p
        .deferred = if rel = p then some record else a.waiting p .deferred := by
    intro p
    simp only [waiting, Map.get_insert]
    split <;> rfl
  refine ⟨fun p s => ?_, fun s old hs hold => ?_⟩
  · cases s with
    | deferred =>
        by_cases hp : rel = p
        · exact .inr ⟨hp.symm, rfl, (hset p).trans (if_pos hp)⟩
        · exact .inl ((hset p).trans (if_neg hp))
    | _ => exact .inl rfl
  · cases hs
    exact (hset rel).trans (if_pos rfl)

/-- A record that is not applied at once: it has content to pull, or its path is busy. -/
def MustWait (a : Actor Id Path) (rel : Path) (record : FileRecord Id) : Prop :=
  record.deleted = true → a.busy.contains rel = true

theorem maybePullWith_puts {rebuild : Actor Id Path → Actor Id Path} (h : Host Id Path)
    (env : Env Path) {a : Actor Id Path} {rel : Path} (sender : Id) {record : FileRecord Id}
    (hwait : a.MustWait rel record) :
    Puts a (a.maybePullWith rebuild h env rel sender record) rel (a.takeSlot h rel record)
      record := by
  unfold maybePullWith takeSlot
  split
  · exact .of_same rel record fun p s => waiting_congr rfl rfl rfl p s
  · by_cases hdel : record.deleted = true
    · rw [if_pos hdel, if_pos hdel, if_pos (hwait hdel)]
      have hput := @applyRemoteWith_puts _ _ _ _ rebuild h env
        { a with unapplied := a.unapplied.erase rel } rel (hwait hdel) sender record none
      exact hput.after fun p s => waiting_congr rfl rfl rfl p s
    · rw [if_neg hdel, if_neg hdel]
      cases hreason : a.holdReason h rel record with
      | some reason =>
          refine .of_same rel record fun p s => ?_
          dsimp only
          unfold hold
          split
          · split <;> exact waiting_congr rfl rfl rfl p s
          · exact waiting_congr rfl rfl rfl p s
      | none => exact schedulePull_puts a rel sender record

theorem onConcurrentWith_puts {rebuild : Actor Id Path → Actor Id Path} (h : Host Id Path)
    (env : Env Path) {a : Actor Id Path} {rel : Path} (sender : Id) {record : FileRecord Id}
    (hwait : a.MustWait rel record) :
    Puts a (a.onConcurrentWith rebuild h env rel sender record) rel
      (if sender < a.me then none else a.takeSlot h rel record) record := by
  unfold onConcurrentWith
  split
  · refine .of_same rel record fun p s => ?_
    split <;> exact waiting_congr rfl rfl rfl p s
  · -- a quarantine copy has no part in where the record goes
    obtain ⟨conflicts, known, hq⟩ := quarantine_eq env a rel
    dsimp only
    rw [hq]
    have hput := @maybePullWith_puts _ _ _ _ rebuild h env { a with conflicts, known } rel sender
      record hwait
    exact hput.after fun p s => waiting_congr rfl rfl rfl p s

theorem reconcileOneWith_puts {rebuild : Actor Id Path → Actor Id Path} (h : Host Id Path)
    (env : Env Path) {a : Actor Id Path} (sender : Id) {rel : Path} {record : FileRecord Id}
    (hwait : a.MustWait rel record) :
    Puts a (a.reconcileOneWith rebuild h env sender rel record) rel
      (a.slotFor h sender rel record) record := by
  obtain ⟨unapplied, hclear⟩ : ∃ unapplied,
      a.maybeClearUnapplied rel record = { a with unapplied } := by
    unfold maybeClearUnapplied
    split
    · exact ⟨_, rfl⟩
    · exact ⟨a.unapplied, rfl⟩
  have hsame : ∀ p s, ({ a with unapplied } : Actor Id Path).waiting p s = a.waiting p s :=
    fun p s => waiting_congr rfl rfl rfl p s
  have hpull := @maybePullWith_puts _ _ _ _ rebuild h env { a with unapplied } rel sender record
    hwait
  have hconc := @onConcurrentWith_puts _ _ _ _ rebuild h env { a with unapplied } rel sender
    record hwait
  unfold reconcileOneWith slotFor
  rw [hclear]
  dsimp only
  cases hmine : a.files[rel]? with
  | none =>
      dsimp only
      split
      · exact .of_same rel record fun p s => waiting_congr rfl rfl rfl p s
      · exact hpull.after hsame
  | some mine =>
      dsimp only
      cases VClock.compare mine.vv record.vv with
      | before => exact hpull.after hsame
      | concurrent => exact hconc.after hsame
      | equal => exact .of_same rel record hsame
      | after => exact .of_same rel record hsame

/-- The version of path 1 that node 1 counts as its `n`th. -/
def nthRecord (n : U64) : FileRecord Nat :=
  plainRecord 8 (((∅ : VClock Nat).insert 0 1).insert 1 n)

def announceNth (n : U64) : Act Nat Nat := .event (.msg 1 (.fileMeta 1 (nthRecord n) 0))

/-- The first version is being pulled, and the `n`th waits behind it. -/
def queuedBehind (n : U64) : List (Env Nat × Act Nat Nat) :=
  now [.event (.authed 1 0 true), .event (.msg 1 (.index 0 [] [])), announceNth 1, announceNth n]

end Actor

end Tazamun
