import Tazamun.Turn.Covered

set_option autoImplicit false

/-! # The vector of a record and the clock of a node

Two counters only ever go up. The version vector of a path goes up with every record that
replaces another, and if the content is another one the vector is strictly ahead, so that
the peers take the record over. The clock of the node goes up past everything it has heard
before each request and each announcement of its own.

Both fail at the end of the range of a `u64`, and a peer can take them there: the counters of
a record and the clock of a message are whatever it sends. `VClock.inc` stays where it is, so
a new content goes out under the old vector; the clock wraps, so the next request is older
than all others. `Effect.Stalls` and `Effect.Wraps` say when an entry of the journal is of
this kind, and without one both promises hold in every run.
-/

namespace Tazamun

open Lib

variable {Id Path : Type} [LinearOrder Id] [LinearOrder Path]

/-! ## One record after another -/

namespace FileRecord

/-- `manifest`, `size` and `deleted` are the same. -/
def SameContent (r r' : FileRecord Id) : Prop :=
  r'.manifest = r.manifest ∧ r'.size = r.size ∧ r'.deleted = r.deleted

/-- `r'` may replace `r`: its vector is not behind, and ahead if the content is another. -/
structure Advances (r r' : FileRecord Id) : Prop where
  forward : VClock.compare r'.vv r.vv = .equal ∨ VClock.compare r'.vv r.vv = .after
  changed : ¬ r.SameContent r' → VClock.compare r'.vv r.vv = .after

instance (r r' : FileRecord Id) : Decidable (r.SameContent r') :=
  inferInstanceAs (Decidable (_ ∧ _ ∧ _))

variable {r r' r'' : FileRecord Id}

theorem SameContent.trans (h : r.SameContent r') (h' : r'.SameContent r'') : r.SameContent r'' :=
  ⟨h'.1.trans h.1, h'.2.1.trans h.2.1, h'.2.2.trans h.2.2⟩

theorem advances_iff :
    r.Advances r' ↔ VClock.Le r.vv r'.vv ∧ (¬ r.SameContent r' → ¬ VClock.Le r'.vv r.vv) := by
  constructor
  · intro h
    refine ⟨?_, fun hne => (VClock.compare_eq_after.mp (h.changed hne)).1⟩
    rcases h.forward with heq | hafter
    · exact (VClock.compare_eq_equal.mp heq).2
    · exact (VClock.compare_eq_after.mp hafter).2
  · rintro ⟨hle, hne⟩
    refine ⟨?_, fun h => VClock.compare_eq_after.mpr ⟨hne h, hle⟩⟩
    by_cases hback : VClock.Le r'.vv r.vv
    · exact .inl (VClock.compare_eq_equal.mpr ⟨hback, hle⟩)
    · exact .inr (VClock.compare_eq_after.mpr ⟨hback, hle⟩)

theorem Advances.refl (r : FileRecord Id) : r.Advances r :=
  advances_iff.mpr ⟨VClock.Le.refl _, fun hne => absurd ⟨rfl, rfl, rfl⟩ hne⟩

theorem Advances.trans (h : r.Advances r') (h' : r'.Advances r'') : r.Advances r'' := by
  rw [advances_iff] at h h' ⊢
  refine ⟨h.1.trans h'.1, fun hne hback => ?_⟩
  -- the content changed on one of the two ways, and there the vector went up
  by_cases hsame : r.SameContent r'
  · exact h'.2 (fun hsame' => hne (hsame.trans hsame')) (hback.trans h.1)
  · exact h.2 hsame (h'.1.trans hback)

end FileRecord

/-- A counter at its maximum is not counted up. -/
theorem VClock.inc_le_iff (vv : VClock Id) (me : Id) :
    VClock.Le (VClock.inc vv me) vv ↔ vv.count me = U64.max := by
  constructor
  · intro hle
    by_contra hmax
    exact VClock.not_inc_le le_rfl hmax hle
  · intro hmax k
    rw [VClock.count_inc]
    split
    · rename_i heq
      rw [← heq, hmax, saturatingSucc_max]
    · exact le_rfl

/-! ## What the journal says of replacements -/

namespace Effect

/-- The record that was replaced, and the one that replaced it. -/
def replacement : Effect Id Path → Option (FileRecord Id × FileRecord Id)
  | .applied _ record (some prev) _ =>
      some (prev, { record with vv := VClock.merge prev.vv record.vv })
  | .committed _ _ record (some prev) _ => some (prev, record)
  | _ => none

/-- A new content of our own replaces a record whose counter of `me` is at its maximum. -/
def Stalls (me : Id) : Effect Id Path → Prop
  | .committed _ _ record (some prev) _ =>
      ¬ prev.SameContent record ∧ prev.vv.count me = U64.max
  | _ => False

instance (me : Id) (e : Effect Id Path) : Decidable (e.Stalls me) := by
  unfold Stalls
  split <;> infer_instance

/-- How the vector of the new record came about. -/
def Dated (me : Id) : Effect Id Path → Prop
  | .applied _ record (some prev) _ => ¬ VClock.Le record.vv prev.vv
  | .committed _ _ record (some prev) _ =>
      record.vv = VClock.inc prev.vv me ∨
        VClock.Le prev.vv record.vv ∧ prev.SameContent record
  | _ => True

omit [LinearOrder Path] in
/-- **A replacement goes forward exactly if it does not stall.** -/
theorem advances_iff {e : Effect Id Path} {me : Id} (hdated : e.Dated me)
    {r r' : FileRecord Id} (he : e.replacement = some (r, r')) :
    r.Advances r' ↔ ¬ e.Stalls me := by
  rw [FileRecord.advances_iff]
  cases e with
  | applied rel record prev leased =>
      cases prev with
      | none => cases he
      | some prev =>
          cases he
          refine iff_of_true ⟨VClock.le_merge_left _ _, fun _ hback => ?_⟩ id
          exact hdated ((VClock.le_merge_right _ _).trans hback)
  | committed kind rel record prev leased =>
      cases prev with
      | none => cases he
      | some prev =>
          cases he
          rcases hdated with hinc | ⟨hle, hsame⟩
          · have hle : VClock.Le r.vv r'.vv := hinc ▸ VClock.le_inc _ _
            have hstall : VClock.Le r'.vv r.vv ↔ r.vv.count me = U64.max :=
              hinc ▸ VClock.inc_le_iff _ _
            rw [hstall]
            constructor
            · rintro ⟨-, hne⟩ ⟨hchanged, hmax⟩
              exact hne hchanged hmax
            · exact fun hno => ⟨hle, fun hchanged hmax => hno ⟨hchanged, hmax⟩⟩
          · exact iff_of_true ⟨hle, fun hne => absurd hsame hne⟩ fun h => h.1 hsame
  | _ => cases he

end Effect

namespace Micro

variable {c : Ctx Id Path} {hand hand' : List (Advert Id Path)} {a a' : Actor Id Path}

/-- What a small change puts into the index is dated. -/
theorem dated (h : Micro c (hand, a) (hand', a')) :
    ∃ es, a'.journal = a.journal ++ es ∧ ∀ e ∈ es, e.Dated a.me := by
  have hother : ∀ e : Effect Id Path, e.isEntry = false → e.Dated a.me := by
    intro e he
    cases e with
    | applied => cases he
    | committed => cases he
    | _ => trivial
  rcases h.index_cases with ⟨-, es, hes, hentry⟩ | ⟨rel, sender, record, staged, hm, rfl⟩ |
    ⟨kind, rel, record, hm, rfl⟩
  · exact ⟨es, hes, fun e he => hother e (hentry e he)⟩
  · refine ⟨_, rfl, fun e he => ?_⟩
    rcases List.mem_cons.mp he with rfl | he
    · cases hprev : a.files[rel]? with
      | none => trivial
      | some prev =>
          intro hle
          exact absurd ((Actor.isCurrent_of_le hprev hle).symm.trans hm.news) (by simp)
    · exact hother e (Actor.revival_isEntry he)
  · refine ⟨_, rfl, fun e he => ?_⟩
    rcases List.mem_cons.mp he with rfl | he
    · cases hprev : a.files[rel]? with
      | none => trivial
      | some prev =>
          rcases hm.vv with ⟨-, hvv⟩ | ⟨mine, x, -, -, -, hmine, hrec⟩
          · refine .inl ?_
            rw [hvv, Actor.vvOf, hprev]
          · obtain rfl : prev = mine := Option.some_injective _ (hprev.symm.trans hmine)
            rw [hrec]
            refine .inr ⟨?_, rfl, rfl, rfl⟩
            exact (VClock.le_merge_left _ _).trans (VClock.le_inc _ _)
    · exact hother e (Actor.revival_isEntry he)

/-- Without a stall every record stays, or one that goes forward takes its place. -/
theorem advances (h : Micro c (hand, a) (hand', a'))
    (hgo : ∀ e ∈ a'.journal, ¬ e.Stalls a.me) {rel : Path} {r : FileRecord Id}
    (hr : a.files[rel]? = some r) : ∃ r', a'.files[rel]? = some r' ∧ r.Advances r' := by
  have hnew : ∀ {e : Effect Id Path} {r r' : FileRecord Id} {tail},
      a'.journal = a.journal ++ e :: tail → e.replacement = some (r, r') → r.Advances r' := by
    intro e r r' tail htail he
    obtain ⟨es, hes, hdated⟩ := h.dated
    have hsame : es = e :: tail := List.append_cancel_left (hes.symm.trans htail)
    refine (Effect.advances_iff (hdated e ?_) he).mpr (hgo e ?_)
    · rw [hsame]
      exact List.mem_cons_self
    · rw [htail]
      exact List.mem_append_right _ List.mem_cons_self
  rcases h.index_cases with ⟨hfiles, -⟩ | ⟨p, sender, record, staged, hm, heq⟩ |
    ⟨kind, p, record, hm, heq⟩
  · exact ⟨r, hfiles ▸ hr, .refl r⟩
  · by_cases hp : p = rel
    · subst hp
      have hentry := @hnew (.applied p record (some r) (a.locks.isHeldByMe p)) r
        { record with vv := VClock.merge r.vv record.vv } (a.revival p record)
        (by rw [heq, ← hr]; rfl) rfl
      refine ⟨_, ?_, hentry⟩
      rw [heq]
      unfold Actor.commitApplied
      simp only [hr]
      exact Map.get_insert_self _ _ _
    · refine ⟨r, ?_, .refl r⟩
      rw [heq]
      exact (Map.get_insert_ne _ _ hp).trans hr
  · by_cases hp : p = rel
    · subst hp
      have hentry := @hnew (.committed kind p record (some r) (a.locks.isHeldByMe p)) r record
        (a.revival p record) (by rw [heq, ← hr]; rfl) rfl
      refine ⟨record, ?_, hentry⟩
      rw [heq]
      exact Map.get_insert_self _ _ _
    · refine ⟨r, ?_, .refl r⟩
      rw [heq]
      exact (Map.get_insert_ne _ _ hp).trans hr

end Micro

namespace Steps

variable {c : Ctx Id Path} {s t : List (Advert Id Path) × Actor Id Path}

theorem dated (h : Steps c s t) (hs : ∀ e ∈ s.2.journal, e.Dated s.2.me) :
    ∀ e ∈ t.2.journal, e.Dated t.2.me := by
  refine h.induct (P := fun _ a => ∀ e ∈ a.journal, e.Dated a.me) ?_ hs
  intro hand a hand' a' hm ha e he
  obtain ⟨es, hes, hnew⟩ := hm.dated
  rw [hm.me_eq]
  rw [hes] at he
  rcases List.mem_append.mp he with he | he
  · exact ha e he
  · exact hnew e he

theorem advances (h : Steps c s t) (hgo : ∀ e ∈ t.2.journal, ¬ e.Stalls s.2.me) {rel : Path}
    {r : FileRecord Id} (hr : s.2.files[rel]? = some r) :
    ∃ r', t.2.files[rel]? = some r' ∧ r.Advances r' := by
  induction h with
  | refl => exact ⟨r, hr, .refl r⟩
  | @tail b d hsteps hm ih =>
      have hgo' : ∀ e ∈ b.2.journal, ¬ e.Stalls s.2.me := fun e he =>
        hgo e (hm.journal_extends.subset he)
      obtain ⟨r', hr', hadv⟩ := ih hgo'
      rw [← Steps.me_eq hsteps] at hgo
      obtain ⟨r'', hr'', hadv'⟩ := hm.advances hgo hr'
      exact ⟨r'', hr'', hadv.trans hadv'⟩

end Steps

namespace Actor

variable {h : Host Id Path}

/-- Whatever entered the index in a run is dated. -/
theorem dated_reached {ok : Actor Id Path → Env Path × Act Id Path → Prop} {env : Env Path}
    {me : Id} {p : Persisted Id Path} {founding : Bool} {a : Actor Id Path}
    (hrun : Reaches (Actor.step h) ok (Actor.boot h env me p founding) a) :
    ∀ e ∈ a.journal, e.Dated a.me :=
  reached_of_steps (P := fun a => ∀ e ∈ a.journal, e.Dated a.me)
    (fun _ he => absurd he List.not_mem_nil) (fun _ _ _ _ _ hsteps hd => Steps.dated hsteps hd)
    (fun _ _ _ _ _ _ hd => hd) hrun

/-- **The vector of a path goes up with its content.** In every run a replacement goes forward
exactly if it does not stall, and in a run without stalls every step takes every record
forward. -/
theorem records_advance {ok : Actor Id Path → Env Path × Act Id Path → Prop} {env : Env Path}
    {me : Id} {p : Persisted Id Path} {founding : Bool} {a b : Actor Id Path}
    {s : Env Path × Act Id Path}
    (hrun : Reaches (Actor.step h) ok (Actor.boot h env me p founding) a)
    (hstep : a.step h s = some b) :
    (∀ e ∈ b.journal, ∀ r r', e.replacement = some (r, r') →
      (r.Advances r' ↔ ¬ e.Stalls b.me)) ∧
    ((∀ e ∈ b.journal, ¬ e.Stalls b.me) → ∀ (rel : Path) (r : FileRecord Id),
      a.files[rel]? = some r → ∃ r', b.files[rel]? = some r' ∧ r.Advances r') := by
  have hrun' : Reaches (Actor.step h) anyStep (Actor.boot h env me p founding) b :=
    .tail (hrun.mono fun _ _ _ => trivial) trivial hstep
  obtain ⟨hand, tasks, inbox, conflicts, known, disk, hsteps⟩ :=
    step_steps (runInv_none hrun) hstep
  refine ⟨fun e he r r' hr => Effect.advances_iff (dated_reached hrun' e he) hr, ?_⟩
  intro hgo rel r hr
  have hme : b.me = a.me := hsteps.me_eq
  exact hsteps.advances (fun e he => hme ▸ hgo e he) hr

/-- Node 1 announces a version of path 1 that counts `n` versions of node 0. -/
def announceFrom (n lamport : U64) : Act Nat Nat :=
  .event (.msg 1 (.fileMeta 1 (plainRecord 8 (((∅ : VClock Nat).insert 0 n).insert 1 1)) lamport))

/-- The announced version is applied and, some time later, edited under a lease; the edit is
about to be published. -/
def editAnnounced (n lamport : U64) : List (Env Nat × Act Nat Nat) :=
  now [.event (.authed 1 0 true), .event (.msg 1 (.index 0 [] [])), announceFrom n lamport,
      .task 0 none, .inbox 0] ++
    [.event (.ipc (.lock 1) 0), grantLease, .write 1 [9], .event (.watch 1), .task 1 none,
      .inbox 0, .task 1 none].map fun act => (plainEnv 10000, act)

def publishEdit : Env Nat × Act Nat Nat := (plainEnv 10000, .inbox 0)

/-- The records of path 1 before and after the edit is published, and whether a replacement
stalled. -/
def editOutcome (a : Actor Nat Nat) : Option (FileRecord Nat × FileRecord Nat × Bool) :=
  match a.step plainHost publishEdit with
  | none => none
  | some b =>
      match a.files[(1 : Nat)]?, b.files[(1 : Nat)]? with
      | some r, some r' => some (r, r', b.journal.any fun e => decide (e.Stalls b.me))
      | _, _ => none

/-- The outcome `o` of the edit is the outcome of a step of a run. -/
theorem exists_editOutcome {n lamport : U64} {P : FileRecord Nat → FileRecord Nat → Bool → Bool}
    (h : (execute (step plainHost) (editAnnounced n lamport) plainStart).any
      (fun a => (editOutcome a).any fun o => P o.1 o.2.1 o.2.2) = true) :
    ∃ a b r r', Reaches (step plainHost) anyStep plainStart a ∧
      a.step plainHost publishEdit = some b ∧ a.files[(1 : Nat)]? = some r ∧
      b.files[(1 : Nat)]? = some r' ∧ P r r' (b.journal.any fun e => decide (e.Stalls b.me)) := by
  obtain ⟨a, hrun, hp⟩ := exists_reaches_of_execute anyStep (fun _ _ _ => trivial) h
  obtain ⟨o, ho, hP⟩ := (Option.any_eq_true _ _).mp hp
  unfold editOutcome at ho
  split at ho
  · cases ho
  · rename_i b hb
    split at ho
    · rename_i r r' hr hr'
      cases ho
      exact ⟨a, b, r, r', hrun, hb, hr, hr', hP⟩
    · cases ho

/-- An edit of the announced version goes out under a vector that is ahead of it. -/
theorem records_advance_edit : ∃ a b r r', Reaches (step plainHost) anyStep plainStart a ∧
    a.step plainHost publishEdit = some b ∧ a.files[(1 : Nat)]? = some r ∧
    b.files[(1 : Nat)]? = some r' ∧ ¬ r.SameContent r' ∧ r.Advances r' := by
  have hexec : (execute (step plainHost) (editAnnounced 1 0) plainStart).any
      (fun a => (editOutcome a).any fun o =>
        !decide (o.1.SameContent o.2.1) && !o.2.2) = true := by
    decide +kernel
  obtain ⟨a, b, r, r', hrun, hstep, hr, hr', hP⟩ := exists_editOutcome
    (P := fun r r' stalled => !decide (r.SameContent r') && !stalled) hexec
  rw [Bool.and_eq_true, Bool.not_eq_true', Bool.not_eq_true', List.any_eq_false] at hP
  have hgo : ∀ e ∈ b.journal, ¬ e.Stalls b.me := fun e he => by simpa using hP.2 e he
  obtain ⟨r'', hr'', hadv⟩ := (records_advance hrun hstep).2 hgo 1 r hr
  rw [hr'] at hr''
  cases hr''
  exact ⟨a, b, r, r', hrun, hstep, hr, hr', by simpa using hP.1, hadv⟩

/-- Node 1 announces a version with the largest counter for node 0. The edit of it goes out
under the very same vector. -/
theorem edit_under_equal_vector : ∃ a b r r',
    Reaches (step plainHost) anyStep plainStart a ∧
    a.step plainHost publishEdit = some b ∧ a.files[(1 : Nat)]? = some r ∧
    b.files[(1 : Nat)]? = some r' ∧ ¬ r.SameContent r' ∧
    VClock.compare r'.vv r.vv = .equal := by
  have hexec : (execute (step plainHost) (editAnnounced U64.max 0) plainStart).any
      (fun a => (editOutcome a).any fun o => !decide (o.1.SameContent o.2.1) &&
        decide (VClock.compare o.2.1.vv o.1.vv = .equal)) = true := by
    decide +kernel
  obtain ⟨a, b, r, r', hrun, hstep, hr, hr', hP⟩ := exists_editOutcome
    (P := fun r r' _ => !decide (r.SameContent r') &&
      decide (VClock.compare r'.vv r.vv = .equal)) hexec
  rw [Bool.and_eq_true] at hP
  exact ⟨a, b, r, r', hrun, hstep, hr, hr', by simpa using hP.1, of_decide_eq_true hP.2⟩

end Actor

/-! ## The clock -/

/-- The clock of the sender, if the message carries it. -/
def Msg.clock : Msg Id Path → Option U64
  | .index lamport _ _ | .indexPart _ _ lamport _ _ | .fileMeta _ _ lamport
  | .lock (.lockReq _ lamport _) | .lock (.lockRenew _ lamport _) => some lamport
  | _ => none

/-- The leases that the message carries. -/
def Msg.leases : Msg Id Path → List (LeaseInfo Id Path)
  | .index _ _ leases | .indexPart _ _ _ _ leases => leases
  | _ => []

/-- The clock wraps where it is counted up. -/
def Effect.Wraps : Effect Id Path → Prop
  | .ticked held => held = U64.max
  | _ => False

instance (e : Effect Id Path) : Decidable e.Wraps := by
  unfold Effect.Wraps
  split <;> infer_instance

theorem lt_add_one_of_le {l held : U64} (hle : l ≤ held) (hmax : held ≠ U64.max) :
    l < held + 1 :=
  hle.trans_lt (Fin.lt_add_one_iff.mpr (lt_of_le_of_ne (Fin.le_last held) hmax))

/-- A small change that does not wrap the clock takes it forward, and counts it up from where
it was. -/
theorem Micro.clock_le {c : Ctx Id Path} {hand hand' : List (Advert Id Path)}
    {a a' : Actor Id Path} (h : Micro c (hand, a) (hand', a'))
    (hgo : ∀ e ∈ a'.journal, ¬ e.Wraps) :
    a.lamport ≤ a'.lamport ∧ ∃ es, a'.journal = a.journal ++ es ∧
      ∀ held, .ticked held ∈ es → a.lamport ≤ held := by
  have hnone : ∃ es, a.journal = a.journal ++ es ∧ ∀ held, .ticked held ∈ es → a.lamport ≤ held :=
    ⟨[], (List.append_nil _).symm, fun held he => absurd he List.not_mem_nil⟩
  have hrevival : ∀ rel record held, .ticked held ∉ a.revival rel record := by
    intro rel record held he
    unfold Actor.revival at he
    dsimp only at he
    split at he
    · cases List.mem_singleton.mp he
    · cases he
  cases h with
  | loss es hes => exact ⟨le_rfl, es, rfl, fun held he => absurd (hes _ he) (by simp [Effect.isLoss])⟩
  | replaced rel =>
      unfold Actor.noteReplaced
      split
      · exact ⟨le_rfl, hnone⟩
      · exact ⟨le_rfl, _, rfl, fun held he => by cases List.mem_singleton.mp he⟩
  | applied rel sender record staged hm =>
      refine ⟨le_rfl, _, rfl, fun held he => ?_⟩
      rcases List.mem_cons.mp he with he | he
      · cases he
      · exact absurd he (hrevival _ _ _)
  | committed kind rel record hm =>
      refine ⟨le_rfl, _, rfl, fun held he => ?_⟩
      rcases List.mem_cons.mp he with he | he
      · cases he
      · exact absurd he (hrevival _ _ _)
  | granted => exact ⟨le_rfl, _, rfl, fun held he => by cases List.mem_singleton.mp he⟩
  | acquired => exact ⟨le_rfl, _, rfl, fun held he => by cases List.mem_singleton.mp he⟩
  | indexed => exact ⟨le_rfl, _, rfl, fun held he => by cases List.mem_singleton.mp he⟩
  | hear lamport => exact ⟨le_max_left _ _, hnone⟩
  | tick =>
      have hmax : a.lamport ≠ U64.max := hgo (.ticked a.lamport) (by simp [Actor.tick, Actor.note])
      refine ⟨(lt_add_one_of_le le_rfl hmax).le, _, rfl, fun held he => ?_⟩
      cases List.mem_singleton.mp he
      exact le_rfl
  | _ => exact ⟨le_rfl, hnone⟩

theorem Steps.clock_le {c : Ctx Id Path} {s t : List (Advert Id Path) × Actor Id Path}
    (h : Steps c s t) (hgo : ∀ e ∈ t.2.journal, ¬ e.Wraps) :
    s.2.lamport ≤ t.2.lamport ∧ ∃ es, t.2.journal = s.2.journal ++ es ∧
      ∀ held, .ticked held ∈ es → s.2.lamport ≤ held := by
  induction h with
  | refl =>
      exact ⟨le_rfl, [], (List.append_nil _).symm, fun held he => absurd he List.not_mem_nil⟩
  | @tail b d hsteps hm ih =>
      obtain ⟨hle, es, hes, hticks⟩ := ih fun e he => hgo e (hm.journal_extends.subset he)
      obtain ⟨hle', fs, hfs, hticks'⟩ := hm.clock_le hgo
      refine ⟨hle.trans hle', es ++ fs, by rw [hfs, hes, List.append_assoc], fun held he => ?_⟩
      rcases List.mem_append.mp he with he | he
      · exact hticks held he
      · exact hle.trans (hticks' held he)

namespace Actor

variable {h : Host Id Path} {a b d : Actor Id Path} {s : Env Path × Act Id Path}

/-- The node holds `l` before the step, or it handles a message of a peer that carries `l`. A
lease in an index does not move the clock; its lamport counts if the clock covers it. -/
def Meets (a : Actor Id Path) (s : Env Path × Act Id Path) (l : U64) : Prop :=
  l = a.lamport ∨ ∃ sender msg, a.handled s.2 = some (.msg sender msg) ∧
    a.peers.contains sender = true ∧
    (msg.clock = some l ∨ ∃ lease ∈ msg.leases, lease.lamport = l ∧
      (l ≤ a.lamport ∨ ∃ m, msg.clock = some m ∧ l ≤ m))

/-- A message is handled as if its clock had been heard before. -/
theorem onCtl_hear (env : Env Path) {sender : Id} {msg : Msg Id Path} {l : U64}
    (hpeer : a.peers.contains sender = true) (hl : msg.clock = some l) :
    a.onCtl h env sender msg =
      ({ a with lamport := max a.lamport l } : Actor Id Path).onCtl h env sender msg := by
  have hmax : max (max a.lamport l) l = max a.lamport l := max_eq_left (le_max_right _ _)
  rw [Map.contains_eq] at hpeer
  obtain ⟨peer, hpeer⟩ := Option.isSome_iff_exists.mp hpeer
  unfold onCtl
  simp only [hpeer]
  cases msg with
  | index lamport files leases =>
      cases hl
      simp only [onIndex, hmax]
  | indexPart seq last lamport files leases =>
      cases hl
      simp only [onIndexPart, hmax]
  | fileMeta rel record lamport =>
      cases hl
      simp only [onFileMeta, hmax]
  | lock msg =>
      cases msg with
      | lockReq rel lamport ttlMs =>
          cases hl
          simp only [onLockMsg, onLockReq, hmax]
      | lockRenew rel lamport ttlMs =>
          cases hl
          simp only [onLockMsg, hmax]
      | _ => cases hl
  | _ => cases hl

/-- What a turn does happens after the clock has caught up with the message. -/
theorem handle_clock (hi : RunInv h Terms.none a) (env : Env Path) {ev : Event Id Path} {l : U64}
    (hl : l ≤ a.lamport ∨ ∃ sender msg m, ev = .msg sender msg ∧
      a.peers.contains sender = true ∧ msg.clock = some m ∧ l ≤ m) :
    ∃ lamport, l ≤ lamport ∧ a.lamport ≤ lamport ∧
      Steps (ctx h Terms.none env) (handOf ev, { a with lamport }) ([], a.handle h env ev) := by
  rcases hl with hl | ⟨sender, msg, m, rfl, hpeer, hm, hl⟩
  · exact ⟨a.lamport, hl, le_rfl, handle_chain hi env ev⟩
  · refine ⟨max a.lamport m, hl.trans (le_max_right _ _), le_max_left _ _, ?_⟩
    have hi' : RunInv h Terms.none { a with lamport := max a.lamport m } :=
      @RunInv.steps _ _ _ _ _ _ _ _ env False.elim [] _ hi (.single (.hear m))
    have hsteps := handle_chain hi' env (.msg sender msg)
    simp only [handle] at hsteps ⊢
    rw [onCtl_hear env hpeer hm]
    exact hsteps

/-- A step that does not wrap the clock takes it past everything that it meets. -/
theorem step_clock (hi : RunInv h Terms.none a) (hstep : a.step h s = some b)
    (hgo : ∀ e ∈ b.journal, ¬ e.Wraps) {l : U64} (hl : a.Meets s l) :
    l ≤ b.lamport ∧ ∃ es, b.journal = a.journal ++ es ∧ ∀ held, .ticked held ∈ es → l ≤ held := by
  have hle : l ≤ a.lamport ∨ ∃ sender msg m, a.handled s.2 = some (.msg sender msg) ∧
      a.peers.contains sender = true ∧ msg.clock = some m ∧ l ≤ m := by
    rcases hl with rfl | ⟨sender, msg, hh, hpeer, hm | ⟨lease, -, -, hle | ⟨m, hm, hle⟩⟩⟩
    · exact .inl le_rfl
    · exact .inr ⟨sender, msg, l, hh, hpeer, hm, le_rfl⟩
    · exact .inl hle
    · exact .inr ⟨sender, msg, m, hh, hpeer, hm, hle⟩
  have hturn : ∀ {a' : Actor Id Path} {ev}, RunInv h Terms.none a' →
      a'.lamport = a.lamport → a'.peers = a.peers → a'.journal = a.journal →
      a.handled s.2 = some ev → b = a'.handle h s.1 ev →
      l ≤ b.lamport ∧ ∃ es, b.journal = a.journal ++ es ∧
        ∀ held, .ticked held ∈ es → l ≤ held := by
    intro a' ev hi' hlamport hpeers hjournal hev hb
    subst hb
    have hle' : l ≤ a'.lamport ∨ ∃ sender msg m, ev = .msg sender msg ∧
        a'.peers.contains sender = true ∧ msg.clock = some m ∧ l ≤ m := by
      rcases hle with hle | ⟨sender, msg, m, hh, hrest⟩
      · exact .inl (hlamport ▸ hle)
      · rw [hev] at hh
        cases hh
        exact .inr ⟨sender, msg, m, rfl, hpeers ▸ hrest.1, hrest.2⟩
    obtain ⟨lamport, hlow, -, hsteps⟩ := handle_clock hi' s.1 hle'
    obtain ⟨hup, es, hes, hticks⟩ := Steps.clock_le hsteps hgo
    exact ⟨hlow.trans hup, es, hes.trans (by rw [← hjournal]),
      fun held he => hlow.trans (hticks held he)⟩
  rcases step_cases hstep with ⟨a', ev, rfl | ⟨n, rfl⟩, hev, hb⟩ |
    ⟨hnone, tasks, inbox, conflicts, known, disk, rfl⟩
  · exact hturn hi rfl rfl rfl hev hb
  · exact hturn (hi.take n) rfl rfl rfl hev hb
  · refine ⟨?_, [], (List.append_nil _).symm, fun held he => absurd he List.not_mem_nil⟩
    rcases hle with hle | ⟨sender, msg, m, hh, -⟩
    · exact hle
    · rw [hnone] at hh
      cases hh

/-- What follows in a run counts up from where the clock was. -/
theorem reaches_clock {ok : Actor Id Path → Env Path × Act Id Path → Prop}
    (hi : RunInv h Terms.none a) (hrun : Reaches (Actor.step h) ok a d)
    (hgo : ∀ e ∈ d.journal, ¬ e.Wraps) :
    a.lamport ≤ d.lamport ∧ ∃ es, d.journal = a.journal ++ es ∧
      ∀ held, .ticked held ∈ es → a.lamport ≤ held := by
  have hboth : RunInv h Terms.none d ∧ ((∀ e ∈ d.journal, ¬ e.Wraps) →
      a.lamport ≤ d.lamport ∧ ∃ es, d.journal = a.journal ++ es ∧
        ∀ held, .ticked held ∈ es → a.lamport ≤ held) := by
    refine hrun.invariant (I := fun d => RunInv h Terms.none d ∧
      ((∀ e ∈ d.journal, ¬ e.Wraps) → a.lamport ≤ d.lamport ∧
        ∃ es, d.journal = a.journal ++ es ∧ ∀ held, .ticked held ∈ es → a.lamport ≤ held))
      ⟨hi, fun _ => ⟨le_rfl, [], (List.append_nil _).symm,
        fun held he => absurd he List.not_mem_nil⟩⟩ ?_
    rintro v act w ⟨hiv, ih⟩ _ hstep
    refine ⟨hiv.step False.elim ⟨False.elim, False.elim, False.elim, False.elim⟩ hstep, ?_⟩
    intro hgo
    obtain ⟨hle', fs, hfs, hticks'⟩ := step_clock hiv hstep hgo (.inl rfl)
    have hgo' : ∀ e ∈ v.journal, ¬ e.Wraps := fun e he =>
      hgo e (hfs ▸ List.mem_append_left _ he)
    obtain ⟨hle, es, hes, hticks⟩ := ih hgo'
    refine ⟨hle.trans hle', es ++ fs, by rw [hfs, hes, List.append_assoc], fun held he => ?_⟩
    rcases List.mem_append.mp he with he | he
    · exact hticks held he
    · exact hle.trans (hticks' held he)
  exact hboth.2 hgo

/-- Node 1 renews a lease of path 2 at the time `l` of its clock. -/
def hearClock (l : U64) : Env Nat × Act Nat Nat :=
  (plainEnv 0, .event (.msg 1 (.lock (.lockRenew 2 l 0))))

def askPath : Env Nat × Act Nat Nat := (plainEnv 0, .event (.ipc (.lock 1) 0))

def countedUp (held : U64) (e : Effect Nat Nat) : Bool :=
  match e with
  | .ticked l => decide (l = held)
  | _ => false

/-- The clock of node 1 is heard, and the request that follows counts up `held`. -/
def hearsThenAsks (l held : U64) (wraps : Bool) (a : Actor Nat Nat) : Bool :=
  a.peers.contains 1 && !a.journal.any (countedUp held) &&
    (a.step plainHost (hearClock l)).any fun b => (b.step plainHost askPath).any fun d =>
      d.journal.any (countedUp held) && decide ((d.journal.any fun e => decide e.Wraps) = wraps)

theorem exists_tick {l held : U64} {wraps : Bool}
    (h : (execute (step plainHost) (askLease.take 2) plainStart).any
      (hearsThenAsks l held wraps) = true) :
    ∃ a b d : Actor Nat Nat, Reaches (step plainHost) anyStep plainStart a ∧
      a.step plainHost (hearClock l) = some b ∧ Reaches (step plainHost) anyStep b d ∧
      a.Meets (hearClock l) l ∧ (d.journal.any fun e => decide e.Wraps) = wraps ∧
      .ticked held ∈ d.journal ∧ .ticked held ∉ a.journal ∧ a.journal <+: d.journal := by
  obtain ⟨a, hrun, hp⟩ := exists_reaches_of_execute anyStep (fun _ _ _ => trivial) h
  unfold hearsThenAsks at hp
  rw [Bool.and_eq_true, Bool.and_eq_true, Bool.not_eq_true', List.any_eq_false] at hp
  obtain ⟨⟨hpeer, hold⟩, hp⟩ := hp
  obtain ⟨b, hb, hp⟩ := (Option.any_eq_true _ _).mp hp
  obtain ⟨d, hd, hp⟩ := (Option.any_eq_true _ _).mp hp
  rw [Bool.and_eq_true, List.any_eq_true] at hp
  obtain ⟨⟨e, he, hticked⟩, hwraps⟩ := hp
  have hi : RunInv plainHost Terms.none a := runInv_none hrun
  have hib : RunInv plainHost Terms.none b :=
    hi.step False.elim ⟨False.elim, False.elim, False.elim, False.elim⟩ hb
  obtain ⟨_, _, _, _, _, _, hsteps⟩ := step_steps hi hb
  obtain ⟨_, _, _, _, _, _, hsteps'⟩ := step_steps hib hd
  refine ⟨a, b, d, hrun, hb, .tail .refl trivial hd, .inr ⟨1, _, rfl, hpeer, .inl rfl⟩,
    of_decide_eq_true hwraps, ?_, fun hmem => hold _ hmem (by simp [countedUp]),
    hsteps.journal_extends.trans hsteps'.journal_extends⟩
  unfold countedUp at hticked
  split at hticked
  · rw [← of_decide_eq_true hticked]
    exact he
  · cases hticked

end Actor

end Tazamun
