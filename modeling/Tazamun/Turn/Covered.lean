import Tazamun.Turn.Books

set_option autoImplicit false

/-! # The index only moves forward

Once the own record of a path is as new as some version, it stays so: a record is applied
under the merge of both vectors, and a commit counts up. Nothing that enters the index after
that is as old as the version (`Effect.Newer`), as long as the own counter has not run into
its maximum, where counting up leaves it in place.

`step_steps` says once and for all that a step of a run is a chain of small changes, so that
these facts about one change are facts about runs.
-/

namespace Tazamun

open Lib

variable {Id Path : Type} [LinearOrder Id] [LinearOrder Path]

/-- The own record of the path is as new as `v`. -/
def Actor.Covered (a : Actor Id Path) (rel : Path) (v : VClock Id) : Prop :=
  ∃ mine, a.files[rel]? = some mine ∧ VClock.Le v mine.vv

/-- The record that enters the index for `rel`, if one does, is not as old as `v`. -/
def Effect.Newer (rel : Path) (v : VClock Id) : Effect Id Path → Prop
  | .applied p record _ _ => p = rel → ¬ VClock.Le record.vv v
  | .committed _ p record _ _ => p = rel → ¬ VClock.Le record.vv v
  | _ => True

/-- The own counter of a committed record is below its maximum. -/
def Effect.Unsaturated (me : Id) : Effect Id Path → Prop
  | .committed _ _ record _ _ => record.vv.count me ≠ U64.max
  | _ => True

/-- No record of our own has a counter at its maximum. -/
def Actor.Unsaturated (a : Actor Id Path) : Prop := ∀ e ∈ a.journal, e.Unsaturated a.me

/-- A record enters the index. -/
def Effect.isEntry : Effect Id Path → Bool
  | .applied _ _ _ _ | .committed _ _ _ _ _ => true
  | _ => false

omit [LinearOrder Path] in
theorem Effect.newer_of_isEntry {e : Effect Id Path} (h : e.isEntry = false) {rel : Path}
    {v : VClock Id} : e.Newer rel v := by
  cases e with
  | applied => cases h
  | committed => cases h
  | _ => exact trivial

theorem VClock.not_inc_le_of_ne_max {vv v : VClock Id} {me : Id} (hle : VClock.Le v vv)
    (hmax : (VClock.inc vv me).count me ≠ U64.max) : ¬ VClock.Le (VClock.inc vv me) v := by
  refine VClock.not_inc_le (hle me) (fun hsat => hmax ?_)
  rw [VClock.count_inc, if_pos rfl, hsat, saturatingSucc_max]

namespace Actor

/-- A record as old as the own one is not taken over. -/
theorem isCurrent_of_le {a : Actor Id Path} {rel : Path} {record mine : FileRecord Id}
    (hmine : a.files[rel]? = some mine) (hle : VClock.Le record.vv mine.vv) :
    a.isCurrent rel record = true := by
  simp only [isCurrent, hmine]
  cases hcmp : VClock.compare mine.vv record.vv with
  | equal => rfl
  | after => rfl
  | before => exact absurd hle (VClock.compare_eq_before.mp hcmp).2
  | concurrent => exact absurd hle (VClock.compare_eq_concurrent.mp hcmp).2

theorem revival_isEntry {a : Actor Id Path} {rel : Path} {record : FileRecord Id}
    {e : Effect Id Path} (he : e ∈ a.revival rel record) : e.isEntry = false := by
  rw [revival] at he
  split at he
  · rw [List.mem_singleton.mp he]
    rfl
  · cases he

end Actor

namespace Micro

variable {c : Ctx Id Path} {hand hand' : List (Advert Id Path)} {a a' : Actor Id Path}

/-- What a small change does to the index: nothing, or a record is applied, or committed. -/
theorem index_cases (h : Micro c (hand, a) (hand', a')) :
    (a'.files = a.files ∧
      ∃ es, a'.journal = a.journal ++ es ∧ ∀ e ∈ es, e.isEntry = false) ∨
    (∃ rel sender record staged, MayApply c hand a rel sender record staged ∧
      a' = a.commitApplied rel record staged) ∨
    ∃ kind rel record, MayCommit c hand a kind rel record ∧
      a' = a.commitLocal kind rel record := by
  have hnone : ∃ es, a.journal = a.journal ++ es ∧ ∀ e ∈ es, Effect.isEntry e = false :=
    ⟨[], (List.append_nil _).symm, fun e he => absurd he List.not_mem_nil⟩
  cases h with
  | loss es hes =>
      refine .inl ⟨rfl, es, rfl, fun e he => ?_⟩
      have hloss := hes e he
      cases e with
      | dropped => rfl
      | revived => rfl
      | _ => cases hloss
  | replaced rel =>
      unfold Actor.noteReplaced
      split
      · exact .inl ⟨rfl, hnone⟩
      · exact .inl ⟨rfl, _, rfl, fun e he => List.mem_singleton.mp he ▸ rfl⟩
  | applied rel sender record staged hm => exact .inr (.inl ⟨rel, sender, record, staged, hm, rfl⟩)
  | committed kind rel record hm => exact .inr (.inr ⟨kind, rel, record, hm, rfl⟩)
  | granted => exact .inl ⟨rfl, _, rfl, fun e he => List.mem_singleton.mp he ▸ rfl⟩
  | acquired => exact .inl ⟨rfl, _, rfl, fun e he => List.mem_singleton.mp he ▸ rfl⟩
  | indexed => exact .inl ⟨rfl, _, rfl, fun e he => List.mem_singleton.mp he ▸ rfl⟩
  | tick => exact .inl ⟨rfl, _, rfl, fun e he => List.mem_singleton.mp he ▸ rfl⟩
  | _ => exact .inl ⟨rfl, hnone⟩

/-- The vector of the path never goes back. -/
theorem covered (h : Micro c (hand, a) (hand', a')) {rel : Path} {v : VClock Id}
    (hc : a.Covered rel v) : a'.Covered rel v := by
  obtain ⟨mine, hmine, hle⟩ := hc
  rcases h.index_cases with ⟨hfiles, -⟩ | ⟨p, sender, record, staged, hm, rfl⟩ |
    ⟨kind, p, record, hm, rfl⟩
  · exact ⟨mine, by rw [hfiles]; exact hmine, hle⟩
  · by_cases hp : p = rel
    · subst hp
      refine ⟨_, Map.get_insert_self _ _ _, ?_⟩
      simp only [hmine]
      exact hle.trans (VClock.le_merge_left _ _)
    · exact ⟨mine, (Map.get_insert_ne _ _ hp).trans hmine, hle⟩
  · by_cases hp : p = rel
    · subst hp
      refine ⟨record, Map.get_insert_self _ _ _, ?_⟩
      rcases hm.vv with ⟨-, hvv⟩ | ⟨mine', x, -, -, -, hmine', hrec⟩
      · rw [hvv, Actor.vvOf, hmine]
        exact hle.trans (VClock.le_inc _ _)
      · obtain rfl : mine = mine' := Option.some_injective _ (hmine.symm.trans hmine')
        rw [hrec]
        exact hle.trans ((VClock.le_merge_left _ _).trans (VClock.le_inc _ _))
    · exact ⟨mine, (Map.get_insert_ne _ _ hp).trans hmine, hle⟩

/-- What a small change adds to the journal is newer than what was covered before it. -/
theorem newer (h : Micro c (hand, a) (hand', a')) {rel : Path} {v : VClock Id}
    (hc : a.Covered rel v) :
    ∃ es, a'.journal = a.journal ++ es ∧ ∀ e ∈ es, e.Unsaturated a.me → e.Newer rel v := by
  obtain ⟨mine, hmine, hle⟩ := hc
  rcases h.index_cases with ⟨-, es, hes, hentry⟩ | ⟨p, sender, record, staged, hm, rfl⟩ |
    ⟨kind, p, record, hm, rfl⟩
  · exact ⟨es, hes, fun e he _ => Effect.newer_of_isEntry (hentry e he)⟩
  · refine ⟨_, rfl, fun e he _ => ?_⟩
    rcases List.mem_cons.mp he with rfl | he
    · rintro rfl hle'
      exact absurd ((Actor.isCurrent_of_le hmine (hle'.trans hle)).symm.trans hm.news) (by simp)
    · exact Effect.newer_of_isEntry (Actor.revival_isEntry he)
  · refine ⟨_, rfl, fun e he hsat => ?_⟩
    rcases List.mem_cons.mp he with rfl | he
    · rintro rfl
      have hsat' : record.vv.count a.me ≠ U64.max := hsat
      rcases hm.vv with ⟨-, hvv⟩ | ⟨mine', x, -, -, -, hmine', hrec⟩
      · rw [hvv, Actor.vvOf, hmine] at hsat' ⊢
        exact VClock.not_inc_le_of_ne_max hle hsat'
      · obtain rfl : mine = mine' := Option.some_injective _ (hmine.symm.trans hmine')
        rw [hrec] at hsat' ⊢
        exact VClock.not_inc_le_of_ne_max (hle.trans (VClock.le_merge_left _ _)) hsat'
    · exact Effect.newer_of_isEntry (Actor.revival_isEntry he)

/-- A record that is applied now is covered. -/
theorem applied_covered (h : Micro c (hand, a) (hand', a')) {rel : Path}
    {record : FileRecord Id} {prev : Option (FileRecord Id)} {leased : Bool}
    (he : .applied rel record prev leased ∈ a'.journal) :
    .applied rel record prev leased ∈ a.journal ∨ a'.Covered rel record.vv := by
  rcases h.index_cases with ⟨-, es, hes, hentry⟩ | ⟨p, sender, r, staged, hm, rfl⟩ |
    ⟨kind, p, r, hm, rfl⟩
  · rw [hes] at he
    rcases List.mem_append.mp he with he | he
    · exact .inl he
    · cases hentry _ he
  · rcases List.mem_append.mp he with he | he
    · exact .inl he
    · rcases List.mem_cons.mp he with he | he
      · cases he
        refine .inr ⟨_, Map.get_insert_self _ _ _, ?_⟩
        dsimp only
        split
        · exact VClock.le_merge_right _ _
        · exact VClock.Le.refl _
      · cases Actor.revival_isEntry he
  · rcases List.mem_append.mp he with he | he
    · exact .inl he
    · rcases List.mem_cons.mp he with he | he
      · cases he
      · cases Actor.revival_isEntry he

end Micro

/-! ## Chains, steps and runs -/

theorem Steps.covered {c : Ctx Id Path} {s t : List (Advert Id Path) × Actor Id Path}
    (h : Steps c s t) {rel : Path} {v : VClock Id} (hc : s.2.Covered rel v) :
    t.2.Covered rel v :=
  h.induct (P := fun _ a => a.Covered rel v) (fun hm hc => hm.covered hc) hc

/-- What a chain adds to the journal after `rel` was covered. -/
theorem Steps.newer {c : Ctx Id Path} {s t : List (Advert Id Path) × Actor Id Path}
    (h : Steps c s t) {rel : Path} {v : VClock Id} (hc : s.2.Covered rel v) :
    ∃ es, t.2.journal = s.2.journal ++ es ∧
      ∀ e ∈ es, e.Unsaturated s.2.me → e.Newer rel v := by
  induction h with
  | refl => exact ⟨[], (List.append_nil _).symm, fun e he => absurd he List.not_mem_nil⟩
  | @tail b d hsteps hm ih =>
      obtain ⟨es, hes, hnew⟩ := ih
      obtain ⟨fs, hfs, hnew'⟩ := hm.newer (Steps.covered hsteps hc)
      refine ⟨es ++ fs, by rw [hfs, hes, List.append_assoc], fun e he hsat => ?_⟩
      rcases List.mem_append.mp he with he | he
      · exact hnew e he hsat
      · refine hnew' e he ?_
        rw [Steps.me_eq hsteps]
        exact hsat

namespace Actor

variable {h : Host Id Path} {a b : Actor Id Path} {s : Env Path × Act Id Path}

/-- A turn is a chain of small changes, whatever is assumed of it. -/
theorem handle_chain (hi : RunInv h Terms.none a) (env : Env Path) (ev : Event Id Path) :
    Steps (ctx h Terms.none env) (handOf ev, a) ([], a.handle h env ev) :=
  handle_steps (hi.sound env False.elim) ⟨fun _ _ _ => trivial,
    fun _ _ _ _ _ _ _ => trivial, fun _ _ _ _ => trivial, False.elim, False.elim, False.elim,
    False.elim, fun _ => trivial, False.elim, False.elim⟩

/-- **A step is a chain of small changes**, once its event is out of the inbox or its task
has done its work. -/
theorem step_steps (hi : RunInv h Terms.none a) (hstep : a.step h s = some b) :
    ∃ hand tasks inbox conflicts known disk,
      Steps (ctx h Terms.none s.1) (hand, { a with tasks, inbox, conflicts, known, disk })
        ([], b) := by
  rcases step_cases hstep with ⟨a', ev, rfl | ⟨n, rfl⟩, -, rfl⟩ |
    ⟨-, tasks, inbox, conflicts, known, disk, rfl⟩
  · exact ⟨handOf ev, _, _, _, _, _, handle_chain hi s.1 ev⟩
  · exact ⟨handOf ev, _, _, _, _, _, handle_chain (hi.take n) s.1 ev⟩
  · exact ⟨[], tasks, inbox, conflicts, known, disk, .refl⟩

theorem runInv_none {ok : Actor Id Path → Env Path × Act Id Path → Prop} {env : Env Path}
    {me : Id} {p : Persisted Id Path} {founding : Bool}
    (hrun : Reaches (Actor.step h) ok (Actor.boot h env me p founding) a) :
    RunInv h Terms.none a :=
  RunInv.reached False.elim (fun _ _ _ => ⟨False.elim, False.elim, False.elim, False.elim⟩)
    (fun hc => False.elim hc) False.elim hrun

/-- **The rule for runs.** What holds of every state before the start, is kept by every chain
of small changes and does not speak of tasks, events, copies and the disk holds in every state
of every run. -/
theorem reached_of_steps {P : Actor Id Path → Prop} {me : Id} {p : Persisted Id Path}
    (hload : P (load h me p))
    (hkeep : ∀ (c : Ctx Id Path) (hand hand' : List (Advert Id Path)) (d e : Actor Id Path),
      Steps c (hand, d) (hand', e) → P d → P e)
    (hother : ∀ (d : Actor Id Path) tasks inbox conflicts known disk,
      P d → P { d with tasks, inbox, conflicts, known, disk })
    {ok : Actor Id Path → Env Path × Act Id Path → Prop} {env : Env Path} {founding : Bool}
    (hrun : Reaches (Actor.step h) ok (Actor.boot h env me p founding) a) : P a := by
  have hboth : RunInv h Terms.none a ∧ P a := by
    refine hrun.invariant (I := fun a => RunInv h Terms.none a ∧ P a) ?_ ?_
    · refine ⟨runInv_none (Reaches.refl : Reaches (Actor.step h) ok _ _), ?_⟩
      exact hkeep _ _ _ _ _ (@boot_steps _ _ _ _ (Ctx.aside h env) me p
        (load_sound h env me p) founding) hload
    · rintro v act w ⟨hi, hp⟩ _ hstep
      obtain ⟨hand, tasks, inbox, conflicts, known, disk, hsteps⟩ := step_steps hi hstep
      exact ⟨hi.step False.elim ⟨False.elim, False.elim, False.elim, False.elim⟩ hstep,
        hkeep _ _ _ _ _ hsteps (hother v tasks inbox conflicts known disk hp)⟩
  exact hboth.2

/-- Whatever was applied in a run is covered. -/
def AppliedCovered (a : Actor Id Path) : Prop :=
  ∀ rel record prev leased, .applied rel record prev leased ∈ a.journal →
    a.Covered rel record.vv

theorem Steps.appliedCovered {c : Ctx Id Path} {s t : List (Advert Id Path) × Actor Id Path}
    (h : Steps c s t) (hs : s.2.AppliedCovered) : t.2.AppliedCovered := by
  refine h.induct (P := fun _ a => a.AppliedCovered) ?_ hs
  intro hand a hand' a' hm ha rel record prev leased he
  rcases hm.applied_covered he with hold | hc
  · exact hm.covered (ha rel record prev leased hold)
  · exact hc

theorem appliedCovered_reached {ok : Actor Id Path → Env Path × Act Id Path → Prop}
    {env : Env Path} {me : Id} {p : Persisted Id Path} {founding : Bool}
    (hrun : Reaches (Actor.step h) ok (Actor.boot h env me p founding) a) : a.AppliedCovered :=
  reached_of_steps (P := AppliedCovered) (fun _ _ _ _ he => absurd he List.not_mem_nil)
    (fun _ _ _ _ _ hsteps hc => Steps.appliedCovered hsteps hc) (fun _ _ _ _ _ _ hc => hc) hrun

/-- What follows in a run after `rel` was covered by `v`. -/
theorem reaches_newer {ok : Actor Id Path → Env Path × Act Id Path → Prop}
    (hi : RunInv h Terms.none a) (hrun : Reaches (Actor.step h) ok a b) {rel : Path}
    {v : VClock Id} (hc : a.Covered rel v) :
    b.Covered rel v ∧ b.me = a.me ∧ RunInv h Terms.none b ∧
      ∃ es, b.journal = a.journal ++ es ∧ ∀ e ∈ es, e.Unsaturated a.me → e.Newer rel v := by
  induction hrun with
  | refl =>
      exact ⟨hc, rfl, hi, [], (List.append_nil _).symm, fun e he => absurd he List.not_mem_nil⟩
  | @tail t u act _ _ hstep ih =>
      obtain ⟨hct, hme, hit, es, hes, hnew⟩ := ih
      obtain ⟨hand, tasks, inbox, conflicts, known, disk, hsteps⟩ := step_steps hit hstep
      obtain ⟨fs, hfs, hnew'⟩ := hsteps.newer hct
      refine ⟨hsteps.covered hct, hsteps.me_eq.trans hme,
        hit.step False.elim ⟨False.elim, False.elim, False.elim, False.elim⟩ hstep, es ++ fs,
        ?_, fun e he hsat => ?_⟩
      · exact hfs.trans (by rw [hes, List.append_assoc])
      · rcases List.mem_append.mp he with he | he
        · exact hnew e he hsat
        · refine hnew' e he ?_
          exact hme ▸ hsat

end Actor

end Tazamun
