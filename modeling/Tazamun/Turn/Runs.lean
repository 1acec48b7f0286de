import Tazamun.Turn.Handlers

set_option autoImplicit false

/-! # What holds in every run of the actor

Three promises about a single daemon, each over all of its runs: events, messages, tasks and
saves of the user in any order, from any state it may be started in.

* Nothing is published without a lease, if an unlock that finds the file missing finds the
  lease still there (`commits_leased`).
* No peer's record is applied to a path under our own lease, if leases are won only while no
  pull of the path is under way (`applies_leaseless`).
* The bytes that the daemon replaces on disk are preserved, if they are those it last
  preserved, published or wrote itself (`replaced_preserved`).

Without their conditions all three fail, each in a short run that is given after it. All of
them are read off the journal, and what the small changes write into the journal is lawful
(`Micro.lawful`).
-/

namespace Tazamun

open Lib

variable {Id Path : Type} [LinearOrder Id] [LinearOrder Path]

/-! ## What the journal may say -/

/-- The entry is one that the context allows. -/
def Effect.Lawful (c : Ctx Id Path) : Effect Id Path → Prop
  | .applied _ _ _ leased => c.quietWins → leased = false
  | .committed kind _ _ _ leased =>
      kind = .import ∨ kind = .reassert ∨ leased = true ∨ kind = .tombstone ∧ ¬ c.leasedUnlock
  | .replaced _ _ preserved undisturbed => c.storeOk → undisturbed = true → preserved = true
  | _ => True

/-- Known bytes are preserved. -/
theorem Actor.preserves_of_known {c : Ctx Id Path} {a : Actor Id Path} (hk : a.KnownOk c)
    (hstore : c.storeOk) {rel : Path} {bytes : Bytes} (hb : a.known[rel]? = some bytes) :
    a.preserves c.host bytes = true := by
  unfold Actor.preserves
  rw [Bool.or_eq_true, Bool.or_eq_true]
  rcases hk rel bytes hb with ⟨name, hname⟩ | ⟨record, hrec, hcontent⟩
  · refine .inl (.inl (List.any_eq_true.mpr ⟨(name, bytes), Map.mem_toList.mpr hname, ?_⟩))
    exact decide_eq_true rfl
  · refine .inl (.inr (List.any_eq_true.mpr ⟨(rel, record), Map.mem_toList.mpr hrec, ?_⟩))
    exact decide_eq_true (hcontent hstore)

namespace Micro

variable {c : Ctx Id Path} {hand hand' : List (Advert Id Path)} {a a' : Actor Id Path}

theorem knownOk (h : Micro c (hand, a) (hand', a')) (hk : a.KnownOk c) : a'.KnownOk c := by
  cases h with
  | replaced rel =>
      unfold Actor.noteReplaced
      split
      · exact hk
      · exact hk
  | copies conflicts known hk' => exact hk' hk
  | applied rel sender record staged hm =>
      intro q bytes hq
      have hother : rel ≠ q → a.known[q]? = some bytes →
          (∃ name : CopyName Path, a.conflicts[name]? = some bytes) ∨
          ∃ record' : FileRecord Id, (a.commitApplied rel record staged).files[q]? =
            some record' ∧ c.Backs record'.manifest bytes := by
        intro hne hold
        rcases hk q bytes hold with hcopy | ⟨r, hr, hcontent⟩
        · exact .inl hcopy
        · refine .inr ⟨r, ?_, hcontent⟩
          exact (Map.get_insert_ne _ _ hne).trans hr
      have herase : (a.known.erase rel)[q]? = some bytes →
          rel ≠ q ∧ a.known[q]? = some bytes := by
        intro h
        rw [Map.get_erase] at h
        split at h
        · cases h
        · rename_i hne
          exact ⟨hne, h⟩
      unfold Actor.commitApplied at hq
      dsimp only at hq
      split at hq
      · rename_i b
        split at hq
        · exact hother (herase hq).1 (herase hq).2
        · rw [Map.get_insert] at hq
          split at hq
          · rename_i hrel
            cases hq
            rw [← hrel]
            exact .inr ⟨_, Map.get_insert_self _ _ _, hm.content _ rfl⟩
          · rename_i hne
            exact hother hne hq
      · exact hother (herase hq).1 (herase hq).2
  | committed kind rel record hm =>
      intro q bytes hq
      rcases hk q bytes hq with hcopy | ⟨r, hr, hcontent⟩
      · exact .inl hcopy
      · by_cases hrel : rel = q
        · subst hrel
          rcases hm.vv with ⟨hkind, -⟩ | ⟨mine, x, -, -, -, hmine, hrecord⟩
          · exact absurd ((hm.known hkind).symm.trans hq) (by simp)
          · refine .inr ⟨record, Map.get_insert_self _ _ _, ?_⟩
            rw [hmine] at hr
            cases hr
            rw [hrecord]
            exact hcontent
        · exact .inr ⟨r, (Map.get_insert_ne _ _ hrel).trans hr, hcontent⟩
  | _ => exact hk

/-- Every small change writes what is lawful. -/
theorem lawful (h : Micro c (hand, a) (hand', a')) (hk : a.KnownOk c)
    (hj : ∀ e ∈ a.journal, e.Lawful c) : ∀ e ∈ a'.journal, e.Lawful c := by
  have hadd : ∀ es : List (Effect Id Path), (∀ e ∈ es, e.Lawful c) →
      ∀ e ∈ a.journal ++ es, e.Lawful c := by
    intro es hes e he
    rcases List.mem_append.mp he with he | he
    · exact hj e he
    · exact hes e he
  have hrevival : ∀ rel record, ∀ e ∈ a.revival rel record, e.Lawful c := by
    intro rel record e he
    unfold Actor.revival at he
    dsimp only at he
    split at he
    · rw [List.mem_singleton.mp he]
      trivial
    · cases he
  cases h with
  | loss es he =>
      refine hadd es fun e hmem => ?_
      have hloss := he e hmem
      cases e with
      | dropped => trivial
      | revived => trivial
      | _ => cases hloss
  | replaced rel =>
      unfold Actor.noteReplaced
      split
      · exact hj
      · rename_i f hf
        refine hadd _ fun e he => ?_
        rw [List.mem_singleton.mp he]
        exact fun hstore hknown => Actor.preserves_of_known hk hstore (of_decide_eq_true hknown)
  | applied rel sender record staged hm =>
      refine hadd _ fun e he => ?_
      rcases List.mem_cons.mp he with rfl | he
      · exact hm.leaseless
      · exact hrevival rel record e he
  | committed kind rel record hm =>
      refine hadd _ fun e he => ?_
      rcases List.mem_cons.mp he with rfl | he
      · exact hm.licence
      · exact hrevival rel record e he
  | granted rel requester ha =>
      refine hadd _ fun e he => ?_
      rw [List.mem_singleton.mp he]
      trivial
  | acquired rel voters hv =>
      refine hadd _ fun e he => ?_
      rw [List.mem_singleton.mp he]
      trivial
  | indexed sender files leases hp =>
      refine hadd _ fun e he => ?_
      rw [List.mem_singleton.mp he]
      trivial
  | tick =>
      refine hadd _ fun e he => ?_
      rw [List.mem_singleton.mp he]
      trivial
  | _ => exact hj

/-- The inbox is not touched. -/
theorem inbox_eq (h : Micro c (hand, a) (hand', a')) : a'.inbox = a.inbox := by
  cases h with
  | replaced rel =>
      unfold Actor.noteReplaced
      split <;> rfl
  | _ => rfl

end Micro

namespace Actor

/-! ## The tasks -/

/-- A quarantine copy changes the copies and what is known, and nothing else. -/
theorem quarantine_eq (env : Env Path) (a : Actor Id Path) (rel : Path) :
    ∃ conflicts known, (a.quarantine env rel).1 = { a with conflicts, known } := by
  unfold quarantine
  split
  · exact ⟨a.conflicts, a.known, rfl⟩
  · split
    · unfold loseCopy
      dsimp only
      split
      · exact ⟨_, _, rfl⟩
      · exact ⟨_, _, rfl⟩
    · exact ⟨a.conflicts, a.known, rfl⟩

/-- The work of a task leaves all but quarantine alone. -/
theorem runTask_eq (h : Host Id Path) (env : Env Path) (a : Actor Id Path)
    (failure : Option String) (t : Task Id Path) :
    ∃ conflicts known, (a.runTask h env failure t).1 = { a with conflicts, known } := by
  cases t with
  | violation rel record quarantineFirst =>
      cases quarantineFirst with
      | true => exact quarantine_eq env a rel
      | false => exact ⟨a.conflicts, a.known, rfl⟩
  | autolock rel newFile => exact quarantine_eq env a rel
  | _ => exact ⟨a.conflicts, a.known, rfl⟩

theorem runTask_steps {c : Ctx Id Path} {hand : List (Advert Id Path)} (a : Actor Id Path)
    (failure : Option String) (t : Task Id Path) :
    Steps c (hand, a) (hand, (a.runTask c.host c.env failure t).1) := by
  cases t with
  | violation rel record quarantineFirst =>
      cases quarantineFirst with
      | true => exact quarantine_steps a rel
      | false => exact .refl
  | autolock rel newFile => exact quarantine_steps a rel
  | _ => exact .refl

/-- What a task fetches is what the manifest stands for. -/
theorem runTask_contentOk {h : Host Id Path}
    (hstore : ∀ bytes, h.content (h.manifestOf bytes) = some bytes) (env : Env Path)
    (a : Actor Id Path) (failure : Option String) (t : Task Id Path) :
    (a.runTask h env failure t).2.ContentOk h := by
  have hfetch : ∀ m bytes, fetch h m failure = some bytes → h.content m = some bytes := by
    intro m bytes hb
    cases failure with
    | none => exact hb
    | some e => cases hb
  cases t with
  | publish rel cause =>
      simp only [runTask]
      split
      · exact hstore _
      · trivial
  | pull rel sender record =>
      simp only [runTask]
      cases hb : fetch h record.manifest failure with
      | none => trivial
      | some bytes => exact hfetch _ _ hb
  | restore rel entry reply =>
      simp only [runTask]
      cases hb : fetch h entry.manifest failure with
      | none => trivial
      | some bytes => exact hfetch _ _ hb
  | _ => trivial

/-- Only the task of a pull ends in a result of a pull. -/
theorem task_of_pullStaged {h : Host Id Path} {env : Env Path} {a : Actor Id Path}
    {failure : Option String} {t : Task Id Path} {rel : Path} {sender : Id}
    {record : FileRecord Id} {result : Option Bytes}
    (heq : (a.runTask h env failure t).2 = .pullStaged rel sender record result) :
    t = .pull rel sender record := by
  cases t with
  | pull rel' sender' record' =>
      simp only [runTask] at heq
      cases heq
      rfl
  | _ => cases heq

/-! ## Runs -/

/-- The event that a step handles, if it handles one. -/
def handled (a : Actor Id Path) : Act Id Path → Option (Event Id Path)
  | .event ev => some ev
  | .inbox n => a.inbox[n]?
  | _ => none

/-- An unlock that found the file of an indexed path missing is handled under the lease. -/
def LeasedUnlocks (a : Actor Id Path) (s : Env Path × Act Id Path) : Prop :=
  match a.handled s.2 with
  | some ev => a.UnlocksLeased ev
  | none => True

/-- The step wins no lease of a path with a pull under way. -/
def QuietWins (h : Host Id Path) (a : Actor Id Path) (s : Env Path × Act Id Path) : Prop :=
  match a.handled s.2 with
  | some ev => a.WinsQuietly h s.1 ev
  | none => True

/-- A peer that the step makes us drop has nothing on record. -/
def TidyDrops (a : Actor Id Path) (s : Env Path × Act Id Path) : Prop :=
  match a.handled s.2 with
  | some ev => a.DropsTidily ev
  | none => True

/-- The modes of files can be set, and no lease of ours ends inside the lock table. -/
def EndsClamped (h : Host Id Path) (a : Actor Id Path) (s : Env Path × Act Id Path) : Prop :=
  (∀ p, s.1.io.setMode p = true) ∧
    match a.handled s.2 with
    | some ev => a.SparesLeases h s.1 ev
    | none => True

/-- What is assumed of a run. -/
structure Terms where
  storeOk : Prop
  leasedUnlock : Prop
  quietWins : Prop
  tidy : Prop
  clamps : Prop

def Terms.none : Terms := ⟨False, False, False, False, False⟩

/-- The step keeps to the terms. -/
structure StepOk (h : Host Id Path) (terms : Terms) (a : Actor Id Path)
    (s : Env Path × Act Id Path) : Prop where
  unlock : terms.leasedUnlock → a.LeasedUnlocks s
  quiet : terms.quietWins → a.QuietWins h s
  tidy : terms.tidy → a.TidyDrops s
  clamps : terms.clamps → a.EndsClamped h s

/-- The context of a step in a run: any vote may be delivered. -/
def ctx (h : Host Id Path) (terms : Terms) (env : Env Path) : Ctx Id Path where
  host := h
  env := env
  got _ _ := True
  asks _ _ _ := True
  joining := True
  storeOk := terms.storeOk
  leasedUnlock := terms.leasedUnlock
  quietWins := terms.quietWins
  peering := True
  tidy := terms.tidy
  clamps := terms.clamps

/-- The modes of files can be set, as far as the terms ask for it. -/
def Terms.Modes (terms : Terms) (env : Env Path) : Prop :=
  terms.clamps → ∀ p, env.io.setMode p = true

/-- What holds in every state of a run. -/
structure RunInv (h : Host Id Path) (terms : Terms) (a : Actor Id Path) : Prop where
  sound : ∀ env, terms.Modes env → Sound (ctx h terms env) a
  known : ∀ env, a.KnownOk (ctx h terms env)
  lawful : ∀ env, ∀ e ∈ a.journal, e.Lawful (ctx h terms env)
  inbox : terms.storeOk → ∀ ev ∈ a.inbox, ev.ContentOk h

section Step

variable {h : Host Id Path} {terms : Terms} {a b : Actor Id Path}

/-- A chain of small changes keeps the invariant. -/
theorem RunInv.steps {env : Env Path} (hm : terms.Modes env) {hand hand' : List (Advert Id Path)}
    (hi : RunInv h terms a) (hsteps : Steps (ctx h terms env) (hand, a) (hand', b)) :
    RunInv h terms b := by
  have hs := hsteps.sound (hi.sound env hm)
  have hboth := hsteps.induct
    (P := fun _ a => a.KnownOk (ctx h terms env) ∧ ∀ e ∈ a.journal, e.Lawful (ctx h terms env))
    (fun hm hp => ⟨hm.knownOk hp.1, hm.lawful hp.1 hp.2⟩) ⟨hi.known env, hi.lawful env⟩
  have hinbox : b.inbox = a.inbox := hsteps.induct (P := fun _ d => d.inbox = a.inbox)
    (fun hm hp => hm.inbox_eq.trans hp) rfl
  refine ⟨fun _ hm' => ⟨hs.me, hs.peers, hs.quiet, hs.staged, hs.booked, hs.opened, hs.readonly,
    hm'⟩, fun _ => hboth.1, fun _ => hboth.2, ?_⟩
  rw [hinbox]
  exact hi.inbox

omit [LinearOrder Path] in
/-- The event of an external step brings nothing that was fetched. -/
theorem contentOk_of_isExternal {ev : Event Id Path} (hev : ev.isExternal = true) :
    ev.ContentOk h := by
  cases ev <;> trivial

/-- A turn keeps the invariant. -/
theorem RunInv.handle {env : Env Path} (hm : terms.Modes env) {ev : Event Id Path}
    (hi : RunInv h terms a) (hev : EventOk (ctx h terms env) a ev) :
    RunInv h terms (a.handle h env ev) :=
  hi.steps hm (handle_steps (hi.sound env hm) hev)

/-- A change of tasks and inbox that leaves quiet paths quiet. -/
theorem sound_of_queues {c : Ctx Id Path} (hs : Sound c a) {tasks : List (Task Id Path)}
    {inbox : List (Event Id Path)}
    (hquiet : c.quietWins → ∀ p, a.locks.isHeldByMe p = true →
      ({ a with tasks, inbox } : Actor Id Path).Quiet p) :
    Sound c { a with tasks, inbox } :=
  ⟨hs.me, hs.peers, hquiet, hs.staged, hs.booked, hs.opened, hs.readonly, hs.modes⟩

/-- An event that is taken out of the inbox leaves a state as good as before. -/
theorem RunInv.take (hi : RunInv h terms a) (n : Nat) :
    RunInv h terms { a with inbox := a.inbox.eraseIdx n } := by
  refine ⟨fun env hm => ?_, hi.known, hi.lawful, fun hst ev hev => ?_⟩
  · have hs := hi.sound env hm
    refine sound_of_queues hs fun hq p hp => ?_
    obtain ⟨hjob, hdef, htask, hin⟩ := hs.quiet hq p hp
    exact ⟨hjob, hdef, htask, fun s r b hmem => hin s r b (List.mem_of_mem_eraseIdx hmem)⟩
  · exact hi.inbox hst ev (List.mem_of_mem_eraseIdx hev)

/-- The work of a task keeps the invariant. -/
theorem RunInv.task (hi : RunInv h terms a)
    (hstore : terms.storeOk → ∀ bytes, h.content (h.manifestOf bytes) = some bytes)
    {env : Env Path} (hm : terms.Modes env) {n : Nat} {failure : Option String}
    {t : Task Id Path} (ht : a.tasks[n]? = some t) :
    RunInv h terms
      (let r := ({ a with tasks := a.tasks.eraseIdx n } : Actor Id Path).runTask h env failure t
       { r.1 with inbox := r.1.inbox ++ [r.2] }) := by
  have hless : RunInv h terms { a with tasks := a.tasks.eraseIdx n } := by
    refine ⟨fun env hm => ?_, hi.known, hi.lawful, hi.inbox⟩
    have hs := hi.sound env hm
    refine sound_of_queues hs fun hq p hp => ?_
    obtain ⟨hjob, hdef, htask, hin⟩ := hs.quiet hq p hp
    exact ⟨hjob, hdef, fun s r hmem => htask s r (List.mem_of_mem_eraseIdx hmem), hin⟩
  have hev : terms.storeOk → (({ a with tasks := a.tasks.eraseIdx n } : Actor Id Path).runTask h
      env failure t).2.ContentOk h := fun hst => runTask_contentOk (hstore hst) env _ failure t
  have hpull : ∀ rel sender record bytes,
      (({ a with tasks := a.tasks.eraseIdx n } : Actor Id Path).runTask h env failure t).2 =
        .pullStaged rel sender record (some bytes) → Task.pull rel sender record ∈ a.tasks := by
    intro rel sender record bytes heq
    rw [← task_of_pullStaged heq]
    exact List.mem_of_getElem? ht
  have hrun := hless.steps hm (@runTask_steps _ _ _ _ (ctx h terms env) [] _ failure t)
  obtain ⟨conflicts, known, heq⟩ := runTask_eq h env { a with tasks := a.tasks.eraseIdx n }
    failure t
  change RunInv h terms (runTask h env _ failure t).1 at hrun
  dsimp only
  generalize runTask h env { a with tasks := a.tasks.eraseIdx n } failure t = r
    at hev hpull hrun heq ⊢
  obtain ⟨d, ev⟩ := r
  dsimp only at hev hpull hrun heq ⊢
  refine ⟨fun env hm => ?_, hrun.known, hrun.lawful, fun hst e he => ?_⟩
  · have hs := hrun.sound env hm
    refine sound_of_queues hs fun hq p hp => ?_
    obtain ⟨hjob, hdef, htask, hin⟩ := hs.quiet hq p hp
    refine ⟨hjob, hdef, htask, fun s r bytes hmem => ?_⟩
    rcases List.mem_append.mp hmem with hmem | hmem
    · exact hin s r bytes hmem
    · have hheld : a.locks.isHeldByMe p = true := by
        rw [heq] at hp
        exact hp
      exact ((hi.sound env hm).quiet hq p hheld).2.2.1 s r
        (hpull p s r bytes (List.mem_singleton.mp hmem).symm)
  · rcases List.mem_append.mp he with he | he
    · exact hrun.inbox hst e he
    · rw [List.mem_singleton.mp he]
      exact hev hst

/-- **A step keeps the invariant.** -/
theorem RunInv.step (hi : RunInv h terms a)
    (hstore : terms.storeOk → ∀ bytes, h.content (h.manifestOf bytes) = some bytes)
    {s : Env Path × Act Id Path} (hok : StepOk h terms a s) (hstep : a.step h s = some b) :
    RunInv h terms b := by
  obtain ⟨env, act⟩ := s
  have hm : terms.Modes env := fun hc => (hok.clamps hc).1
  have hmisc : ∀ disk, RunInv h terms { a with disk } := fun disk =>
    @RunInv.steps _ _ _ _ _ _ _ _ env hm [] _ hi (.single (.misc ..))
  obtain ⟨hunlock, hquiet, htidy, hclamps⟩ := hok
  unfold LeasedUnlocks at hunlock
  unfold QuietWins at hquiet
  unfold TidyDrops at htidy
  unfold EndsClamped at hclamps
  cases act with
  | event ev =>
      simp only [Actor.step] at hstep
      split at hstep
      · rename_i hext
        cases hstep
        refine hi.handle hm ⟨fun _ _ _ => trivial, fun _ _ _ _ _ _ _ => trivial,
          fun _ _ _ _ => trivial, fun _ => contentOk_of_isExternal hext, hunlock,
          hquiet, ?_, fun _ => trivial, htidy, fun hc => (hclamps hc).2⟩
        rintro _ rel sender record bytes rfl
        cases hext
      · cases hstep
  | inbox n =>
      simp only [Actor.step] at hstep
      split at hstep
      · cases hstep
      · rename_i ev hev
        cases hstep
        have hmem : ev ∈ a.inbox := List.mem_of_getElem? hev
        simp only [handled, hev] at hunlock hquiet htidy hclamps
        refine (hi.take n).handle hm ⟨fun _ _ _ => trivial, fun _ _ _ _ _ _ _ => trivial,
          fun _ _ _ _ => trivial, fun hst => hi.inbox hst ev hmem,
          hunlock, fun hq p hno hp => ?_, ?_, fun _ => trivial, htidy, fun hc => (hclamps hc).2⟩
        · obtain ⟨hjob, hdef, htask, hin⟩ := hquiet hq p hno hp
          exact ⟨hjob, hdef, htask, fun s r b h => hin s r b (List.mem_of_mem_eraseIdx h)⟩
        · rintro hq rel sender record bytes rfl
          by_contra hheld
          exact ((hi.sound env hm).quiet hq rel (by simpa using hheld)).2.2.2 _ _ _ hmem
  | task n failure =>
      simp only [Actor.step] at hstep
      split at hstep
      · cases hstep
      · rename_i t ht
        cases hstep
        exact hi.task hstore hm ht
  | write rel bytes =>
      cases hstep
      exact hmisc _
  | delete rel =>
      cases hstep
      exact hmisc _
  | chmod rel readonly =>
      simp only [Actor.step] at hstep
      split at hstep
      · cases hstep
      · cases hstep
        exact hmisc _

end Step

/-- Starting the daemon is a chain of small changes. -/
theorem boot_steps {c : Ctx Id Path} {me : Id} {p : Persisted Id Path}
    (hs : Sound c (load c.host me p)) (founding : Bool) :
    Steps c ([], load c.host me p) ([], boot c.host c.env me p founding) := by
  have hmode : Steps c ([], load c.host me p)
      ([], ((load c.host me p).files.toList.filter fun e => !e.2.deleted).foldl
        (fun a e => a.settleMode c.env e.1) (load c.host me p)) :=
    foldl_steps (fun a (e : Path × FileRecord Id) => settleMode_steps a e.1) _ _
  exact hmode.andThen hs fun hs => startupScan_steps hs founding

/-- The invariant holds before the daemon starts. -/
theorem RunInv.load (h : Host Id Path) {terms : Terms} (me : Id) {p : Persisted Id Path}
    (hro : terms.clamps → p.config.enforceReadonly = true) : RunInv h terms (load h me p) := by
  refine ⟨fun env hm => ⟨rfl, by simp [Actor.load], fun _ p hp => ?_, fun rel d bytes hd => ?_,
    fun _ => ?_, fun _ p hp => ?_, hro, hm⟩,
    fun env rel bytes hk => ?_, fun _ _ he => ?_, fun _ _ he => ?_⟩
  · simp [Actor.load, LockTable.new, LockTable.isHeldByMe] at hp
  · simp [Actor.load] at hd
  · refine ⟨fun q hq => ?_, fun q hq => ?_, fun q hq => ?_, fun rel v hv => ?_⟩
    · simp [Actor.load] at hq
    · simp [Actor.load] at hq
    · simp [Actor.load] at hq
    · obtain ⟨l, n, g, d, hs, -⟩ := hv
      simp [Actor.load, LockTable.new] at hs
  · simp [Actor.load] at hp
  · refine .inr ?_
    simp only [Actor.load, Std.ExtTreeMap.getElem?_map, Std.ExtTreeMap.getElem?_filter'] at hk ⊢
    obtain ⟨f, hf, rfl⟩ := Option.map_eq_some_iff.mp hk
    obtain ⟨-, hsame⟩ := Option.filter_eq_some_iff.mp hf
    split at hsame
    · rename_i r hr
      exact ⟨r, hr, fun _ => of_decide_eq_true hsame⟩
    · cases hsame
  · cases he
  · cases he

/-- The invariant holds when the daemon has started. -/
theorem RunInv.boot (h : Host Id Path) {terms : Terms} {env : Env Path} (hm : terms.Modes env)
    (me : Id) {p : Persisted Id Path} (hro : terms.clamps → p.config.enforceReadonly = true)
    (founding : Bool) : RunInv h terms (boot h env me p founding) := by
  have hload := RunInv.load h me hro
  exact @RunInv.steps _ _ _ _ _ _ _ _ env hm [] [] hload
    (@boot_steps _ _ _ _ (ctx h terms env) me p (hload.sound env hm) founding)

/-- The invariant holds in every state of every run that keeps to the terms. -/
theorem RunInv.reached {h : Host Id Path} {terms : Terms}
    (hstore : terms.storeOk → ∀ bytes, h.content (h.manifestOf bytes) = some bytes)
    {ok : Actor Id Path → Env Path × Act Id Path → Prop}
    (hok : ∀ a s, ok a s → StepOk h terms a s) {env : Env Path} (hm : terms.Modes env) {me : Id}
    {p : Persisted Id Path} (hro : terms.clamps → p.config.enforceReadonly = true)
    {founding : Bool} {a : Actor Id Path}
    (hrun : Reaches (Actor.step h) ok (Actor.boot h env me p founding) a) : RunInv h terms a :=
  hrun.invariant (RunInv.boot h hm me hro founding)
    fun b s _ hi hs hstep => hi.step hstore (hok b s hs) hstep

/-! ## A small daemon

A host whose manifests carry the bytes themselves, and a daemon with one file. The runs after
the theorems are runs of it. -/

def plainHost : Host Nat Nat where
  sanitize _ := true
  str _ := ""
  idStr _ := ""
  copyStr _ := ""
  ignoreFile := 0
  verdict _ _ _ _ := none
  portabilityViolation _ := none
  toLowercase _ := ""
  windows := false
  manifestOf bytes := .inline (bytes.map fun b => ⟨b.toNat, 1⟩)
  content
    | .inline chunks => some (chunks.map fun c => UInt8.ofNat c.hash)
    | .blob _ => none
  entryLen _ := 0
  encodedLen _ := 0

/-- All file operations succeed. -/
def plainEnv (now : Nat) : Env Nat where
  now := now
  nowMs := Fin.ofNat _ now
  io := ⟨fun _ => true, fun _ => true, fun _ => true, fun _ => true, fun _ => true, fun _ => ""⟩

def plainConfig : SessionConfig where
  role := .editor
  strict := true
  autolock := false
  historyDepth := 5
  leaseTtlMs := 90000
  acquireTimeoutMs := 8000
  waitTimeoutMs := 60000
  junkFilter := false
  syncOnly := ""
  syncSkip := ""
  maxFileSize := 0

/-- The record of a file with a single byte. -/
def plainRecord (byte : Nat) (vv : VClock Nat) : FileRecord Nat :=
  ⟨1, .inline [⟨byte, 1⟩], vv, false, 0⟩

/-- Path 1 is indexed, with its file on disk. -/
def plainState : Persisted Nat Nat where
  config := plainConfig
  adminPublicKey := none
  myGrant := none
  files := (∅ : Map Nat (FileRecord Nat)).insert 1 (plainRecord 7 ((∅ : VClock Nat).insert 0 1))
  history := ∅
  lamport := 0
  unapplied := ∅
  pulling := ∅
  disk := (∅ : Map Nat DiskFile).insert 1 ⟨[7], true⟩
  conflicts := ∅

theorem plainState_files {p : Nat} {r : FileRecord Nat} (hp : plainState.files[p]? = some r) :
    p = 1 ∧ r = plainRecord 7 ((∅ : VClock Nat).insert 0 1) := by
  rw [plainState, Map.get_insert] at hp
  split at hp
  · rename_i heq
    cases hp
    exact ⟨heq.symm, rfl⟩
  · simp at hp

def plainStart : Actor Nat Nat := Actor.boot plainHost (plainEnv 0) 0 plainState false

/-- The steps, all at time 0. -/
def now (acts : List (Act Nat Nat)) : List (Env Nat × Act Nat Nat) :=
  acts.map fun act => (plainEnv 0, act)

/-- Node 1 is connected, and node 0 asks it for the lease of path 1. -/
def askLease : List (Env Nat × Act Nat Nat) :=
  now [.event (.authed 1 0 true), .event (.msg 1 (.index 0 [] [])), .event (.ipc (.lock 1) 0)]

def grantLease : Act Nat Nat := .event (.msg 1 (.lock (.lockGrant 1)))

/-- Node 1 announces a newer version of path 1. -/
def announce : Act Nat Nat :=
  .event (.msg 1 (.fileMeta 1 (plainRecord 8 (((∅ : VClock Nat).insert 0 1).insert 1 1)) 1))

/-! ## Runs of the plain host -/

instance (a : Actor Id Path) (ev : Event Id Path) : Decidable (a.UnlocksLeased ev) :=
  match ev with
  | .inspected rel (.ok .missingIndexed) (.unlock _) =>
      inferInstanceAs (Decidable
        (FileRecord.isLive a.files[rel]? = true → a.locks.isHeldByMe rel = true))
  | .inspected _ (.ok .missingIndexed) .watch => isTrue trivial
  | .inspected _ (.ok .clean) _ | .inspected _ (.ok .differs) _ => isTrue trivial
  | .inspected _ (.ok .unindexed) _ | .inspected _ (.error _) _ => isTrue trivial
  | .authed _ _ _ | .msg _ _ | .gone _ _ | .watch _ | .ipc _ _ | .sweep | .renew => isTrue trivial
  | .publishDone _ _ _ | .pullStaged _ _ _ _ | .pullRetry _ => isTrue trivial
  | .violationStaged _ _ _ _ | .autolockReady _ _ _ | .restoreStaged _ _ _ _ => isTrue trivial
  | .conflictApplied _ _ _ | .acquireTimeout _ _ => isTrue trivial

/-- What is asked of the event that a step handles, if it handles one. -/
def decidableHandled {P : Event Id Path → Prop} [DecidablePred P] :
    (ev : Option (Event Id Path)) →
      Decidable (match ev with
        | some ev => P ev
        | none => True)
  | some ev => inferInstanceAs (Decidable (P ev))
  | none => isTrue trivial

instance (a : Actor Id Path) (s : Env Path × Act Id Path) : Decidable (a.LeasedUnlocks s) :=
  decidableHandled (P := a.UnlocksLeased) (a.handled s.2)

/-- The journal has a publish. -/
def published (a : Actor Nat Nat) : Bool :=
  a.journal.any fun
    | .committed .publish _ _ _ _ => true
    | _ => false

/-- The journal has a tombstone that was committed without a lease. -/
def buried (a : Actor Nat Nat) : Bool :=
  a.journal.any fun
    | .committed .tombstone _ _ _ false => true
    | _ => false

/-- The step delivers neither a vote nor a lease. -/
def gainless (a : Actor Nat Nat) (s : Env Nat × Act Nat Nat) : Bool :=
  match a.handled s.2 with
  | some (.msg _ (.lock (.lockGrant _))) => false
  | some (.msg _ (.index _ _ leases)) => leases.isEmpty
  | some (.msg _ (.indexPart _ _ _ _ _)) => false
  | _ => true

/-- The journal says that a record was applied. -/
def tookOver (leased : Bool) (a : Actor Nat Nat) : Bool :=
  a.journal.any fun
    | .applied _ _ _ l => decide (l = leased)
    | _ => false

/-- The journal says that a file was replaced. -/
def overwrote (undisturbed : Bool) (a : Actor Nat Nat) : Bool :=
  a.journal.any fun
    | .replaced _ _ _ u => decide (u = undisturbed)
    | _ => false

/-- The journal says that bytes were lost. -/
def destroyed (a : Actor Nat Nat) : Bool :=
  a.journal.any fun
    | .replaced _ _ preserved _ => !preserved
    | _ => false

/-- What the runs of the examples below end with. -/
theorem plainRuns_end :
    (executeChecked (step plainHost) (fun a s => decide (LeasedUnlocks a s))
        (askLease ++ now [grantLease, .write 1 [8], .event (.watch 1), .task 1 none, .inbox 0,
          .task 1 none, .inbox 0]) plainStart).any published = true ∧
    (execute (step plainHost)
        (askLease ++ now [grantLease, .delete 1, .event (.ipc (.unlock 1) 1), .task 1 none] ++
          [(plainEnv 90000, .event .sweep), (plainEnv 90000, .inbox 0)])
        plainStart).any buried = true ∧
    (executeChecked (step plainHost) gainless
        (now [.event (.authed 1 0 true), .event (.msg 1 (.index 0 [] [])), announce,
          .task 0 none, .inbox 0]) plainStart).any (tookOver false) = true ∧
    (execute (step plainHost)
        (askLease ++ now [announce, .task 1 none, grantLease, .inbox 0])
        plainStart).any (tookOver true) = true ∧
    (execute (step plainHost)
        (now [.write 1 [8], .event (.watch 1), .task 0 none, .inbox 0, .task 0 none, .inbox 0])
        plainStart).any (overwrote true) = true ∧
    (execute (step plainHost)
        (now [.write 1 [8], .event (.watch 1), .task 0 none, .inbox 0, .task 0 none,
          .write 1 [9], .inbox 0]) plainStart).any destroyed = true := by
  decide +kernel

/-! ## Publishing -/

/-- **Nothing is published without a lease.** In every run whose unlocks of missing files
find the lease still there, a commit other than an import or a re-assertion is made under a
self-held lease. -/
theorem commits_leased (h : Host Id Path) (env : Env Path) (me : Id) (p : Persisted Id Path)
    (founding : Bool) {a : Actor Id Path}
    (hrun : Reaches (step h) LeasedUnlocks (Actor.boot h env me p founding) a)
    {kind : CommitKind} {rel : Path} {record : FileRecord Id} {prev : Option (FileRecord Id)}
    {leased : Bool} (hmem : .committed kind rel record prev leased ∈ a.journal)
    (himport : kind ≠ .import) (hreassert : kind ≠ .reassert) : leased = true := by
  have hi : RunInv h { Terms.none with leasedUnlock := True } a :=
    .reached False.elim
      (fun _ _ hs => ⟨fun _ => hs, False.elim, False.elim, False.elim⟩)
      (fun hc => False.elim hc) False.elim hrun
  rcases hi.lawful env _ hmem with hk | hk | hk | ⟨-, hno⟩
  · exact absurd hk himport
  · exact absurd hk hreassert
  · exact hk
  · exact absurd trivial hno

/-- An edit under a lease is published under it. -/
theorem commits_leased_edit : ∃ a : Actor Nat Nat, ∃ rel record prev leased,
    Reaches (step plainHost) LeasedUnlocks plainStart a ∧
      .committed .publish rel record prev leased ∈ a.journal ∧ leased = true := by
  have hexec := plainRuns_end.1
  obtain ⟨a, hok, hp⟩ := exists_reaches_of_executeChecked hexec
  have hrun : Reaches (step plainHost) LeasedUnlocks plainStart a :=
    hok.mono fun _ _ h => of_decide_eq_true h
  obtain ⟨e, he, hpub⟩ := List.any_eq_true.mp hp
  split at hpub
  · exact ⟨a, _, _, _, _, hrun, he,
      commits_leased plainHost (plainEnv 0) 0 plainState false hrun he (by simp) (by simp)⟩
  · cases hpub

/-- The file is deleted under the lease and the user unlocks. The lease expires while the
inspection is under way, and the deletion is published all the same. -/
theorem tombstone_without_lease : ∃ a : Actor Nat Nat, ∃ rel record prev,
    Reaches (step plainHost) anyStep plainStart a ∧
      .committed .tombstone rel record prev false ∈ a.journal := by
  have hexec := plainRuns_end.2.1
  obtain ⟨a, hrun, hp⟩ := exists_reaches_of_execute anyStep (fun _ _ _ => trivial) hexec
  obtain ⟨e, he, hb⟩ := List.any_eq_true.mp hp
  split at hb
  · exact ⟨a, _, _, _, hrun, he⟩
  · cases hb

/-! ## Applying -/

/-- **No peer's record is applied under our own lease.** In every run whose leases are won
only while no pull of the path is under way, a record of a peer is applied only to a path
that is not self-held. -/
theorem applies_leaseless (h : Host Id Path) (env : Env Path) (me : Id) (p : Persisted Id Path)
    (founding : Bool) {a : Actor Id Path}
    (hrun : Reaches (step h) (QuietWins h) (Actor.boot h env me p founding) a) {rel : Path}
    {record : FileRecord Id} {prev : Option (FileRecord Id)} {leased : Bool}
    (hmem : .applied rel record prev leased ∈ a.journal) : leased = false := by
  have hi : RunInv h { Terms.none with quietWins := True } a :=
    .reached False.elim
      (fun _ _ hs => ⟨False.elim, fun _ => hs, False.elim, False.elim⟩)
      (fun hc => False.elim hc) False.elim hrun
  exact hi.lawful env _ hmem trivial

theorem quietWins_of_gainless {a : Actor Nat Nat} {s : Env Nat × Act Nat Nat}
    (hg : gainless a s = true) : a.QuietWins plainHost s := by
  unfold QuietWins
  split
  · rename_i ev hev
    have hsame : a.lockGain plainHost s.1 ev = a.locks := by
      unfold gainless at hg
      rw [hev] at hg
      unfold lockGain
      split
      · cases hg
      · rename_i leases
        obtain rfl := List.isEmpty_iff.mp hg
        exact ite_self _
      · cases hg
      · rfl
    intro p hno hp
    rw [hsame, hno] at hp
    cases hp
  · trivial

/-- An announced version is pulled and applied. -/
theorem applies_leaseless_pull : ∃ a : Actor Nat Nat, ∃ rel record prev leased,
    Reaches (step plainHost) (QuietWins plainHost) plainStart a ∧
      .applied rel record prev leased ∈ a.journal ∧ leased = false := by
  have hexec := plainRuns_end.2.2.1
  obtain ⟨a, hok, hp⟩ := exists_reaches_of_executeChecked hexec
  have hrun : Reaches (step plainHost) (QuietWins plainHost) plainStart a :=
    hok.mono fun _ _ h => quietWins_of_gainless h
  obtain ⟨e, he, ht⟩ := List.any_eq_true.mp hp
  split at ht
  · exact ⟨a, _, _, _, _, hrun, he,
      applies_leaseless plainHost (plainEnv 0) 0 plainState false hrun he⟩
  · cases ht

/-- The lease is asked for, a newer version is announced and pulled, the vote arrives, and
the pulled version is applied under our own lease. -/
theorem applied_under_own_lease : ∃ a : Actor Nat Nat, ∃ rel record prev,
    Reaches (step plainHost) anyStep plainStart a ∧
      .applied rel record prev true ∈ a.journal := by
  have hexec := plainRuns_end.2.2.2.1
  obtain ⟨a, hrun, hp⟩ := exists_reaches_of_execute anyStep (fun _ _ _ => trivial) hexec
  obtain ⟨e, he, ht⟩ := List.any_eq_true.mp hp
  split at ht
  · obtain rfl := of_decide_eq_true ht
    exact ⟨a, _, _, _, hrun, he⟩
  · cases ht

/-! ## Replacing bytes -/

/-- **The bytes that are replaced are preserved.** In every run, whenever the daemon
overwrites or removes a file whose bytes are those it last quarantined, published or wrote
there itself, these are in a quarantine copy or the content of a manifest in the index or
the history. -/
theorem replaced_preserved {h : Host Id Path}
    (hstore : ∀ bytes, h.content (h.manifestOf bytes) = some bytes) (env : Env Path) (me : Id)
    (p : Persisted Id Path) (founding : Bool) {a : Actor Id Path}
    (hrun : Reaches (step h) anyStep (Actor.boot h env me p founding) a) {rel : Path}
    {bytes : Bytes} {preserved : Bool} (hmem : .replaced rel bytes preserved true ∈ a.journal) :
    preserved = true := by
  have hi : RunInv h { Terms.none with storeOk := True } a :=
    .reached (fun _ => hstore)
      (fun _ _ _ => ⟨False.elim, False.elim, False.elim, False.elim⟩)
      (fun hc => False.elim hc) False.elim hrun
  exact hi.lawful env _ hmem trivial rfl

theorem plainHost_store (bytes : Bytes) :
    plainHost.content (plainHost.manifestOf bytes) = some bytes := by
  simp [plainHost, Function.comp_def]

/-- A save without a lease is quarantined and reverted. -/
theorem replaced_preserved_revert : ∃ a : Actor Nat Nat, ∃ rel bytes preserved,
    Reaches (step plainHost) anyStep plainStart a ∧
      .replaced rel bytes preserved true ∈ a.journal ∧ preserved = true := by
  have hexec := plainRuns_end.2.2.2.2.1
  obtain ⟨a, hrun, hp⟩ := exists_reaches_of_execute anyStep (fun _ _ _ => trivial) hexec
  obtain ⟨e, he, ho⟩ := List.any_eq_true.mp hp
  split at ho
  · obtain rfl := of_decide_eq_true ho
    exact ⟨a, _, _, _, hrun, he,
      replaced_preserved plainHost_store (plainEnv 0) 0 plainState false hrun he⟩
  · cases ho

/-- Every quarantine copy of the step succeeds. -/
def CopiesSucceed (_ : Actor Id Path) (s : Env Path × Act Id Path) : Prop :=
  ∀ rel, s.1.io.quarantine rel = true

/-- The user saves once more after the first save was quarantined; the revert overwrites the
second save, and its bytes are nowhere. -/
theorem second_save_destroyed : ∃ a : Actor Nat Nat, ∃ rel bytes undisturbed,
    Reaches (step plainHost) CopiesSucceed plainStart a ∧
      .replaced rel bytes false undisturbed ∈ a.journal := by
  have hcopies : ∀ acts, ∀ s ∈ now acts, ∀ a : Actor Nat Nat, a.CopiesSucceed s := by
    rintro acts s hs - rel
    obtain ⟨act, -, rfl⟩ := List.mem_map.mp hs
    rfl
  have hexec := plainRuns_end.2.2.2.2.2
  obtain ⟨a, hrun, hp⟩ := exists_reaches_of_execute CopiesSucceed (hcopies _) hexec
  obtain ⟨e, he, hd⟩ := List.any_eq_true.mp hp
  split at hd
  · rename_i preserved _
    obtain rfl : preserved = false := by simpa using hd
    exact ⟨a, _, _, _, hrun, he⟩
  · cases hd

end Actor

end Tazamun
