import Tazamun.Turn.Dispatch

set_option autoImplicit false

/-! # Runs that keep to a guard

From turns to runs. The startup is made of moves as well (`boot_kept`), a task posts an event
that passes the guard if the task did, and handlers leave the inbox alone. So in a run in
which everything that comes from outside passes the guard, everything in the state has passed
it, and what every move keeps holds in every state (`reached_kept`).

The guard is the same in all turns here (`Guard.Steady`): what may be taken in may be applied
whenever it is there.
-/

namespace Tazamun

open Lib

variable {Id Path : Type} [LinearOrder Id] [LinearOrder Path]

/-- Nothing depends on the turn. -/
structure Guard.Steady (g : Guard Id Path) : Prop where
  apply : ∀ p r, g.record p r → g.apply p r
  commit : ∀ p, g.commit p
  release : ∀ p, g.release p

theorem Guard.all_steady : (Guard.all : Guard Id Path).Steady :=
  ⟨fun _ _ _ => trivial, fun _ => trivial, fun _ => trivial⟩

/-- The event of a task has passed the guard. -/
def Event.Within (g : Guard Id Path) : Event Id Path → Prop
  | .authed _ _ _ | .msg _ _ | .gone _ _ | .watch _ | .ipc _ _ | .sweep | .renew => False
  | .inspected rel _ _ | .pullRetry rel | .violationStaged rel _ _ _ | .autolockReady rel _ _
  | .conflictApplied rel _ _ | .acquireTimeout rel _ => g.path rel
  | .publishDone rel result _ => g.path rel ∧ ∀ p, result = some p → g.content rel p.manifest
  | .pullStaged rel _ record _ => g.record rel record
  | .restoreStaged rel entry _ _ => g.path rel ∧ g.content rel entry.manifest

theorem Event.Within.passes {g : Guard Id Path} (hg : g.Steady) {ev : Event Id Path}
    (hev : ev.Within g) (h : Host Id Path) (env : Env Path) (a : Actor Id Path) :
    ev.Passes g h env a := by
  cases ev with
  | inspected rel | violationStaged rel | autolockReady rel | conflictApplied rel =>
      exact ⟨hev, hg.release rel⟩
  | publishDone rel result cause =>
      exact ⟨⟨hev.1, hg.release rel⟩, fun p hp _ => ⟨hev.2 p hp, hg.commit rel⟩⟩
  | pullStaged rel sender record result => exact ⟨hev, fun _ _ => hg.apply rel record hev⟩
  | pullRetry rel => exact trivial
  | restoreStaged rel entry result reply =>
      exact ⟨⟨hev.1, hg.release rel⟩, fun _ _ _ => ⟨hev.2, hg.commit rel⟩⟩
  | acquireTimeout rel lamport => exact hg.release rel
  | _ => exact hev.elim

/-- What is on disk when the daemon starts has passed the guard. -/
structure Actor.Persisted.Within (g : Guard Id Path) (h : Host Id Path)
    (p : Actor.Persisted Id Path) : Prop where
  files : ∀ (q : Path) r, p.files[q]? = some r → g.path q ∧ g.content q r.manifest
  history : ∀ (q : Path) l, p.history[q]? = some l → ∀ e ∈ l, g.content q e.manifest
  unapplied : g.Keys p.unapplied
  pulling : g.Keys p.pulling
  disk : ∀ q : Path, p.disk.contains q = true → h.sanitize q = true → g.path q

namespace Actor

variable {h : Host Id Path} {env : Env Path} {g : Guard Id Path}

/-! ## The startup -/

section Boot

variable {P : Actor Id Path → Prop} (k : Kept g P) {a : Actor Id Path}

include k

theorem holdLocal_kept (ha : P a) (rel : Path) (reason : String) :
    P { a with heldLocal := a.heldLocal.insert rel reason } :=
  k.move ha (.misc ..)

theorem scanUnindexed_kept (ha : P a) {rel : Path} (hp : g.path rel) (hrel : g.release rel) :
    P (a.scanUnindexed h env rel) := by
  unfold scanUnindexed
  split
  · exact holdLocal_kept k ha rel _
  · exact unbusy_kept k (violationNewFile_kept k (k.marked ha (.insert hp _)) rel) hp hrel

theorem scanFile_kept (ha : P a) {rel : Path} (hp : g.path rel) (hrel : g.release rel) :
    P (a.scanFile h env rel) := by
  unfold scanFile
  split
  · exact scanUnindexed_kept k ha hp hrel
  · split
    · exact scanUnindexed_kept k ha hp hrel
    · split
      · exact ha
      · exact spawnViolation_kept k ha hp hrel true

theorem importFile_kept (ha : P a) {rel : Path} (hp : g.path rel) : P (a.importFile h rel) := by
  unfold importFile
  split
  · exact holdLocal_kept k ha rel _
  · exact spawnPublish_kept k ha hp .import

theorem startupScan_kept (ha : P a) (hrel : ∀ p, g.release p)
    (hdisk : ∀ p : Path, a.disk.contains p = true → h.sanitize p = true → g.path p)
    (founding : Bool) : P (a.startupScan h env founding) := by
  have hfound : ∀ rel ∈ a.disk.keys.filter h.sanitize, g.path rel := by
    intro rel hmem
    obtain ⟨hin, hclean⟩ := List.mem_filter.mp hmem
    refine hdisk rel ?_ hclean
    rw [Std.ExtTreeMap.mem_keys] at hin
    exact Std.ExtTreeMap.contains_iff_mem.mpr hin
  unfold startupScan
  dsimp only
  split
  · exact Kept.foldl ha fun b rel hmem hb => importFile_kept k hb (hfound rel hmem)
  · have hscanned : P ((a.disk.keys.filter h.sanitize).foldl (fun a rel => a.scanFile h env rel) a) :=
      Kept.foldl ha fun b rel hmem hb => scanFile_kept k hb (hfound rel hmem) (hrel rel)
    refine k.move (Kept.foldl hscanned fun b rel hmem hb => ?_) (.pulling _ (.filter _))
    obtain ⟨e, he, rfl⟩ := List.mem_map.mp hmem
    have hfile := Map.mem_toList.mp (List.mem_filter.mp he).1
    have hp := ((k.within hscanned).files e.1 e.2 hfile).1
    exact spawnViolation_kept k (k.marked hb (.insert hp _)) hp (hrel e.1) false

end Boot

theorem Persisted.Within.load {p : Persisted Id Path} (hp : p.Within g h) (me : Id) :
    Actor.Within g (Actor.load h me p) where
  files := hp.files
  history := hp.history
  unapplied := hp.unapplied
  pulling := hp.pulling
  index id m hm := by simp [Actor.load] at hm
  staging id m hm := by simp [Actor.load] at hm
  pending p job hj := by simp [Actor.load] at hj
  backlog e he := by simp [Actor.load] at he
  deferred p d hd := by simp [Actor.load] at hd
  busy p hin := by simp [Actor.load] at hin
  recheck p hin := by simp [Actor.load] at hin
  acquires p hin := by simp [Actor.load] at hin
  autolocks p hin := by simp [Actor.load] at hin
  interest p hin := by simp [Actor.load] at hin
  locks p hin := by simp [Actor.load, LockTable.new] at hin
  tasks t ht := by simp [Actor.load] at ht

theorem settleMode_disk (a : Actor Id Path) (rel p : Path) :
    (a.settleMode env rel).disk.contains p = true → a.disk.contains p = true := by
  intro hin
  by_contra hno
  have habsent := (setMode_frame a env rel a.config.enforceReadonly).absent p
    (Map.get_eq_none (Bool.not_eq_true _ ▸ hno))
  rw [Map.contains_eq, show (a.settleMode env rel).disk[p]? = none from habsent] at hin
  cases hin

/-- What moves keep holds when the daemon has started. -/
theorem boot_kept {P : Actor Id Path → Prop} (k : Kept g P) (hrel : ∀ p, g.release p)
    {p : Persisted Id Path} (hp : p.Within g h) {me : Id} (hload : P (load h me p))
    (founding : Bool) : P (boot h env me p founding) := by
  have hmodes : ∀ (l : List (Path × FileRecord Id)) (a : Actor Id Path), P a →
      P (l.foldl (fun a e => a.settleMode env e.1) a) ∧
      ∀ q, (l.foldl (fun a e => a.settleMode env e.1) a).disk.contains q = true →
        a.disk.contains q = true := by
    intro l
    induction l with
    | nil => exact fun a ha => ⟨ha, fun _ h => h⟩
    | cons e l ih =>
        intro a ha
        obtain ⟨hkept, hdisk⟩ := ih _ (settleMode_kept k ha env e.1)
        exact ⟨hkept, fun q hq => settleMode_disk a e.1 q (hdisk q hq)⟩
  unfold boot
  obtain ⟨hkept, hdisk⟩ := hmodes ((load h me p).files.toList.filter fun e => !e.2.deleted) _ hload
  exact startupScan_kept k hkept hrel (fun q hq hc => hp.disk q (hdisk q hq) hc) founding

/-! ## Tasks and the inbox -/

theorem Move.inbox {a b : Actor Id Path} (hm : Move g a b) : b.inbox = a.inbox := by
  cases hm with
  | schedule rel sender record _ => exact (schedulePull_onPulls a rel sender record).inbox
  | finish rel => exact (finishPull_onPulls a rel).inbox
  | restart rel job _ => exact (startPull_onPulls a rel job.sender job.record).inbox
  | _ => rfl

/-- The task does its work on disk and posts an event that has passed the guard. -/
theorem runTask_within {a : Actor Id Path} {t : Task Id Path} (ht : t.Within g)
    (hpub : ∀ rel bytes, g.path rel → g.content rel (h.manifestOf bytes))
    (failure : Option String) :
    OnDisk a (a.runTask h env failure t).1 ∧ (a.runTask h env failure t).2.Within g := by
  cases t with
  | inspect rel record cause => exact ⟨.refl, ht⟩
  | publish rel cause =>
      refine ⟨.refl, ht, fun p hp => ?_⟩
      split at hp
      · cases hp
        exact hpub rel _ ht
      · cases hp
  | pull rel sender record => exact ⟨.refl, ht⟩
  | pullTimer rel => exact ⟨.refl, ht⟩
  | violation rel record quarantineFirst =>
      cases quarantineFirst with
      | true => exact ⟨quarantine_onDisk a env rel, ht⟩
      | false => exact ⟨.refl, ht⟩
  | autolock rel newFile => exact ⟨quarantine_onDisk a env rel, ht⟩
  | revert rel record quarantined => exact ⟨.refl, ht⟩
  | restore rel entry reply => exact ⟨.refl, ht.1, ht.2⟩
  | conflictApply rel copy reply => exact ⟨.refl, ht⟩
  | acquireTimer rel lamport => exact ⟨.refl, ht⟩

/-! ## Runs -/

/-- A property of the state that moves keep and that does not look at tasks and inbox. -/
structure Held (g : Guard Id Path) (Q : Actor Id Path → Prop) : Prop where
  move : ∀ {a b}, Within g a → Q a → Move g a b → Q b
  queues : ∀ {a} tasks inbox, Q a → Q { a with tasks, inbox }

/-- Everything in the state has passed the guard, and the property holds. -/
structure Steady (g : Guard Id Path) (Q : Actor Id Path → Prop) (a : Actor Id Path) : Prop where
  within : Within g a
  inbox : ∀ ev ∈ a.inbox, ev.Within g
  holds : Q a

/-- Everything that comes from outside passes the guard. -/
def Admits (g : Guard Id Path) (h : Host Id Path) (a : Actor Id Path)
    (s : Env Path × Act Id Path) : Prop :=
  ∀ ev, s.2 = .event ev → ev.isExternal = true → ev.Passes g h s.1 a

/-- Where everything passes, nothing has to be checked. -/
theorem admits_all (a : Actor Id Path) (s : Env Path × Act Id Path) :
    Admits Guard.all h a s := by
  have hparts : ∀ files leases, (Guard.all : Guard Id Path).Parts h files leases :=
    fun _ _ => ⟨fun _ _ _ _ => trivial, fun _ _ _ => trivial⟩
  intro ev _ _
  cases ev with
  | msg id m =>
      cases m with
      | index lamport files leases => exact hparts files leases
      | indexPart seq last lamport files leases => exact hparts files leases
      | fileMeta rel record lamport => exact fun _ _ => trivial
      | lock m => exact fun _ => ⟨trivial, fun _ => trivial⟩
      | lockInterest rel => exact fun _ => trivial
      | _ => exact trivial
  | ipc req reply => cases req <;> first | exact trivial | exact fun _ => trivial
  | sweep => exact fun _ _ => trivial
  | inspected rel | violationStaged rel | autolockReady rel | conflictApplied rel =>
      exact ⟨trivial, trivial⟩
  | publishDone rel result cause => exact ⟨⟨trivial, trivial⟩, fun _ _ _ => ⟨trivial, trivial⟩⟩
  | pullStaged rel sender record result => exact ⟨trivial, fun _ _ => trivial⟩
  | restoreStaged rel entry result reply =>
      exact ⟨⟨trivial, trivial⟩, fun _ _ _ => ⟨trivial, trivial⟩⟩
  | _ => exact trivial

theorem Persisted.within_all (h : Host Id Path) (p : Persisted Id Path) :
    p.Within Guard.all h :=
  ⟨fun _ _ _ => ⟨trivial, trivial⟩, fun _ _ _ _ _ => trivial, fun _ _ => trivial,
    fun _ _ => trivial, fun _ _ _ => trivial⟩

variable {Q : Actor Id Path → Prop}

theorem Within.queues {a : Actor Id Path} (hw : Within g a) {tasks : List (Task Id Path)}
    (ht : ∀ t ∈ tasks, t.Within g) (inbox : List (Event Id Path)) :
    Within g { a with tasks, inbox } :=
  { hw with tasks := ht }

/-- What moves keep, together with an inbox that they leave alone. -/
theorem Held.kept (hQ : Held g Q) (inbox : List (Event Id Path)) :
    Kept g fun a => (Within g a ∧ MayRelease g a) ∧ Q a ∧ a.inbox = inbox :=
  .of fun hw hq hm => ⟨hQ.move hw hq.1 hm, hm.inbox.trans hq.2⟩

theorem Within.mayRelease {a : Actor Id Path} (hw : Within g a) (hg : g.Steady) :
    MayRelease g a :=
  fun p d hd _ => hg.apply p d.record (hw.deferred p d hd)

theorem Steady.handle {a : Actor Id Path} (hs : Steady g Q a) (hQ : Held g Q) (hg : g.Steady)
    {ev : Event Id Path} (hev : ev.Passes g h env a) : Steady g Q (a.handle h env ev) := by
  obtain ⟨⟨hw, -⟩, hq, hin⟩ :=
    handle_kept (hQ.kept a.inbox) ⟨⟨hs.within, hs.within.mayRelease hg⟩, hs.holds, rfl⟩ hev
  exact ⟨hw, by rw [hin]; exact hs.inbox, hq⟩

/-- File operations are no business of the guard. -/
theorem Steady.onDisk {a b : Actor Id Path} (hs : Steady g Q a) (hQ : Held g Q)
    (hd : OnDisk a b) : Steady g Q b := by
  obtain ⟨_, _, _, _, _, _, rfl⟩ := hd
  exact ⟨hs.within.move (.misc ..), hs.inbox, hQ.move hs.within hs.holds (.misc ..)⟩

theorem Steady.step {a b : Actor Id Path} {s : Env Path × Act Id Path} (hs : Steady g Q a)
    (hQ : Held g Q) (hg : g.Steady)
    (hpub : ∀ rel bytes, g.path rel → g.content rel (h.manifestOf bytes))
    (hok : Admits g h a s) (hstep : step h a s = some b) : Steady g Q b := by
  have hdisk : ∀ disk, Steady g Q { a with disk } := fun disk =>
    hs.onDisk hQ ⟨_, _, _, _, _, _, rfl⟩
  obtain ⟨env, act⟩ := s
  cases act with
  | event ev =>
      simp only [Actor.step] at hstep
      split at hstep
      · rename_i hext
        cases hstep
        exact hs.handle hQ hg (hok ev rfl hext)
      · cases hstep
  | inbox n =>
      simp only [Actor.step] at hstep
      split at hstep
      · cases hstep
      · rename_i ev hev
        cases hstep
        have hin := hs.inbox ev (List.mem_of_getElem? hev)
        have htaken : Steady g Q { a with inbox := a.inbox.eraseIdx n } :=
          ⟨hs.within.queues hs.within.tasks _,
            fun ev' hev' => hs.inbox ev' (List.mem_of_mem_eraseIdx hev'), hQ.queues _ _ hs.holds⟩
        exact htaken.handle hQ hg (hin.passes hg h env _)
  | task n failure =>
      simp only [Actor.step] at hstep
      split at hstep
      · cases hstep
      · rename_i t ht
        cases hstep
        have hin := hs.within.tasks t (List.mem_of_getElem? ht)
        have htaken : Steady g Q { a with tasks := a.tasks.eraseIdx n } :=
          ⟨hs.within.queues (fun t' ht' => hs.within.tasks t' (List.mem_of_mem_eraseIdx ht')) _,
            hs.inbox, hQ.queues _ _ hs.holds⟩
        obtain ⟨hwork, hposted⟩ := @runTask_within _ _ _ _ h env g
          { a with tasks := a.tasks.eraseIdx n } t hin hpub failure
        generalize ({ a with tasks := a.tasks.eraseIdx n } : Actor Id Path).runTask h env failure
          t = r at hwork hposted ⊢
        obtain ⟨c, ev⟩ := r
        have hworked := htaken.onDisk hQ hwork
        refine ⟨hworked.within.queues hworked.within.tasks _, fun ev' hev' => ?_,
          hQ.queues _ _ hworked.holds⟩
        rcases List.mem_append.mp hev' with hev' | hev'
        · exact hworked.inbox ev' hev'
        · rw [List.mem_singleton.mp hev']
          exact hposted
  | write rel bytes =>
      simp only [Actor.step] at hstep
      cases hstep
      exact hdisk _
  | delete rel =>
      simp only [Actor.step] at hstep
      cases hstep
      exact hdisk _
  | chmod rel readonly =>
      simp only [Actor.step] at hstep
      split at hstep
      · cases hstep
      · cases hstep
        exact hdisk _

/-- **Runs keep to the guard**, and to what every move keeps. -/
theorem reached_steady (hQ : Held g Q) (hg : g.Steady)
    (hpub : ∀ rel bytes, g.path rel → g.content rel (h.manifestOf bytes))
    {ok : Actor Id Path → Env Path × Act Id Path → Prop} (hok : ∀ a s, ok a s → Admits g h a s)
    {me : Id} {p : Persisted Id Path} (hp : p.Within g h) (hload : Q (load h me p))
    {founding : Bool} {a : Actor Id Path}
    (hrun : Reaches (step h) ok (boot h env me p founding) a) : Steady g Q a := by
  refine hrun.invariant ?_ fun b s _ hi hs hstep => hi.step hQ hg hpub (hok b s hs) hstep
  obtain ⟨⟨hw, -⟩, hq, hin⟩ := @boot_kept _ _ _ _ h env g _ (hQ.kept []) hg.release p hp me
    ⟨⟨hp.load me, (hp.load me).mayRelease hg⟩, hload, rfl⟩ founding
  refine ⟨hw, fun ev hev => ?_, hq⟩
  rw [hin] at hev
  cases hev

end Actor

end Tazamun
