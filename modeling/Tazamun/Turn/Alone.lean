import Tazamun.Turn.Marks
import Tazamun.Turn.Release
import Tazamun.Turn.SparedDispatch
import Tazamun.Turn.Startup

set_option autoImplicit false

/-! # Held paths are left alone

A file that the ignore rules hold, and that has no live record, is left alone: the daemon
neither quarantines and removes it nor publishes it. The scope is looked at when a watch event
comes in, and at startup, but not again when the work on the path has come to its end, so a
file of which the rules have changed in the meantime is not safe (`heldAlone_fails`). Nor is
one whose path has a newer tombstone on its way.

`held_leftAlone` says that there is nothing else: in every run, a step leaves a held file alone
unless work on its path is under way, or a tombstone is newer than what we know of the path.
A path at rest stays at rest, because a watch event of a held path starts no work on it.
-/

namespace Tazamun

open Lib

variable {Id Path : Type} [LinearOrder Id] [LinearOrder Path]

/-! ## Tombstones that are known -/

namespace Micro

variable {c : Ctx Id Path} {hand hand' : List (Advert Id Path)} {a a' : Actor Id Path}

/-- Records come in with the event only: whatever is stored after a small change was stored
before it. -/
theorem stored (h : Micro c (hand, a) (hand', a')) {x : Advert Id Path}
    (hx : a'.Stored hand' x) : a.Stored hand x := by
  cases h with
  | replaced rel =>
      unfold Actor.noteReplaced at hx
      split at hx
      · exact hx
      · exact hx
  | spawn t ht =>
      rcases hx with (hin | (hjob | hback | hdef | htask | hposted) | hstaged) | hseen
      · exact .inl (.inl hin)
      · exact .inl (.inr (.inl (.inl hjob)))
      · exact .inl (.inr (.inl (.inr (.inl hback))))
      · exact .inl (.inr (.inl (.inr (.inr (.inl hdef)))))
      · rcases List.mem_append.mp htask with hold | hnew
        · exact .inl (.inr (.inl (.inr (.inr (.inr (.inl hold))))))
        · rw [← List.mem_singleton.mp hnew] at ht
          cases ht
      · exact .inl (.inr (.inl (.inr (.inr (.inr (.inr hposted))))))
      · exact .inl (.inr (.inr hstaged))
      · exact .inr hseen
  | shift _ _ _ _ _ _ _ _ hs _ => exact hs.stored x hx
  | join id peer _ _ _ =>
      rcases hx with howed | hviewed | hskipped
      · exact .inl howed
      · exact .inr (.inl hviewed)
      · exact .inr (.inr (List.mem_of_mem_filter hskipped))
  | _ => exact hx

end Micro

/-- A turn buries nothing under a tombstone that the own record covers already. -/
theorem Steps.buries_nothing {c : Ctx Id Path} {hand hand' : List (Advert Id Path)}
    {a b : Actor Id Path} (h : Steps c (hand, a) (hand', b)) {q : Path} {mine : FileRecord Id}
    (hmine : a.files[q]? = some mine)
    (hcov : ∀ sender record, a.Stored hand (q, sender, record) → record.deleted = true →
      VClock.Le record.vv mine.vv) :
    ∃ es, b.journal = a.journal ++ es ∧ ∀ e ∈ es, e.buries q = false := by
  have hboth := h.induct (P := fun hand' d => (∀ x, d.Stored hand' x → a.Stored hand x) ∧
    d.Covered q mine.vv ∧ ∃ es, d.journal = a.journal ++ es ∧ ∀ e ∈ es, e.buries q = false) ?_
    ⟨fun _ hx => hx, ⟨mine, hmine, .refl _⟩, [], by simp, by simp⟩
  · exact hboth.2.2
  · rintro hand₁ d hand₂ d' hm ⟨hstored, hcovered, es, hes, hquiet⟩
    refine ⟨fun x hx => hstored x (hm.stored hx), hm.covered hcovered, ?_⟩
    have hmore : ∀ fs, d'.journal = d.journal ++ fs → (∀ e ∈ fs, e.buries q = false) →
        ∃ es, d'.journal = a.journal ++ es ∧ ∀ e ∈ es, e.buries q = false := by
      intro fs hfs hmild
      refine ⟨es ++ fs, by rw [hfs, hes, List.append_assoc], fun e he => ?_⟩
      rcases List.mem_append.mp he with he | he
      · exact hquiet e he
      · exact hmild e he
    obtain ⟨now, hnow, hle⟩ := hcovered
    rcases hm.index_cases with ⟨-, fs, hfs, hentry⟩ | ⟨rel, sender, record, staged, hok, rfl⟩ |
      ⟨kind, rel, record, -, rfl⟩
    · exact hmore fs hfs fun e he => Effect.buries_of_isEntry (hentry e he) q
    · refine hmore _ rfl fun e he => ?_
      rcases List.mem_cons.mp he with rfl | he
      · by_contra hbury
        have hboth : rel = q ∧ record.deleted = true := by
          simpa [Effect.buries] using hbury
        obtain ⟨rfl, hdel⟩ := hboth
        -- the tombstone was in the hand, so the own record covers it
        have hold := hcov sender record (hstored _ (.inl (.inl hok.mem))) hdel
        exact absurd ((Actor.isCurrent_of_le hnow (hold.trans hle)).symm.trans hok.news) (by simp)
      · exact Effect.buries_of_isEntry (Actor.revival_isEntry he) q
    · refine hmore _ rfl fun e he => ?_
      rcases List.mem_cons.mp he with rfl | he
      · rfl
      · exact Effect.buries_of_isEntry (Actor.revival_isEntry he) q

theorem Steps.inbox_eq {c : Ctx Id Path} {s t : List (Advert Id Path) × Actor Id Path}
    (h : Steps c s t) : t.2.inbox = s.2.inbox :=
  h.induct (P := fun _ a => a.inbox = s.2.inbox) (fun hm ih => hm.inbox_eq.trans ih) rfl

/-! ## Steps -/

/-- The step is an act of the user on the files. -/
def Act.byUser : Act Id Path → Bool
  | .write _ _ | .delete _ | .chmod _ _ => true
  | .event _ | .inbox _ | .task _ _ => false

namespace Actor

variable {h : Host Id Path} {a b : Actor Id Path} {s : Env Path × Act Id Path} {q : Path}

/-- The path has no live record, and the rules hold it in its present size. -/
def Holds (h : Host Id Path) (a : Actor Id Path) (q : Path) : Prop :=
  FileRecord.isLive a.files[q]? = false ∧ (a.verdict h q (a.sizeOnDisk q)).isSome = true

/-- No work on the path is under way. -/
def IdleAt (a : Actor Id Path) (q : Path) : Prop :=
  ¬ a.Working q ∧ a.autolockPending[q]? = none

/-- The records that the step brings. -/
def brings (a : Actor Id Path) (act : Act Id Path) : List (Advert Id Path) :=
  match a.handled act with
  | some ev => handOf ev
  | none => []

/-- The path on which the step starts work because the user asks for it. -/
def asksFor (a : Actor Id Path) (act : Act Id Path) : Option Path :=
  match a.handled act with
  | some (.ipc req _) => req.worksOn
  | _ => none

/-- Nothing is under way that leads to the path: no work, no pull, and no tombstone that is
newer than the own record. -/
structure AtRest (a : Actor Id Path) (act : Act Id Path) (q : Path) : Prop where
  idle : a.IdleAt q
  pulls : ∀ sender record, ¬ a.Waits (q, sender, record)
  covered : ∀ mine, a.files[q]? = some mine → ∀ sender record,
    a.Stored (a.brings act) (q, sender, record) → record.deleted = true →
      VClock.Le record.vv mine.vv

/-- The daemon does not take the file of the path away, and publishes nothing for it. -/
structure LeavesAlone (a : Actor Id Path) (act : Act Id Path) (b : Actor Id Path) (q : Path) :
    Prop where
  stays : act.byUser = false → a.disk.contains q = true → b.disk.contains q = true
  unpublished : ∃ es, b.journal = a.journal ++ es ∧ ∀ e ∈ es, e.publishes q = false

/-- A turn leaves a path at rest alone, and starts no work on it if it is gated. -/
theorem handle_leavesAlone (hi : RunInv h Terms.none a) (env : Env Path) {ev : Event Id Path}
    (hidle : a.IdleAt q) (hwork : ev.worksOn ≠ some q)
    (hpull : ∀ sender record result, ev ≠ .pullStaged q sender record result)
    (hcov : ∀ mine, a.files[q]? = some mine → ∀ sender record,
      a.Stored (handOf ev) (q, sender, record) → record.deleted = true →
        VClock.Le record.vv mine.vv) :
    (a.disk.contains q = true → (a.handle h env ev).disk.contains q = true) ∧
      (∃ es, (a.handle h env ev).journal = a.journal ++ es ∧
        ∀ e ∈ es, e.publishes q = false) ∧
      (a.Gates h q ev → (a.handle h env ev).IdleAt q) := by
  have hsteps := handle_chain hi env ev
  have hspares : Spares q (a.Gates h q ev) a (a.handle h env ev) :=
    handle_spares .refl h env hidle.2 hwork hpull id
  obtain ⟨es, hes, hquiet, hkept⟩ := hspares.effects
  refine ⟨fun hin => ?_, ⟨es, hes, hquiet⟩, fun hgate => ⟨?_, hspares.rounds hidle.2⟩⟩
  · rcases hkept hin with hin | ⟨hsome, e, he, hbury⟩
    · exact hin
    · obtain ⟨mine, hmine⟩ := Option.isSome_iff_exists.mp hsome
      obtain ⟨fs, hfs, hmild⟩ := hsteps.buries_nothing hmine (hcov mine hmine)
      obtain rfl : es = fs := List.append_cancel_left (hes.symm.trans hfs)
      rw [hmild e he] at hbury
      cases hbury
  · have hinbox : (a.handle h env ev).inbox = a.inbox := hsteps.inbox_eq
    rintro (⟨t, ht, hw⟩ | ⟨ev', hev', hw⟩)
    · exact hspares.idle hgate (fun t ht hw => hidle.1 (.inl ⟨t, ht, hw⟩)) t ht hw
    · rw [hinbox] at hev'
      exact hidle.1 (.inr ⟨ev', hev', hw⟩)

/-- What is stored while an event is taken out of the inbox was stored before. -/
theorem stored_of_eraseIdx {hand : List (Advert Id Path)} {n : Nat} {x : Advert Id Path}
    (hx : ({ a with inbox := a.inbox.eraseIdx n } : Actor Id Path).Stored hand x) :
    a.Stored hand x := by
  rcases hx with (hin | (hjob | hback | hdef | htask | ⟨result, hposted⟩) | hstaged) | hseen
  · exact .inl (.inl hin)
  · exact .inl (.inr (.inl (.inl hjob)))
  · exact .inl (.inr (.inl (.inr (.inl hback))))
  · exact .inl (.inr (.inl (.inr (.inr (.inl hdef)))))
  · exact .inl (.inr (.inl (.inr (.inr (.inr (.inl htask))))))
  · exact .inl (.inr (.inl (.inr (.inr (.inr (.inr
      ⟨result, List.mem_of_mem_eraseIdx hposted⟩))))))
  · exact .inl (.inr (.inr hstaged))
  · exact .inr hseen

/-- What a task leaves behind works on the path of the task. -/
theorem runTask_idle (env : Env Path) (hidle : a.IdleAt q) {n : Nat} {failure : Option String}
    {t : Task Id Path} (ht : a.tasks[n]? = some t) {d : Actor Id Path} {ev : Event Id Path}
    (hrun : ({ a with tasks := a.tasks.eraseIdx n } : Actor Id Path).runTask h env failure t =
      (d, ev)) :
    IdleAt { d with inbox := d.inbox ++ [ev] } q := by
  obtain ⟨conflicts, known, heq⟩ :=
    runTask_eq h env { a with tasks := a.tasks.eraseIdx n } failure t
  have hworks := (runTask_desk h env { a with tasks := a.tasks.eraseIdx n } failure t).2.1
  rw [hrun] at heq hworks
  dsimp only at heq hworks
  subst heq
  refine ⟨?_, hidle.2⟩
  rintro (⟨t', ht', hw⟩ | ⟨ev', hev', hw⟩)
  · exact hidle.1 (.inl ⟨t', List.mem_of_mem_eraseIdx ht', hw⟩)
  · rcases List.mem_append.mp hev' with hold | hnew
    · exact hidle.1 (.inr ⟨ev', hold, hw⟩)
    · rw [List.mem_singleton.mp hnew, hworks] at hw
      exact hidle.1 (.inl ⟨t, List.mem_of_getElem? ht, hw⟩)

/-- A held path is gated against every event but the requests for it. -/
theorem gates_of_holds {ev : Event Id Path} (hheld : a.Holds h q) (hrules : q ≠ h.ignoreFile)
    (hask : ∀ req r, ev = .ipc req r → req.worksOn ≠ some q) : a.Gates h q ev := by
  cases ev with
  | watch rel =>
      rintro rfl
      exact ⟨hrules, hheld⟩
  | ipc req r => exact hask req r rfl
  | _ => trivial

/-! ## The start -/

/-- The start so far, as the path sees it. What the scan looks at is as it was. -/
structure Starting (q : Path) (a b : Actor Id Path) : Prop where
  spares : Spares q True a b
  files : b.files = a.files
  config : b.config = a.config
  rules : b.ignoreRules = a.ignoreRules
  bytes : b.bytesAt q = a.bytesAt q
  inbox : b.inbox = a.inbox
  deferred : b.deferred = ∅
  recheck : b.recheck = ∅

namespace Starting

variable {d : Actor Id Path}

theorem onDisk (hs : Starting q a b) (hd : OnDisk b d) (hspares : Spares q True a d)
    (hbytes : d.bytesAt q = b.bytesAt q) : Starting q a d := by
  obtain ⟨_, _, _, _, _, _, rfl⟩ := hd
  exact ⟨hspares, hs.files, hs.config, hs.rules, hbytes.trans hs.bytes, hs.inbox, hs.deferred,
    hs.recheck⟩

theorem busied (hs : Starting q a b) (busy : Map Path Unit) :
    Starting q a { b with busy } :=
  { hs with spares := busy_spares hs.spares busy }

/-- A task for another path is started. -/
theorem spawned (hs : Starting q a b) {t : Task Id Path} {rel : Path}
    (ht : t.worksOn = some rel) (hrel : rel ≠ q) : Starting q a (b.spawn t) :=
  { hs with spares := hs.spares.spawn (worksOn_ne ht fun _ => hrel) }

/-- The path is held as long as nothing has changed. -/
theorem holds (hs : Starting q a b) (hheld : a.Holds h q) : b.Holds h q := by
  have hsize : ∀ d : Actor Id Path,
      d.sizeOnDisk q = (d.bytesAt q).map fun bytes => Fin.ofNat _ bytes.length := by
    intro d
    unfold sizeOnDisk bytesAt
    rw [Option.map_map]
    rfl
  unfold Holds verdict at hheld ⊢
  rw [hs.files, hs.config, hs.rules, hsize b, hs.bytes, ← hsize a]
  exact hheld

theorem unbusy (hs : Starting q a b) (h : Host Id Path) (env : Env Path) (rel : Path) :
    Starting q a (b.unbusy h env rel) := by
  have hdeferred : b.deferred[rel]? = none := by
    rw [hs.deferred]
    rfl
  have hrecheck : b.recheck.contains rel = false := by
    rw [hs.recheck]
    rfl
  unfold Actor.unbusy
  dsimp only
  simp only [hdeferred, hrecheck]
  rw [if_neg (by simp)]
  exact hs.busied _

theorem settleMode (hs : Starting q a b) (env : Env Path) (rel : Path) :
    Starting q a (b.settleMode env rel) :=
  hs.onDisk (setMode_onDisk b env rel _) (settleMode_spares hs.spares env rel)
    (setMode_sameAt b env rel q _).bytes

theorem spawnViolation (hs : Starting q a b) (h : Host Id Path) (env : Env Path) {rel : Path}
    (hrel : rel ≠ q) (quarantineFirst : Bool) :
    Starting q a (b.spawnViolation h env rel quarantineFirst) := by
  unfold Actor.spawnViolation
  split
  · exact hs.unbusy h env rel
  · exact (hs.busied _).spawned rfl hrel

/-- A file that is no part of the index is looked at with the rules in mind. -/
theorem scanUnindexed (hs : Starting q a b) (env : Env Path) (hheld : a.Holds h q)
    (rel : Path) : Starting q a (b.scanUnindexed h env rel) := by
  unfold Actor.scanUnindexed
  split
  · exact { hs with spares := hs.spares.same rfl rfl rfl rfl rfl }
  · rename_i hsync
    have hne : rel ≠ q := by
      rintro rfl
      have hsome := (hs.holds hheld).2
      rw [hsync] at hsome
      cases hsome
    have hbusy := hs.busied (b.busy.insert rel ())
    exact (hbusy.onDisk (violationNewFile_onDisk h env _ rel)
      (violationNewFile_spares hbusy.spares h env hne)
      (violationNewFile_sameAt h env _ hne).bytes).unbusy h env rel

theorem scanFile (hs : Starting q a b) (env : Env Path) (hheld : a.Holds h q) (rel : Path) :
    Starting q a (b.scanFile h env rel) := by
  unfold Actor.scanFile
  split
  · exact hs.scanUnindexed env hheld rel
  · rename_i record hrecord
    split
    · exact hs.scanUnindexed env hheld rel
    · rename_i hlive
      split
      · exact hs
      · refine hs.spawnViolation h env ?_ true
        rintro rfl
        have hno := (hs.holds hheld).1
        rw [hrecord] at hno
        exact hlive (by simpa [FileRecord.isLive] using hno)

theorem importFile (hs : Starting q a b) (hheld : a.Holds h q) (rel : Path) :
    Starting q a (b.importFile h rel) := by
  unfold Actor.importFile
  split
  · exact { hs with spares := hs.spares.same rfl rfl rfl rfl rfl }
  · rename_i hsync
    refine (hs.busied _).spawned rfl ?_
    rintro rfl
    have hsome := (hs.holds hheld).2
    rw [hsync] at hsome
    cases hsome

theorem foldl {α : Type} {f : Actor Id Path → α → Actor Id Path} {l : List α}
    (hs : Starting q a b) (hf : ∀ d, ∀ x ∈ l, Starting q a d → Starting q a (f d x)) :
    Starting q a (l.foldl f b) := by
  induction l generalizing b with
  | nil => exact hs
  | cons x l ih =>
      exact ih (hf b x List.mem_cons_self hs) fun d y hy => hf d y (List.mem_cons_of_mem x hy)

theorem startupScan (hs : Starting q a b) (env : Env Path) (hheld : a.Holds h q)
    (founding : Bool) : Starting q a (b.startupScan h env founding) := by
  unfold Actor.startupScan
  dsimp only
  split
  · exact hs.foldl fun d rel _ hd => hd.importFile hheld rel
  · have hscanned : Starting q a ((b.disk.keys.filter h.sanitize).foldl
        (fun a rel => a.scanFile h env rel) b) :=
      hs.foldl fun d rel _ hd => hd.scanFile env hheld rel
    have hrepaired := hscanned.foldl (l := ((b.disk.keys.filter h.sanitize).foldl
        (fun a rel => a.scanFile h env rel) b).files.toList.filter (fun e =>
          !e.2.deleted && !(b.disk.keys.filter h.sanitize).contains e.1) |>.map Prod.fst)
        (f := fun (a : Actor Id Path) rel =>
          ({ a with busy := a.busy.insert rel () } : Actor Id Path).spawnViolation h env rel false)
        fun d rel hmem hd => by
      refine (hd.busied _).spawnViolation h env ?_ false
      rintro rfl
      obtain ⟨e, he, rfl⟩ := List.mem_map.mp hmem
      obtain ⟨hin, hlive⟩ := List.mem_filter.mp he
      have hno := (hscanned.holds hheld).1
      rw [Map.mem_toList.mp hin] at hno
      rw [Bool.and_eq_true] at hlive
      have hyes : FileRecord.isLive (some e.2) = true := hlive.1
      rw [hno] at hyes
      cases hyes
    exact { hrepaired with spares := hrepaired.spares.same rfl rfl rfl rfl rfl }

end Starting

/-- The start leaves a held path alone, and starts no work on it. -/
theorem boot_leavesAlone (h : Host Id Path) (env : Env Path) (me : Id) (p : Persisted Id Path)
    (founding : Bool) (hheld : (load h me p).Holds h q) :
    (p.disk.contains q = true → (boot h env me p founding).disk.contains q = true) ∧
      (∀ e ∈ (boot h env me p founding).journal, e.publishes q = false) ∧
      (boot h env me p founding).IdleAt q := by
  have hload : Starting q (load h me p) (load h me p) :=
    ⟨.refl, rfl, rfl, rfl, rfl, rfl, rfl, rfl⟩
  have hsettled : Starting q (load h me p) (((load h me p).files.toList.filter
      fun e => !e.2.deleted).foldl (fun a e => a.settleMode env e.1) (load h me p)) :=
    hload.foldl fun d e _ hd => hd.settleMode env e.1
  have hbooted : Starting q (load h me p) (boot h env me p founding) :=
    hsettled.startupScan env hheld founding
  have hquiet : (load h me p).autolockPending[q]? = none := rfl
  obtain ⟨es, hes, hmild, -⟩ := hbooted.spares.effects
  refine ⟨fun hin => ?_, ?_, ?_, hbooted.spares.rounds hquiet⟩
  · have hsame := hbooted.bytes
    rw [Map.contains_eq] at hin ⊢
    unfold bytesAt at hsame
    rw [← Option.isSome_map (f := DiskFile.bytes), hsame, Option.isSome_map]
    exact hin
  · rw [hes]
    exact hmild
  · rintro (⟨t, ht, hw⟩ | ⟨ev, hev, -⟩)
    · exact hbooted.spares.idle trivial (fun t ht => absurd ht List.not_mem_nil) t ht hw
    · rw [hbooted.inbox] at hev
      exact absurd hev List.not_mem_nil

/-! ## Steps of a run -/

/-- A step leaves a path at rest alone, and starts no work on a held one of its own accord. -/
theorem step_leavesAlone (hi : RunInv h Terms.none a) (hstep : a.step h s = some b)
    (hheld : a.Holds h q) (hrest : a.AtRest s.2 q) :
    a.LeavesAlone s.2 b q ∧
      (a.asksFor s.2 ≠ some q → q ≠ h.ignoreFile → b.IdleAt q) := by
  obtain ⟨env, act⟩ := s
  obtain ⟨hidle, hpulls, hcov⟩ := hrest
  have huser : ∀ disk, act.byUser = true → b = { a with disk } →
      a.LeavesAlone act b q ∧ (a.asksFor act ≠ some q → q ≠ h.ignoreFile → b.IdleAt q) := by
    rintro disk hact rfl
    refine ⟨⟨fun hno => ?_, [], (List.append_nil _).symm, by simp⟩, fun _ _ => hidle⟩
    rw [hact] at hno
    cases hno
  cases act with
  | event ev =>
      simp only [Actor.step] at hstep
      split at hstep
      · rename_i hext
        cases hstep
        have hnone : ev.worksOn ≠ some q := by
          cases ev <;> simp_all [Event.isExternal, Event.worksOn]
        obtain ⟨hdisk, hjournal, hrest⟩ := handle_leavesAlone hi env hidle hnone
          (by rintro sender record result rfl; cases hext) hcov
        refine ⟨⟨fun _ => hdisk, hjournal⟩, fun hask hrules => hrest ?_⟩
        refine gates_of_holds hheld hrules ?_
        rintro req r rfl
        exact hask
      · cases hstep
  | inbox n =>
      simp only [Actor.step] at hstep
      cases hev : a.inbox[n]? with
      | none =>
          rw [hev] at hstep
          cases hstep
      | some ev =>
          rw [hev] at hstep
          cases hstep
          have hmem : ev ∈ a.inbox := List.mem_of_getElem? hev
          have hless : IdleAt { a with inbox := a.inbox.eraseIdx n } q := by
            refine ⟨?_, hidle.2⟩
            rintro (hold | ⟨ev', hev', hw⟩)
            · exact hidle.1 (.inl hold)
            · exact hidle.1 (.inr ⟨ev', List.mem_of_mem_eraseIdx hev', hw⟩)
          have hbrings : a.brings (.inbox n) = handOf ev := by
            simp only [brings, handled, hev]
          rw [hbrings] at hcov
          obtain ⟨hdisk, hjournal, hrest⟩ := handle_leavesAlone (hi.take n) env hless
            (fun hw => hidle.1 (.inr ⟨ev, hmem, hw⟩))
            (fun sender record result heq =>
              hpulls sender record (.inr (.inr (.inr (.inr ⟨result, heq ▸ hmem⟩)))))
            (fun mine hmine sender record hx => hcov mine hmine sender record
              (stored_of_eraseIdx hx))
          refine ⟨⟨fun _ => hdisk, hjournal⟩, fun hask hrules => hrest ?_⟩
          refine gates_of_holds (a := { a with inbox := a.inbox.eraseIdx n }) hheld hrules ?_
          rintro req r rfl
          simpa only [asksFor, handled, hev] using hask
  | task n failure =>
      simp only [Actor.step] at hstep
      cases ht : a.tasks[n]? with
      | none =>
          rw [ht] at hstep
          cases hstep
      | some t =>
          rw [ht] at hstep
          obtain ⟨conflicts, known, heq⟩ :=
            runTask_eq h env { a with tasks := a.tasks.eraseIdx n } failure t
          cases hr : ({ a with tasks := a.tasks.eraseIdx n } : Actor Id Path).runTask h env
            failure t with
          | mk d ev =>
              simp only [hr] at hstep heq
              cases hstep
              refine ⟨⟨fun _ hin => ?_, [], ?_, by simp⟩, fun _ _ => runTask_idle env hidle ht hr⟩
              · rw [heq]
                exact hin
              · rw [heq]
                exact (List.append_nil _).symm
  | write rel bytes =>
      cases hstep
      exact huser _ rfl rfl
  | delete rel =>
      cases hstep
      exact huser _ rfl rfl
  | chmod rel readonly =>
      simp only [Actor.step] at hstep
      split at hstep
      · cases hstep
      · cases hstep
        exact huser _ rfl rfl

/-- **Held paths are left alone**: no step of a run takes the file of a held path away or
publishes anything for it. -/
def HeldAlone (h : Host Id Path) (env : Env Path) (me : Id) (p : Persisted Id Path)
    (founding : Bool) : Prop :=
  ∀ a b s, Reaches (step h) anyStep (boot h env me p founding) a → a.step h s = some b →
    ∀ q, a.Holds h q → a.LeavesAlone s.2 b q

/-- **When held paths are left alone.** The start takes no held file away, publishes none, and
starts no work on one. In every run, a step that is taken while a path is held, and while
nothing under way leads to it, leaves the path alone; nor does the step start work on it, so
that it stays at rest, unless the user asks for it, or it is the ignore file itself. -/
theorem held_leftAlone (h : Host Id Path) (env : Env Path) (me : Id) (p : Persisted Id Path)
    (founding : Bool) :
    (∀ q, (load h me p).Holds h q →
      (p.disk.contains q = true → (boot h env me p founding).disk.contains q = true) ∧
      (∀ e ∈ (boot h env me p founding).journal, e.publishes q = false) ∧
      (boot h env me p founding).IdleAt q) ∧
    ∀ a b s, Reaches (step h) anyStep (boot h env me p founding) a → a.step h s = some b →
      ∀ q, a.Holds h q → a.AtRest s.2 q → a.LeavesAlone s.2 b q ∧
        (a.asksFor s.2 ≠ some q → q ≠ h.ignoreFile → b.IdleAt q) := by
  constructor
  · intro q hheld
    exact boot_leavesAlone h env me p founding hheld
  · intro a b s hrun hstep q hheld hrest
    exact step_leavesAlone (runInv_none hrun) hstep hheld hrest

/-! ### A held file is looked at, and one is not safe -/

/-- Path 5 is held, and nothing at all is under way for it. -/
def calmAt5 (a : Actor Nat Nat) : Bool :=
  !FileRecord.isLive a.files[5]? && (a.verdict holdingHost 5 (a.sizeOnDisk 5)).isSome &&
    a.files[5]?.isNone && a.disk.contains 5 && a.autolockPending[5]?.isNone &&
    a.tasks.all (fun t => decide (t.worksOn ≠ some 5) && !t.isPull) && a.inbox.isEmpty &&
    a.pendingPulls[5]?.isNone && a.pullBacklog.isEmpty && a.deferred[5]?.isNone

theorem atRest_of_calmAt5 {a : Actor Nat Nat} (hcalm : calmAt5 a = true) (act : Act Nat Nat) :
    a.Holds holdingHost 5 ∧ a.disk.contains 5 = true ∧ a.AtRest act 5 := by
  simp only [calmAt5, Bool.and_eq_true, Bool.not_eq_true', Option.isNone_iff_eq_none,
    List.isEmpty_iff, List.all_eq_true, decide_eq_true_eq] at hcalm
  obtain ⟨⟨⟨⟨⟨⟨⟨⟨⟨hlive, hheld⟩, hfiles⟩, hdisk⟩, hround⟩, htasks⟩, hinbox⟩, hjob⟩, hback⟩, hdef⟩ :=
    hcalm
  refine ⟨⟨hlive, hheld⟩, hdisk, ⟨⟨?_, hround⟩, fun sender record => ?_, fun mine hmine => ?_⟩⟩
  · rintro (⟨t, ht, hw⟩ | ⟨ev, hev, -⟩)
    · exact (htasks t ht).1 hw
    · rw [hinbox] at hev
      exact absurd hev List.not_mem_nil
  · rintro (⟨job, hj, -⟩ | hb | ⟨d, hd, -⟩ | ht | ⟨result, hr⟩)
    · rw [hjob] at hj
      cases hj
    · rw [hback] at hb
      exact absurd hb List.not_mem_nil
    · rw [hdef] at hd
      cases hd
    · exact absurd (htasks _ ht).2 (by simp [Task.isPull])
    · rw [hinbox] at hr
      exact absurd hr List.not_mem_nil
  · rw [hfiles] at hmine
    cases hmine

/-- The ignore file is read, and then a file is made that it holds: the watch event of the file
leaves it alone. -/
theorem held_leftAlone_watch : ∃ a b : Actor Nat Nat,
    Reaches (step holdingHost) anyStep
      (Actor.boot holdingHost (plainEnv 0) 0 plainState false) a ∧
    a.step holdingHost (plainEnv 0, .event (.watch 5)) = some b ∧
    a.disk.contains 5 = true ∧ b.disk.contains 5 = true ∧ b.IdleAt 5 := by
  have hexec : (execute (step holdingHost)
      (now [.write 0 [1], .event (.watch 0), .write 5 [1]])
      (Actor.boot holdingHost (plainEnv 0) 0 plainState false)).any calmAt5 = true := by
    decide +kernel
  obtain ⟨a, hrun, hcalm⟩ := exists_reaches_of_execute anyStep (fun _ _ _ => trivial) hexec
  obtain ⟨hheld, hdisk, hrest⟩ := atRest_of_calmAt5 hcalm (.event (.watch 5))
  have hstep : a.step holdingHost (plainEnv 0, .event (.watch 5)) =
      some (a.handle holdingHost (plainEnv 0) (.watch 5)) := rfl
  obtain ⟨halone, hidle⟩ := (held_leftAlone holdingHost (plainEnv 0) 0 plainState false).2
    a _ _ hrun hstep 5 hheld hrest
  exact ⟨a, _, hrun, hstep, hdisk, halone.stays rfl hdisk,
    hidle (by simp [asksFor, handled]) (by decide)⟩

/-- Path 5 is held and on disk, and the next event in the inbox takes it away. -/
def takesHeld (a : Actor Nat Nat) : Bool :=
  !FileRecord.isLive a.files[5]? && (a.verdict holdingHost 5 (a.sizeOnDisk 5)).isSome &&
    a.disk.contains 5 &&
    (a.step holdingHost (plainEnv 0, .inbox 0)).any fun b => !b.disk.contains 5

/-- A file is made and inspected, and before the result is dealt with the ignore file is
written, which holds it. The file is quarantined and removed all the same. -/
theorem heldAlone_fails : ¬ HeldAlone holdingHost (plainEnv 0) 0 plainState false := by
  have hexec : (execute (step holdingHost)
      (now [.write 5 [1], .event (.watch 5), .task 0 none, .write 0 [1], .event (.watch 0)])
      (Actor.boot holdingHost (plainEnv 0) 0 plainState false)).any takesHeld = true := by
    decide +kernel
  obtain ⟨a, hrun, htest⟩ := exists_reaches_of_execute anyStep (fun _ _ _ => trivial) hexec
  simp only [takesHeld, Bool.and_eq_true, Bool.not_eq_true'] at htest
  obtain ⟨⟨⟨hlive, hheld⟩, hdisk⟩, hnext⟩ := htest
  intro halone
  cases hstep : a.step holdingHost (plainEnv 0, .inbox 0) with
  | none =>
      rw [hstep] at hnext
      cases hnext
  | some b =>
      have hstays := (halone a b _ hrun hstep 5 ⟨hlive, hheld⟩).stays rfl hdisk
      rw [hstep, Option.any_some, hstays] at hnext
      cases hnext

end Actor

end Tazamun
