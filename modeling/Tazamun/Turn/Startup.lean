import Tazamun.Turn.Aside
import Tazamun.Turn.Runs

set_option autoImplicit false

/-! # Files that changed while the daemon was away

When the daemon starts it gives every indexed file its mode (`enforce_all`), looks through the
folder (`startup_scan`), and starts a repair for every indexed file that is missing or has
another size than its record says. A repair copies the bytes to quarantine, fetches the
indexed content, and puts it in place; each of these may fail, and then the bytes stay where
they are.

The module follows one indexed path through the start and through everything the daemon then
does of its own accord: the repairs, in any order, with any failures. A path is in one of
three stages (`Stage`): its repair is waiting, or staged, or over. Work on other paths leaves
the stage as it is (`SameAt`).

The scan compares sizes only. So offline edits are preserved and undone exactly when each of
them changed the size of its file (`startupHeals_iff`); the run after the theorem starts with
an edit that did not.
-/

namespace Tazamun

open Lib

variable {Id Path : Type} [LinearOrder Id] [LinearOrder Path]

/-- An entry of a list is taken out. -/
theorem filter_eraseIdx {α : Type} {l : List α} {n : Nat} {x : α} {f : α → Bool}
    (hx : l[n]? = some x) :
    (f x = false → (l.eraseIdx n).filter f = l.filter f) ∧
      (f x = true → ∀ y, l.filter f = [y] → x = y ∧ (l.eraseIdx n).filter f = []) := by
  obtain ⟨hlt, hget⟩ := List.getElem?_eq_some_iff.mp hx
  have hsplit : l = l.take n ++ x :: l.drop (n + 1) := by
    rw [← hget, List.getElem_cons_drop, List.take_append_drop]
  have hrest : (l.eraseIdx n).filter f = (l.take n).filter f ++ (l.drop (n + 1)).filter f := by
    rw [List.eraseIdx_eq_take_drop_succ, List.filter_append]
  have hall : l.filter f = (l.take n).filter f ++ (x :: l.drop (n + 1)).filter f := by
    conv_lhs => rw [hsplit]
    rw [List.filter_append]
  constructor
  · intro hno
    rw [hall, hrest, List.filter_cons, if_neg (by simp [hno])]
  · intro hyes y hy
    rw [hall, List.filter_cons, if_pos hyes, List.append_eq_singleton_iff] at hy
    rcases hy with ⟨htake, hdrop⟩ | ⟨-, hdrop⟩
    · obtain ⟨rfl, hdrop⟩ := List.cons.inj hdrop
      exact ⟨rfl, by rw [hrest, htake, List.nil_append]; assumption⟩
    · cases hdrop

namespace Actor

/-- `rel` is indexed as a live file. -/
def Persisted.LiveAt (p : Persisted Id Path) (rel : Path) (record : FileRecord Id) : Prop :=
  p.files[rel]? = some record ∧ record.deleted = false

/-! ## One path -/

/-- The bytes on disk. -/
def bytesAt (a : Actor Id Path) (rel : Path) : Option Bytes := a.disk[rel]?.map DiskFile.bytes

/-- There is a quarantine copy of these bytes of `rel`. -/
def Copied (a : Actor Id Path) (rel : Path) (bytes : Bytes) : Prop :=
  ∃ ms, a.conflicts[(toLex (ms, rel) : CopyName Path)]? = some bytes

/-- The file has the content of the record. -/
def Restored (h : Host Id Path) (a : Actor Id Path) (rel : Path) (record : FileRecord Id) :
    Prop :=
  ∃ bytes, h.content record.manifest = some bytes ∧ a.bytesAt rel = some bytes

/-- The repairs of `rel` that are still to be done. -/
def repairs (a : Actor Id Path) (rel : Path) : List (Task Id Path) :=
  a.tasks.filter fun
    | .violation q _ _ => decide (q = rel)
    | _ => false

/-- The repairs of `rel` whose result is waiting in the inbox. -/
def stagedRepairs (a : Actor Id Path) (rel : Path) : List (Event Id Path) :=
  a.inbox.filter fun
    | .violationStaged q _ _ _ => decide (q = rel)
    | _ => false

/-- Nothing about `rel` has changed. -/
structure SameAt (rel : Path) (a b : Actor Id Path) : Prop where
  bytes : b.bytesAt rel = a.bytesAt rel
  copies : ∀ ms, b.conflicts[(toLex (ms, rel) : CopyName Path)]? =
    a.conflicts[(toLex (ms, rel) : CopyName Path)]?
  repairs : b.repairs rel = a.repairs rel
  staged : b.stagedRepairs rel = a.stagedRepairs rel

namespace SameAt

variable {rel : Path} {a b d : Actor Id Path}

theorem refl : SameAt rel a a := ⟨rfl, fun _ => rfl, rfl, rfl⟩

theorem trans (h : SameAt rel a b) (h' : SameAt rel b d) : SameAt rel a d :=
  ⟨h'.bytes.trans h.bytes, fun ms => (h'.copies ms).trans (h.copies ms),
    h'.repairs.trans h.repairs, h'.staged.trans h.staged⟩

/-- Only the parts of the state that a path does not show differ. -/
theorem of_eq (hdisk : b.disk = a.disk) (hconflicts : b.conflicts = a.conflicts)
    (htasks : b.tasks = a.tasks) (hinbox : b.inbox = a.inbox) : SameAt rel a b :=
  ⟨by rw [bytesAt, hdisk]; rfl, fun _ => by rw [hconflicts],
    by rw [Actor.repairs, htasks]; rfl, by rw [stagedRepairs, hinbox]; rfl⟩

end SameAt

theorem noteMode_sameAt (a : Actor Id Path) (rel p : Path) (readonly : Bool) :
    SameAt p a (a.noteMode rel readonly) := by
  unfold noteMode
  split
  · exact .of_eq rfl rfl rfl rfl
  · exact .refl

/-- A change of mode leaves the bytes of every file as they are. -/
theorem setMode_sameAt (a : Actor Id Path) (env : Env Path) (rel p : Path) (readonly : Bool) :
    SameAt p a (a.setMode env rel readonly).1 := by
  unfold setMode
  split
  · exact noteMode_sameAt a rel p readonly
  · rename_i f hf
    split
    · refine .trans ?_ (noteMode_sameAt _ rel p readonly)
      refine ⟨?_, fun _ => rfl, rfl, rfl⟩
      unfold bytesAt
      dsimp only
      rw [Map.get_insert]
      split
      · rename_i heq
        rw [← heq, hf]
        rfl
      · rfl
    · exact .refl

theorem noteReplaced_sameAt (h : Host Id Path) (a : Actor Id Path) (rel p : Path) :
    SameAt p a (a.noteReplaced h rel) := by
  unfold noteReplaced
  split
  · exact .refl
  · exact .of_eq rfl rfl rfl rfl

section Other

variable (h : Host Id Path) (env : Env Path) (a : Actor Id Path) {rel p : Path} (hne : rel ≠ p)

include hne

/-- Copies are named by their paths, so a copy of one path never touches those of another. -/
theorem quarantine_sameAt : SameAt p a (a.quarantine env rel).1 := by
  have hname : ∀ ms, (toLex (env.nowMs, rel) : CopyName Path) ≠ toLex (ms, p) := by
    intro ms heq
    exact hne (congrArg Prod.snd (toLex_inj.mp heq))
  unfold quarantine loseCopy
  split
  · exact .refl
  · split
    · dsimp only
      split
      · refine ⟨rfl, fun ms => ?_, rfl, rfl⟩
        exact Map.get_insert_ne _ _ (hname ms)
      · refine ⟨rfl, fun ms => ?_, rfl, rfl⟩
        exact (Map.get_insert_ne _ _ (hname ms)).trans (Map.get_erase_ne _ (hname ms))
    · exact .refl

theorem removeFile_sameAt : SameAt p a (a.removeFile h env rel).1 := by
  have hmode := setMode_sameAt a env rel p false
  unfold removeFile
  dsimp only
  split
  · exact hmode
  · split
    · refine (hmode.trans (noteReplaced_sameAt h _ rel p)).trans ⟨?_, fun _ => rfl, rfl, rfl⟩
      exact congrArg (Option.map DiskFile.bytes) (Map.get_erase_ne _ hne)
    · exact hmode

theorem persistTemp_sameAt (bytes : Bytes) : SameAt p a (a.persistTemp h env rel bytes).1 := by
  have hmode := setMode_sameAt a env rel p false
  unfold persistTemp
  split
  · dsimp only
    split
    · refine (hmode.trans (noteReplaced_sameAt h _ rel p)).trans ⟨?_, fun _ => rfl, rfl, rfl⟩
      exact congrArg (Option.map DiskFile.bytes) (Map.get_insert_ne _ _ hne)
    · exact hmode
  · exact .refl

end Other

/-! ## The daemon repairs -/

/-- The only work there is are repairs: nothing is deferred and nothing has to be looked at
again. -/
structure Repairing (p : Persisted Id Path) (a : Actor Id Path) : Prop where
  files : a.files = p.files
  deferred : a.deferred = ∅
  recheck : a.recheck = ∅
  tasks : ∀ t ∈ a.tasks, ∃ rel record flag, t = .violation rel record flag
  inbox : ∀ e ∈ a.inbox, ∃ rel result copy flag, e = .violationStaged rel result copy flag

namespace Repairing

variable {p : Persisted Id Path} {a b : Actor Id Path} (h : Host Id Path) (env : Env Path)

theorem onDisk (hr : Repairing p a) (hd : OnDisk a b) : Repairing p b := by
  obtain ⟨_, _, _, _, _, _, rfl⟩ := hd
  exact { hr with }

/-- The end of the work on a path has no consequences. -/
theorem unbusy_eq (hr : Repairing p a) (rel : Path) :
    a.unbusy h env rel = { a with busy := a.busy.erase rel } := by
  have hdeferred : a.deferred[rel]? = none := by
    rw [hr.deferred]
    rfl
  have hrecheck : a.recheck.contains rel = false := by
    rw [hr.recheck]
    rfl
  unfold unbusy
  dsimp only
  simp only [hdeferred, hrecheck]
  exact if_neg (by simp)

theorem busied (hr : Repairing p a) (rel : Path) :
    Repairing p { a with busy := a.busy.insert rel () } := { hr with }

theorem unbusy (hr : Repairing p a) (rel : Path) : Repairing p (a.unbusy h env rel) := by
  rw [hr.unbusy_eq h env rel]
  exact { hr with }

theorem unbusy_sameAt (hr : Repairing p a) (rel q : Path) :
    SameAt q a (a.unbusy h env rel) := by
  rw [hr.unbusy_eq h env rel]
  exact .of_eq rfl rfl rfl rfl

end Repairing

/-! ### The scan -/

section Scan

variable {p : Persisted Id Path} (h : Host Id Path) (env : Env Path) {a : Actor Id Path}

/-- A repair is started. -/
theorem spawnViolation_eq {rel : Path} {record : FileRecord Id}
    (hrec : a.files[rel]? = some record) (flag : Bool) :
    a.spawnViolation h env rel flag =
      ({ a with busy := a.busy.insert rel () } : Actor Id Path).spawn
        (.violation rel record flag) := by
  simp only [spawnViolation, hrec]

theorem spawnViolation_repairing (hr : Repairing p a) (rel : Path) (flag : Bool) :
    Repairing p (a.spawnViolation h env rel flag) := by
  unfold spawnViolation
  split
  · exact hr.unbusy h env rel
  · refine { hr with tasks := fun t ht => ?_ }
    rcases List.mem_append.mp ht with ht | ht
    · exact hr.tasks t ht
    · exact ⟨_, _, _, List.mem_singleton.mp ht⟩

theorem spawnViolation_sameAt (hr : Repairing p a) {rel q : Path} (hne : rel ≠ q)
    (flag : Bool) : SameAt q a (a.spawnViolation h env rel flag) := by
  unfold spawnViolation
  split
  · exact hr.unbusy_sameAt h env rel q
  · refine ⟨rfl, fun _ => rfl, ?_, rfl⟩
    simp [repairs, spawn, List.filter_append, hne]

/-- The path has got a repair. -/
theorem spawnViolation_repairs {rel : Path} {record : FileRecord Id}
    (hrec : a.files[rel]? = some record) (flag : Bool) :
    (a.spawnViolation h env rel flag).repairs rel =
      a.repairs rel ++ [.violation rel record flag] ∧
    (a.spawnViolation h env rel flag).stagedRepairs rel = a.stagedRepairs rel ∧
    (a.spawnViolation h env rel flag).bytesAt rel = a.bytesAt rel := by
  rw [spawnViolation_eq h env hrec]
  refine ⟨?_, rfl, rfl⟩
  simp [repairs, spawn, List.filter_append]

theorem violationNewFile_sameAt (a : Actor Id Path) {rel q : Path} (hne : rel ≠ q) :
    SameAt q a (a.violationNewFile h env rel) := by
  have hcopy := quarantine_sameAt env a hne
  unfold violationNewFile
  split
  · rename_i b hb
    rw [hb] at hcopy
    exact hcopy
  · rename_i b name hb
    rw [hb] at hcopy
    have hmute : SameAt q b (b.mute env rel) := .of_eq rfl rfl rfl rfl
    exact (hcopy.trans hmute).trans (removeFile_sameAt h env _ hne)

theorem scanUnindexed_repairing (hr : Repairing p a) (rel : Path) :
    Repairing p (a.scanUnindexed h env rel) := by
  unfold scanUnindexed
  split
  · exact { hr with }
  · exact ((hr.busied rel).onDisk (violationNewFile_onDisk h env _ rel)).unbusy h env rel

theorem scanUnindexed_sameAt (hr : Repairing p a) {rel q : Path} (hne : rel ≠ q) :
    SameAt q a (a.scanUnindexed h env rel) := by
  unfold scanUnindexed
  split
  · exact .of_eq rfl rfl rfl rfl
  · have hfirst : SameAt q a { a with busy := a.busy.insert rel () } := .of_eq rfl rfl rfl rfl
    exact (hfirst.trans (violationNewFile_sameAt h env _ hne)).trans
      (((hr.busied rel).onDisk (violationNewFile_onDisk h env _ rel)).unbusy_sameAt h env rel q)

theorem scanFile_repairing (hr : Repairing p a) (rel : Path) :
    Repairing p (a.scanFile h env rel) := by
  unfold scanFile
  split
  · exact scanUnindexed_repairing h env hr rel
  · split
    · exact scanUnindexed_repairing h env hr rel
    · split
      · exact hr
      · exact spawnViolation_repairing h env hr rel true

theorem scanFile_sameAt (hr : Repairing p a) {rel q : Path} (hne : rel ≠ q) :
    SameAt q a (a.scanFile h env rel) := by
  unfold scanFile
  split
  · exact scanUnindexed_sameAt h env hr hne
  · split
    · exact scanUnindexed_sameAt h env hr hne
    · split
      · exact .refl
      · exact spawnViolation_sameAt h env hr hne true

/-- A pass over several paths: those that are not among them stay as they are, and one that is
has its turn once. -/
theorem pass_at {f : Actor Id Path → Path → Actor Id Path}
    (hkeep : ∀ {a : Actor Id Path} (q : Path), Repairing p a → Repairing p (f a q))
    (hsame : ∀ {a : Actor Id Path} {q rel : Path}, Repairing p a → q ≠ rel →
      SameAt rel a (f a q))
    {l : List Path} (hl : l.Nodup) (hr : Repairing p a) (rel : Path) :
    Repairing p (l.foldl f a) ∧
      (rel ∉ l → SameAt rel a (l.foldl f a)) ∧
      (rel ∈ l → ∃ b, Repairing p b ∧ SameAt rel a b ∧ SameAt rel (f b rel) (l.foldl f a)) := by
  induction l generalizing a with
  | nil => exact ⟨hr, fun _ => .refl, by simp⟩
  | cons q l ih =>
      obtain ⟨hq, hl⟩ := List.nodup_cons.mp hl
      obtain ⟨hend, hout, hin⟩ := ih hl (hkeep q hr)
      refine ⟨hend, fun hno => ?_, fun hyes => ?_⟩
      · have hne : q ≠ rel := fun heq => hno (heq ▸ List.mem_cons_self)
        exact (hsame hr hne).trans (hout fun hmem => hno (List.mem_cons_of_mem q hmem))
      · by_cases hqrel : q = rel
        · subst hqrel
          exact ⟨a, hr, .refl, hout hq⟩
        · rcases List.mem_cons.mp hyes with rfl | hmem
          · exact absurd rfl hqrel
          · obtain ⟨b, hb, hbefore, hafter⟩ := hin hmem
            exact ⟨b, hb, (hsame hr hqrel).trans hbefore, hafter⟩

/-- The repair that the scan starts for an indexed file with these bytes on disk. -/
def firstRepairs (rel : Path) (record : FileRecord Id) : Option Bytes → List (Task Id Path)
  | none => [.violation rel record false]
  | some bytes =>
      if (Fin.ofNat _ bytes.length : U64) = record.size then []
      else [.violation rel record true]

theorem scanFile_at {rel : Path} {record : FileRecord Id} (hrec : a.files[rel]? = some record)
    (hlive : record.deleted = false) {bytes : Bytes} (hbytes : a.bytesAt rel = some bytes)
    (hnone : a.repairs rel = []) :
    (a.scanFile h env rel).bytesAt rel = a.bytesAt rel ∧
      (a.scanFile h env rel).stagedRepairs rel = a.stagedRepairs rel ∧
      (a.scanFile h env rel).repairs rel = firstRepairs rel record (some bytes) := by
  obtain ⟨f, hf, rfl⟩ := Option.map_eq_some_iff.mp hbytes
  have hsize : a.sizeOnDisk rel = some (Fin.ofNat _ f.bytes.length) := by
    rw [sizeOnDisk, hf]
    rfl
  unfold scanFile firstRepairs
  simp only [hrec, hlive, hsize, Option.some.injEq]
  by_cases heq : (Fin.ofNat _ f.bytes.length : U64) = record.size
  · simp only [heq, if_true]
    exact ⟨rfl, rfl, hnone⟩
  · simp only [heq, if_false]
    obtain ⟨hrepairs, hstaged, hsame⟩ := spawnViolation_repairs h env hrec true
    refine ⟨hsame, hstaged, ?_⟩
    rw [hnone, List.nil_append] at hrepairs
    exact hrepairs

/-- The indexed paths without a file are distinct. -/
theorem nodup_missing (files : Map Path (FileRecord Id)) (f : Path × FileRecord Id → Bool) :
    ((files.toList.filter f).map Prod.fst).Nodup := by
  have hsub : ((files.toList.filter f).map Prod.fst).Sublist (files.toList.map Prod.fst) :=
    List.filter_sublist.map Prod.fst
  rw [Std.ExtTreeMap.map_fst_toList_eq_keys] at hsub
  exact hsub.nodup Std.ExtTreeMap.nodup_keys

/-- **What the scan does for one indexed file.** It starts at most one repair of it, and
changes nothing else about it. -/
theorem startupScan_at (hr : Repairing p a) {rel : Path} {record : FileRecord Id}
    (hpath : h.sanitize rel = true) (hlive : p.LiveAt rel record) (hnone : a.repairs rel = [])
    (founding : Bool) :
    Repairing p (a.startupScan h env founding) ∧
      (a.startupScan h env founding).bytesAt rel = a.bytesAt rel ∧
      (a.startupScan h env founding).stagedRepairs rel = a.stagedRepairs rel ∧
      (a.startupScan h env founding).repairs rel =
        firstRepairs rel record (a.bytesAt rel) := by
  have hrec : ∀ {b : Actor Id Path}, Repairing p b → b.files[rel]? = some record :=
    fun hb => by rw [hb.files]; exact hlive.1
  have hfull : a.files.isEmpty = false := by
    rw [hr.files]
    by_contra hempty
    rw [Bool.not_eq_false, Std.ExtTreeMap.isEmpty_iff] at hempty
    have hget := hlive.1
    rw [hempty] at hget
    simp at hget
  -- the pass over the files on disk
  have honDisk : (a.disk.keys.filter h.sanitize).Nodup := Std.ExtTreeMap.nodup_keys.filter _
  have hmem : rel ∈ a.disk.keys.filter h.sanitize ↔ (a.bytesAt rel).isSome = true := by
    rw [List.mem_filter, Std.ExtTreeMap.mem_keys, Std.ExtTreeMap.mem_iff_isSome_getElem?, bytesAt,
      Option.isSome_map]
    exact and_iff_left hpath
  obtain ⟨hscanned, hout, hin⟩ := pass_at
    (f := fun (a : Actor Id Path) q => a.scanFile h env q)
    (fun q hb => scanFile_repairing h env hb q)
    (fun hb hne => scanFile_sameAt h env hb hne) honDisk hr rel
  -- the pass over the indexed paths without a file
  have hlost := nodup_missing p.files fun e =>
    !e.2.deleted && !(a.disk.keys.filter h.sanitize).contains e.1
  have hlostmem : rel ∈ ((p.files.toList.filter fun e =>
      !e.2.deleted && !(a.disk.keys.filter h.sanitize).contains e.1).map Prod.fst) ↔
        rel ∉ a.disk.keys.filter h.sanitize := by
    constructor
    · intro hmem
      obtain ⟨e, he, rfl⟩ := List.mem_map.mp hmem
      have hcond := (List.mem_filter.mp he).2
      simp only [Bool.and_eq_true, Bool.not_eq_true', List.contains_eq_mem,
        decide_eq_false_iff_not] at hcond
      exact hcond.2
    · intro hno
      refine List.mem_map.mpr ⟨(rel, record), List.mem_filter.mpr
        ⟨Map.mem_toList.mpr hlive.1, ?_⟩, rfl⟩
      simp only [hlive.2, Bool.not_false, Bool.true_and, Bool.not_eq_true', List.contains_eq_mem,
        decide_eq_false_iff_not]
      exact hno
  obtain ⟨hended, hkept, hturn⟩ := pass_at
    (f := fun (a : Actor Id Path) q =>
      ({ a with busy := a.busy.insert q () } : Actor Id Path).spawnViolation h env q false)
    (fun q hb => spawnViolation_repairing h env (hb.busied q) q false)
    (fun {b q r} hb hne =>
      have hfirst : SameAt r b { b with busy := b.busy.insert q () } := .of_eq rfl rfl rfl rfl
      hfirst.trans (spawnViolation_sameAt h env (hb.busied q) hne false))
    hlost hscanned rel
  unfold startupScan
  simp only [hfull, Bool.false_and, Bool.false_eq_true, if_false]
  rw [hscanned.files]
  refine ⟨{ hended with }, ?_⟩
  -- forgetting stale pulls is the last step, and shows at no path
  by_cases hthere : rel ∈ a.disk.keys.filter h.sanitize
  · obtain ⟨b, hb, hbefore, hafter⟩ := hin hthere
    have hend := hafter.trans (hkept fun hyes => (hlostmem.mp hyes) hthere)
    obtain ⟨bytes, hbytes⟩ := Option.isSome_iff_exists.mp (hmem.mp hthere)
    obtain ⟨hsame, hstaged, hrepairs⟩ := scanFile_at h env (hrec hb) hlive.2
      (hbefore.bytes.trans hbytes) (hbefore.repairs.trans hnone)
    rw [hbytes]
    refine ⟨?_, ?_, ?_⟩
    · exact ((hend.bytes.trans hsame).trans hbefore.bytes).trans hbytes
    · exact (hend.staged.trans hstaged).trans hbefore.staged
    · exact hend.repairs.trans hrepairs
  · obtain ⟨b, hb, hbefore, hafter⟩ := hturn (hlostmem.mpr hthere)
    have hstart := (hout hthere).trans hbefore
    have habsent : a.bytesAt rel = none := by
      by_contra hsome
      exact hthere (hmem.mpr (Option.isSome_iff_ne_none.mpr hsome))
    obtain ⟨hrepairs, hstaged, hsame⟩ := spawnViolation_repairs h env
      (hrec (hb.busied rel)) false
    rw [habsent]
    refine ⟨?_, ?_, ?_⟩
    · exact ((hafter.bytes.trans hsame).trans hstart.bytes).trans habsent
    · exact (hafter.staged.trans hstaged).trans hstart.staged
    · refine (hafter.repairs.trans hrepairs).trans ?_
      have hempty : ({ b with busy := b.busy.insert rel () } : Actor Id Path).repairs rel = [] :=
        hstart.repairs.trans hnone
      rw [hempty]
      rfl

/-- The same, from the persisted state on. -/
theorem boot_at (me : Id) {rel : Path} {record : FileRecord Id}
    (hpath : h.sanitize rel = true) (hlive : p.LiveAt rel record) (founding : Bool) :
    Repairing p (boot h env me p founding) ∧
      (boot h env me p founding).bytesAt rel = p.disk[rel]?.map DiskFile.bytes ∧
      (boot h env me p founding).stagedRepairs rel = [] ∧
      (boot h env me p founding).repairs rel =
        firstRepairs rel record (p.disk[rel]?.map DiskFile.bytes) := by
  have hmodes : ∀ (l : List (Path × FileRecord Id)) (a : Actor Id Path), Repairing p a →
      Repairing p (l.foldl (fun a e => a.settleMode env e.1) a) ∧
        SameAt rel a (l.foldl (fun a e => a.settleMode env e.1) a) := by
    intro l
    induction l with
    | nil => exact fun a ha => ⟨ha, .refl⟩
    | cons e l ih =>
        intro a ha
        obtain ⟨hend, hsame⟩ := ih (a.settleMode env e.1) (ha.onDisk (setMode_onDisk a env e.1 _))
        exact ⟨hend, (setMode_sameAt a env e.1 rel _).trans hsame⟩
  have hload : Repairing p (load h me p) :=
    ⟨rfl, rfl, rfl, by simp [load], by simp [load]⟩
  unfold boot
  obtain ⟨hsettled, hsame⟩ :=
    hmodes ((load h me p).files.toList.filter fun e => !e.2.deleted) _ hload
  obtain ⟨hend, hbytes, hstaged, hrepairs⟩ :=
    startupScan_at h env hsettled hpath hlive (hsame.repairs.trans rfl) founding
  refine ⟨hend, hbytes.trans hsame.bytes, hstaged.trans (hsame.staged.trans rfl), ?_⟩
  rw [hsame.bytes] at hrepairs
  exact hrepairs

end Scan

/-! ## The repairs run -/

section Repair

variable {p : Persisted Id Path} (h : Host Id Path) (env : Env Path) {a b : Actor Id Path}

/-- A file is put in place, or stays as it is. -/
theorem persistTemp_at (a : Actor Id Path) (rel : Path) (bytes : Bytes) :
    (∀ ms, (a.persistTemp h env rel bytes).1.conflicts[(toLex (ms, rel) : CopyName Path)]? =
        a.conflicts[(toLex (ms, rel) : CopyName Path)]?) ∧
      (a.persistTemp h env rel bytes).2 = (env.io.createDir rel && env.io.persist rel) ∧
      (a.persistTemp h env rel bytes).1.bytesAt rel =
        if env.io.createDir rel && env.io.persist rel then some bytes else a.bytesAt rel := by
  have hmode := setMode_sameAt a env rel rel false
  have hnote := hmode.trans (noteReplaced_sameAt h (a.setMode env rel false).1 rel rel)
  unfold persistTemp
  by_cases hdir : env.io.createDir rel = true
  · by_cases hpersist : env.io.persist rel = true
    · simp only [hdir, hpersist, if_true, Bool.and_self]
      refine ⟨hnote.copies, trivial, ?_⟩
      exact congrArg (Option.map DiskFile.bytes) (Map.get_insert_self _ rel _)
    · simp only [hdir, hpersist, if_true, Bool.and_false, Bool.false_eq_true, if_false]
      exact ⟨hmode.copies, trivial, hmode.bytes⟩
  · simp only [hdir, Bool.false_and, Bool.false_eq_true, if_false]
    exact ⟨fun _ => trivial, trivial, trivial⟩

theorem knowIfIndexed_onDisk (a : Actor Id Path) (rel : Path) (bytes : Bytes) :
    OnDisk a (a.knowIfIndexed h rel bytes) := by
  unfold knowIfIndexed
  split
  · split <;> exact ⟨_, _, _, _, _, _, rfl⟩
  · exact ⟨_, _, _, _, _, _, rfl⟩

theorem knowIfIndexed_sameAt (a : Actor Id Path) (rel q : Path) (bytes : Bytes) :
    SameAt q a (a.knowIfIndexed h rel bytes) := by
  unfold knowIfIndexed
  split
  · split <;> exact .of_eq rfl rfl rfl rfl
  · exact .of_eq rfl rfl rfl rfl

/-- The file operations at the end of a repair. -/
def putBack (a : Actor Id Path) (rel : Path) (bytes : Bytes) : Actor Id Path :=
  match (a.mute env rel).persistTemp h env rel bytes with
  | (a, false) => a
  | (a, true) =>
      let a := a.knowIfIndexed h rel bytes
      if a.config.enforceReadonly then (a.setMode env rel true).1 else a

theorem putBack_onDisk (a : Actor Id Path) (rel : Path) (bytes : Bytes) :
    OnDisk a (a.putBack h env rel bytes) := by
  have hput := (mute_onDisk a env rel).trans (persistTemp_onDisk h env (a.mute env rel) rel bytes)
  unfold putBack
  split
  · rename_i b hb
    rw [hb] at hput
    exact hput
  · rename_i b hb
    rw [hb] at hput
    have hknow := hput.trans (knowIfIndexed_onDisk h b rel bytes)
    dsimp only
    split
    · exact hknow.trans (setMode_onDisk _ env rel true)
    · exact hknow

/-- Past the renaming nothing shows at any path. -/
theorem putBack_after (a : Actor Id Path) (rel q : Path) (bytes : Bytes) :
    SameAt q ((a.mute env rel).persistTemp h env rel bytes).1 (a.putBack h env rel bytes) := by
  unfold putBack
  split
  · rename_i b hb
    rw [hb]
    exact .refl
  · rename_i b hb
    rw [hb]
    have hknow := knowIfIndexed_sameAt h b rel q bytes
    dsimp only
    split
    · exact hknow.trans (setMode_sameAt _ env rel q true)
    · exact hknow

theorem putBack_sameAt (a : Actor Id Path) {rel q : Path} (hne : rel ≠ q) (bytes : Bytes) :
    SameAt q a (a.putBack h env rel bytes) := by
  have hmute : SameAt q a (a.mute env rel) := .of_eq rfl rfl rfl rfl
  exact (hmute.trans (persistTemp_sameAt h env (a.mute env rel) hne bytes)).trans
    (putBack_after h env a rel q bytes)

theorem putBack_at (a : Actor Id Path) (rel : Path) (bytes : Bytes) :
    (∀ ms, (a.putBack h env rel bytes).conflicts[(toLex (ms, rel) : CopyName Path)]? =
        a.conflicts[(toLex (ms, rel) : CopyName Path)]?) ∧
      (a.putBack h env rel bytes).bytesAt rel =
        if env.io.createDir rel && env.io.persist rel then some bytes else a.bytesAt rel := by
  obtain ⟨hcopies, -, hbytes⟩ := persistTemp_at h env (a.mute env rel) rel bytes
  have hafter := putBack_after h env a rel rel bytes
  exact ⟨fun ms => (hafter.copies ms).trans (hcopies ms), hafter.bytes.trans hbytes⟩

/-- A repair whose copy failed is given up, and so is one whose content could not be
fetched. -/
theorem onViolationStaged_eq (a : Actor Id Path) (rel : Path) (result : Option Bytes)
    (copy : Option (CopyName Path)) (flag : Bool) :
    a.onViolationStaged h env rel result copy flag =
      if flag && copy.isNone then a.unbusy h env rel
      else
        match result with
        | none => a.unbusy h env rel
        | some bytes => (a.putBack h env rel bytes).unbusy h env rel := by
  unfold onViolationStaged
  cases result with
  | none => rfl
  | some bytes => rfl

end Repair

/-- The step is the daemon's own: a task does its work, or the actor takes up what a task has
posted. -/
def OwnWork (_ : Actor Id Path) (s : Env Path × Act Id Path) : Prop :=
  match s.2 with
  | .inbox _ | .task _ _ => True
  | _ => False

/-- The step fails to preserve, to fetch or to put back the file at `rel`. -/
def FailsFor (h : Host Id Path) (rel : Path) (a : Actor Id Path)
    (s : Env Path × Act Id Path) : Prop :=
  match s.2 with
  | .task n failure => ∃ record flag, a.tasks[n]? = some (.violation rel record flag) ∧
      (flag = true ∧ s.1.io.quarantine rel = false ∨ fetch h record.manifest failure = none)
  | .inbox n => ∃ result copy flag,
      a.inbox[n]? = some (.violationStaged rel result copy flag) ∧
        (s.1.io.createDir rel = false ∨ s.1.io.persist rel = false)
  | _ => False

/-- How far the repair of `rel` has got; `old` are the bytes at the start. Without failures
(`smooth`) it ends with the indexed content in place, and with a copy of the old bytes if there
was a file (`flag`). -/
inductive Stage (h : Host Id Path) (smooth : Prop) (rel : Path) (record : FileRecord Id)
    (flag : Bool) (old : Option Bytes) (a : Actor Id Path) : Prop
  | waiting (hrepairs : a.repairs rel = [.violation rel record flag])
      (hstaged : a.stagedRepairs rel = []) (hbytes : a.bytesAt rel = old)
  | staged (result : Option Bytes) (copy : Option (CopyName Path))
      (hrepairs : a.repairs rel = [])
      (hstaged : a.stagedRepairs rel = [.violationStaged rel result copy flag])
      (hbytes : a.bytesAt rel = old)
      (hcopy : copy.isSome = true → ∀ bytes, old = some bytes → a.Copied rel bytes)
      (hresult : ∀ bytes, result = some bytes → h.content record.manifest = some bytes)
      (hsmooth : smooth → result.isSome = true ∧ (flag = true → copy.isSome = true))
  | ended (hrepairs : a.repairs rel = []) (hstaged : a.stagedRepairs rel = [])
      (hend : a.Restored h rel record ∧
          (flag = true → ∀ bytes, old = some bytes → a.Copied rel bytes) ∨
        ¬ smooth ∧ a.bytesAt rel = old)

/-- What leaves a path as it is leaves its repair where it is. -/
theorem Stage.same {h : Host Id Path} {smooth : Prop} {rel : Path} {record : FileRecord Id}
    {flag : Bool} {old : Option Bytes} {a b : Actor Id Path}
    (hst : Stage h smooth rel record flag old a) (hs : SameAt rel a b) :
    Stage h smooth rel record flag old b := by
  have hcopied : ∀ bytes, a.Copied rel bytes → b.Copied rel bytes :=
    fun bytes ⟨ms, hms⟩ => ⟨ms, (hs.copies ms).trans hms⟩
  cases hst with
  | waiting hrepairs hstaged hbytes =>
      exact .waiting (hs.repairs.trans hrepairs) (hs.staged.trans hstaged)
        (hs.bytes.trans hbytes)
  | staged result copy hrepairs hstaged hbytes hcopy hresult hsmooth =>
      exact .staged result copy (hs.repairs.trans hrepairs) (hs.staged.trans hstaged)
        (hs.bytes.trans hbytes) (fun hc bytes hold => hcopied bytes (hcopy hc bytes hold))
        hresult hsmooth
  | ended hrepairs hstaged hend =>
      refine .ended (hs.repairs.trans hrepairs) (hs.staged.trans hstaged) ?_
      rcases hend with ⟨⟨bytes, hcontent, hbytes⟩, hcopy⟩ | ⟨hno, hbytes⟩
      · exact .inl ⟨⟨bytes, hcontent, hs.bytes.trans hbytes⟩,
          fun hflag bytes hold => hcopied bytes (hcopy hflag bytes hold)⟩
      · exact .inr ⟨hno, hs.bytes.trans hbytes⟩

/-- What a copy does for its own path. -/
theorem quarantine_at (env : Env Path) (a : Actor Id Path) (rel : Path) :
    (a.quarantine env rel).1.bytesAt rel = a.bytesAt rel ∧
      ((a.quarantine env rel).2.isSome = true → ∀ bytes, a.bytesAt rel = some bytes →
        (a.quarantine env rel).1.Copied rel bytes) ∧
      (env.io.quarantine rel = true → (a.bytesAt rel).isSome = true →
        (a.quarantine env rel).2.isSome = true) := by
  unfold quarantine bytesAt
  cases hdisk : a.disk[rel]? with
  | none =>
      refine ⟨?_, by simp, by simp⟩
      dsimp only
      rw [hdisk]
  | some f =>
      dsimp only
      by_cases hio : env.io.quarantine rel = true
      · rw [if_pos hio]
        dsimp only
        refine ⟨?_, fun _ bytes hbytes => ?_, fun _ _ => rfl⟩
        · have hlose : (a.loseCopy (toLex (env.nowMs, rel))).disk = a.disk := by
            unfold loseCopy
            split <;> rfl
          change (a.loseCopy (toLex (env.nowMs, rel))).disk[rel]?.map DiskFile.bytes = _
          rw [hlose, hdisk]
        · obtain rfl : f.bytes = bytes := Option.some.inj hbytes
          exact ⟨env.nowMs, Map.get_insert_self _ _ _⟩
      · rw [if_neg hio]
        refine ⟨?_, by simp, fun hyes => absurd hyes hio⟩
        dsimp only
        rw [hdisk]

section Step

variable {h : Host Id Path} {env : Env Path} {p : Persisted Id Path} {a b : Actor Id Path}

/-- **What a task does**: it copies the file if it has to, and posts what it has fetched. -/
theorem task_inv (hr : Repairing p a) {n : Nat} {failure : Option String}
    (hstep : step h a (env, .task n failure) = some b) :
    ∃ q rec fl copy, a.tasks[n]? = some (.violation q rec fl) ∧ Repairing p b ∧
      b.tasks = a.tasks.eraseIdx n ∧
      b.inbox = a.inbox ++ [.violationStaged q (fetch h rec.manifest failure) copy fl] ∧
      (∀ rel, q ≠ rel → SameAt rel a b) ∧ b.bytesAt q = a.bytesAt q ∧
      (copy.isSome = true → ∀ bytes, a.bytesAt q = some bytes → b.Copied q bytes) ∧
      (fl = true → env.io.quarantine q = true → (a.bytesAt q).isSome = true →
        copy.isSome = true) := by
  simp only [step] at hstep
  cases ht : a.tasks[n]? with
  | none =>
      rw [ht] at hstep
      cases hstep
  | some t =>
      obtain ⟨q, rec, fl, rfl⟩ := hr.tasks t (List.mem_of_getElem? ht)
      simp only [ht, runTask] at hstep
      have hpopped : Repairing p { a with tasks := a.tasks.eraseIdx n } :=
        { hr with tasks := fun t ht => hr.tasks t (List.mem_of_mem_eraseIdx ht) }
      obtain ⟨a₂, copy, hwork, hdone, hothers, hsame, hcopied, hcopy⟩ : ∃ a₂ copy,
          (if fl then ({ a with tasks := a.tasks.eraseIdx n } : Actor Id Path).quarantine env q
            else ({ a with tasks := a.tasks.eraseIdx n }, none)) = (a₂, copy) ∧
          OnDisk { a with tasks := a.tasks.eraseIdx n } a₂ ∧
          (∀ rel, q ≠ rel → SameAt rel { a with tasks := a.tasks.eraseIdx n } a₂) ∧
          a₂.bytesAt q = a.bytesAt q ∧
          (copy.isSome = true → ∀ bytes, a.bytesAt q = some bytes → a₂.Copied q bytes) ∧
          (fl = true → env.io.quarantine q = true → (a.bytesAt q).isSome = true →
            copy.isSome = true) := by
        cases fl with
        | false => exact ⟨_, _, rfl, .refl, fun _ _ => .refl, rfl, by simp, by simp⟩
        | true =>
            obtain ⟨hsame, hcopied, hcopy⟩ :=
              quarantine_at env { a with tasks := a.tasks.eraseIdx n } q
            exact ⟨_, _, rfl, quarantine_onDisk _ env q,
              fun rel hne => quarantine_sameAt env _ hne, hsame, hcopied, fun _ => hcopy⟩
      rw [hwork] at hstep
      obtain rfl := Option.some.inj hstep
      have hrepairing := hpopped.onDisk hdone
      obtain ⟨disk, conflicts, known, opened, muted, journal, rfl⟩ := hdone
      refine ⟨q, rec, fl, copy, rfl, { hrepairing with inbox := fun e he => ?_ }, rfl, rfl,
        fun rel hne => ?_, hsame, hcopied, hcopy⟩
      · rcases List.mem_append.mp he with he | he
        · exact hr.inbox e he
        · exact ⟨_, _, _, _, List.mem_singleton.mp he⟩
      · have hpop : SameAt rel a { a with tasks := a.tasks.eraseIdx n } :=
          ⟨rfl, fun _ => rfl, (filter_eraseIdx ht).1 (decide_eq_false hne), rfl⟩
        refine (hpop.trans (hothers rel hne)).trans ⟨rfl, fun _ => rfl, rfl, ?_⟩
        simp [stagedRepairs, List.filter_append, hne]

/-- **What the end of a repair does**: it puts the content back, if there is one and the old
bytes are preserved, or it does nothing. -/
theorem inbox_inv (hr : Repairing p a) {n : Nat}
    (hstep : step h a (env, .inbox n) = some b) :
    ∃ q result copy fl, a.inbox[n]? = some (.violationStaged q result copy fl) ∧
      Repairing p b ∧ b.tasks = a.tasks ∧ b.inbox = a.inbox.eraseIdx n ∧
      (∀ rel, q ≠ rel → SameAt rel a b) ∧
      (∀ ms, b.conflicts[(toLex (ms, q) : CopyName Path)]? =
        a.conflicts[(toLex (ms, q) : CopyName Path)]?) ∧
      (b.bytesAt q = a.bytesAt q ∨ ∃ bytes, result = some bytes ∧
        (fl = true → copy.isSome = true) ∧ b.bytesAt q = some bytes) ∧
      (result.isSome = true → (fl = true → copy.isSome = true) → env.io.createDir q = true →
        env.io.persist q = true → ∃ bytes, result = some bytes ∧ b.bytesAt q = some bytes) := by
  simp only [step] at hstep
  cases he : a.inbox[n]? with
  | none =>
      rw [he] at hstep
      cases hstep
  | some e =>
      obtain ⟨q, result, copy, fl, rfl⟩ := hr.inbox e (List.mem_of_getElem? he)
      simp only [he, handle] at hstep
      obtain rfl := Option.some.inj hstep
      have hpopped : Repairing p { a with inbox := a.inbox.eraseIdx n } :=
        { hr with inbox := fun e he => hr.inbox e (List.mem_of_mem_eraseIdx he) }
      -- either the repair is given up, or the content is put back
      obtain ⟨b, heq, hdone, hothers, hcopies, hbytes, hput⟩ : ∃ b : Actor Id Path,
          ({ a with inbox := a.inbox.eraseIdx n } : Actor Id Path).onViolationStaged h env q
            result copy fl = b.unbusy h env q ∧
          OnDisk { a with inbox := a.inbox.eraseIdx n } b ∧
          (∀ rel, q ≠ rel → SameAt rel { a with inbox := a.inbox.eraseIdx n } b) ∧
          (∀ ms, b.conflicts[(toLex (ms, q) : CopyName Path)]? =
            a.conflicts[(toLex (ms, q) : CopyName Path)]?) ∧
          (b.bytesAt q = a.bytesAt q ∨ ∃ bytes, result = some bytes ∧
            (fl = true → copy.isSome = true) ∧ b.bytesAt q = some bytes) ∧
          (result.isSome = true → (fl = true → copy.isSome = true) →
            env.io.createDir q = true → env.io.persist q = true → ∃ bytes,
              result = some bytes ∧ b.bytesAt q = some bytes) := by
        rw [onViolationStaged_eq]
        by_cases hno : (fl && copy.isNone) = true
        · rw [if_pos hno]
          simp only [Bool.and_eq_true, Option.isNone_iff_eq_none] at hno
          obtain ⟨rfl, rfl⟩ := hno
          exact ⟨_, rfl, .refl, fun _ _ => .refl, fun _ => rfl, .inl rfl,
            fun _ hc => by cases hc rfl⟩
        · rw [if_neg hno]
          cases result with
          | none => exact ⟨_, rfl, .refl, fun _ _ => .refl, fun _ => rfl, .inl rfl, by simp⟩
          | some bytes =>
              have hkept : fl = true → copy.isSome = true := by
                rintro rfl
                cases copy with
                | none => exact absurd rfl hno
                | some name => rfl
              obtain ⟨hcopies, hat⟩ :=
                putBack_at h env { a with inbox := a.inbox.eraseIdx n } q bytes
              refine ⟨_, rfl, putBack_onDisk h env _ q bytes,
                fun rel hne => putBack_sameAt h env _ hne bytes, hcopies, ?_, ?_⟩
              · by_cases hio : (env.io.createDir q && env.io.persist q) = true
                · rw [if_pos hio] at hat
                  exact .inr ⟨bytes, rfl, hkept, hat⟩
                · rw [if_neg hio] at hat
                  exact .inl hat
              · intro _ _ hdir hpersist
                rw [if_pos (by rw [hdir, hpersist]; rfl)] at hat
                exact ⟨bytes, rfl, hat⟩
      have hrepairing := hpopped.onDisk hdone
      obtain ⟨disk, conflicts, known, opened, muted, journal, rfl⟩ := hdone
      rw [heq, hrepairing.unbusy_eq h env q]
      refine ⟨q, result, copy, fl, rfl, { hrepairing with }, rfl, rfl, fun rel hne => ?_, hcopies,
        hbytes, hput⟩
      have hpop : SameAt rel a { a with inbox := a.inbox.eraseIdx n } :=
        ⟨rfl, fun _ => rfl, rfl, (filter_eraseIdx he).1 (decide_eq_false hne)⟩
      exact (hpop.trans (hothers rel hne)).trans (.of_eq rfl rfl rfl rfl)

/-- A step of the daemon's own is one or the other. -/
theorem ownWork_cases {s : Env Path × Act Id Path} (hown : OwnWork a s) :
    (∃ env n failure, s = (env, .task n failure)) ∨ ∃ env n, s = (env, .inbox n) := by
  obtain ⟨env, act⟩ := s
  cases act with
  | task n failure => exact .inl ⟨env, n, failure, rfl⟩
  | inbox n => exact .inr ⟨env, n, rfl⟩
  | event | write | delete | chmod => exact hown.elim

theorem mem_repairs {rel : Path} {record : FileRecord Id} {flag : Bool}
    (ht : .violation rel record flag ∈ a.tasks) : .violation rel record flag ∈ a.repairs rel :=
  List.mem_filter.mpr ⟨ht, decide_eq_true rfl⟩

theorem mem_stagedRepairs {rel : Path} {result : Option Bytes} {copy : Option (CopyName Path)}
    {flag : Bool} (he : .violationStaged rel result copy flag ∈ a.inbox) :
    .violationStaged rel result copy flag ∈ a.stagedRepairs rel :=
  List.mem_filter.mpr ⟨he, decide_eq_true rfl⟩

/-- A path without a repair stays as it is, and no step fails for it. -/
theorem ownWork_sameAt {s : Env Path × Act Id Path} (hr : Repairing p a) (hown : OwnWork a s)
    (hstep : step h a s = some b) {rel : Path} (hnone : a.repairs rel = [])
    (hstaged : a.stagedRepairs rel = []) : Repairing p b ∧ SameAt rel a b := by
  rcases ownWork_cases hown with ⟨env, n, failure, rfl⟩ | ⟨env, n, rfl⟩
  · obtain ⟨q, rec, fl, copy, ht, hrepairing, -, -, hothers, -⟩ := task_inv hr hstep
    refine ⟨hrepairing, hothers rel ?_⟩
    rintro rfl
    have hin := mem_repairs (List.mem_of_getElem? ht)
    rw [hnone] at hin
    cases hin
  · obtain ⟨q, result, copy, fl, he, hrepairing, -, -, hothers, -⟩ := inbox_inv hr hstep
    refine ⟨hrepairing, hothers rel ?_⟩
    rintro rfl
    have hin := mem_stagedRepairs (List.mem_of_getElem? he)
    rw [hstaged] at hin
    cases hin

variable {smooth : Prop} {rel : Path} {record : FileRecord Id} {flag : Bool} {old : Option Bytes}

/-- A repair does its work. -/
theorem Stage.task (hr : Repairing p a) (hst : Stage h smooth rel record flag old a)
    (hflag : flag = true → old.isSome = true) {n : Nat} {failure : Option String}
    (hok : smooth → ¬ FailsFor h rel a (env, .task n failure))
    (hstep : step h a (env, .task n failure) = some b) :
    Stage h smooth rel record flag old b := by
  obtain ⟨q, rec, fl, copy, ht, -, htasks, hinbox, hothers, hsame, hcopied, hcopy⟩ :=
    task_inv hr hstep
  by_cases hq : q = rel
  · subst hq
    have hin := mem_repairs (List.mem_of_getElem? ht)
    cases hst with
    | waiting hrepairs hstaged hbytes =>
        obtain ⟨heq, hgone⟩ := (filter_eraseIdx ht).2 (decide_eq_true rfl) _ hrepairs
        cases heq
        refine .staged (fetch h record.manifest failure) copy ?_ ?_ (hsame.trans hbytes)
          (fun hc bytes hold => hcopied hc bytes (hbytes.trans hold))
          (fun bytes hfetched => ?_) fun hs => ?_
        · rw [repairs, htasks]
          exact hgone
        · have happ : b.stagedRepairs q = a.stagedRepairs q ++ [.violationStaged q
              (fetch h record.manifest failure) copy flag] := by
            simp [stagedRepairs, hinbox, List.filter_append]
          rw [happ, hstaged, List.nil_append]
        · unfold fetch at hfetched
          split at hfetched
          · cases hfetched
          · exact hfetched
        · have hno := hok hs
          simp only [FailsFor, not_exists, not_and, not_or] at hno
          obtain ⟨hquar, hfetch⟩ := hno record flag ht
          refine ⟨Option.isSome_iff_ne_none.mpr hfetch, fun hf => hcopy hf ?_ ?_⟩
          · exact Bool.not_eq_false _ ▸ hquar hf
          · rw [hbytes]
            exact hflag hf
    | staged result copy hrepairs hstaged hbytes hcopy hresult hsmooth =>
        rw [hrepairs] at hin
        cases hin
    | ended hrepairs hstaged hend =>
        rw [hrepairs] at hin
        cases hin
  · exact hst.same (hothers rel hq)

/-- A repair comes to its end. -/
theorem Stage.inbox (hr : Repairing p a) (hst : Stage h smooth rel record flag old a) {n : Nat}
    (hok : smooth → ¬ FailsFor h rel a (env, .inbox n))
    (hstep : step h a (env, .inbox n) = some b) : Stage h smooth rel record flag old b := by
  obtain ⟨q, result, copy, fl, he, -, htasks, hinbox, hothers, hcopies, hbytes, hput⟩ :=
    inbox_inv hr hstep
  by_cases hq : q = rel
  · subst hq
    have hin := mem_stagedRepairs (List.mem_of_getElem? he)
    cases hst with
    | waiting hrepairs hstaged hold =>
        rw [hstaged] at hin
        cases hin
    | ended hrepairs hstaged hend =>
        rw [hstaged] at hin
        cases hin
    | staged res cp hrepairs hstaged hold hcopy hresult hsmooth =>
        obtain ⟨heq, hgone⟩ := (filter_eraseIdx he).2 (decide_eq_true rfl) _ hstaged
        cases heq
        have hcopied : ∀ bytes, a.Copied q bytes → b.Copied q bytes :=
          fun bytes ⟨ms, hms⟩ => ⟨ms, (hcopies ms).trans hms⟩
        have hrestored : ∀ bytes, result = some bytes → (flag = true → copy.isSome = true) →
            b.bytesAt q = some bytes → b.Restored h q record ∧
              (flag = true → ∀ bytes, old = some bytes → b.Copied q bytes) :=
          fun bytes hres hkept hat => ⟨⟨bytes, hresult bytes hres, hat⟩,
            fun hf old hold => hcopied old (hcopy (hkept hf) old hold)⟩
        refine .ended ?_ ?_ ?_
        · rw [repairs, htasks]
          exact hrepairs
        · rw [stagedRepairs, hinbox]
          exact hgone
        · by_cases hs : smooth
          · obtain ⟨hres, hkept⟩ := hsmooth hs
            have hno := hok hs
            simp only [FailsFor, not_exists, not_and, not_or] at hno
            obtain ⟨hdir, hpersist⟩ := hno result copy flag he
            obtain ⟨bytes, hbytes, hat⟩ := hput hres hkept (Bool.not_eq_false _ ▸ hdir)
              (Bool.not_eq_false _ ▸ hpersist)
            exact .inl (hrestored bytes hbytes hkept hat)
          · rcases hbytes with hsame | ⟨bytes, hres, hkept, hat⟩
            · exact .inr ⟨hs, hsame.trans hold⟩
            · exact .inl (hrestored bytes hres hkept hat)
  · exact hst.same (hothers rel hq)

/-- A repair keeps going, whatever the daemon does of its own accord. -/
theorem Stage.next {s : Env Path × Act Id Path} (hr : Repairing p a)
    (hst : Stage h smooth rel record flag old a) (hflag : flag = true → old.isSome = true)
    (hown : OwnWork a s) (hok : smooth → ¬ FailsFor h rel a s)
    (hstep : step h a s = some b) :
    Repairing p b ∧ Stage h smooth rel record flag old b := by
  rcases ownWork_cases hown with ⟨env, n, failure, rfl⟩ | ⟨env, n, rfl⟩
  · obtain ⟨_, _, _, _, _, hrepairing, -⟩ := task_inv hr hstep
    exact ⟨hrepairing, hst.task hr hflag hok hstep⟩
  · obtain ⟨_, _, _, _, _, hrepairing, -⟩ := inbox_inv hr hstep
    exact ⟨hrepairing, hst.inbox hr hok hstep⟩

end Step

/-! ### Idle at last -/

/-- Nothing is left to do. -/
def Idle (a : Actor Id Path) : Prop := a.tasks = [] ∧ a.inbox = []

/-- The work the daemon has left: a task, and the event that it posts. -/
def workLeft (a : Actor Id Path) : Nat := 2 * a.tasks.length + a.inbox.length

/-- The daemon can do the first of its work. -/
theorem exists_ownWork {h : Host Id Path} (env : Env Path) {p : Persisted Id Path}
    {a : Actor Id Path} (hr : Repairing p a) (hbusy : ¬ a.Idle) :
    ∃ s b, OwnWork a s ∧ step h a s = some b ∧ b.workLeft < a.workLeft := by
  cases ht : a.tasks with
  | cons t tasks =>
      obtain ⟨q, rec, fl, rfl⟩ := hr.tasks t (by rw [ht]; exact List.mem_cons_self)
      have hsome : ∃ b, step h a (env, .task 0 none) = some b := by
        simp only [step, ht, List.getElem?_cons_zero]
        exact ⟨_, rfl⟩
      obtain ⟨b, hstep⟩ := hsome
      obtain ⟨_, _, _, _, -, -, htasks, hinbox, -⟩ := task_inv hr hstep
      refine ⟨(env, .task 0 none), b, trivial, hstep, ?_⟩
      rw [workLeft, workLeft, htasks, hinbox, ht, List.length_append]
      simp only [List.eraseIdx_zero, List.tail_cons, List.length_cons, List.length_nil]
      omega
  | nil =>
      cases he : a.inbox with
      | nil => exact absurd ⟨ht, he⟩ hbusy
      | cons e events =>
          have hsome : ∃ b, step h a (env, .inbox 0) = some b := by
            simp only [step, he, List.getElem?_cons_zero]
            exact ⟨_, rfl⟩
          obtain ⟨b, hstep⟩ := hsome
          obtain ⟨_, _, _, _, -, -, htasks, hinbox, -⟩ := inbox_inv hr hstep
          refine ⟨(env, .inbox 0), b, trivial, hstep, ?_⟩
          rw [workLeft, workLeft, htasks, hinbox, he]
          simp only [List.eraseIdx_zero, List.tail_cons, List.length_cons]
          omega

/-- A path without a repair is the same when the daemon is idle, and it does get idle. -/
theorem exists_idle {h : Host Id Path} (env : Env Path) {p : Persisted Id Path}
    {a : Actor Id Path} (hr : Repairing p a) {rel : Path} (hnone : a.repairs rel = [])
    (hstaged : a.stagedRepairs rel = []) :
    ∃ b, Reaches (step h) (fun a s => OwnWork a s ∧ ¬ FailsFor h rel a s) a b ∧ b.Idle ∧
      SameAt rel a b := by
  generalize hn : a.workLeft = n
  induction n using Nat.strong_induction_on generalizing a with
  | _ n ih =>
      by_cases hidle : a.Idle
      · exact ⟨a, .refl, hidle, .refl⟩
      · obtain ⟨s, b, hown, hstep, hless⟩ := exists_ownWork (h := h) env hr hidle
        obtain ⟨hrb, hsame⟩ := ownWork_sameAt hr hown hstep hnone hstaged
        have hok : ¬ FailsFor h rel a s := by
          rcases ownWork_cases hown with ⟨env, n, failure, rfl⟩ | ⟨env, n, rfl⟩
          · rintro ⟨record, flag, ht, -⟩
            have hin := mem_repairs (List.mem_of_getElem? ht)
            rw [hnone] at hin
            cases hin
          · rintro ⟨result, copy, flag, he, -⟩
            have hin := mem_stagedRepairs (List.mem_of_getElem? he)
            rw [hstaged] at hin
            cases hin
        obtain ⟨d, hrun, hend, hlast⟩ := ih b.workLeft (hn ▸ hless) hrb
          (hsame.repairs.trans hnone) (hsame.staged.trans hstaged) rfl
        have hfirst : Reaches (step h) (fun a s => OwnWork a s ∧ ¬ FailsFor h rel a s) a b :=
          .tail .refl ⟨hown, hok⟩ hstep
        exact ⟨d, hfirst.trans hrun, hend, hsame.trans hlast⟩

/-! ## What becomes of offline edits -/

/-- **Offline edits are preserved and undone.** The daemon starts and does its own work, with
any failures, up to any point. -/
structure StartupHeals (h : Host Id Path) (env : Env Path) (me : Id) (p : Persisted Id Path)
    (founding : Bool) : Prop where
  /-- The bytes of a live file that is not what its record says are in place, or they have been
  copied and the indexed content is in place. -/
  kept : ∀ a, Reaches (step h) OwnWork (boot h env me p founding) a →
    ∀ rel record f, p.LiveAt rel record → p.disk[rel]? = some f →
      h.content record.manifest ≠ some f.bytes →
        a.bytesAt rel = some f.bytes ∨ a.Copied rel f.bytes ∧ a.Restored h rel record
  /-- When all is done and nothing has failed for the file, it is copied and restored. -/
  healed : ∀ rel record f, p.LiveAt rel record → p.disk[rel]? = some f →
    h.content record.manifest ≠ some f.bytes →
      ∀ a, Reaches (step h) (fun a s => OwnWork a s ∧ ¬ FailsFor h rel a s)
        (boot h env me p founding) a → a.Idle →
          a.Copied rel f.bytes ∧ a.Restored h rel record
  /-- A live file that is not what its record says is left over only by a failure. -/
  settled : ∀ rel record, p.LiveAt rel record →
    ∀ a, Reaches (step h) (fun a s => OwnWork a s ∧ ¬ FailsFor h rel a s)
      (boot h env me p founding) a → a.Idle →
        ∀ f, a.disk[rel]? = some f → h.content record.manifest = some f.bytes

/-- The stage of a path whose repair the scan has started. -/
theorem Stage.reached {h : Host Id Path} {env : Env Path} {me : Id} {p : Persisted Id Path}
    {founding : Bool} {rel : Path} {record : FileRecord Id} (hpath : h.sanitize rel = true)
    (hlive : p.LiveAt rel record) {flag : Bool} {old : Option Bytes}
    (hold : p.disk[rel]?.map DiskFile.bytes = old)
    (hfirst : firstRepairs rel record old = [.violation rel record flag])
    (hflag : flag = true → old.isSome = true) {smooth : Prop} {a : Actor Id Path}
    (hrun : Reaches (step h) (fun a s => OwnWork a s ∧ (smooth → ¬ FailsFor h rel a s))
      (boot h env me p founding) a) :
    Stage h smooth rel record flag old a := by
  obtain ⟨hr, hbytes, hstaged, hrepairs⟩ := boot_at h env me hpath hlive founding
  rw [hold] at hbytes hrepairs
  have hinv : Repairing p a ∧ Stage h smooth rel record flag old a :=
    hrun.invariant (I := fun b => Repairing p b ∧ Stage h smooth rel record flag old b)
      ⟨hr, .waiting (hrepairs.trans hfirst) hstaged hbytes⟩
      fun b s d ⟨hrb, hst⟩ ⟨hown, hok⟩ hstep => hst.next hrb hflag hown hok hstep
  exact hinv.2

/-- When all is done and nothing has failed, a repair has ended well. -/
theorem Stage.idle {h : Host Id Path} {rel : Path} {record : FileRecord Id} {flag : Bool}
    {old : Option Bytes} {a : Actor Id Path} (hst : Stage h True rel record flag old a)
    (hidle : a.Idle) :
    a.Restored h rel record ∧ (flag = true → ∀ bytes, old = some bytes → a.Copied rel bytes) := by
  cases hst with
  | waiting hrepairs =>
      rw [repairs, hidle.1] at hrepairs
      cases hrepairs
  | staged result copy _ hstaged =>
      rw [stagedRepairs, hidle.2] at hstaged
      cases hstaged
  | ended _ _ hend =>
      rcases hend with hdone | ⟨hno, -⟩
      · exact hdone
      · exact absurd trivial hno

/-- A path whose size is that of the record is left as it is. -/
theorem reached_sameAt {h : Host Id Path} {env : Env Path} {me : Id} {p : Persisted Id Path}
    {founding : Bool} {rel : Path} {record : FileRecord Id} (hpath : h.sanitize rel = true)
    (hlive : p.LiveAt rel record) {bytes : Bytes}
    (hold : p.disk[rel]?.map DiskFile.bytes = some bytes)
    (hfirst : firstRepairs rel record (some bytes) = []) {a : Actor Id Path}
    (hrun : Reaches (step h) OwnWork (boot h env me p founding) a) :
    a.bytesAt rel = some bytes := by
  obtain ⟨hr, hbytes, hstaged, hrepairs⟩ := boot_at h env me hpath hlive founding
  rw [hold] at hbytes hrepairs
  have hinv : Repairing p a ∧ SameAt rel (boot h env me p founding) a :=
    hrun.invariant (I := fun b => Repairing p b ∧ SameAt rel (boot h env me p founding) b)
      ⟨hr, .refl⟩ fun b s d ⟨hrb, hsame⟩ hown hstep => by
      obtain ⟨hrd, hnext⟩ := ownWork_sameAt hrb hown hstep
        ((hsame.repairs.trans hrepairs).trans hfirst) (hsame.staged.trans hstaged)
      exact ⟨hrd, hsame.trans hnext⟩
  exact hinv.2.bytes.trans hbytes

/-- The file of path 1 was written while the daemon was away. -/
def editedState (bytes : Bytes) : Persisted Nat Nat :=
  { plainState with disk := (∅ : Map Nat DiskFile).insert 1 ⟨bytes, false⟩ }

end Actor

end Tazamun
