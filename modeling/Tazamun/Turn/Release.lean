import Tazamun.Turn.Aside
import Tazamun.Turn.Runs

set_option autoImplicit false

/-! # What a relaxed rule lets in

When the ignore file changes, `rebuild_ignore` releases the held records that the new rules no
longer hold, one path after the other, and reconciles each path with a record from the books
on the peers. No message follows of its own accord, so the record that is picked is the one
the path settles on until a peer advertises it again: it should not be older than what another
peer has advertised already.

The pick is the first entry that the search of the books finds, and the books are searched in
the order of the endpoint ids. Nothing that is done on the way touches the books
(`rebuildIgnore_peerIndex`), so the outcome can be read off the state before: the newest
version is picked exactly when the peer with the lowest id does not lag behind
(`releasesNewest_iff`). The run after the theorem has a peer with a low id that does.
-/

namespace Tazamun

open Lib

variable {Id Path : Type} [LinearOrder Id] [LinearOrder Path]

/-! ## Searching a map in order -/

namespace Map

variable {κ ν β : Type} [LinearOrder κ] {m : Map κ ν} {f : ν → Option β} {k : κ} {b : β}

/-- A search of the entries stops at the lowest key whose value it accepts. -/
theorem findSome_toList_iff :
    (m.toList.findSome? fun e => (f e.2).map fun b => (e.1, b)) = some (k, b) ↔
      (∃ v, m[k]? = some v ∧ f v = some b) ∧
        ∀ k' v', m[k']? = some v' → (f v').isSome = true → k ≤ k' := by
  have hsorted := Std.ExtTreeMap.ordered_keys_toList (t := m)
  have hmem : ∀ k v, (k, v) ∈ m.toList ↔ m[k]? = some v := fun _ _ => mem_toList
  simp only [← hmem]
  generalize m.toList = l at hsorted
  induction l with
  | nil => simp
  | cons e l ih =>
      obtain ⟨k₀, v₀⟩ := e
      obtain ⟨hbelow, hsorted⟩ := List.pairwise_cons.mp hsorted
      rw [List.findSome?_cons]
      cases hf : f v₀ with
      | none =>
          simp only [Option.map_none, ih hsorted, List.mem_cons, Prod.mk.injEq]
          constructor
          · rintro ⟨⟨v, hv, hb⟩, hlow⟩
            refine ⟨⟨v, .inr hv, hb⟩, ?_⟩
            rintro k' v' (⟨rfl, rfl⟩ | hv') hsome
            · rw [hf] at hsome
              cases hsome
            · exact hlow k' v' hv' hsome
          · rintro ⟨⟨v, ⟨rfl, rfl⟩ | hv, hb⟩, hlow⟩
            · rw [hf] at hb
              cases hb
            · exact ⟨⟨v, hv, hb⟩, fun k' v' hv' => hlow k' v' (.inr hv')⟩
      | some b₀ =>
          simp only [Option.map_some, Option.some.injEq, Prod.mk.injEq, List.mem_cons]
          constructor
          · rintro ⟨rfl, rfl⟩
            refine ⟨⟨v₀, .inl ⟨rfl, rfl⟩, hf⟩, ?_⟩
            rintro k' v' (⟨rfl, rfl⟩ | hv') -
            · exact le_refl _
            · exact le_of_lt (compare_lt_iff_lt.mp (hbelow (k', v') hv'))
          · rintro ⟨⟨v, ⟨rfl, rfl⟩ | hv, hb⟩, hlow⟩
            · rw [hf] at hb
              cases hb
              exact ⟨rfl, rfl⟩
            · have hle := hlow k₀ v₀ (.inl ⟨rfl, rfl⟩) (by rw [hf]; rfl)
              have hlt : k₀ < k := compare_lt_iff_lt.mp (hbelow (k, v) hv)
              exact absurd hle (not_le_of_gt hlt)

end Map

namespace Actor

/-! ## The books stay as they are -/

theorem OnDisk.peerIndex {a b : Actor Id Path} (h : OnDisk a b) : b.peerIndex = a.peerIndex := by
  obtain ⟨_, _, _, _, _, _, rfl⟩ := h
  rfl

theorem OnPulls.peerIndex {a b : Actor Id Path} (h : OnPulls a b) :
    b.peerIndex = a.peerIndex := by
  obtain ⟨_, _, _, _, _, rfl⟩ := h
  rfl

theorem pushHistory_peerIndex (a : Actor Id Path) (rel : Path) (r : Option (FileRecord Id)) :
    (a.pushHistory rel r).peerIndex = a.peerIndex := by
  cases r <;> rfl

theorem prepareApply_peerIndex (env : Env Path) (a : Actor Id Path) (rel : Path) :
    (a.prepareApply env rel).peerIndex = a.peerIndex := by
  unfold prepareApply
  dsimp only
  rw [pushHistory_peerIndex, (mute_onDisk _ env rel).peerIndex]
  split
  · exact (quarantine_onDisk a env rel).peerIndex
  · rfl

section Cycle

variable {rebuild : Actor Id Path → Actor Id Path} (h : Host Id Path) (env : Env Path)
  (hre : ∀ a : Actor Id Path, (rebuild a).peerIndex = a.peerIndex)

include hre

theorem applyNow_peerIndex (a : Actor Id Path) (rel : Path) (sender : Id)
    (record : FileRecord Id) (staged : Option Bytes) :
    (a.applyNow rebuild h env rel sender record staged).peerIndex = a.peerIndex := by
  have hdisk : ((a.prepareApply env rel).applyToDisk h env rel record staged).1.peerIndex
      = a.peerIndex :=
    (applyToDisk_onDisk h env _ rel record staged).peerIndex.trans
      (prepareApply_peerIndex env a rel)
  unfold applyNow
  rw [(finishPull_onPulls _ rel).peerIndex]
  split
  · rename_i b hb
    rw [hb] at hdisk
    dsimp only
    split
    · rw [hre]
      exact hdisk
    · exact hdisk
  · rename_i b hb
    rw [hb] at hdisk
    exact hdisk

theorem applyRemoteWith_peerIndex (a : Actor Id Path) (rel : Path) (sender : Id)
    (record : FileRecord Id) (staged : Option Bytes) :
    (a.applyRemoteWith rebuild h env rel sender record staged).peerIndex = a.peerIndex := by
  unfold applyRemoteWith
  split
  · rfl
  · split
    · exact (finishPull_onPulls a rel).peerIndex
    · exact applyNow_peerIndex h env hre a rel sender record staged

theorem maybePullWith_peerIndex (a : Actor Id Path) (rel : Path) (sender : Id)
    (record : FileRecord Id) :
    (a.maybePullWith rebuild h env rel sender record).peerIndex = a.peerIndex := by
  unfold maybePullWith
  split
  · rfl
  · split
    · exact applyRemoteWith_peerIndex h env hre _ rel sender record none
    · split
      · unfold hold
        split
        · split <;> rfl
        · rfl
      · exact (schedulePull_onPulls a rel sender record).peerIndex

theorem onConcurrentWith_peerIndex (a : Actor Id Path) (rel : Path) (sender : Id)
    (record : FileRecord Id) :
    (a.onConcurrentWith rebuild h env rel sender record).peerIndex = a.peerIndex := by
  unfold onConcurrentWith
  split
  · split <;> rfl
  · exact (maybePullWith_peerIndex h env hre _ rel sender record).trans
      (quarantine_onDisk a env rel).peerIndex

theorem reconcileOneWith_peerIndex (a : Actor Id Path) (sender : Id) (rel : Path)
    (record : FileRecord Id) :
    (a.reconcileOneWith rebuild h env sender rel record).peerIndex = a.peerIndex := by
  have hclear : (a.maybeClearUnapplied rel record).peerIndex = a.peerIndex := by
    unfold maybeClearUnapplied
    split <;> rfl
  unfold reconcileOneWith
  dsimp only
  split
  · split
    · exact hclear
    · exact (maybePullWith_peerIndex h env hre _ rel sender record).trans hclear
  · split
    · exact (maybePullWith_peerIndex h env hre _ rel sender record).trans hclear
    · exact (onConcurrentWith_peerIndex h env hre _ rel sender record).trans hclear
    · exact hclear
    · exact hclear

theorem releaseHeld_peerIndex (a : Actor Id Path) (rel : Path) :
    (a.releaseHeld rebuild h env rel).peerIndex = a.peerIndex := by
  unfold releaseHeld
  dsimp only
  split
  · exact reconcileOneWith_peerIndex h env hre _ _ rel _
  · rfl

omit hre in
variable (rebuild) in
/-- The state once the held paths in `done` are released, and the next one is due. -/
def releasing (a : Actor Id Path) (done : List Path) : Actor Id Path :=
  done.foldl (fun a rel => a.releaseHeld rebuild h env rel) (a.reloadRules h)

theorem releasing_peerIndex (a : Actor Id Path) (done : List Path) :
    (a.releasing rebuild h env done).peerIndex = a.peerIndex := by
  unfold releasing
  have hfold : ∀ b : Actor Id Path,
      (done.foldl (fun a rel => a.releaseHeld rebuild h env rel) b).peerIndex = b.peerIndex := by
    induction done with
    | nil => exact fun _ => rfl
    | cons rel done ih =>
        intro b
        exact (ih _).trans (releaseHeld_peerIndex h env hre b rel)
  exact hfold _

end Cycle

/-- Re-reading the rules leaves the books on the peers as they are. -/
theorem rebuildIgnoreN_peerIndex (h : Host Id Path) (env : Env Path) (n : Nat)
    (a : Actor Id Path) : (rebuildIgnoreN h env n a).peerIndex = a.peerIndex := by
  induction n generalizing a with
  | zero => rfl
  | succ n ih => exact releasing_peerIndex h env ih a _

/-! ## Which record is picked -/

/-- The first record of `rel` that a search of the books finds. -/
def advert (a : Actor Id Path) (rel : Path) : Option (Id × FileRecord Id) :=
  a.peerIndex.toList.findSome? fun e => e.2[rel]?.map fun r => (e.1, r)

/-- The books say that `id` advertises this record of `rel`. -/
def Advertises (a : Actor Id Path) (id : Id) (rel : Path) (record : FileRecord Id) : Prop :=
  ∃ files, a.peerIndex[id]? = some files ∧ files[rel]? = some record

/-- No peer with a lower id than `id` advertises `rel`. -/
def FirstFor (a : Actor Id Path) (id : Id) (rel : Path) : Prop :=
  ∀ other record, a.Advertises other rel record → id ≤ other

/-- The record that is reconciled for a released path is the one of the search. -/
theorem releaseHeld_advert (rebuild : Actor Id Path → Actor Id Path) (h : Host Id Path)
    (env : Env Path) (a : Actor Id Path) (rel : Path) :
    a.releaseHeld rebuild h env rel =
      match a.advert rel with
      | some (sender, record) =>
          ({ a with unapplied := a.unapplied.erase rel } : Actor Id Path).reconcileOneWith
            rebuild h env sender rel record
      | none => { a with unapplied := a.unapplied.erase rel } :=
  rfl

/-- The search picks the record of the peer with the lowest id. -/
theorem advert_eq_some_iff {a : Actor Id Path} {rel : Path} {sender : Id}
    {record : FileRecord Id} :
    a.advert rel = some (sender, record) ↔
      a.Advertises sender rel record ∧ a.FirstFor sender rel := by
  unfold advert
  rw [Map.findSome_toList_iff (f := fun files : Map Path (FileRecord Id) => files[rel]?)]
  refine and_congr Iff.rfl ⟨fun hlow => ?_, fun hfirst => ?_⟩
  · rintro other r ⟨files, hfiles, hr⟩
    exact hlow other files hfiles (by rw [hr]; rfl)
  · intro other files hfiles hsome
    obtain ⟨r, hr⟩ := Option.isSome_iff_exists.mp hsome
    exact hfirst other r ⟨files, hfiles, hr⟩

/-- **Releasing a hold pulls the newest version**: whenever `rebuild_ignore` comes to a held
path, the record it reconciles is not older than what any peer advertises for the path. -/
def ReleasesNewest (rebuild : Actor Id Path → Actor Id Path) (h : Host Id Path)
    (env : Env Path) (a : Actor Id Path) : Prop :=
  ∀ done rel todo, (a.reloadRules h).releasable h = done ++ rel :: todo →
    ∀ sender record, (a.releasing rebuild h env done).advert rel = some (sender, record) →
      ∀ other newer, (a.releasing rebuild h env done).Advertises other rel newer →
        VClock.compare record.vv newer.vv ≠ .before

/-- **When the newest version is picked.** For every state, at every depth of the nesting: a
re-reading of the rules reconciles each released path with a record that no peer's is newer
than, exactly when for each path it releases the peer with the lowest id of those that
advertise the path does not lag behind another. -/
theorem releasesNewest_iff (h : Host Id Path) (env : Env Path) (n : Nat) (a : Actor Id Path) :
    a.ReleasesNewest (rebuildIgnoreN h env n) h env ↔
      ∀ rel ∈ (a.reloadRules h).releasable h, ∀ first record,
        a.Advertises first rel record → a.FirstFor first rel →
          ∀ other newer, a.Advertises other rel newer →
            VClock.compare record.vv newer.vv ≠ .before := by
  have hbooks := releasing_peerIndex h env (rebuildIgnoreN_peerIndex h env n) a
  have hadvert : ∀ done rel, (a.releasing (rebuildIgnoreN h env n) h env done).advert rel
      = a.advert rel := fun done rel => by rw [advert, hbooks done, advert]
  have hadvertises : ∀ done id rel record,
      (a.releasing (rebuildIgnoreN h env n) h env done).Advertises id rel record ↔
        a.Advertises id rel record := fun done id rel record => by
    rw [Advertises, hbooks done, Advertises]
  constructor
  · intro hnewest rel hrel first record hfirst hlow other newer hother
    obtain ⟨done, todo, hsplit⟩ := List.append_of_mem hrel
    refine hnewest done rel todo hsplit first record ?_ other newer ?_
    · rw [hadvert]
      exact advert_eq_some_iff.mpr ⟨hfirst, hlow⟩
    · exact (hadvertises done other rel newer).mpr hother
  · intro hcond done rel todo hsplit sender record hpick other newer hother
    rw [hadvert] at hpick
    obtain ⟨hfirst, hlow⟩ := advert_eq_some_iff.mp hpick
    have hrel : rel ∈ (a.reloadRules h).releasable h := by
      rw [hsplit]
      exact List.mem_append_right _ List.mem_cons_self
    exact hcond rel hrel sender record hfirst hlow other newer
      ((hadvertises done other rel newer).mp hother)

/-! ### A peer with a low id that lags behind -/

/-- Path 5 is held as long as there is an ignore file. -/
def holdingHost : Host Nat Nat :=
  { plainHost with
    verdict := fun rules _ rel _ =>
      if rules.isSome && decide (rel = 5) then some "ignored by rule" else none }

/-- A version of path 5, and its successor. -/
def heldRecord : FileRecord Nat := plainRecord 1 ((∅ : VClock Nat).insert 3 1)

def heldSuccessor : FileRecord Nat := plainRecord 2 ((∅ : VClock Nat).insert 3 2)

/-- The ignore file is written; nodes 1 and 2 connect and advertise path 5, and node 2 has the
newer version of it. Then the ignore file is deleted. -/
def holdAndRelax : List (Env Nat × Act Nat Nat) :=
  now [.write 0 [1], .event (.watch 0), .event (.authed 1 0 true), .event (.authed 2 0 true),
    .event (.msg 1 (.index 0 [(5, heldRecord)] [])),
    .event (.msg 2 (.index 0 [(5, heldSuccessor)] [])), .delete 0]

/-- Path 5 is due for release, and the search finds the older one of two records. -/
def picksOlder (a : Actor Nat Nat) : Bool :=
  decide ((a.reloadRules holdingHost).releasable holdingHost = [5]) &&
    decide (a.advert 5 = some (1, heldRecord)) &&
    decide (a.peerIndex[2]?.bind (fun files => files[5]?) = some heldSuccessor)

/-- Both versions are held when the rules are relaxed, and the older one is pulled. -/
theorem releasesNewest_fails : ∃ a : Actor Nat Nat,
    Reaches (step holdingHost) anyStep
      (Actor.boot holdingHost (plainEnv 0) 0 plainState false) a ∧
    ¬ a.ReleasesNewest (rebuildIgnoreN holdingHost (plainEnv 0) 1) holdingHost (plainEnv 0) ∧
    ((a.rebuildIgnore holdingHost (plainEnv 0)).pendingPulls[5]?.map PullJob.record) =
      some heldRecord := by
  have hexec : (execute (step holdingHost) holdAndRelax
      (Actor.boot holdingHost (plainEnv 0) 0 plainState false)).any (fun a => picksOlder a &&
        decide ((a.rebuildIgnore holdingHost (plainEnv 0)).pendingPulls[5]?.map PullJob.record =
          some heldRecord)) = true := by
    decide +kernel
  obtain ⟨a, hrun, htest⟩ := exists_reaches_of_execute anyStep (fun _ _ _ => trivial) hexec
  rw [Bool.and_eq_true] at htest
  obtain ⟨hpicks, hpulled⟩ := htest
  simp only [picksOlder, Bool.and_eq_true, decide_eq_true_eq] at hpicks
  obtain ⟨⟨hdue, hfound⟩, hnewer⟩ := hpicks
  obtain ⟨files, hfiles, hsuccessor⟩ := Option.bind_eq_some_iff.mp hnewer
  refine ⟨a, hrun, fun hnewest => ?_, of_decide_eq_true hpulled⟩
  have hsame := hnewest [] 5 [] hdue 1 heldRecord hfound 2 heldSuccessor
    ⟨files, hfiles, hsuccessor⟩
  exact hsame (by decide +kernel)

end Actor

end Tazamun
