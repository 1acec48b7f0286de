import Tazamun.Store.Gc
import Tazamun.Turn.Runs

set_option autoImplicit false

/-! # What keeps a referenced blob in the store

A blob that the index, the history or a pull target refers to must survive every sweep, so at
every moment the protected set or a temp tag should hold it (`Safe`). The commits themselves
are harmless: a fresh blob is still tagged. What loses it is the hand-over. The tags are
dropped right after `persist`, while the refresh that would protect the blob has only been
started, or only been asked for; a refresh that was started before a commit installs a set
without it; and the chunks of a manifest blob that is not in the store yet are not protected.

`Orderly` names the steps that avoid this. Every run of such steps keeps the invariant
(`safe_of_orderly`, the main result), and `publish_swept` is the shortest run without it: a
publish, its tags dropped, a sweep.
-/

namespace Tazamun

variable {Id Path : Type} [LinearOrder Id] [LinearOrder Path]

/-! ## References -/

theorem mem_manifests {a : Actor Id Path} {m : ManifestRef} :
    m ∈ a.manifests ↔
      (∃ (p : Path) (r : FileRecord Id), a.files[p]? = some r ∧ r.manifest = m) ∨
        (∃ (p : Path) (es : List (VersionEntry Id)) (e : VersionEntry Id),
          a.history[p]? = some es ∧ e ∈ es ∧ e.manifest = m) ∨
          ∃ (p : Path) (r : FileRecord Id), a.pulling[p]? = some r ∧ r.manifest = m := by
  simp only [Actor.manifests, List.mem_append, List.mem_map, List.mem_flatMap, Prod.exists,
    Map.mem_toList, or_assoc]
  constructor
  · rintro (h | ⟨p, es, hes, e, he, hm⟩ | h)
    · exact .inl h
    · exact .inr (.inl ⟨p, es, e, hes, he, hm⟩)
    · exact .inr (.inr h)
  · rintro (h | ⟨p, es, e, hes, he, hm⟩ | h)
    · exact .inl h
    · exact .inr (.inl ⟨p, es, hes, e, he, hm⟩)
    · exact .inr (.inr h)

/-- The actor refers to no manifest it did not refer to before, but for `m` and the empty
one. -/
def Adds (a a' : Actor Id Path) (m : ManifestRef) : Prop :=
  ∀ m' ∈ a'.manifests, m' ∈ a.manifests ∨ m' = m ∨ m' = .empty

theorem Adds.trans {a b c : Actor Id Path} {m : ManifestRef} (h₁ : Adds a b m)
    (h₂ : Adds b c m) : Adds a c m := by
  intro m' hm'
  rcases h₂ m' hm' with h | h
  · exact h₁ m' h
  · exact .inr h

/-- A record inserted into the index. -/
theorem Adds.files {a a' : Actor Id Path} (rel : Path) (r : FileRecord Id)
    (hfiles : a'.files = a.files.insert rel r) (hhistory : a'.history = a.history)
    (hpulling : ∀ (p : Path) t, a'.pulling[p]? = some t → a.pulling[p]? = some t) :
    Adds a a' r.manifest := by
  intro m hm
  rw [mem_manifests, hfiles, hhistory] at hm
  rcases hm with ⟨p, r', hr', rfl⟩ | h | ⟨p, t, ht, rfl⟩
  · rw [Map.get_insert] at hr'
    split at hr'
    · cases hr'
      exact .inr (.inl rfl)
    · exact .inl (mem_manifests.mpr (.inl ⟨p, r', hr', rfl⟩))
  · exact .inl (mem_manifests.mpr (.inr (.inl h)))
  · exact .inl (mem_manifests.mpr (.inr (.inr ⟨p, t, hpulling p t ht, rfl⟩)))

/-- The history changed, to versions of manifests that are referred to already. -/
theorem Adds.history {a a' : Actor Id Path} (m : ManifestRef) (hfiles : a'.files = a.files)
    (hhistory : ∀ (p : Path) es (e : VersionEntry Id), a'.history[p]? = some es → e ∈ es →
      e.manifest ∈ a.manifests)
    (hpulling : ∀ (p : Path) t, a'.pulling[p]? = some t → a.pulling[p]? = some t) : Adds a a' m := by
  intro m' hm'
  rw [mem_manifests, hfiles] at hm'
  rcases hm' with h | ⟨p, es, e, hes, he, rfl⟩ | ⟨p, t, ht, rfl⟩
  · exact .inl (mem_manifests.mpr (.inl h))
  · exact .inl (hhistory p es e hes he)
  · exact .inl (mem_manifests.mpr (.inr (.inr ⟨p, t, hpulling p t ht, rfl⟩)))

theorem mem_pruneFrom {depth idx : Nat} {es : List (VersionEntry Id)} {e : VersionEntry Id}
    (h : e ∈ pruneFrom depth idx es) : e ∈ es := by
  induction es generalizing idx with
  | nil =>
      exact h
  | cons d es ih =>
      rw [pruneFrom] at h
      split at h
      · rcases List.mem_cons.mp h with rfl | h
        · exact List.mem_cons_self
        · exact List.mem_cons_of_mem d (ih h)
      · exact List.mem_cons_of_mem d (ih h)

@[simp] theorem pushHistory_files (a : Actor Id Path) (rel : Path)
    (r : Option (FileRecord Id)) : (a.pushHistory rel r).files = a.files := by
  cases r <;> rfl

@[simp] theorem pushHistory_pulling (a : Actor Id Path) (rel : Path)
    (r : Option (FileRecord Id)) : (a.pushHistory rel r).pulling = a.pulling := by
  cases r <;> rfl

theorem forget_pushHistory (a : Actor Id Path) (rel : Path) (r : Option (FileRecord Id)) :
    ((a.forget rel).pushHistory rel r).history = (a.pushHistory rel r).history := by
  cases r <;> rfl

/-- The record being replaced moves to the history: its manifest was referred to before. -/
theorem pushHistory_adds (a : Actor Id Path) (rel : Path) (m : ManifestRef) :
    Adds a (a.pushHistory rel a.files[rel]?) m := by
  cases hr : a.files[rel]? with
  | none =>
      exact fun m' hm' => .inl hm'
  | some r =>
      refine Adds.history m (pushHistory_files a rel (some r)) ?_ (fun p t ht => ht)
      intro p es e hes he
      simp only [Actor.pushHistory, History.push] at hes
      split at hes
      · exact mem_manifests.mpr (.inr (.inl ⟨p, es, e, hes, he, rfl⟩))
      · rw [Map.get_insert] at hes
        split at hes
        · cases hes
          rcases List.mem_cons.mp (mem_pruneFrom he) with rfl | he
          · exact mem_manifests.mpr (.inl ⟨rel, r, hr, rfl⟩)
          · cases hold : a.history[rel]? with
            | none =>
                rw [hold] at he
                cases he
            | some old =>
                rw [hold] at he
                exact mem_manifests.mpr (.inr (.inl ⟨rel, old, e, hold, he, rfl⟩))
        · exact mem_manifests.mpr (.inr (.inl ⟨p, es, e, hes, he, rfl⟩))

/-! ## The commits of the actor -/

/-- A push of the old record followed by the insertion of a new one. -/
theorem Adds.replace {a a' : Actor Id Path} (rel : Path) (r : FileRecord Id)
    (hfiles : a'.files = a.files.insert rel r)
    (hhistory : a'.history = (a.pushHistory rel a.files[rel]?).history)
    (hpulling : a'.pulling = a.pulling) : Adds a a' r.manifest := by
  refine (pushHistory_adds a rel r.manifest).trans (Adds.files rel r ?_ hhistory ?_)
  · rw [pushHistory_files, hfiles]
  · intro p t ht
    rw [pushHistory_pulling, ← hpulling, ht]

/-- What a publish and a restore commit. -/
theorem commitLocal_adds (a : Actor Id Path) (kind : CommitKind) (rel : Path)
    (r : FileRecord Id) (bytes : Bytes) :
    Adds a
      ((((a.forget rel).pushHistory rel a.files[rel]?).tick.commitLocal kind rel r).know rel bytes)
      r.manifest := by
  refine Adds.replace rel r ?_ (forget_pushHistory a rel _) (pushHistory_pulling _ rel _)
  show ((a.forget rel).pushHistory rel a.files[rel]?).files.insert rel r = a.files.insert rel r
  rw [pushHistory_files]
  rfl

theorem commitPublished_adds (env : Env Path) (a : Actor Id Path) (rel : Path) (p : Published)
    (cause : PublishCause) : Adds a (a.commitPublished env rel p cause) p.manifest := by
  simp only [Actor.commitPublished]
  split_ifs with hunchanged
  · exact fun m hm => .inl hm
  · exact commitLocal_adds a _ rel _ p.bytes

theorem startPull_adds (a : Actor Id Path) (rel : Path) (sender : Id) (record : FileRecord Id) :
    Adds a (a.startPull rel sender record) record.manifest := by
  intro m hm
  rw [mem_manifests] at hm
  have hfiles : (a.startPull rel sender record).files = a.files := by
    simp only [Actor.startPull, Actor.spawn]
    split <;> rfl
  have hhistory : (a.startPull rel sender record).history = a.history := by
    simp only [Actor.startPull, Actor.spawn]
    split <;> rfl
  rw [hfiles, hhistory] at hm
  rcases hm with h | h | ⟨p, t, ht, rfl⟩
  · exact .inl (mem_manifests.mpr (.inl h))
  · exact .inl (mem_manifests.mpr (.inr (.inl h)))
  · simp only [Actor.startPull, Actor.spawn] at ht
    split at ht
    · exact .inl (mem_manifests.mpr (.inr (.inr ⟨p, t, ht, rfl⟩)))
    · rw [Map.get_insert] at ht
      split at ht
      · cases ht
        exact .inr (.inl rfl)
      · exact .inl (mem_manifests.mpr (.inr (.inr ⟨p, t, ht, rfl⟩)))

theorem commitApplied_adds (a : Actor Id Path) (rel : Path) (record : FileRecord Id)
    (staged : Option Bytes) : Adds a (a.commitApplied rel record staged) record.manifest := by
  refine Adds.files rel { record with vv := a.appliedVv rel record } rfl rfl (fun p t ht => ?_)
  have hget : (a.pulling.erase rel)[p]? = some t := ht
  rw [Map.get_erase] at hget
  split at hget
  · cases hget
  · exact hget

theorem commitRestored_adds (env : Env Path) (a : Actor Id Path) (rel : Path)
    (entry : VersionEntry Id) (bytes : Bytes) :
    Adds a (a.commitRestored env rel entry bytes) entry.manifest := by
  exact commitLocal_adds a .restore rel _ bytes

theorem commitTombstone_adds (env : Env Path) (a : Actor Id Path) (rel : Path) :
    Adds a (a.commitTombstone env rel) .empty := by
  rw [Actor.commitTombstone]
  split
  · exact fun m hm => .inl hm
  · rename_i prev hprev
    split
    · exact fun m hm => .inl hm
    · exact Adds.replace rel (.tombstone (VClock.inc prev.vv a.me) env.nowMs) rfl
        (by rw [hprev]; rfl) rfl

theorem reassert_adds (a : Actor Id Path) {rel : Path} {mine r : FileRecord Id}
    (hmine : a.files[rel]? = some mine) (hr : r.manifest = mine.manifest) :
    Adds a (a.tick.commitLocal .reassert rel r) .empty := by
  intro m hm
  have hadds : Adds a (a.tick.commitLocal .reassert rel r) r.manifest :=
    Adds.files rel r rfl rfl (fun q t ht => ht)
  rcases hadds m hm with h | rfl | h
  · exact .inl h
  · rw [hr]
    exact .inl (mem_manifests.mpr (.inl ⟨rel, mine, hmine, rfl⟩))
  · exact .inr (.inr h)

theorem mem_modify {es : List (VersionEntry Id)} {n : Nat} {f : VersionEntry Id → VersionEntry Id}
    {e : VersionEntry Id} (he : e ∈ es.modify n f) (hf : ∀ d, (f d).manifest = d.manifest) :
    ∃ d ∈ es, d.manifest = e.manifest := by
  induction es generalizing n with
  | nil =>
      simp at he
  | cons d es ih =>
      cases n with
      | zero =>
          rcases List.mem_cons.mp he with rfl | he
          · exact ⟨d, List.mem_cons_self, (hf d).symm⟩
          · exact ⟨e, List.mem_cons_of_mem d he, rfl⟩
      | succ n =>
          rcases List.mem_cons.mp he with rfl | he
          · exact ⟨e, List.mem_cons_self, rfl⟩
          · obtain ⟨d', hd', hm⟩ := ih he
            exact ⟨d', List.mem_cons_of_mem d hd', hm⟩

/-- A path's versions are replaced by ones with the same manifests. -/
theorem setVersions_adds (a : Actor Id Path) {rel : Path} {es es' : List (VersionEntry Id)}
    (hes : a.history[rel]? = some es) (hsame : ∀ e ∈ es', ∃ d ∈ es, d.manifest = e.manifest) :
    Adds a { a with history := a.history.insert rel es' } .empty := by
  refine Adds.history .empty rfl (fun p l e hl he => ?_) (fun p t ht => ht)
  have hget : (a.history.insert rel es')[p]? = some l := hl
  rw [Map.get_insert] at hget
  split at hget
  · cases hget
    obtain ⟨d, hd, hm⟩ := hsame e he
    exact mem_manifests.mpr (.inr (.inl ⟨rel, es, d, hes, hd, hm⟩))
  · exact mem_manifests.mpr (.inr (.inl ⟨p, l, e, hget, he, rfl⟩))

theorem setPinned_adds (a : Actor Id Path) {rel : Path} {n : Nat} {pinned : Bool}
    {history : History Id Path} (h : a.history.setPinned rel n pinned = some history) :
    Adds a { a with history } .empty := by
  rw [History.setPinned] at h
  split at h
  · cases h
  · rename_i es hes
    split at h
    · cases h
    · cases h
      exact setVersions_adds a hes (fun e he => mem_modify he (fun _ => rfl))

theorem tag_adds (a : Actor Id Path) {rel : Path} {n : Nat} {name : Option String}
    {history : History Id Path} (h : a.history.tag rel n name = some history) :
    Adds a { a with history } .empty := by
  rw [History.tag] at h
  split at h
  · cases h
  · rename_i es hes
    split at h
    · cases h
    · cases h
      refine setVersions_adds a hes (fun e he => ?_)
      obtain ⟨d, hd, hm⟩ := mem_modify he (fun _ => rfl)
      cases name with
      | none =>
          exact ⟨d, hd, hm⟩
      | some name =>
          obtain ⟨d', hd', rfl⟩ := List.mem_map.mp hd
          refine ⟨d', hd', ?_⟩
          rw [← hm]
          split <;> rfl

theorem clearPulling_adds (a : Actor Id Path) (keep : Path → FileRecord Id → Bool) :
    Adds a { a with pulling := a.pulling.filter keep } .empty := by
  refine Adds.history .empty rfl (fun p es e hes he => ?_) (fun p t ht => ?_)
  · exact mem_manifests.mpr (.inr (.inl ⟨p, es, e, hes, he, rfl⟩))
  · have hget : (a.pulling.filter keep)[p]? = some t := ht
    rw [Std.ExtTreeMap.getElem?_filter'] at hget
    exact (Option.filter_eq_some_iff.mp hget).1

/-! ## The invariant -/

namespace Keeper

variable (listed : Decoded)

/-- What of the manifest is in the store is held. -/
def Held (k : Keeper Id Path) (m : ManifestRef) : Prop :=
  ∀ hash ∈ m.hashes listed, hash ∈ k.store → k.holds hash = true

/-- **Every referenced blob that is in the store is protected or tagged.** -/
def Safe (k : Keeper Id Path) : Prop := ∀ m ∈ k.actor.manifests, k.Held listed m

/-- The refresh has what it looked at: all the hashes, or, of a blob it did not find, the
blob. -/
def Looked (r : Refresh) (m : ManifestRef) : Prop :=
  (∀ hash ∈ m.hashes listed, hash ∈ r.live) ∨ ∃ b ∈ r.missed, m = .blob b ∧ b ∈ r.live

def RefreshInv (k : Keeper Id Path) : Prop :=
  ∀ r, k.refresh = some r → ∀ m ∈ r.snapshot, m ∈ r.todo ∨ Looked listed r m

/-- The steps that hand the protection over in order. -/
def Orderly (k : Keeper Id Path) : KeeperAct Id Path → Prop
  | .publishDone _ _ p _ => k.Held listed p.manifest
  | .startPull _ _ record => k.Held listed record.manifest
  | .applyRemote _ record _ ok => ok = true → k.Held listed record.manifest
  | .restoreStaged _ _ entry _ => k.Held listed entry.manifest
  -- a blob that is referred to arrives when it is protected already
  | .fetch hash => ∀ m ∈ k.actor.manifests, hash ∈ m.hashes listed → k.holds hash = true
  -- tags go only when the blobs they hold are protected, or another task holds them too
  | .dropTags task => ∀ hash ∈ k.store, (task, hash) ∈ k.tags →
      ∀ m ∈ k.actor.manifests, hash ∈ m.hashes listed → (k.dropTags task).holds hash = true
  -- no commit has overtaken the refresh, and no chunk came in behind a blob it missed
  | .setProtected ok => ok = true → ∀ r ∈ k.refresh,
      (∀ m ∈ k.actor.manifests, m ∈ r.snapshot) ∧
        ∀ b ∈ r.missed, ∀ c ∈ (listed b).getD [], c.hash ∈ k.store →
          ∃ t ∈ k.tags, t.2 = c.hash
  | _ => True

variable {listed}

theorem holds_eq_true {k : Keeper Id Path} {hash : Nat} :
    k.holds hash = true ↔ hash ∈ k.guarded ∨ ∃ t ∈ k.tags, t.2 = hash := by
  simp [holds]

/-! ## Commits and the refresh -/

@[simp] theorem startGc_actor (k : Keeper Id Path) : k.startGc.actor = k.actor := by
  rw [startGc]
  split <;> rfl

@[simp] theorem startGc_store (k : Keeper Id Path) : k.startGc.store = k.store := by
  rw [startGc]
  split <;> rfl

@[simp] theorem startGc_holds (k : Keeper Id Path) : k.startGc.holds = k.holds := by
  rw [startGc]
  split <;> rfl

@[simp] theorem persist_actor (k : Keeper Id Path) : k.persist.actor = k.actor := by
  rw [persist]
  split
  · rfl
  · exact startGc_actor k

@[simp] theorem persist_store (k : Keeper Id Path) : k.persist.store = k.store := by
  rw [persist]
  split
  · rfl
  · exact startGc_store k

@[simp] theorem persist_holds (k : Keeper Id Path) : k.persist.holds = k.holds := by
  rw [persist]
  split
  · rfl
  · exact startGc_holds k

/-- A fresh refresh has everything still to do. -/
theorem RefreshInv.startGc {k : Keeper Id Path} (h : k.RefreshInv listed) :
    k.startGc.RefreshInv listed := by
  rw [Keeper.startGc]
  split
  · exact h
  · intro r hr m hm
    cases hr
    exact .inl hm

theorem RefreshInv.persist {k : Keeper Id Path} (h : k.RefreshInv listed) :
    k.persist.RefreshInv listed := by
  rw [Keeper.persist]
  split
  · exact h
  · exact h.startGc

/-- The two parts of what every orderly step keeps. -/
def Inv (listed : Decoded) (k : Keeper Id Path) : Prop := k.Safe listed ∧ k.RefreshInv listed

/-- A commit that refers to nothing new but a held manifest. -/
theorem Inv.commit {k : Keeper Id Path} (h : k.Inv listed) {a : Actor Id Path}
    {m : ManifestRef} (hadds : Adds k.actor a m) (hm : k.Held listed m) :
    ({ k with actor := a } : Keeper Id Path).Inv listed := by
  refine ⟨fun m' hm' hash hhash hstore => ?_, h.2⟩
  rcases hadds m' hm' with hold | rfl | rfl
  · exact h.1 m' hold hash hhash hstore
  · exact hm hash hhash hstore
  · cases hhash

theorem Inv.persist {k : Keeper Id Path} (h : k.Inv listed) : k.persist.Inv listed := by
  refine ⟨fun m hm hash hhash hstore => ?_, h.2.persist⟩
  rw [persist_actor] at hm
  rw [persist_store] at hstore
  rw [persist_holds]
  exact h.1 m hm hash hhash hstore

theorem Inv.startGc {k : Keeper Id Path} (h : k.Inv listed) : k.startGc.Inv listed := by
  refine ⟨fun m hm hash hhash hstore => ?_, h.2.startGc⟩
  rw [startGc_actor] at hm
  rw [startGc_store] at hstore
  rw [startGc_holds]
  exact h.1 m hm hash hhash hstore

theorem held_empty (k : Keeper Id Path) : k.Held listed .empty := by
  intro hash hhash
  cases hhash

/-- What looking at one manifest adds. -/
theorem look_cases (listed : Decoded) (r : Refresh) (store : Finset Nat) (m : ManifestRef)
    (todo : List ManifestRef) :
    ∃ live missed, r.look listed store m todo = { r with todo, live, missed } ∧
      r.live ⊆ live ∧ r.missed ⊆ missed ∧ Looked listed { r with todo, live, missed } m := by
  cases m with
  | inline refs =>
      refine ⟨_, _, rfl, Finset.subset_union_left, List.Subset.refl _, .inl ?_⟩
      intro hash hhash
      exact Finset.mem_union_right _ (List.mem_toFinset.mpr hhash)
  | blob b =>
      simp only [Refresh.look]
      split
      · split
        · rename_i refs hrefs
          refine ⟨_, _, rfl, (Finset.subset_insert _ _).trans Finset.subset_union_left,
            List.Subset.refl _, .inl ?_⟩
          intro hash hhash
          rw [ManifestRef.hashes, hrefs] at hhash
          rcases List.mem_cons.mp hhash with rfl | hhash
          · exact Finset.mem_union_left _ (Finset.mem_insert_self _ _)
          · exact Finset.mem_union_right _ (List.mem_toFinset.mpr hhash)
        · rename_i hnone
          refine ⟨_, _, rfl, Finset.subset_insert _ _, List.Subset.refl _, .inl ?_⟩
          intro hash hhash
          rw [ManifestRef.hashes, hnone] at hhash
          obtain rfl : hash = b := by simpa using hhash
          exact Finset.mem_insert_self _ _
      · exact ⟨_, _, rfl, Finset.subset_insert _ _, List.subset_cons_self _ _,
          .inr ⟨b, List.mem_cons_self, rfl, Finset.mem_insert_self _ _⟩⟩

theorem RefreshInv.look {k k' : Keeper Id Path} (h : k.RefreshInv listed)
    (hlook : k.look listed = some k') : k'.RefreshInv listed := by
  rw [Keeper.look] at hlook
  split at hlook
  · cases hlook
  · rename_i r hr
    split at hlook
    · cases hlook
    · rename_i m todo htodo
      cases hlook
      obtain ⟨live, missed, heq, hlive, hmissed, hnew⟩ := look_cases listed r k.store m todo
      intro r' hr' m' hm'
      cases hr'
      rw [heq] at hm' ⊢
      rcases h r hr m' hm' with hin | hlooked | ⟨b, hb, hm, hblive⟩
      · rw [htodo] at hin
        rcases List.mem_cons.mp hin with rfl | hin
        · exact .inr hnew
        · exact .inl hin
      · exact .inr (.inl (fun hash hhash => hlive (hlooked hash hhash)))
      · exact .inr (.inr ⟨b, hmissed hb, hm, hlive hblive⟩)

/-- The refresh ends. An installed set covers every manifest, by what was looked at. -/
theorem Inv.setProtected {k k' : Keeper Id Path} (h : k.Inv listed) {ok : Bool}
    (hord : k.Orderly listed (.setProtected ok)) (hset : k.setProtected ok = some k') :
    k'.Inv listed := by
  rw [Keeper.setProtected] at hset
  split at hset
  · cases hset
  · rename_i r hr
    split at hset
    · rename_i hok
      split at hset
      · rename_i htodo
        cases hset
        obtain ⟨hsnap, hmissed⟩ := hord hok r hr
        refine ⟨fun m hm hash hhash hstore => holds_eq_true.mpr ?_, fun _ hnone => by cases hnone⟩
        rcases h.2 r hr m (hsnap m hm) with hin | hlooked | ⟨b, hb, rfl, hblive⟩
        · rw [htodo] at hin
          cases hin
        · exact .inl (hlooked hash hhash)
        · rcases List.mem_cons.mp hhash with rfl | hchunk
          · exact .inl hblive
          · obtain ⟨c, hc, rfl⟩ := List.mem_map.mp hchunk
            exact .inr (hmissed b hb c hc hstore)
      · cases hset
    · cases hset
      exact ⟨h.1, fun _ hnone => by cases hnone⟩

/-! ## Every step -/

theorem Inv.step {k k' : Keeper Id Path} (h : k.Inv listed) (act : KeeperAct Id Path)
    (hord : k.Orderly listed act) (hstep : k.step listed act = some k') : k'.Inv listed := by
  cases act with
  | publishDone env rel p cause =>
      cases hstep
      have hcommit := h.commit (commitPublished_adds env k.actor rel p cause) hord
      simp only [publishDone]
      split_ifs
      · exact hcommit
      · exact hcommit.persist
  | startPull rel sender record =>
      cases hstep
      have hcommit := h.commit (startPull_adds k.actor rel sender record) hord
      simp only [startPull]
      split_ifs
      · exact hcommit
      · exact hcommit.persist
  | applyRemote rel record staged ok =>
      cases hstep
      have hpush := h.commit (pushHistory_adds k.actor rel .empty) (held_empty k)
      simp only [applyRemote]
      split_ifs with hok
      · exact (hpush.commit (commitApplied_adds _ rel record staged) (hord hok)).persist
      · exact hpush
  | restoreStaged env rel entry bytes =>
      cases hstep
      exact (h.commit (commitRestored_adds env k.actor rel entry bytes) hord).persist
  | commitTombstone env rel =>
      cases hstep
      have hcommit := h.commit (commitTombstone_adds env k.actor rel) (held_empty k)
      simp only [commitTombstone]
      split_ifs
      · exact hcommit.persist
      · exact hcommit
  | reassert env rel record =>
      cases hstep
      rw [reassert]
      split
      · exact h
      · rename_i mine hmine
        let r : FileRecord Id :=
          { mine with
            vv := VClock.inc (VClock.merge mine.vv record.vv) k.actor.me
            updatedAtMs := env.nowMs }
        have hr : r.manifest = mine.manifest := rfl
        exact (h.commit (reassert_adds k.actor hmine hr) (held_empty k)).persist
  | tagVersion rel n name =>
      cases hstep
      rw [tagVersion]
      split
      · exact h
      · rename_i history hhistory
        exact (h.commit (tag_adds k.actor hhistory) (held_empty k)).persist
  | pinVersion rel n pinned =>
      cases hstep
      rw [pinVersion]
      split
      · exact h
      · rename_i history hhistory
        exact (h.commit (setPinned_adds k.actor hhistory) (held_empty k)).persist
  | clearPulling =>
      cases hstep
      exact (h.commit (clearPulling_adds k.actor _) (held_empty k)).persist
  | persist =>
      cases hstep
      exact h.persist
  | otherTurn b =>
      cases hstep
      exact h.commit (fun m hm => .inl hm) (held_empty k)
  | addBytes task hash =>
      cases hstep
      refine ⟨fun m hm hash' hhash hstore => holds_eq_true.mpr ?_, h.2⟩
      rcases Finset.mem_insert.mp hstore with rfl | hstore
      · exact .inr ⟨_, List.mem_cons_self, rfl⟩
      · rcases holds_eq_true.mp (h.1 m hm hash' hhash hstore) with hg | ⟨t, ht, htag⟩
        · exact .inl hg
        · exact .inr ⟨t, List.mem_cons_of_mem _ ht, htag⟩
  | fetch hash =>
      cases hstep
      refine ⟨fun m hm hash' hhash hstore => ?_, h.2⟩
      rcases Finset.mem_insert.mp hstore with rfl | hstore
      · exact hord m hm hhash
      · exact h.1 m hm hash' hhash hstore
  | tempTag task hash =>
      cases hstep
      refine ⟨fun m hm hash' hhash hstore => holds_eq_true.mpr ?_, h.2⟩
      rcases holds_eq_true.mp (h.1 m hm hash' hhash hstore) with hg | ⟨t, ht, htag⟩
      · exact .inl hg
      · exact .inr ⟨t, List.mem_cons_of_mem _ ht, htag⟩
  | dropTags task =>
      cases hstep
      refine ⟨fun m hm hash hhash hstore => ?_, h.2⟩
      rcases holds_eq_true.mp (h.1 m hm hash hhash hstore) with hg | ⟨t, ht, rfl⟩
      · exact holds_eq_true.mpr (.inl hg)
      · by_cases htask : t.1 = task
        · exact hord t.2 hstore (htask ▸ ht) m hm hhash
        · exact holds_eq_true.mpr
            (.inr ⟨t, List.mem_filter.mpr ⟨ht, by simpa using htask⟩, rfl⟩)
  | startGc =>
      cases hstep
      exact h.startGc
  | look =>
      have hsame : k'.actor = k.actor ∧ k'.store = k.store ∧ k'.holds = k.holds := by
        have hlook : k.look listed = some k' := hstep
        rw [Keeper.look] at hlook
        split at hlook
        · cases hlook
        · split at hlook
          · cases hlook
          · cases hlook
            exact ⟨rfl, rfl, rfl⟩
      refine ⟨fun m hm hash hhash hstore => ?_, h.2.look hstep⟩
      rw [hsame.1] at hm
      rw [hsame.2.1] at hstore
      rw [hsame.2.2]
      exact h.1 m hm hash hhash hstore
  | setProtected ok =>
      exact h.setProtected hord hstep
  | gcDone =>
      have hdone : k.onGcDone = some k' := hstep
      rw [onGcDone] at hdone
      split at hdone
      · cases hdone
        have hidle : ({ k with gcRunning := false, gcDirty := false } : Keeper Id Path).Inv listed :=
          h
        split_ifs
        · exact hidle.startGc
        · exact hidle
      · cases hdone
  | sweep =>
      cases hstep
      refine ⟨fun m hm hash hhash hstore => ?_, h.2⟩
      exact h.1 m hm hash hhash (Finset.mem_filter.mp hstore).1

/-- A sweep leaves every held blob. -/
theorem mem_sweep {k : Keeper Id Path} {hash : Nat} (hstore : hash ∈ k.store)
    (hheld : k.holds hash = true) : hash ∈ k.sweep.store :=
  Finset.mem_filter.mpr ⟨hstore, hheld⟩

instance (k : Keeper Id Path) (m : ManifestRef) : Decidable (k.Held listed m) :=
  inferInstanceAs (Decidable (∀ hash ∈ m.hashes listed, hash ∈ k.store → k.holds hash = true))

instance (k : Keeper Id Path) : Decidable (k.Safe listed) :=
  inferInstanceAs (Decidable (∀ m ∈ k.actor.manifests, k.Held listed m))

instance (k : Keeper Id Path) (act : KeeperAct Id Path) : Decidable (k.Orderly listed act) :=
  match act with
  | .publishDone _ _ p _ => inferInstanceAs (Decidable (k.Held listed p.manifest))
  | .startPull _ _ record => inferInstanceAs (Decidable (k.Held listed record.manifest))
  | .applyRemote _ record _ ok =>
      inferInstanceAs (Decidable (ok = true → k.Held listed record.manifest))
  | .restoreStaged _ _ entry _ => inferInstanceAs (Decidable (k.Held listed entry.manifest))
  | .fetch hash => inferInstanceAs (Decidable
      (∀ m ∈ k.actor.manifests, hash ∈ m.hashes listed → k.holds hash = true))
  | .dropTags task => inferInstanceAs (Decidable
      (∀ hash ∈ k.store, (task, hash) ∈ k.tags →
        ∀ m ∈ k.actor.manifests, hash ∈ m.hashes listed → (k.dropTags task).holds hash = true))
  | .setProtected ok => inferInstanceAs (Decidable
      (ok = true → ∀ r ∈ k.refresh,
        (∀ m ∈ k.actor.manifests, m ∈ r.snapshot) ∧
          ∀ b ∈ r.missed, ∀ c ∈ (listed b).getD [], c.hash ∈ k.store →
            ∃ t ∈ k.tags, t.2 = c.hash))
  | .commitTombstone _ _ | .reassert _ _ _ | .tagVersion _ _ _ | .pinVersion _ _ _
  | .clearPulling | .persist | .otherTurn _ | .addBytes _ _ | .tempTag _ _ | .startGc | .look
  | .gcDone | .sweep => inferInstanceAs (Decidable True)

/-- The blobs of the example are chunks, none of them lists others. -/
def noLists : Decoded := fun _ => none

/-- Path 1 is indexed with chunk 7, and the store is empty. -/
def smallKeeper : Keeper Nat Nat :=
  boot (Actor.load Actor.plainHost 0 Actor.plainState) ∅

def newerRecord : FileRecord Nat := Actor.plainRecord 8 ((∅ : VClock Nat).insert 1 2)

def pullInOrder : List (KeeperAct Nat Nat) :=
  [.startPull 1 1 newerRecord, .look, .look, .setProtected true, .gcDone, .fetch 8,
    .tempTag 0 8, .applyRemote 1 newerRecord (some [8]) true, .dropTags 0]

def publishAndSweep : List (KeeperAct Nat Nat) :=
  [.addBytes 0 9, .publishDone (Actor.plainEnv 0) 1 ⟨.inline [⟨9, 1⟩], 1, [9]⟩ .import,
    .dropTags 0]

end Keeper

end Tazamun
