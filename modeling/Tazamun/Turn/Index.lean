import Tazamun.Turn.Requests

set_option autoImplicit false

/-! # Connections and indexes are made of small changes

The books on the peers change here and nowhere else: a connection is taken, lost or dropped,
a role is noted, an index arrives as a whole or in parts. The records of an index are in the
hand until they are staged, or reconciled one by one.

A peer that broke the protocol is dropped with what is on record of it. That is tidy only if
there is nothing on record (`Unrecorded`).
-/

namespace Tazamun

variable {Id Path : Type} [LinearOrder Id] [LinearOrder Path]
variable {c : Ctx Id Path} {hand : List (Advert Id Path)}

namespace Actor

/-! ## Connections -/

/-- Neither a role of the peer nor its index is on record, and no request waits for it. -/
def Unrecorded (a : Actor Id Path) (id : Id) : Prop :=
  a.peerRoles.contains id = false ∧ a.indexReceived.contains id = false ∧
    ∀ rel, ¬ a.locks.WaitsFor rel id

/-- The books are in order without a peer that has nothing on record. -/
theorem Booked.unpeer {a : Actor Id Path} {id : Id}
    {indexStaging : Map Id (Nat × Map Path (FileRecord Id))} (hb : a.Booked)
    (hun : a.Unrecorded id) (hid : indexStaging.contains id = false)
    (hstaged : ∀ q, indexStaging.contains q = true → a.indexStaging.contains q = true) :
    ({ a with indexStaging, peers := a.peers.erase id } : Actor Id Path).Booked := by
  have hkeep : ∀ q, q ≠ id → a.peers.contains q = true →
      (a.peers.erase id).contains q = true := by
    intro q hq hin
    rw [Map.contains_eq, Map.get_erase_ne _ (Ne.symm hq), ← Map.contains_eq]
    exact hin
  obtain ⟨hrole, hreceived, hvotes⟩ := hun
  refine ⟨fun q hq => ?_, fun q hq => ?_, fun q hq => ?_, fun rel v hv => ?_⟩
  · refine hkeep q ?_ (hb.roles q hq)
    rintro rfl
    exact absurd (hrole.symm.trans hq) (by simp)
  · refine hkeep q ?_ (hb.received q hq)
    rintro rfl
    exact absurd (hreceived.symm.trans hq) (by simp)
  · refine hkeep q ?_ (hb.staging q (hstaged q hq))
    rintro rfl
    exact absurd (hid.symm.trans hq) (by simp)
  · refine hkeep v ?_ (hb.voters rel v hv)
    rintro rfl
    exact hvotes rel hv

/-- A connection is lost, and with it what was received on it. -/
theorem unpeer_steps (a : Actor Id Path) (id : Id)
    {peerIndex : Map Id (Map Path (FileRecord Id))}
    {indexStaging : Map Id (Nat × Map Path (FileRecord Id))}
    (hindex : ∀ q : Id, ∀ map, peerIndex[q]? = some map → a.peerIndex[q]? = some map)
    (hstaged : ∀ q : Id, ∀ stage, indexStaging[q]? = some stage → a.indexStaging[q]? = some stage)
    (hkeep : ∀ q : Id, q ≠ id → indexStaging[q]? = a.indexStaging[q]?)
    (hb : MayBook c a { a with indexStaging, peers := a.peers.erase id }) :
    Steps c (hand, a)
      (hand, { a with peers := a.peers.erase id, peerIndex, indexStaging }) := by
  refine .single (.shift a.pendingPulls a.pullBacklog a.deferred a.tasks peerIndex indexStaging
    a.skipped (a.peers.erase id) ⟨?_, fun _ h => h, ?_, ?_, fun _ _ _ h => h,
      fun _ _ _ h _ => .inl h, fun h => h⟩ hb)
  · intro q hq
    rw [Std.ExtTreeMap.contains_erase] at hq
    exact (Bool.and_eq_true_iff.mp hq).2
  · rintro x ((hx | hx | ⟨stage, hstage, hx⟩) | ⟨map, hmap, hx⟩ | hx)
    · exact .inl (.inl hx)
    · exact .inl (.inr (.inl hx))
    · exact .inl (.inr (.inr ⟨stage, hstaged _ _ hstage, hx⟩))
    · exact .inr (.inl ⟨map, hindex _ _ hmap, hx⟩)
    · exact .inr (.inr hx)
  · rintro x (hx | hx | ⟨stage, hstage, hx⟩)
    · exact .of_owed (.inl hx)
    · exact .of_owed (.inr (.inl hx))
    · by_cases hid : x.2.1 = id
      · refine .of_excused (.inr (.inr ?_))
        rw [hid]
        simp
      · exact .of_owed (.inr (.inr ⟨stage, by rw [hkeep _ hid]; exact hstage, hx⟩))

theorem dropPeer_steps {a : Actor Id Path} {id : Id} (hp : c.peering)
    (htidy : c.tidy → a.Unrecorded id ∧ a.indexStaging.contains id = false) :
    Steps c (hand, a) (hand, a.dropPeer id) :=
  unpeer_steps a id (fun _ _ h => h) (fun _ _ h => h) (fun _ _ => rfl)
    (.of_peering hp fun ht hb => hb.unpeer (htidy ht).1 (htidy ht).2 fun _ h => h)

theorem get_of_erase {ν : Type} {m : Map Id ν} {k q : Id} {v : ν}
    (h : (m.erase k)[q]? = some v) : m[q]? = some v := by
  rw [Map.get_erase] at h
  split at h
  · cases h
  · exact h

theorem abortRound_steps (a : Actor Id Path) (rel : Path) :
    Steps c (hand, a) (hand, a.abortRound rel) := by
  unfold abortRound
  dsimp only
  refine (@broadcast_steps _ _ _ _ _ _ a (.lock (.lockRelease rel)) rfl).trans ?_
  split
  · exact .refl
  · exact (unpend_steps _ rel).trans (replyTo_steps _ _ _)

theorem contains_of_erase {ν : Type} {m : Map Id ν} {k q : Id}
    (h : (m.erase k).contains q = true) : m.contains q = true := by
  rw [Std.ExtTreeMap.contains_erase] at h
  exact (Bool.and_eq_true_iff.mp h).2

theorem onPeerGone_steps (hp : c.peering) (a : Actor Id Path) (id : Id) (connId : Nat) :
    Steps c (hand, a) (hand, a.onPeerGone id connId) := by
  unfold onPeerGone
  split
  · exact .refl
  · dsimp only
    refine .trans ?_ (foldl_steps (fun a rel => abortRound_steps a rel) _ _)
    -- the requests are aborted and the books cleared before the peer goes, so that the books
    -- are in order all the time
    have hlocks : Steps c (hand, a) (hand, { a with locks := (a.locks.onPeerDown id).1 }) :=
      calm_steps a (LockTable.calm_onPeerDown a.locks id)
        fun _ => LockTable.keepsHeld_onPeerDown a.locks id
    refine hlocks.trans ?_
    refine .trans (.single (.book (a.peerRoles.erase id) (a.indexReceived.erase id)
      (.of_peering hp fun _ hb => ?_))) ?_
    · exact ⟨fun q hq => hb.roles q (contains_of_erase hq),
        fun q hq => hb.received q (contains_of_erase hq), hb.staging, hb.voters⟩
    · refine unpeer_steps _ id (fun _ _ => get_of_erase) (fun _ _ => get_of_erase)
        (fun q hq => Map.get_erase_ne _ (Ne.symm hq)) (.of_peering hp fun _ hb => ?_)
      refine hb.unpeer ⟨?_, ?_, ?_⟩ ?_ fun q hq => contains_of_erase hq
      · simp
      · simp
      · exact LockTable.not_waitsFor_onPeerDown a.locks id
      · simp

theorem onAuthed_steps (hp : c.peering) (hj : c.joining) (a : Actor Id Path) (id : Id) (connId : Nat)
    (initiatedByMe : Bool) :
    Steps c (hand, a) (hand, a.onAuthed c.host c.env id connId initiatedByMe) := by
  unfold onAuthed
  split
  · exact .refl
  · rename_i hid
    split
    · exact .refl
    · dsimp only
      split
      · exact .single (.join id _ hid hp hj)
      · exact iteInduction (motive := fun b => Steps c (hand, a) (hand, b))
          (fun _ => .single (.join id _ hid hp hj)) fun _ => .refl

/-- A key of a map with one more entry is that entry's, or was there before. -/
theorem eq_or_contains_of_insert {ν : Type} {m : Map Id ν} {k q : Id} {v : ν}
    (h : (m.insert k v).contains q = true) : q = k ∨ m.contains q = true := by
  rw [Map.contains_eq, Map.get_insert] at h
  split at h
  · rename_i hk
    exact .inl hk.symm
  · rw [← Map.contains_eq] at h
    exact .inr h

theorem onPeerIdentity_steps (hp : c.peering) {a : Actor Id Path} {sender : Id}
    (hpeer : a.peers.contains sender = true) (grant : SignedGrant Nat) :
    Steps c (hand, a) (hand, a.onPeerIdentity c.env sender grant) := by
  have herase : Steps c (hand, a) (hand, { a with peerRoles := a.peerRoles.erase sender }) := by
    refine .single (.book _ a.indexReceived (.of_peering hp fun _ hb => ?_))
    exact ⟨fun q hq => hb.roles q (contains_of_erase hq), hb.received, hb.staging, hb.voters⟩
  unfold onPeerIdentity
  split
  · exact .refl
  · split
    · exact herase
    · split
      · exact herase
      · refine .single (.book _ a.indexReceived (.of_peering hp fun _ hb => ?_))
        refine ⟨fun q hq => ?_, hb.received, hb.staging, hb.voters⟩
        rcases eq_or_contains_of_insert hq with rfl | hq
        · exact hpeer
        · exact hb.roles q hq

/-! ## Indexes -/

/-- What counts of the hand is what is in it. -/
theorem reorder_steps (a : Actor Id Path) {hand' : List (Advert Id Path)}
    (h : ∀ x, x ∈ hand ↔ x ∈ hand') : Steps c (hand, a) (hand', a) := by
  refine shift_of_waits ?_ ?_ (fun _ _ _ h => h) (fun _ _ _ h _ => .inl h) id
  · exact fun x hx => hx.imp_left (h x).mpr
  · rintro x (hx | hx)
    · exact .of_owed (.inl ((h x).mp hx))
    · exact .of_owed (.inr (.inl hx))

/-- An entry of `map` makes room for a newer one, or there is none yet. -/
theorem insert_steps (a : Actor Id Path) (sender : Id) (map : Map Path (FileRecord Id))
    (rel : Path) (record : FileRecord Id) :
    Steps c ((rel, sender, record) :: (adverts sender map.toList ++ hand), a)
      (adverts sender (map.insert rel record).toList ++ hand,
        a.displace rel (map[rel]?.map fun r => (sender, r)) record) := by
  refine (displace_steps a rel (map[rel]?.map fun r => (sender, r)) record).trans ?_
  have hout : ∀ r, map[rel]? = some r → VClock.Le r.vv record.vv ∨
      (a.displace rel (map[rel]?.map fun r => (sender, r)) record).Excused (rel, sender, r) := by
    intro r hr
    rw [hr]
    exact displace_excused a rel sender r record
  generalize a.displace rel (map[rel]?.map fun r => (sender, r)) record = b at hout ⊢
  have hmem : ∀ x : Advert Id Path, x ∈ adverts sender (map.insert rel record).toList ↔
      x = (rel, sender, record) ∨ (x ∈ adverts sender map.toList ∧ rel ≠ x.1) := by
    rintro ⟨r, s, w⟩
    rw [mem_adverts, mem_adverts, Map.mem_toList, Map.mem_toList, Map.get_insert]
    split
    · rename_i hrel
      obtain rfl : rel = r := hrel
      simp [eq_comm, and_comm]
    · rename_i hrel
      have hrel' : ¬ r = rel := fun h => hrel h.symm
      simp [hrel, hrel']
  have hnew : b.Owed (adverts sender (map.insert rel record).toList ++ hand)
      (rel, sender, record) :=
    .inl (List.mem_append_left _ ((hmem _).mpr (.inl rfl)))
  refine shift_of_waits ?_ ?_ (fun _ _ _ h => h) (fun _ _ _ h _ => .inl h) id
  · rintro x (hx | hx)
    · refine .inl ?_
      rcases List.mem_append.mp hx with hx | hx
      · rcases (hmem x).mp hx with rfl | ⟨hx, -⟩
        · exact List.mem_cons_self
        · exact List.mem_cons_of_mem _ (List.mem_append_left _ hx)
      · exact List.mem_cons_of_mem _ (List.mem_append_right _ hx)
    · exact .inr hx
  · rintro x (hx | hx)
    · rcases List.mem_cons.mp hx with rfl | hx
      · exact .of_owed hnew
      · rcases List.mem_append.mp hx with hx | hx
        · by_cases hrel : rel = x.1
          · obtain ⟨r, s, w⟩ := x
            obtain rfl : rel = r := hrel
            obtain ⟨hw, rfl⟩ := mem_adverts.mp hx
            rcases hout w (Map.mem_toList.mp hw) with hle | hex
            · exact .of_covered hnew rfl hle
            · exact .of_excused hex
          · exact .of_owed (.inl (List.mem_append_left _ ((hmem x).mpr (.inr ⟨hx, hrel⟩))))
        · exact .of_owed (.inl (List.mem_append_right _ hx))
    · exact .of_owed (.inr (.inl hx))

theorem ingest_steps (a : Actor Id Path) (sender : Id) (map : Map Path (FileRecord Id))
    (files : List (Path × FileRecord Id)) :
    Steps c (adverts sender files ++ (adverts sender map.toList ++ hand), a)
      (adverts sender (a.ingest c.host sender map files).2.toList ++ hand,
        (a.ingest c.host sender map files).1) := by
  induction files generalizing a map with
  | nil => exact .refl
  | cons e files ih =>
      obtain ⟨rel, record⟩ := e
      unfold ingest at ih ⊢
      rw [List.foldl_cons]
      dsimp only
      split
      · refine .trans ?_ (ih _ _)
        have hto : ∀ x : Advert Id Path,
            x ∈ adverts sender ((rel, record) :: files) ++ (adverts sender map.toList ++ hand) ↔
            x ∈ (rel, sender, record) ::
              (adverts sender map.toList ++ (adverts sender files ++ hand)) := by
          intro x
          simp only [adverts, List.map_cons, List.mem_append, List.mem_cons, or_assoc,
            or_left_comm]
        have hback : ∀ m : Map Path (FileRecord Id), ∀ x : Advert Id Path,
            x ∈ adverts sender m.toList ++ (adverts sender files ++ hand) ↔
            x ∈ adverts sender files ++ (adverts sender m.toList ++ hand) := by
          intro m x
          simp only [List.mem_append, or_left_comm]
        exact (reorder_steps a hto).trans ((insert_steps a sender map rel record).trans
          (reorder_steps _ (hback _)))
      · exact (abandon_steps a rel sender record).trans (ih _ _)

/-- Taking in an index changes nothing but the journal. -/
theorem ingest_eq (h : Host Id Path) (a : Actor Id Path) (sender : Id)
    (map : Map Path (FileRecord Id)) (files : List (Path × FileRecord Id)) :
    ∃ journal, (a.ingest h sender map files).1 = { a with journal } := by
  induction files generalizing a map with
  | nil => exact ⟨a.journal, rfl⟩
  | cons e files ih =>
      obtain ⟨rel, record⟩ := e
      unfold ingest at ih ⊢
      rw [List.foldl_cons]
      dsimp only
      split
      · obtain ⟨journal, hj⟩ := ih (a.displace rel (map[rel]?.map fun r => (sender, r)) record)
          (map.insert rel record)
        exact ⟨journal, hj⟩
      · obtain ⟨journal, hj⟩ := ih (a.letGo rel sender record) map
        exact ⟨journal, hj⟩

theorem supersede_steps (a : Actor Id Path) (sender : Id) (map : Map Path (FileRecord Id))
    (staged : List (Path × FileRecord Id)) :
    Steps c (adverts sender staged ++ (adverts sender map.toList ++ hand), a)
      (adverts sender map.toList ++ hand, a.supersede sender map staged) := by
  induction staged generalizing a with
  | nil => exact .refl
  | cons e staged ih =>
      obtain ⟨rel, record⟩ := e
      unfold supersede at ih ⊢
      rw [List.foldl_cons]
      refine .trans ?_ (ih _)
      dsimp only
      split
      · rename_i new hnew
        refine (displace_steps a rel (some (sender, record)) new).trans (release_steps ?_)
        rcases displace_excused a rel sender record new with hle | hex
        · refine .of_covered (y := (rel, sender, new)) (.inl ?_) rfl hle
          exact List.mem_append_right _ (List.mem_append_left _
            (mem_adverts.mpr ⟨Map.mem_toList.mpr hnew, rfl⟩))
        · exact .of_excused hex
      · exact abandon_steps a rel sender record

theorem supersede_eq (a : Actor Id Path) (sender : Id) (map : Map Path (FileRecord Id))
    (staged : List (Path × FileRecord Id)) :
    ∃ journal, a.supersede sender map staged = { a with journal } := by
  induction staged generalizing a with
  | nil => exact ⟨a.journal, rfl⟩
  | cons e staged ih =>
      obtain ⟨rel, record⟩ := e
      unfold supersede at ih ⊢
      rw [List.foldl_cons]
      dsimp only
      split
      · rename_i new _
        obtain ⟨journal, hj⟩ := ih (a.displace rel (some (sender, record)) new)
        exact ⟨journal, hj⟩
      · obtain ⟨journal, hj⟩ := ih (a.letGo rel sender record)
        exact ⟨journal, hj⟩

/-- The table after one advertised lease; a bad path is left out. -/
def observeOne (h : Host Id Path) (now : Nat) (t : LockTable Id Path) (l : LeaseInfo Id Path) :
    LockTable Id Path :=
  if h.sanitize l.path then t.observeLease l.path l.holder l.lamport l.expiresInMs now else t

/-- None of the advertised leases ends one of ours. -/
def Unchallenged (h : Host Id Path) (now : Nat) :
    LockTable Id Path → List (LeaseInfo Id Path) → Prop
  | _, [] => True
  | t, l :: leases =>
      (h.sanitize l.path = true → t.Spares l now) ∧ Unchallenged h now (observeOne h now t l) leases

theorem observeLeases_locks (h : Host Id Path) (env : Env Path) (a : Actor Id Path)
    (leases : List (LeaseInfo Id Path)) :
    (a.observeLeases h env leases).locks = leases.foldl (observeOne h env.now) a.locks := rfl

theorem keepsHeld_of_unchallenged {h : Host Id Path} {now : Nat}
    {leases : List (LeaseInfo Id Path)} {t : LockTable Id Path}
    (hun : Unchallenged h now t leases) :
    LockTable.KeepsHeld t (leases.foldl (observeOne h now) t) := by
  induction leases generalizing t with
  | nil => exact .refl
  | cons l leases ih =>
      obtain ⟨hspare, hrest⟩ := hun
      refine LockTable.KeepsHeld.trans ?_ (ih hrest)
      unfold observeOne
      split
      · rename_i hclean
        exact LockTable.keepsHeld_observeLease (hspare hclean)
      · exact .refl

/-- Advertised leases bring neither votes nor voters. -/
theorem foldl_observeOne_gain (h : Host Id Path) (now : Nat) (leases : List (LeaseInfo Id Path))
    (t : LockTable Id Path) :
    (leases.foldl (observeOne h now) t).me = t.me ∧
      (∀ p v, v ∈ (leases.foldl (observeOne h now) t).grantsOf p → v ∈ t.grantsOf p) ∧
      ∀ p v, (leases.foldl (observeOne h now) t).WaitsFor p v → t.WaitsFor p v := by
  induction leases generalizing t with
  | nil => exact ⟨rfl, fun _ _ h => h, fun _ _ h => h⟩
  | cons l leases ih =>
      obtain ⟨hme', hgrants', hwaits'⟩ := ih (observeOne h now t l)
      have hone : (observeOne h now t l).me = t.me ∧
          (∀ p v, v ∈ (observeOne h now t l).grantsOf p → v ∈ t.grantsOf p) ∧
          ∀ p v, (observeOne h now t l).WaitsFor p v → t.WaitsFor p v := by
        unfold observeOne
        split
        · obtain ⟨hme, -, hgrants, hwaits⟩ := LockTable.observeLease_gain t l.path l.holder
            l.lamport l.expiresInMs now
          exact ⟨hme, hgrants, hwaits⟩
        · exact ⟨rfl, fun _ _ h => h, fun _ _ h => h⟩
      obtain ⟨hme, hgrants, hwaits⟩ := hone
      exact ⟨hme'.trans hme, fun p v hv => hgrants p v (hgrants' p v hv),
        fun p v hv => hwaits p v (hwaits' p v hv)⟩

/-- The observed leases gain us only what they make us hold. -/
theorem observeLeases_mayLock {a : Actor Id Path}
    {leases : List (LeaseInfo Id Path)}
    (hquiet : c.quietWins → ∀ p, a.locks.isHeldByMe p = false →
      (a.observeLeases c.host c.env leases).locks.isHeldByMe p = true → a.Quiet p)
    (hun : c.clamps → Unchallenged c.host c.env.now a.locks leases) :
    MayLock c a (a.observeLeases c.host c.env leases).locks := by
  obtain ⟨hme, hgrants, hwaits⟩ := foldl_observeOne_gain c.host c.env.now leases a.locks
  exact ⟨hme, fun hq p hp hno => hquiet hq p hno hp, fun p v hv => .inl (hgrants p v hv),
    fun p v hv => .inl (hwaits p v hv), fun hc => (keepsHeld_of_unchallenged (hun hc)).ends⟩

theorem commitPeerIndex_steps (hp : c.peering) {a : Actor Id Path} {sender : Id}
    (hpeer : a.peers.contains sender = true)
    {map : Map Path (FileRecord Id)} {leases : List (LeaseInfo Id Path)}
    (hquiet : c.quietWins → ∀ p, a.locks.isHeldByMe p = false →
      (a.observeLeases c.host c.env leases).locks.isHeldByMe p = true → a.Quiet p)
    (hun : c.clamps → Unchallenged c.host c.env.now a.locks leases) :
    Steps c (adverts sender map.toList ++ hand, a)
      (hand, a.commitPeerIndex c.host c.env sender map leases) := by
  unfold commitPeerIndex
  dsimp only
  have hindex : Steps c (adverts sender map.toList ++ hand, a)
      (adverts sender map.toList ++ hand,
        { a with peerIndex := a.peerIndex.insert sender map }) := by
    refine .single (.shift a.pendingPulls a.pullBacklog a.deferred a.tasks
      (a.peerIndex.insert sender map) a.indexStaging a.skipped a.peers
      ⟨fun _ h => h, fun _ h => h, ?_, fun _ hx => .of_owed hx, fun _ _ _ h => h,
        fun _ _ _ h _ => .inl h, id⟩ .refl)
    rintro x (hx | ⟨m, hm, hx⟩ | hx)
    · exact .inl hx
    · rw [Map.get_insert] at hm
      split at hm
      · rename_i hsender
        cases hm
        refine .inl (.inl (List.mem_append_left _ ?_))
        exact mem_adverts.mpr ⟨Map.mem_toList.mpr hx, hsender.symm⟩
      · exact .inr (.inl ⟨m, hm, hx⟩)
    · exact .inr (.inr hx)
  have hrec : Steps c (adverts sender map.toList ++ hand,
      { a with peerIndex := a.peerIndex.insert sender map })
      (adverts sender map.toList ++ hand, { a with
        peerIndex := a.peerIndex.insert sender map
        indexReceived := a.indexReceived.insert sender () }) := by
    refine .single (.book a.peerRoles _ (.of_peering hp fun _ hb => ?_))
    refine ⟨hb.roles, fun q hq => ?_, hb.staging, hb.voters⟩
    rcases eq_or_contains_of_insert hq with rfl | hq
    · exact hpeer
    · exact hb.received q hq
  refine (hindex.trans hrec).trans ?_
  refine .trans (.single (.indexed sender map.toList leases hp)) ?_
  refine .trans (.single (.locks _ (observeLeases_mayLock hquiet hun))) (reconcile_steps ?_)
  exact Map.get_insert_self _ _ _

/-- The entries of a partial index are taken into the hand. -/
theorem unstage_steps (hp : c.peering) (a : Actor Id Path) (sender : Id) :
    Steps c (hand, a)
      (adverts sender (a.indexStaging[sender]?.getD (0, ∅)).2.toList ++ hand,
        { a with indexStaging := a.indexStaging.erase sender }) := by
  have hmem : ∀ x : Advert Id Path,
      x ∈ adverts sender (a.indexStaging[sender]?.getD (0, ∅)).2.toList ↔
        x.2.1 = sender ∧ a.Staged x := by
    rintro ⟨rel, s, record⟩
    rw [mem_adverts, Map.mem_toList]
    constructor
    · rintro ⟨hrec, rfl⟩
      refine ⟨rfl, ?_⟩
      cases hstage : a.indexStaging[s]? with
      | none => simp [hstage] at hrec
      | some stage => exact ⟨stage, hstage, by simpa [hstage] using hrec⟩
    · rintro ⟨rfl, stage, hstage, hrec⟩
      refine ⟨?_, rfl⟩
      dsimp only at hstage hrec ⊢
      rw [hstage]
      exact hrec
  refine .single (.shift a.pendingPulls a.pullBacklog a.deferred a.tasks a.peerIndex
    (a.indexStaging.erase sender) a.skipped a.peers ⟨fun _ h => h, fun _ h => h, ?_, ?_,
      fun _ _ _ h => h, fun _ _ _ h _ => .inl h, id⟩ (.of_peering hp fun _ hb =>
        ⟨hb.roles, hb.received, fun q hq => hb.staging q (contains_of_erase hq), hb.voters⟩))
  · rintro x ((hx | hx | ⟨stage, hstage, hx⟩) | hx)
    · rcases List.mem_append.mp hx with hx | hx
      · exact .inl (.inr (.inr ((hmem x).mp hx).2))
      · exact .inl (.inl hx)
    · exact .inl (.inr (.inl hx))
    · exact .inl (.inr (.inr ⟨stage, get_of_erase hstage, hx⟩))
    · exact .inr hx
  · rintro x (hx | hx | hx)
    · exact .of_owed (.inl (List.mem_append_right _ hx))
    · exact .of_owed (.inr (.inl hx))
    · by_cases hs : x.2.1 = sender
      · exact .of_owed (.inl (List.mem_append_left _ ((hmem x).mpr ⟨hs, hx⟩)))
      · obtain ⟨stage, hstage, hrec⟩ := hx
        refine .of_owed (.inr (.inr ⟨stage, ?_, hrec⟩))
        rw [Map.get_erase_ne _ (Ne.symm hs)]
        exact hstage

/-- The entries in the hand are staged. -/
theorem stage_steps (hp : c.peering) {a : Actor Id Path} {sender : Id}
    (hpeer : a.peers.contains sender = true) (n : Nat)
    (map : Map Path (FileRecord Id)) (hnone : a.indexStaging[sender]? = none) :
    Steps c (adverts sender map.toList ++ hand, a)
      (hand, { a with indexStaging := a.indexStaging.insert sender (n, map) }) := by
  have hold : ∀ x : Advert Id Path, a.Staged x →
      ({ a with indexStaging := a.indexStaging.insert sender (n, map) } :
        Actor Id Path).Staged x := by
    rintro x ⟨stage, hstage, hx⟩
    refine ⟨stage, ?_, hx⟩
    rw [Map.get_insert_ne]
    · exact hstage
    · rintro rfl
      rw [hnone] at hstage
      cases hstage
  have hbook : MayBook c a
      { a with indexStaging := a.indexStaging.insert sender (n, map) } := by
    refine .of_peering hp fun _ hb => ⟨hb.roles, hb.received, fun q hq => ?_, hb.voters⟩
    rcases eq_or_contains_of_insert hq with rfl | hq
    · exact hpeer
    · exact hb.staging q hq
  refine .single (.shift a.pendingPulls a.pullBacklog a.deferred a.tasks a.peerIndex
    (a.indexStaging.insert sender (n, map)) a.skipped a.peers ⟨fun _ h => h, fun _ h => h, ?_, ?_,
      fun _ _ _ h => h, fun _ _ _ h _ => .inl h, id⟩ hbook)
  · rintro x ((hx | hx | ⟨stage, hstage, hx⟩) | hx)
    · exact .inl (.inl (List.mem_append_right _ hx))
    · exact .inl (.inr (.inl hx))
    · rw [Map.get_insert] at hstage
      split at hstage
      · rename_i hsender
        cases hstage
        refine .inl (.inl (List.mem_append_left _ ?_))
        exact mem_adverts.mpr ⟨Map.mem_toList.mpr hx, hsender.symm⟩
      · exact .inl (.inr (.inr ⟨stage, hstage, hx⟩))
    · exact .inr hx
  · rintro x (hx | hx | hx)
    · rcases List.mem_append.mp hx with hx | hx
      · obtain ⟨hrec, hs⟩ := mem_adverts.mp hx
        refine .of_owed (.inr (.inr ⟨(n, map), ?_, Map.mem_toList.mp hrec⟩))
        rw [hs]
        exact Map.get_insert_self _ _ _
      · exact .of_owed (.inl hx)
    · exact .of_owed (.inr (.inl hx))
    · exact .of_owed (.inr (.inr (hold x hx)))

theorem onIndex_steps (hp : c.peering) {a : Actor Id Path} {sender : Id}
    (hpeer : a.peers.contains sender = true) {lamport : U64}
    {files : List (Path × FileRecord Id)} {leases : List (LeaseInfo Id Path)}
    (hquiet : c.quietWins → ∀ p, a.locks.isHeldByMe p = false →
      (a.observeLeases c.host c.env leases).locks.isHeldByMe p = true → a.Quiet p)
    (hun : c.clamps → Unchallenged c.host c.env.now a.locks leases) :
    Steps c (adverts sender files ++ hand, a)
      (hand, a.onIndex c.host c.env sender lamport files leases) := by
  unfold onIndex
  dsimp only
  refine (lamport_steps a lamport).trans ((unstage_steps hp _ sender).trans ?_)
  generalize hb : ({ a with
    lamport := max a.lamport lamport, indexStaging := a.indexStaging.erase sender } :
      Actor Id Path) = b
  generalize (a.indexStaging[sender]?.getD (0, ∅)).2.toList = staged
  have hfront : ∀ x : Advert Id Path,
      x ∈ adverts sender staged ++ (adverts sender files ++ hand) ↔
      x ∈ adverts sender files ++ (adverts sender (∅ : Map Path (FileRecord Id)).toList ++
        (adverts sender staged ++ hand)) := by
    intro x
    have hempty : x ∉ adverts sender (∅ : Map Path (FileRecord Id)).toList := by
      rw [mem_adverts, Map.mem_toList]
      simp
    simp only [List.mem_append, hempty, false_or, or_left_comm]
  refine (reorder_steps b hfront).trans ((ingest_steps b sender ∅ files).trans ?_)
  obtain ⟨journal, hj⟩ := ingest_eq c.host b sender ∅ files
  generalize (b.ingest c.host sender ∅ files).2 = map
  rw [hj]
  have hback : ∀ x : Advert Id Path,
      x ∈ adverts sender map.toList ++ (adverts sender staged ++ hand) ↔
      x ∈ adverts sender staged ++ (adverts sender map.toList ++ hand) := by
    intro x
    simp only [List.mem_append, or_left_comm]
  refine (reorder_steps _ hback).trans ((supersede_steps _ sender map staged).trans ?_)
  obtain ⟨journal', hj'⟩ := supersede_eq { b with journal } sender map staged
  rw [hj']
  subst hb
  refine commitPeerIndex_steps hp ?_ ?_ ?_
  · exact hpeer
  · exact hquiet
  · exact hun

/-- The part of an index is the one that is expected, and there is room for it. -/
def accepts (a : Actor Id Path) (sender : Id) (seq : Nat) (files : List (Path × FileRecord Id)) :
    Bool :=
  let stage := a.indexStaging[sender]?.getD (0, ∅)
  decide (seq = stage.1 ∧ seq < maxIndexParts ∧
    stage.2.size + files.length ≤ maxIndexEntries)

/-- Records of a peer that is gone leave the hand. -/
theorem disown_steps {a : Actor Id Path} {sender : Id} (hgone : a.peers.contains sender = false)
    (entries : List (Path × FileRecord Id)) :
    Steps c (adverts sender entries ++ hand, a) (hand, a) := by
  induction entries with
  | nil => exact .refl
  | cons e entries ih => exact .trans (release_steps (.of_excused (.inr (.inr hgone)))) ih

theorem onIndexPart_steps (hp : c.peering) {a : Actor Id Path} {sender : Id}
    (hpeer : a.peers.contains sender = true) {seq : Nat} {last : Bool}
    {lamport : U64} {files : List (Path × FileRecord Id)} {leases : List (LeaseInfo Id Path)}
    (hquiet : c.quietWins → last = true → a.accepts sender seq files = true →
      ∀ p, a.locks.isHeldByMe p = false →
        (a.observeLeases c.host c.env leases).locks.isHeldByMe p = true → a.Quiet p)
    (hun : c.clamps → last = true → a.accepts sender seq files = true →
      Unchallenged c.host c.env.now a.locks leases)
    (htidy : c.tidy → a.accepts sender seq files = false → a.Unrecorded sender) :
    Steps c (adverts sender files ++ hand, a)
      (hand, a.onIndexPart c.host c.env sender seq last lamport files leases) := by
  unfold onIndexPart
  dsimp only
  refine (lamport_steps a lamport).trans ((unstage_steps hp _ sender).trans ?_)
  unfold accepts at hquiet hun htidy
  generalize hb : ({ a with
    lamport := max a.lamport lamport, indexStaging := a.indexStaging.erase sender } :
      Actor Id Path) = b
  dsimp only at hquiet hun htidy ⊢
  generalize a.indexStaging[sender]?.getD (0, ∅) = stage at hquiet hun htidy ⊢
  split
  · rename_i hbad
    have hbad' : decide (seq = stage.1 ∧ seq < maxIndexParts ∧
        stage.2.size + files.length ≤ maxIndexEntries) = false := by
      rw [decide_eq_false_iff_not]
      rintro ⟨hseq, hparts, hentries⟩
      rcases hbad with h | h | h
      · exact h hseq
      · omega
      · omega
    have htidy' : c.tidy → b.Unrecorded sender ∧ b.indexStaging.contains sender = false := by
      intro ht
      obtain ⟨hrole, hreceived, hvotes⟩ := htidy ht hbad'
      subst hb
      refine ⟨⟨hrole, hreceived, hvotes⟩, ?_⟩
      simp
    have hgone : (b.dropPeer sender).peers.contains sender = false := by
      unfold dropPeer
      simp
    exact (dropPeer_steps hp htidy').trans
      ((disown_steps hgone stage.2.toList).trans (disown_steps hgone files))
  · rename_i hok
    rw [not_or, not_or, not_not, Nat.not_le, Nat.not_lt] at hok
    have hswap : ∀ x : Advert Id Path,
        x ∈ adverts sender stage.2.toList ++ (adverts sender files ++ hand) ↔
        x ∈ adverts sender files ++ (adverts sender stage.2.toList ++ hand) := by
      intro x
      simp only [List.mem_append, or_left_comm]
    refine (reorder_steps b hswap).trans ((ingest_steps b sender stage.2 files).trans ?_)
    obtain ⟨journal, hj⟩ := ingest_eq c.host b sender stage.2 files
    generalize (b.ingest c.host sender stage.2 files).2 = map
    rw [hj]
    subst hb
    split
    · rename_i hlast
      refine commitPeerIndex_steps hp ?_ ?_ ?_
      · exact hpeer
      · exact fun hq => hquiet hq hlast (by simpa using hok)
      · exact fun hc => hun hc hlast (by simpa using hok)
    · refine stage_steps hp ?_ (stage.1 + 1) map ?_
      · exact hpeer
      · exact Map.get_erase_self _ _

theorem onFileMeta_steps (a : Actor Id Path) (sender : Id) (rel : Path)
    (record : FileRecord Id) (lamport : U64) :
    Steps c ((rel, sender, record) :: hand, a)
      (hand, a.onFileMeta c.host c.env sender rel record lamport) := by
  unfold onFileMeta
  dsimp only
  refine (lamport_steps a lamport).trans ?_
  split
  · refine .trans (.single (.shift a.pendingPulls a.pullBacklog a.deferred a.tasks
      (a.peerIndex.insert sender ((a.peerIndex[sender]?.getD ∅).insert rel record))
      a.indexStaging a.skipped a.peers ⟨fun _ h => h, fun _ h => h, ?_,
        fun _ hx => .of_owed hx, fun _ _ _ h => h, fun _ _ _ h _ => .inl h, id⟩ .refl))
      (reconcileOne_steps _ sender rel record)
    rintro ⟨r, s, w⟩ (hx | ⟨m, hm, hx⟩ | hx)
    · exact .inl hx
    · rw [Map.get_insert] at hm
      split at hm
      · rename_i hsender
        obtain rfl : sender = s := hsender
        cases hm
        rw [Map.get_insert] at hx
        split at hx
        · rename_i hrel
          obtain rfl : rel = r := hrel
          cases hx
          exact .inl (.inl List.mem_cons_self)
        · cases hold : a.peerIndex[sender]? with
          | none => simp [hold] at hx
          | some m => exact .inr (.inl ⟨m, hold, by simpa [hold] using hx⟩)
      · exact .inr (.inl ⟨m, hm, hx⟩)
    · exact .inr (.inr hx)
  · exact abandon_steps _ rel sender record

end Actor

end Tazamun
