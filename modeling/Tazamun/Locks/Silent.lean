import Tazamun.Locks.Gossip
import Tazamun.Locks.Plane
import Tazamun.Daemon.Peers

set_option autoImplicit false

/-! # Leases of a silent holder

A holder that has crashed sends nothing any more, and its leases should run out on the other
nodes. Meanwhile the others go on: they lock and unlock, lose each other and connect again,
and with every connection they exchange indexes, in which each advertises the leases it
tracks with the time they have left.

A lease that is advertised gets its time left anew, from the moment it is observed, and at
least `minLeaseTtl` of it. So the time an index is under way is added to the lease, and a
lease with less than that left gets more. `Timely` rules out both: the index is observed at
the instant it is built, and the lease has `minLeaseTtl` left. The main result,
`silent_lease_dies`, is that the lease then ends when it should, on every node. Otherwise two
nodes keep it up between them.
-/

namespace Tazamun

open Lib LockTable

variable {Id Path : Type} [LinearOrder Id] [LinearOrder Path]

/-! ## Advertising leases -/

/-- The leases as `build_index_parts` lists them. -/
def LockTable.advertised (t : LockTable Id Path) (now : Nat) : List (LeaseInfo Id Path) :=
  (t.heldLeases now).map fun (path, holder, lamport, left, _) =>
    { path, holder, lamport, expiresInMs := Fin.ofNat _ left }

/-- The leases of an index are observed, as `commit_peer_index` does it. -/
def LockTable.observeAll (accepts : Path → Bool) (t : LockTable Id Path) (now : Nat)
    (leases : List (LeaseInfo Id Path)) : LockTable Id Path :=
  leases.foldl
    (fun t l =>
      if accepts l.path then t.observeLease l.path l.holder l.lamport l.expiresInMs now else t) t

theorem buildIndexParts_eq (h : Host Id Path) (env : Env Path) (a : Actor Id Path) :
    a.buildIndexParts h env = splitIndexParts h a.lamport a.files (a.locks.advertised env.now) :=
  rfl

theorem observeLeases_eq (h : Host Id Path) (env : Env Path) (a : Actor Id Path)
    (leases : List (LeaseInfo Id Path)) :
    a.observeLeases h env leases =
      { a with locks := a.locks.observeAll h.sanitize env.now leases } :=
  rfl

/-- An advertised lease is one of the table, with the time it has left. -/
theorem mem_advertised {t : LockTable Id Path} {now : Nat} {l : LeaseInfo Id Path}
    (h : l ∈ t.advertised now) : ∃ e s,
      t.states[l.path]? = some (.held l.holder l.lamport e s) ∧
        l.expiresInMs.val ≤ e - now := by
  obtain ⟨x, hx, rfl⟩ := List.mem_map.mp h
  obtain ⟨⟨path, st⟩, hst, hx⟩ := List.mem_filterMap.mp hx
  cases st with
  | pendingLocal l needed granted d => cases hx
  | held holder lamport e s =>
      cases hx
      exact ⟨e, s, Map.mem_toList.mp hst, Nat.mod_le _ _⟩

theorem observeAll_me (accepts : Path → Bool) (t : LockTable Id Path) (now : Nat)
    (leases : List (LeaseInfo Id Path)) : (t.observeAll accepts now leases).me = t.me := by
  induction leases generalizing t with
  | nil => rfl
  | cons l leases ih =>
      rw [observeAll, List.foldl_cons]
      refine (ih _).trans ?_
      split
      · exact (observeLease_onlyAt t l.path l.holder l.lamport l.expiresInMs now).me
      · rfl

/-- **Where a lease comes from that is there after observing one**: it was there, or it is the
one observed. -/
theorem observeLease_get {t : LockTable Id Path} {path p : Path} {holder k : Id}
    {lamport ms : U64} {now : Nat} {l : U64} {e s : Nat}
    (h : (t.observeLease path holder lamport ms now).states[p]? = some (.held k l e s)) :
    t.states[p]? = some (.held k l e s) ∨
      path = p ∧ holder = k ∧ e = now + ttlFromMs ms := by
  have hkept : (t.pruneExpired path now).states[p]? = some (.held k l e s) →
      t.states[p]? = some (.held k l e s) := pruneExpired_noNewLease path now p l e s
  have hput : ∀ s', ((t.pruneExpired path now).put path
      (.held holder lamport (now + ttlFromMs ms) s')).states[p]? = some (.held k l e s) →
      t.states[p]? = some (.held k l e s) ∨ path = p ∧ holder = k ∧ e = now + ttlFromMs ms := by
    intro s' hp
    rw [put, Map.get_insert] at hp
    split at hp
    · rename_i hpath
      cases hp
      exact .inr ⟨hpath, rfl, rfl⟩
    · exact .inl (hkept hp)
  unfold observeLease at h
  dsimp only at h
  split at h
  · exact .inl (hkept h)
  · split at h
    · exact hput _ h
    · split at h
      · exact hput _ h
      · exact .inl (hkept h)
    · exact .inl (hkept h)

theorem observeAll_get {accepts : Path → Bool} {t : LockTable Id Path} {now : Nat}
    {leases : List (LeaseInfo Id Path)} {p : Path} {k : Id} {l : U64} {e s : Nat}
    (h : (t.observeAll accepts now leases).states[p]? = some (.held k l e s)) :
    t.states[p]? = some (.held k l e s) ∨
      ∃ x ∈ leases, x.path = p ∧ x.holder = k ∧ e = now + ttlFromMs x.expiresInMs := by
  induction leases generalizing t with
  | nil => exact .inl h
  | cons x leases ih =>
      rw [observeAll, List.foldl_cons] at h
      rcases ih h with hone | ⟨y, hy, hrest⟩
      · split at hone
        · rcases observeLease_get hone with hold | ⟨hp, hk, he⟩
          · exact .inl hold
          · exact .inr ⟨x, List.mem_cons_self, hp, hk, he⟩
        · exact .inl hone
      · exact .inr ⟨y, List.mem_cons_of_mem _ hy, hrest⟩

/-! ## The nodes and the indexes between them -/

/-- The leases of an index under way. -/
structure IndexSent (Id Path : Type) where
  dst : Id
  built : Nat
  leases : List (LeaseInfo Id Path)

structure Gossip (Id Path : Type) [LinearOrder Id] [LinearOrder Path] where
  node : Id → LockNode Id Path
  sent : List (IndexSent Id Path)

/-- One step. The leases of an index are cut off at `count` where its frame is full. -/
inductive GossipAct (Id Path : Type) where
  | perform (i : Id) (now : Nat) (op : PlaneOp Id Path)
  | restart (i : Id) (timings : LockTimings)
  | index (src dst : Id) (now count : Nat)
  | observe (n : Nat) (now : Nat)
  | lose (n : Nat)

namespace Gossip

/-- The step function; `none` when there is no such index under way. What the lock planes send
is left out, and an operation may receive any message instead. -/
def step (accepts : Path → Bool) (g : Gossip Id Path) :
    GossipAct Id Path → Option (Gossip Id Path)
  | .perform i now op =>
      some { g with node := Function.update g.node i ((g.node i).perform now op).1 }
  | .restart i timings =>
      some { g with node := Function.update g.node i ⟨.new i timings, 0, ∅⟩ }
  | .index src dst now count =>
      some { g with
        sent := g.sent ++ [⟨dst, now, ((g.node src).locks.advertised now).take count⟩] }
  | .observe n now =>
      match g.sent[n]? with
      | none => none
      | some m =>
          let node := g.node m.dst
          let locks := node.locks.observeAll accepts now m.leases
          some { node := Function.update g.node m.dst { node with locks }
                 sent := g.sent.eraseIdx n }
  | .lose n => some { g with sent := g.sent.eraseIdx n }

/-- The holder `k` is silent: nothing of it is received, and it sends no index. -/
def Silent (k : Id) : GossipAct Id Path → Prop
  | .perform _ _ op => LockNode.hears k op = false
  | .index src _ _ _ => src ≠ k
  | _ => True

/-- The index is observed when it is built, and the lease of `k` on `p` has `minLeaseTtl`
left in it. -/
def Timely (k : Id) (p : Path) (g : Gossip Id Path) : GossipAct Id Path → Prop
  | .observe n now =>
      match g.sent[n]? with
      | none => True
      | some m => ∀ l ∈ m.leases, l.holder = k → l.path = p →
          now = m.built ∧ minLeaseTtl ≤ l.expiresInMs.val
  | _ => True

instance (k : Id) (act : GossipAct Id Path) : Decidable (Silent k act) :=
  match act with
  | .perform _ _ op => inferInstanceAs (Decidable (LockNode.hears k op = false))
  | .index src _ _ _ => inferInstanceAs (Decidable (src ≠ k))
  | .restart _ _ | .observe _ _ | .lose _ => isTrue trivial

instance (k : Id) (p : Path) (g : Gossip Id Path) (act : GossipAct Id Path) :
    Decidable (Timely k p g act) :=
  match act with
  | .observe n now =>
      match h : g.sent[n]? with
      | none => isTrue (by simp [Timely, h])
      | some m => decidable_of_iff (∀ l ∈ m.leases, l.holder = k → l.path = p →
          now = m.built ∧ minLeaseTtl ≤ l.expiresInMs.val) (by simp [Timely, h])
  | .perform _ _ _ | .restart _ _ | .index _ _ _ _ | .lose _ => isTrue trivial

/-- The lease of `k` on `p` ends by `until` on the other nodes, and no index under way that is
to be taken seriously says otherwise. -/
structure EndsBy (k : Id) (p : Path) (limit : Nat) (g : Gossip Id Path) : Prop where
  ids : ∀ i, (g.node i).locks.me = i
  tables : ∀ i, i ≠ k → ∀ l e s,
    (g.node i).locks.states[p]? = some (.held k l e s) → e ≤ limit
  sent : ∀ m ∈ g.sent, ∀ l ∈ m.leases, l.holder = k → l.path = p →
    minLeaseTtl ≤ l.expiresInMs.val → m.built + l.expiresInMs.val ≤ limit

variable {accepts : Path → Bool} {k : Id} {p : Path} {limit : Nat} {g g' : Gossip Id Path}

/-- A node is replaced by one with the same id and no later end of the lease. -/
theorem EndsBy.update (h : EndsBy k p limit g) {i : Id} {n : LockNode Id Path}
    {sent : List (IndexSent Id Path)} (hid : n.locks.me = i)
    (hn : i ≠ k → ∀ l e s, n.locks.states[p]? = some (.held k l e s) → e ≤ limit)
    (hsent : ∀ m ∈ sent, m ∈ g.sent) :
    EndsBy k p limit { node := Function.update g.node i n, sent } := by
  refine ⟨fun j => ?_, fun j hj l e s => ?_, fun m hm => h.sent m (hsent m hm)⟩
  · by_cases hji : j = i
    · subst hji
      simpa using hid
    · simpa [hji] using h.ids j
  · by_cases hji : j = i
    · subst hji
      simpa using hn hj l e s
    · simpa [hji] using h.tables j hj l e s

/-- **One step does not move the end of the lease.** -/
theorem EndsBy.step (h : EndsBy k p limit g) {act : GossipAct Id Path} (hsilent : Silent k act)
    (htimely : Timely k p g act) (hs : g.step accepts act = some g') : EndsBy k p limit g' := by
  cases act with
  | perform i now op =>
      cases hs
      refine h.update (((g.node i).perform_me now op).1.trans (h.ids i)) ?_ fun _ hm => hm
      intro hi l e s hp
      have hk : k ≠ (g.node i).locks.me := by
        rw [h.ids i]
        exact hi.symm
      exact h.tables i hi l e s (LockNode.perform_foreign hk hsilent p l e s hp)
  | restart i timings =>
      cases hs
      refine h.update rfl (fun _ l e s hp => ?_) fun _ hm => hm
      simp [LockTable.new] at hp
  | index src dst now count =>
      cases hs
      refine ⟨h.ids, h.tables, fun m hm l hl hk hp hmin => ?_⟩
      rcases List.mem_append.mp hm with hm | hm
      · exact h.sent m hm l hl hk hp hmin
      · rw [List.mem_singleton.mp hm] at hl ⊢
        obtain ⟨e, s, hget, hleft⟩ := mem_advertised (List.mem_of_mem_take hl)
        rw [hk, hp] at hget
        have hend := h.tables src hsilent _ e s hget
        have hpos : 0 < minLeaseTtl := by decide
        show now + l.expiresInMs.val ≤ limit
        omega
  | observe n now =>
      rw [Gossip.step] at hs
      split at hs
      · cases hs
      · rename_i m hm
        cases hs
        have hmem : m ∈ g.sent := List.mem_of_getElem? hm
        refine h.update ((observeAll_me accepts _ now m.leases).trans (h.ids _)) ?_
          fun _ hx => List.mem_of_mem_eraseIdx hx
        intro hi l e s hp
        rcases observeAll_get hp with hold | ⟨x, hx, hxp, hxk, rfl⟩
        · exact h.tables _ hi l e s hold
        · -- neither the way nor the lower bound of a TTL has added to the lease
          have htime : now = m.built ∧ minLeaseTtl ≤ x.expiresInMs.val := by
            rw [Timely, hm] at htimely
            exact htimely x hx hxk hxp
          obtain ⟨rfl, hmin⟩ := htime
          have hend := h.sent m hmem x hx hxk hxp hmin
          have httl : ttlFromMs x.expiresInMs ≤ x.expiresInMs.val :=
            max_le hmin (min_le_left _ _)
          omega
  | lose n =>
      cases hs
      exact ⟨h.ids, h.tables, fun m hm => h.sent m (List.mem_of_mem_eraseIdx hm)⟩

/-- **A silent lease dies.** Once nothing is heard of its holder, the lease ends on every other
node by the time that follows from the holder's last message, if every index that lists it is
timely; after that nobody tracks it. -/
theorem silent_lease_dies
    (hrun : Reaches (step accepts) (fun g act => Silent k act ∧ Timely k p g act) g g')
    (hstart : EndsBy k p limit g) : ∀ i, i ≠ k →
      (∀ l e s, (g'.node i).locks.states[p]? = some (.held k l e s) → e ≤ limit) ∧
      ∀ now, limit ≤ now → (g'.node i).locks.holderAt p now ≠ some k := by
  have hend : EndsBy k p limit g' :=
    hrun.invariant hstart fun _ _ _ hi hok hs => hi.step hok.1 hok.2 hs
  intro i hi
  refine ⟨hend.tables i hi, fun now hnow hholder => ?_⟩
  rw [holderAt, holder, pruneExpired_get_self] at hholder
  split at hholder
  · rename_i holder l e s hget
    cases hholder
    unfold liveAt at hget
    split at hget
    · split at hget
      · cases hget
      · rename_i hlive
        cases hget
        rename_i hraw
        have := hend.tables i hi _ _ _ hraw
        omega
    · rename_i hno
      exact absurd hget (hno _ _ _ _)
  · cases hholder

/-! ## Two nodes keep a lease up -/

/-- Nodes without leases. -/
def idle : Gossip Nat Nat :=
  { node := fun i => ⟨.new i ⟨minLeaseTtl, 3333, 2000⟩, 0, ∅⟩, sent := [] }

/-- Node 0 asks node 1 for the lease on path 7, for the shortest time there is, and crashes. -/
def crashed : Gossip Nat Nat :=
  let asked := (idle.node 1).perform 0 (.receive true 0 (.lockReq 7 1 10000))
  { idle with node := Function.update idle.node 1 asked.1 }

theorem crashed_endsBy : EndsBy 0 7 10000 crashed := by
  refine ⟨fun i => ?_, fun i _ l e s hget => ?_, fun m hm => ?_⟩
  · by_cases hi : i = 1
    · subst hi
      rfl
    · simp [crashed, idle, hi, LockTable.new]
  · by_cases hi : i = 1
    · subst hi
      have hentry : (crashed.node 1).locks.states[(7 : Nat)]? = some (.held 0 1 10000 0) := by
        decide +kernel
      rw [hentry] at hget
      cases hget
      exact le_refl _
    · simp [crashed, idle, hi, LockTable.new] at hget
  · simp [crashed, idle] at hm

/-- Node 1 tells node 2 of the lease at once. -/
theorem silent_lease_dies_told : ∃ g' : Gossip Nat Nat,
    Reaches (step fun _ => true) (fun g act => Silent 0 act ∧ Timely 0 7 g act) crashed g' ∧
      (g'.node 2).locks.holderAt 7 0 = some 0 ∧
      (g'.node 2).locks.holderAt 7 10000 ≠ some 0 := by
  have hexec : (executeChecked (step fun _ => true)
      (fun g act => decide (Silent 0 act ∧ Timely 0 7 g act))
      [.index 1 2 0 1, .observe 0 0] crashed).any
        (fun g => decide ((g.node 2).locks.holderAt 7 0 = some 0)) = true := by
    decide +kernel
  obtain ⟨g', hrun, hheld⟩ := exists_reaches_of_executeChecked hexec
  have htimely := hrun.mono fun g act h => of_decide_eq_true h
  exact ⟨g', htimely, of_decide_eq_true hheld,
    (silent_lease_dies htimely crashed_endsBy 2 (by decide)).2 10000 (le_refl _)⟩

/-- Node 1 tells node 2 of the lease when it has a second left, and is told of it in turn. The
lease, which should have ended after ten seconds, is still there after twenty. -/
theorem silent_lease_kept_up : EndsBy 0 7 10000 crashed ∧ ∃ g' : Gossip Nat Nat,
    Reaches (step fun _ => true) (fun _ act => Silent 0 act) crashed g' ∧
      (g'.node 1).locks.holderAt 7 20000 = some 0 := by
  have hexec : (executeChecked (step fun _ => true) (fun _ act => decide (Silent 0 act))
      [.index 1 2 9000 1, .observe 0 9000, .index 2 1 18000 1, .observe 0 18000] crashed).any
        (fun g => decide ((g.node 1).locks.holderAt 7 20000 = some 0)) = true := by
    decide +kernel
  obtain ⟨g', hrun, hheld⟩ := exists_reaches_of_executeChecked hexec
  exact ⟨crashed_endsBy, g', hrun.mono fun g act h => of_decide_eq_true h,
    of_decide_eq_true hheld⟩

end Gossip

end Tazamun
