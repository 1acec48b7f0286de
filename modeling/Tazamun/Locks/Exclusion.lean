import Tazamun.Locks.Handlers

set_option autoImplicit false

/-! # Mutual exclusion of the lease protocol

Two nodes that both hold a path have counted each other's votes, and a node's table cannot
back the lease of two nodes. So the protocol of `Locks/Mesh.lean` keeps every path with at
most one holder as long as counted votes are backed, which is `PairInv` (`Locks/Pair.lean`).

The invariant needs one thing the code does not check: a grant that is delivered while a
request is pending must have been cast for *that* request (`CurrentVote`). A grant that
answers an earlier, aborted round is counted all the same, and then two nodes can hold the
same path (`two_holders`).
-/

namespace Tazamun.Mesh

open LockTable Lib

variable {Id Path : Type} [LinearOrder Id] [LinearOrder Path]

/-! ## The invariant -/

/-- The invariant of the mesh. -/
structure MeshInv [Fintype Id] (m : Mesh Id Path) : Prop where
  me : ∀ i, (m.node i).locks.me = i
  self : ∀ i, m.chan i i = []
  waiter : ∀ i (p : Path), WaiterPending (m.node i) p
  asks : ∀ i (p : Path), AsksAll (Finset.univ.erase i) (m.node i).locks.states[p]?
  pair : ∀ (p : Path) a j, a ≠ j → PairInv a j (m.node a).locks.states[p]? (m.node j).locks.states[p]?
    (sigs p (m.chan a j)) (sigs p (m.chan j a))

variable [Fintype Id]

theorem inv_init (timings : Id → LockTimings) (mayLock : Id → Id → Bool) :
    MeshInv (init timings mayLock : Mesh Id Path) := by
  refine ⟨fun i => rfl, fun i => rfl, fun i p h => absurd ?_ h, fun i p => ?_,
    fun p a j _ => ⟨fun hv => ?_, fun ha => ?_⟩⟩
  · simp [init]
  · simp [init, new, AsksAll]
  · simp [init, new, HasVote] at hv
  · simp [init, new, Awaits] at ha

/-- Node `i` takes a message, or none, and installs its handler's result `r`: `m₀` is the
mesh without the message, `c p` what the message says about `p`. -/
theorem MeshInv.commit {m m₀ : Mesh Id Path} (h : MeshInv m) (i : Id) (r : LockNode.Result Id Path)
    (c : Path → Option (Id × Sig))
    (hme : r.1.locks.me = (m.node i).locks.me)
    (hr : ∀ p, Handles i (Finset.univ.erase i) p (c p) (m.node i) r)
    (hnode : m₀.node = m.node) (hchan : ∀ a b, b ≠ i → m₀.chan a b = m.chan a b)
    (htaken : ∀ p a, a ≠ i → sigs p (m.chan a i) = taken a (c p) ++ sigs p (m₀.chan a i))
    (hsender : ∀ p k s, c p = some (k, s) → k ≠ i) (hself : m₀.chan i i = [])
    (hok : ∀ p j, c p = some (j, .grant) → Pending (m.node i).locks.states[p]? →
      .req ∉ sigs p (m.chan i j) ∧ ∀ s ∈ sigs p (m₀.chan j i), s.isVote = false) :
    MeshInv (m₀.commit i r) := by
  have hnode_i : (m₀.commit i r).node i = r.1 := by simp [Mesh.commit]
  have hnode_ne : ∀ a, a ≠ i → (m₀.commit i r).node a = m.node a := by
    intro a ha
    simp [Mesh.commit, ha, hnode]
  have hchan_out : ∀ b, b ≠ i → (m₀.commit i r).chan i b = m.chan i b ++ outTo b r.2 := by
    intro b hb
    simp [Mesh.commit, hb, hchan]
  have hchan_other : ∀ a b, a ≠ i → (m₀.commit i r).chan a b = m₀.chan a b := by
    intro a b ha
    simp [Mesh.commit, ha]
  refine ⟨fun a => ?_, fun a => ?_, fun a p => ?_, fun a p => ?_, fun p a j haj => ?_⟩
  · by_cases ha : a = i
    · subst ha
      rw [hnode_i, hme]
      exact h.me a
    · rw [hnode_ne a ha, h.me a]
  · by_cases ha : a = i
    · subst ha
      simpa [Mesh.commit] using hself
    · rw [hchan_other a a ha, hchan a a ha, h.self a]
  · by_cases ha : a = i
    · subst ha
      rw [hnode_i]
      exact (hr p).waiter (h.waiter a p)
    · rw [hnode_ne a ha]
      exact h.waiter a p
  · by_cases ha : a = i
    · subst ha
      rw [hnode_i]
      exact (hr p).move.asksAll (h.asks a p)
    · rw [hnode_ne a ha]
      exact h.asks a p
  · by_cases ha : a = i
    · -- the node is the requester of the pair
      subst ha
      have hj : j ≠ a := haj.symm
      have hpair := h.pair p a j haj
      rw [htaken p j hj] at hpair
      have hback := hpair.requester (hr p).move (hsender p) (by simp [hj]) (h.asks a p)
        (hok p j)
      rw [hnode_i, hnode_ne j hj, hchan_out j hj, hchan_other j a hj]
      simpa [sigs, List.filterMap_append] using hback
    · rw [hnode_ne a ha, hchan_other a j ha]
      by_cases hj : j = i
      · -- the node is the voter of the pair
        subst hj
        have hpair := h.pair p a j haj
        rw [htaken p a ha] at hpair
        have hback := hpair.voter (hr p).move ha
        rw [hnode_i, hchan_out a ha]
        simpa [sigs, List.filterMap_append] using hback
      · rw [hnode_ne j hj, hchan_other j a hj, hchan a j hj, hchan j a ha]
        exact h.pair p a j haj

/-! ## The runs in question -/

/-- The path of the request that is next to be delivered, if it is a request. -/
def nextReq : List (LockMsg Id Path) → Option Path
  | .lockReq rel _ _ :: _ => some rel
  | _ => none

/-- The path of the grant that is next to be delivered, if it is a grant. -/
def nextGrant : List (LockMsg Id Path) → Option Path
  | .lockGrant rel :: _ => some rel
  | _ => none

/-- No lease that a step looks at has expired. -/
def NoExpiry (m : Mesh Id Path) : MeshAct Id Path → Prop
  | .lock i rel now => Live now (m.node i).locks.states[rel]?
  | .deliver src dst now =>
      ∀ rel ∈ nextReq (m.chan src dst), Live now (m.node dst).locks.states[rel]?
  | _ => True

/-- A grant delivered to a node whose request is pending is the last word between the two
nodes on that path: no request of the node is on its way to the voter, and no other vote of
the voter is on its way to the node. -/
def CurrentVote (m : Mesh Id Path) : MeshAct Id Path → Prop
  | .deliver src dst _ =>
      ∀ rel ∈ nextGrant (m.chan src dst), Pending (m.node dst).locks.states[rel]? →
        .req ∉ sigs rel (m.chan dst src) ∧
          ∀ s ∈ sigs rel (m.chan src dst).tail, s.isVote = false
  | _ => True

instance (m : Mesh Id Path) : DecidablePred (NoExpiry m)
  | .lock _ _ _ => inferInstanceAs (Decidable (Live _ _))
  | .deliver _ _ _ => inferInstanceAs (Decidable (∀ rel ∈ nextReq _, Live _ _))
  | .timeout _ _ _ => isTrue trivial
  | .unlock _ _ => isTrue trivial
  | .renew _ _ => isTrue trivial

instance (m : Mesh Id Path) : DecidablePred (CurrentVote m)
  | .deliver src dst _ => inferInstanceAs (Decidable (∀ rel ∈ nextGrant (m.chan src dst),
      Pending (m.node dst).locks.states[rel]? → .req ∉ sigs rel (m.chan dst src) ∧
        ∀ s ∈ sigs rel (m.chan src dst).tail, s.isVote = false))
  | .lock _ _ _ => isTrue trivial
  | .timeout _ _ _ => isTrue trivial
  | .unlock _ _ => isTrue trivial
  | .renew _ _ => isTrue trivial

/-- The local steps: nothing is taken from a channel. -/
theorem MeshInv.commit_local {m : Mesh Id Path} (h : MeshInv m) (i : Id)
    (r : LockNode.Result Id Path)
    (hr : ∀ p, Handles i (Finset.univ.erase i) p none (m.node i) r)
    (hme : r.1.locks.me = (m.node i).locks.me) : MeshInv (m.commit i r) :=
  h.commit i r (fun _ => none) hme hr rfl (fun _ _ _ => rfl) (fun _ _ _ => rfl) (by simp)
    (h.self i) (by simp)

theorem MeshInv.step {m m' : Mesh Id Path} {a : MeshAct Id Path} (h : MeshInv m)
    (hlive : NoExpiry m a) (hcur : CurrentVote m a) (hs : m.step a = some m') :
    MeshInv m' := by
  cases a with
  | lock i rel now =>
      obtain rfl := Option.some.inj hs
      have hr : ∀ p, Handles i (Finset.univ.erase i) p none (m.node i) _ :=
        fun p => handleLock_handles rel now hlive
      exact h.commit_local i _ hr (hr rel).self
  | timeout i rel lamport =>
      obtain rfl := Option.some.inj hs
      have hr : ∀ p, Handles i (Finset.univ.erase i) p none (m.node i) _ :=
        fun p => onAcquireTimeout_handles rel lamport (h.waiter i rel)
      exact h.commit_local i _ hr (hr rel).self
  | unlock i rel =>
      obtain rfl := Option.some.inj hs
      have hr : ∀ p, Handles i (Finset.univ.erase i) p none (m.node i) _ :=
        fun p => unlock_handles rel (h.me i)
      exact h.commit_local i _ hr (hr rel).self
  | renew i now =>
      obtain rfl := Option.some.inj hs
      exact h.commit_local i _ (fun _ => onRenewTick_handles now) (onRenewTick_me now)
  | deliver src dst now =>
      simp only [Mesh.step] at hs
      split at hs
      · cases hs
      · rename_i msg rest hchan
        obtain rfl := Option.some.inj hs
        have hne : src ≠ dst := by
          rintro rfl
          rw [h.self] at hchan
          cases hchan
        simp only [NoExpiry, CurrentVote, hchan, List.tail_cons] at hlive hcur
        have hr : ∀ p, Handles dst (Finset.univ.erase dst) p (signal p src msg)
            (m.node dst) _ :=
          fun p => onCtl_handles (m.mayLock dst src) src now msg (h.me dst) (by
            rintro rel lamport ttlMs rfl
            exact hlive rel rfl)
        have hpop : (m.pop src dst).chan src dst = rest := by simp [pop, hchan]
        refine h.commit dst _ (fun p => signal p src msg) (onCtl_me _ _ _ _) hr rfl
          (fun a b hb => ?_) (fun p a ha => ?_) (fun p k s hc => ?_) ?_ (fun p j hc hp => ?_)
        · simp [pop, hb]
        · by_cases hsrc : a = src
          · subst hsrc
            rw [hpop, hchan]
            cases hm : sig p msg with
            | none => simp [sigs, signal, hm, taken]
            | some s => simp [sigs, signal, hm, taken]
          · have hk : taken a (signal p src msg) = [] := by
              cases hm : sig p msg with
              | none => simp [signal, hm, taken]
              | some s => simp [signal, hm, taken, Ne.symm hsrc]
            simp [pop, hsrc, hk]
        · obtain ⟨_, _, heq⟩ := Option.map_eq_some_iff.mp hc
          obtain ⟨rfl, rfl⟩ := Prod.mk.inj heq
          exact hne
        · simp [pop, hne.symm, h.self]
        · -- only a grant for `p` itself is taken as one
          obtain ⟨_, hsig, heq⟩ := Option.map_eq_some_iff.mp hc
          obtain ⟨rfl, rfl⟩ := Prod.mk.inj heq
          cases msg with
          | lockGrant rel =>
              obtain rfl : rel = p := by
                by_contra hrel
                simp [sig, hrel] at hsig
              rw [hpop]
              exact hcur rel rfl hp
          | lockReq => simp [sig] at hsig
          | lockDeny => simp [sig] at hsig
          | lockRelease => simp [sig] at hsig
          | lockRenew => simp [sig] at hsig

/-! ## At most one holder -/

/-- Two holders of a path have counted each other's votes, so each table backs the other. -/
theorem MeshInv.one_holder {m : Mesh Id Path} (h : MeshInv m) {p : Path} {i j : Id}
    (hi : (m.node i).locks.isHeldByMe p = true) (hj : (m.node j).locks.isHeldByMe p = true) :
    i = j := by
  rw [isHeldByMe_iff, h.me] at hi hj
  by_contra hne
  have hvote : HasVote i j (m.node i).locks.states[p]? := hi.hasVote
  exact hne ((((h.pair p i j hne).voted hvote).1).unique hj)

/-- **Mutual exclusion.** In every run of the mesh, without lease expiry, in which the
grants that are counted are current votes, at most one node holds a path. -/
theorem mutual_exclusion_of_currentVote (timings : Id → LockTimings) (mayLock : Id → Id → Bool)
    (m : Mesh Id Path)
    (h : Reaches step (fun m a => NoExpiry m a ∧ CurrentVote m a) (init timings mayLock) m)
    (p : Path) (i j : Id) (hi : (m.node i).locks.isHeldByMe p = true)
    (hj : (m.node j).locks.isHeldByMe p = true) : i = j := by
  have hinv : MeshInv m := h.invariant (inv_init timings mayLock)
    fun _ _ _ hv hok hs => hv.step hok.1 hok.2 hs
  exact hinv.one_holder hi hj

/-! ## A vote that outlives its round

Two nodes race for a path, both rounds time out, and each node then answers the request of
the other. The answers are still in flight when both start a second round, and each node
counts the vote of the first round for it. -/

/-- A session of two nodes with the default timings, both of them editors. -/
def pairSession : Mesh (Fin 2) Nat := init (fun _ => ⟨90000, 30000, 8000⟩) fun _ _ => true

theorem two_holders : ∃ m, Reaches step NoExpiry pairSession m ∧
    (m.node 0).locks.isHeldByMe 0 = true ∧ (m.node 1).locks.isHeldByMe 0 = true := by
  have h : (executeChecked step (fun m a => decide (NoExpiry m a))
      [.lock 0 0 0, .lock 1 0 0, .timeout 0 0 1, .timeout 1 0 1,
        .deliver 0 1 1, .deliver 1 0 1, .deliver 0 1 2, .deliver 1 0 2,
        .lock 0 0 3, .lock 1 0 3, .deliver 0 1 4, .deliver 1 0 4] pairSession).any
      (fun m => (m.node 0).locks.isHeldByMe 0 && (m.node 1).locks.isHeldByMe 0) = true := by
    decide
  obtain ⟨m, hm, hheld⟩ := exists_reaches_of_executeChecked h
  exact ⟨m, hm.mono fun _ _ => of_decide_eq_true, by simpa using hheld⟩

/-- The exclusion theorem at work: after one full round, node 0 holds the path and its peer
cannot. -/
theorem mutual_exclusion_one_round :
    ∃ m, Reaches step (fun m a => NoExpiry m a ∧ CurrentVote m a) pairSession m ∧
      (m.node 0).locks.isHeldByMe 0 = true ∧
      ∀ j, (m.node j).locks.isHeldByMe 0 = true → 0 = j := by
  have h : (executeChecked step (fun m a => decide (NoExpiry m a ∧ CurrentVote m a))
      [.lock 0 0 0, .deliver 0 1 1, .deliver 1 0 2] pairSession).any
      (fun m => (m.node 0).locks.isHeldByMe 0) = true := by
    decide
  obtain ⟨m, hm, hheld⟩ := exists_reaches_of_executeChecked h
  have hrun := hm.mono fun _ _ => of_decide_eq_true
  exact ⟨m, hrun, hheld, fun j => mutual_exclusion_of_currentVote _ _ m hrun 0 0 j hheld⟩

end Tazamun.Mesh
