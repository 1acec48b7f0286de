import Tazamun.Locks.Pair

set_option autoImplicit false

/-! # How a lease is won

The lease table under an arbitrary sequence of its operations. A path should become
self-held in one way only: a local `start_request`, then a grant from every voter of that
request while it stays pending, the last of which turns the request into a lease.
`WonByVote` says this of a sequence of operations, and of the lease the table holds at its
end.

One operation breaks the rule. `observe_lease` installs whatever lease a peer's index
advertises, and it does not ask whether the advertised holder is this very node: an index
that names it as the holder of a free path makes it hold a lease nobody granted
(`held_without_vote`). Without such gossip (`NoGossipedWin`) every self-held lease is won.
-/

namespace Tazamun

open LockTable Mesh

variable {Id Path : Type} [LinearOrder Id] [LinearOrder Path]

/-- The operations of the table that change it. -/
inductive TableOp (Id Path : Type) where
  | setTimings (timings : LockTimings)
  | startRequest (path : Path) (lamport : U64) (voters : Finset Id) (now : Nat)
  | onGrant (path : Path) (sender : Id) (now : Nat)
  | onDeny (path : Path)
  | onRemoteRequest (path : Path) (holder : Id) (lamport ttlMs : U64) (now : Nat)
  | onRelease (path : Path) (sender : Id)
  | onRenew (path : Path) (sender : Id) (ttlMs : U64) (now : Nat)
  | renewOwn (path : Path) (now : Nat)
  | observeLease (path : Path) (holder : Id) (lamport expiresInMs : U64) (now : Nat)
  | onPeerDown (id : Id)
  | sweep (now : Nat)
deriving DecidableEq

namespace LockTable

def apply (t : LockTable Id Path) : TableOp Id Path → LockTable Id Path
  | .setTimings timings => t.setTimings timings
  | .startRequest path lamport voters now => (t.startRequest path lamport voters now).1
  | .onGrant path sender now => (t.onGrant path sender now).1
  | .onDeny path => (t.onDeny path).1
  | .onRemoteRequest path holder lamport ttlMs now =>
      (t.onRemoteRequest path holder lamport ttlMs now).1
  | .onRelease path sender => t.onRelease path sender
  | .onRenew path sender ttlMs now => t.onRenew path sender ttlMs now
  | .renewOwn path now => t.renewOwn path now
  | .observeLease path holder lamport expiresInMs now =>
      t.observeLease path holder lamport expiresInMs now
  | .onPeerDown id => (t.onPeerDown id).1
  | .sweep now => (t.sweep now).1

/-- The table after a sequence of operations, oldest first. -/
def run (t : LockTable Id Path) (ops : List (TableOp Id Path)) : LockTable Id Path :=
  ops.foldl apply t

theorem run_concat (t : LockTable Id Path) (ops : List (TableOp Id Path))
    (op : TableOp Id Path) : t.run (ops ++ [op]) = (t.run ops).apply op := by
  simp [run]

/-- Remote requests come from other nodes. -/
def FromPeer (t : LockTable Id Path) : TableOp Id Path → Prop
  | .onRemoteRequest _ holder _ _ _ => holder ≠ t.me
  | _ => True

/-- A lease of this node that is observed in an index is not news: the path is already
self-held, or pending, or held by a peer whose claim is not beaten, or there is no room. -/
def NoGossipedWin (t : LockTable Id Path) : TableOp Id Path → Prop
  | .observeLease path holder lamport _ now =>
      holder = t.me →
        (t.pruneExpired path now).atCapacityForNew path = true ∨
          match liveAt now t.states[path]? with
          | none => False
          | some (.pendingLocal _ _ _ _) => True
          | some (.held h l _ _) => h = holder ∨ ¬ toLex (lamport, holder) < toLex (l, h)
  | _ => True

/-- The operations of `t` won `path` by vote: the sequence ends in a request that was
accepted, stayed pending while every voter granted it, and a lease kept since. -/
def WonByVote (t : LockTable Id Path) (ops : List (TableOp Id Path)) (path : Path) : Prop :=
  ∃ pre lamport voters start mid sender now post,
    ops = pre ++ .startRequest path lamport voters start ::
      (mid ++ .onGrant path sender now :: post) ∧
    ((t.run pre).startRequest path lamport voters start).2 = .ok () ∧
    (∀ mid', mid' <+: mid → Pending
      (t.run (pre ++ .startRequest path lamport voters start :: mid')).states[path]?) ∧
    (∀ v ∈ voters, ∃ at', .onGrant path v at' ∈ mid ++ [.onGrant path sender now]) ∧
    ∀ post', post' <+: post → (t.run (pre ++ .startRequest path lamport voters start ::
      (mid ++ .onGrant path sender now :: post'))).isHeldByMe path = true

/-! ## What one operation does to a path -/

theorem apply_me (t : LockTable Id Path) (op : TableOp Id Path) : (t.apply op).me = t.me := by
  cases op with
  | setTimings => rfl
  | startRequest => exact (startRequest_onlyAt _ _ _ _ _).me
  | onGrant => exact (onGrant_onlyAt _ _ _ _).me
  | onDeny => exact (onDeny_onlyAt _ _).me
  | onRemoteRequest => exact (onRemoteRequest_onlyAt _ _ _ _ _ _).me
  | onRelease => exact (onRelease_onlyAt _ _ _).me
  | onRenew => exact (onRenew_onlyAt _ _ _ _ _).me
  | renewOwn => exact (renewOwn_onlyAt _ _ _).me
  | observeLease => exact (observeLease_onlyAt _ _ _ _ _ _).me
  | onPeerDown => rfl
  | sweep => rfl

theorem run_me (t : LockTable Id Path) (ops : List (TableOp Id Path)) :
    (t.run ops).me = t.me := by
  induction ops using List.reverseRecOn with
  | nil => rfl
  | append_singleton ops op ih => rw [run_concat, apply_me, ih]

/-- What an operation can have done to the entry `s` of `p` that it leaves behind. -/
inductive Became (t : LockTable Id Path) (p : Path) : TableOp Id Path → LockState Id → Prop
  | same {op s} (h : t.states[p]? = some s) : Became t p op s
  | peer {op h l x since} (hne : h ≠ t.me) : Became t p op (.held h l x since)
  | kept {op l x since} (h : HeldBy t.me t.states[p]?) : Became t p op (.held t.me l x since)
  | asked {l voters now d} (h : (t.startRequest p l voters now).2 = .ok ()) :
      Became t p (.startRequest p l voters now) (.pendingLocal l voters ∅ d)
  | granted {sender now l needed granted d}
      (h : t.states[p]? = some (.pendingLocal l needed granted d)) :
      Became t p (.onGrant p sender now) (.pendingLocal l needed (insert sender granted) d)
  | won {sender now l needed granted d x since}
      (h : t.states[p]? = some (.pendingLocal l needed granted d))
      (hall : needed ⊆ insert sender granted) :
      Became t p (.onGrant p sender now) (.held t.me l x since)

variable {t : LockTable Id Path} {p : Path} {s : LockState Id}

/-- A lease whose holder does not change. -/
theorem Became.refresh {op : TableOp Id Path} {h : Id} {l l' : U64} {x x' since since' : Nat}
    (he : t.states[p]? = some (.held h l x since)) :
    Became t p op (.held h l' x' since') := by
  by_cases hme : h = t.me
  · subst hme
    exact .kept (by rw [he]; rfl)
  · exact .peer hme

/-- An operation that leaves the entry of `p` alone. -/
theorem Became.of_get_eq {op : TableOp Id Path} {t' : LockTable Id Path}
    (he : t'.states[p]? = t.states[p]?) (h : t'.states[p]? = some s) : Became t p op s :=
  .same (by rw [← he, h])

theorem Became.of_onlyAt {op : TableOp Id Path} {t' : LockTable Id Path} {q : Path}
    (ht : OnlyAt q t t') (hq : q ≠ p) (h : t'.states[p]? = some s) : Became t p op s :=
  .of_get_eq (ht.get p hq) h

omit [LinearOrder Id] in
theorem liveAt_eq_some {now : Nat} {e : Option (LockState Id)} (h : liveAt now e = some s) :
    e = some s := by
  unfold liveAt at h
  split at h
  · split at h
    · cases h
    · exact h
  · exact h

theorem Became.of_pruned {op : TableOp Id Path} {now : Nat}
    (h : (t.pruneExpired p now).states[p]? = some s) : Became t p op s := by
  rw [pruneExpired_get_self] at h
  exact .same (liveAt_eq_some h)

theorem startRequest_became {l : U64} {voters : Finset Id} {now : Nat}
    (h : (t.startRequest p l voters now).1.states[p]? = some s) :
    Became t p (.startRequest p l voters now) s := by
  have hok : (t.pruneExpired p now).states[p]? = none →
      (t.startRequest p l voters now).2 = .ok () := by
    intro hnone
    simp [startRequest, hnone]
  unfold startRequest at h
  dsimp only at h
  split at h
  · exact .of_pruned h
  · exact .of_pruned h
  · rename_i hnone
    rw [put_get_self] at h
    obtain rfl := Option.some.inj h
    exact .asked (hok hnone)

theorem onGrant_became {sender : Id} {now : Nat}
    (h : (t.onGrant p sender now).1.states[p]? = some s) :
    Became t p (.onGrant p sender now) s := by
  unfold onGrant at h
  split at h
  · rename_i he
    split at h
    · dsimp only at h
      split at h
      · rename_i hall
        rw [put_get_self] at h
        obtain rfl := Option.some.inj h
        exact .won he hall
      · rw [put_get_self] at h
        obtain rfl := Option.some.inj h
        exact .granted he
    · exact .same h
  · exact .same h

theorem onRemoteRequest_became {holder : Id} {l ttlMs : U64} {now : Nat}
    (hpeer : holder ≠ t.me)
    (h : (t.onRemoteRequest p holder l ttlMs now).1.states[p]? = some s) :
    Became t p (.onRemoteRequest p holder l ttlMs now) s := by
  have hnew : ∀ l' x since, Became t p (.onRemoteRequest p holder l ttlMs now)
      (.held holder l' x since) := fun _ _ _ => .peer hpeer
  unfold onRemoteRequest at h
  dsimp only at h
  split at h
  · exact .of_pruned h
  · split at h
    · split at h
      · rw [put_get_self] at h
        obtain rfl := Option.some.inj h
        exact hnew _ _ _
      · exact .of_pruned h
    · split at h
      · rw [put_get_self] at h
        obtain rfl := Option.some.inj h
        exact hnew _ _ _
      · exact .of_pruned h
    · rw [put_get_self] at h
      obtain rfl := Option.some.inj h
      exact hnew _ _ _

theorem observeLease_became {holder : Id} {l ms : U64} {now : Nat}
    (hgossip : NoGossipedWin t (.observeLease p holder l ms now))
    (h : (t.observeLease p holder l ms now).states[p]? = some s) :
    Became t p (.observeLease p holder l ms now) s := by
  have hprune := pruneExpired_get_self t p now
  unfold observeLease at h
  dsimp only at h
  split at h
  · exact .of_pruned h
  · rename_i hroom
    have hlive := fun hme => (hgossip hme).resolve_left hroom
    rw [← hprune] at hlive
    split at h
    · rename_i hnone
      rw [put_get_self] at h
      obtain rfl := Option.some.inj h
      refine .peer fun hme => ?_
      simpa [hnone] using hlive hme
    · rename_i h' l' x since he
      split at h
      · rename_i hcond
        rw [put_get_self] at h
        obtain rfl := Option.some.inj h
        by_cases hsame : h' = holder
        · subst hsame
          exact .refresh (liveAt_eq_some (hprune ▸ he))
        · refine .peer fun hme => ?_
          have hlow := hcond.resolve_left hsame
          have hbeats := hlive hme
          rw [he] at hbeats
          exact hbeats.elim hsame fun hn => hn hlow
      · exact .of_pruned h
    · exact .of_pruned h

/-- **Inversion of the table's operations.** -/
theorem apply_became {op : TableOp Id Path} (hpeer : FromPeer t op)
    (hgossip : NoGossipedWin t op) (h : (t.apply op).states[p]? = some s) :
    Became t p op s := by
  cases op with
  | setTimings => exact .same h
  | startRequest q l voters now =>
      by_cases hq : q = p
      · subst hq
        exact startRequest_became h
      · exact .of_onlyAt (startRequest_onlyAt _ _ _ _ _) hq h
  | onGrant q sender now =>
      by_cases hq : q = p
      · subst hq
        exact onGrant_became h
      · exact .of_onlyAt (onGrant_onlyAt _ _ _ _) hq h
  | onDeny q =>
      by_cases hq : q = p
      · subst hq
        simp only [apply, onDeny] at h
        split at h
        · simp at h
        · exact .same h
      · exact .of_onlyAt (onDeny_onlyAt _ _) hq h
  | onRemoteRequest q holder l ttlMs now =>
      by_cases hq : q = p
      · subst hq
        exact onRemoteRequest_became hpeer h
      · exact .of_onlyAt (onRemoteRequest_onlyAt _ _ _ _ _ _) hq h
  | onRelease q sender =>
      by_cases hq : q = p
      · subst hq
        simp only [apply, onRelease] at h
        split at h
        · split at h
          · simp at h
          · exact .same h
        · exact .same h
      · exact .of_onlyAt (onRelease_onlyAt _ _ _) hq h
  | onRenew q sender ttlMs now =>
      by_cases hq : q = p
      · subst hq
        simp only [apply, onRenew] at h
        split at h
        · rename_i he
          split at h
          · rw [put_get_self] at h
            obtain rfl := Option.some.inj h
            exact .refresh he
          · exact .same h
        · exact .same h
      · exact .of_onlyAt (onRenew_onlyAt _ _ _ _ _) hq h
  | renewOwn q now =>
      by_cases hq : q = p
      · subst hq
        simp only [apply, renewOwn] at h
        split at h
        · rename_i he
          split at h
          · rw [put_get_self] at h
            obtain rfl := Option.some.inj h
            exact .refresh he
          · exact .same h
        · exact .same h
      · exact .of_onlyAt (renewOwn_onlyAt _ _ _) hq h
  | observeLease q holder l ms now =>
      by_cases hq : q = p
      · subst hq
        exact observeLease_became hgossip h
      · exact .of_onlyAt (observeLease_onlyAt _ _ _ _ _ _) hq h
  | onPeerDown id =>
      simp only [apply, onPeerDown, Std.ExtTreeMap.getElem?_filter'] at h
      exact .same (Option.filter_eq_some_iff.mp h).1
  | sweep now =>
      simp only [apply, sweep, Std.ExtTreeMap.getElem?_filter'] at h
      exact .same (Option.filter_eq_some_iff.mp h).1

/-! ## Every lease is won -/

/-- The operations end in a round on `path` that waits for `needed`, with the grants
`granted` cast in it. -/
def InRound (t : LockTable Id Path) (ops : List (TableOp Id Path)) (path : Path)
    (lamport : U64) (needed granted : Finset Id) : Prop :=
  ∃ pre start mid,
    ops = pre ++ .startRequest path lamport needed start :: mid ∧
    ((t.run pre).startRequest path lamport needed start).2 = .ok () ∧
    (∀ mid', mid' <+: mid → Pending
      (t.run (pre ++ .startRequest path lamport needed start :: mid')).states[path]?) ∧
    ∀ v ∈ granted, ∃ at', .onGrant path v at' ∈ mid

/-- What the operations say about the entry they lead to. -/
def Explains (t : LockTable Id Path) (ops : List (TableOp Id Path)) (path : Path) :
    LockState Id → Prop
  | .pendingLocal lamport needed granted _ => t.InRound ops path lamport needed granted
  | .held h _ _ _ => h = t.me → t.WonByVote ops path

/-- A round goes on through an operation that leaves the request pending. -/
theorem InRound.extend {ops : List (TableOp Id Path)} {op : TableOp Id Path} {l : U64}
    {needed g g' : Finset Id} (h : t.InRound ops p l needed g)
    (hpend : Pending (t.run (ops ++ [op])).states[p]?)
    (hg : ∀ v ∈ g', v ∈ g ∨ ∃ at', op = .onGrant p v at') :
    t.InRound (ops ++ [op]) p l needed g' := by
  obtain ⟨pre, start, mid, rfl, hok, hmid, hgr⟩ := h
  refine ⟨pre, start, mid ++ [op], by simp, hok, fun mid' hpre => ?_, fun v hv => ?_⟩
  · rcases List.prefix_concat_iff.mp hpre with rfl | hpre
    · simpa using hpend
    · exact hmid mid' hpre
  · rcases hg v hv with hv | ⟨at', rfl⟩
    · obtain ⟨at', hat⟩ := hgr v hv
      exact ⟨at', List.mem_append_left _ hat⟩
    · exact ⟨at', by simp⟩

/-- A round ends with the last grant. -/
theorem InRound.won {ops : List (TableOp Id Path)} {sender : Id} {now : Nat} {l : U64}
    {needed g : Finset Id} (h : t.InRound ops p l needed g) (hall : needed ⊆ insert sender g)
    (hheld : (t.run (ops ++ [.onGrant p sender now])).isHeldByMe p = true) :
    t.WonByVote (ops ++ [.onGrant p sender now]) p := by
  obtain ⟨pre, start, mid, rfl, hok, hmid, hgr⟩ := h
  refine ⟨pre, l, needed, start, mid, sender, now, [], by simp, hok, hmid, fun v hv => ?_,
    fun post' hpost => ?_⟩
  · rcases Finset.mem_insert.mp (hall hv) with rfl | hvg
    · exact ⟨now, by simp⟩
    · obtain ⟨at', hat⟩ := hgr v hvg
      exact ⟨at', List.mem_append_left _ hat⟩
  · obtain rfl := List.prefix_nil.mp hpost
    simpa using hheld

/-- A won lease stays won while it is held. -/
theorem WonByVote.extend {ops : List (TableOp Id Path)} {op : TableOp Id Path}
    (h : t.WonByVote ops p) (hheld : (t.run (ops ++ [op])).isHeldByMe p = true) :
    t.WonByVote (ops ++ [op]) p := by
  obtain ⟨pre, l, voters, start, mid, sender, now, post, rfl, hok, hmid, hgr, hpost⟩ := h
  refine ⟨pre, l, voters, start, mid, sender, now, post ++ [op], by simp, hok, hmid, hgr,
    fun post' hpre => ?_⟩
  rcases List.prefix_concat_iff.mp hpre with rfl | hpre
  · simpa using hheld
  · exact hpost post' hpre

/-- Every operation of the sequence meets `ok` in the table it is applied to. -/
def Throughout (ok : LockTable Id Path → TableOp Id Path → Prop) (t : LockTable Id Path) :
    List (TableOp Id Path) → Prop
  | [] => True
  | op :: ops => ok t op ∧ Throughout ok (t.apply op) ops

theorem throughout_concat {ok : LockTable Id Path → TableOp Id Path → Prop}
    {ops : List (TableOp Id Path)} {op : TableOp Id Path} :
    Throughout ok t (ops ++ [op]) ↔ Throughout ok t ops ∧ ok (t.run ops) op := by
  induction ops generalizing t with
  | nil => simp [Throughout, run]
  | cons op' ops ih =>
      rw [List.cons_append, Throughout, ih, Throughout, and_assoc]
      rfl

/-- The invariant: the operations explain every entry they lead to. -/
theorem explains_of_throughout (hempty : t.states = ∅) (ops : List (TableOp Id Path))
    (hpeer : Throughout FromPeer t ops) (hgossip : Throughout NoGossipedWin t ops)
    (h : (t.run ops).states[p]? = some s) : t.Explains ops p s := by
  induction ops using List.reverseRecOn generalizing s with
  | nil =>
      rw [run, List.foldl_nil, hempty] at h
      simp at h
  | append_singleton ops op ih =>
      rw [throughout_concat] at hpeer hgossip
      have ih := fun s' (he : (t.run ops).states[p]? = some s') => ih hpeer.1 hgossip.1 he
      have hheld : HeldBy t.me (some s) → (t.run (ops ++ [op])).isHeldByMe p = true := by
        intro hs
        rw [isHeldByMe_iff, h, run_me]
        exact hs
      have hpend : Pending (some s) → Pending (t.run (ops ++ [op])).states[p]? := by
        intro hs
        rw [h]
        exact hs
      rw [run_concat] at h
      have hbecame := apply_became hpeer.2 hgossip.2 h
      cases hbecame with
      | same he =>
          have hold := ih s he
          cases s with
          | pendingLocal => exact hold.extend (hpend trivial) fun v hv => .inl hv
          | held => exact fun hme => (hold hme).extend (hheld hme)
      | peer hne =>
          rw [run_me] at hne
          exact fun hme => absurd hme hne
      | kept he =>
          rw [run_me] at he hheld
          intro _
          unfold HeldBy at he
          split at he
          · rename_i he'
            exact (ih _ he' he).extend (hheld rfl)
          · exact he.elim
      | asked hok =>
          refine ⟨ops, _, [], rfl, hok, fun mid' hpre => ?_, by simp⟩
          obtain rfl := List.prefix_nil.mp hpre
          exact hpend trivial
      | granted he =>
          refine InRound.extend (ih _ he) (hpend trivial) fun v hv => ?_
          rcases Finset.mem_insert.mp hv with rfl | hv
          · exact .inr ⟨_, rfl⟩
          · exact .inl hv
      | won he hall =>
          rw [run_me] at hheld
          exact fun _ => InRound.won (ih _ he) hall (hheld rfl)

/-- **A node only holds leases it won.** After any sequence of operations, with remote
requests from other nodes only and no lease of this node's own learnt from an index, a path
that is self-held was requested, granted by every voter of that request, and held since. -/
theorem wonByVote_of_noGossipedWin (me : Id) (timings : LockTimings)
    (ops : List (TableOp Id Path)) (hpeer : Throughout FromPeer (new me timings) ops)
    (hgossip : Throughout NoGossipedWin (new me timings) ops) (path : Path)
    (h : ((new me timings).run ops).isHeldByMe path = true) :
    (new me timings).WonByVote ops path := by
  rw [isHeldByMe_iff, run_me] at h
  unfold HeldBy at h
  split at h
  · rename_i he
    exact explains_of_throughout rfl ops hpeer hgossip he h
  · exact h.elim

/-- One request, one grant: the lease is won. -/
theorem wonByVote_one_voter :
    (new 0 ⟨90000, 30000, 8000⟩).WonByVote [.startRequest 7 1 {1} 0, .onGrant 7 1 5] 7 :=
  wonByVote_of_noGossipedWin 0 ⟨90000, 30000, 8000⟩ [.startRequest 7 1 {1} 0, .onGrant 7 1 5]
    ⟨trivial, trivial, trivial⟩ ⟨trivial, trivial, trivial⟩ 7 (by decide)

/-- The index of a peer names node 0 as the holder of path 7, and node 0 believes it. -/
theorem held_without_vote :
    ∃ ops : List (TableOp Nat Nat), Throughout FromPeer (new 0 ⟨90000, 30000, 8000⟩) ops ∧
      ((new 0 ⟨90000, 30000, 8000⟩).run ops).isHeldByMe 7 = true ∧
      ¬ (new 0 ⟨90000, 30000, 8000⟩).WonByVote ops 7 := by
  refine ⟨[.observeLease 7 0 1 60000 0], ⟨trivial, trivial⟩, by decide, ?_⟩
  rintro ⟨pre, l, voters, start, mid, sender, now, post, hops, -⟩
  have hlen := congrArg List.length hops
  simp at hlen
  omega

end LockTable

end Tazamun
