import Tazamun.Locks.Mesh

set_option autoImplicit false

/-! # One node's lock plane, operation by operation

Everything that touches the lock table of a node, apart from the leases of an index, as one
type of operations: the handlers of `LockNode`, the sweep of the timer task, the loss of a
peer, and a change of the timings. What an operation can do to a lease is said once:

* a lease of another node `k` is there afterwards only if it was there before, just as it is,
  unless the operation is the receipt of a message of `k` (`perform_foreign`);
* a lease of our own is there afterwards only if it was there before, just as it is, unless
  it was renewed or won, and then it runs for the TTL in force (`perform_own`);
* a path is claimed with the request of a new round and with every tick, and otherwise what is
  said of it last is that it is free (`perform_starts`, `onRenewTick_words`, `perform_modest`).
-/

namespace Tazamun

variable {Id Path : Type} [LinearOrder Id] [LinearOrder Path]

/-- An operation on the lock plane of a node. -/
inductive PlaneOp (Id Path : Type) where
  | lock (voters : Finset Id) (rel : Path)
  | timeout (rel : Path) (lamport : U64)
  | unlock (rel : Path)
  | renew
  | receive (mayLock : Bool) (sender : Id) (msg : LockMsg Id Path)
  | peerDown (id : Id)
  | sweep
  | retime (timings : LockTimings)

namespace LockNode

/-- The waiters of the rounds on `rels` are answered, and the votes are freed. -/
def giveUp (n : LockNode Id Path) (rels : List Path) : Result Id Path :=
  ({ n with acquires := rels.foldl (fun m rel => m.erase rel) n.acquires },
    rels.map fun rel => .all (.lockRelease rel))

/-- The lock plane of `on_peer_gone`. -/
def onPeerGone (n : LockNode Id Path) (id : Id) : Result Id Path :=
  let (locks, aborted) := n.locks.onPeerDown id
  { n with locks }.giveUp aborted

/-- The lock plane of `on_sweep`, after the idle leases. -/
def onSweep (n : LockNode Id Path) (now : Nat) : Result Id Path :=
  let (locks, swept) := n.locks.sweep now
  { n with locks }.giveUp swept.timedOut

def perform (n : LockNode Id Path) (now : Nat) : PlaneOp Id Path → Result Id Path
  | .lock voters rel => n.handleLock voters rel now
  | .timeout rel lamport => n.onAcquireTimeout rel lamport
  | .unlock rel => n.unlock rel
  | .renew => n.onRenewTick now
  | .receive mayLock sender msg => n.onCtl mayLock sender now msg
  | .peerDown id => n.onPeerGone id
  | .sweep => n.onSweep now
  | .retime timings => ({ n with locks := n.locks.setTimings timings }, [])

end LockNode

/-! ## The leases of one holder -/

namespace LockTable

/-- Every lease of `k` in `t'` is in `t`, just as it is. -/
def NoNewLease (k : Id) (t t' : LockTable Id Path) : Prop :=
  ∀ (p : Path) l e s, t'.states[p]? = some (.held k l e s) → t.states[p]? = some (.held k l e s)

variable {k : Id} {t t' t'' : LockTable Id Path}

theorem NoNewLease.refl : NoNewLease k t t := fun _ _ _ _ h => h

theorem NoNewLease.trans (h : NoNewLease k t t') (h' : NoNewLease k t' t'') :
    NoNewLease k t t'' :=
  fun p l e s hp => h p l e s (h' p l e s hp)

theorem noNewLease_drop (path : Path) : NoNewLease k t (t.drop path) := by
  intro p l e s hp
  rw [drop, Map.get_erase] at hp
  split at hp
  · cases hp
  · exact hp

theorem noNewLease_put (path : Path) {st : LockState Id}
    (hst : ∀ l e s, st ≠ .held k l e s) : NoNewLease k t (t.put path st) := by
  intro p l e s hp
  rw [put, Map.get_insert] at hp
  split at hp
  · cases hp
    exact absurd rfl (hst l e s)
  · exact hp

theorem noNewLease_filter {f : Path → LockState Id → Bool} :
    NoNewLease k t { t with states := t.states.filter f } := by
  intro p l e s hp
  simp only [Std.ExtTreeMap.getElem?_filter'] at hp
  exact (Option.filter_eq_some_iff.mp hp).1

theorem pruneExpired_noNewLease (path : Path) (now : Nat) :
    NoNewLease k t (t.pruneExpired path now) := by
  unfold pruneExpired
  split
  · split
    · exact noNewLease_drop path
    · exact .refl
  · exact .refl

theorem startRequest_noNewLease (path : Path) (lamport : U64) (voters : Finset Id) (now : Nat) :
    NoNewLease k t (t.startRequest path lamport voters now).1 := by
  have hp := pruneExpired_noNewLease (k := k) (t := t) path now
  unfold startRequest
  dsimp only
  split
  · exact hp
  · exact hp
  · exact hp.trans (noNewLease_put path (by simp))

theorem onGrant_noNewLease (hk : k ≠ t.me) (path : Path) (sender : Id) (now : Nat) :
    NoNewLease k t (t.onGrant path sender now).1 := by
  unfold onGrant
  split
  · split
    · dsimp only
      split
      · exact noNewLease_put path (by simp [hk.symm])
      · exact noNewLease_put path (by simp)
    · exact .refl
  · exact .refl

theorem onDeny_noNewLease (path : Path) : NoNewLease k t (t.onDeny path).1 := by
  unfold onDeny
  split
  · exact noNewLease_drop path
  · exact .refl

theorem onRemoteRequest_noNewLease (path : Path) {sender : Id} (hk : k ≠ sender)
    (lamport ttlMs : U64) (now : Nat) :
    NoNewLease k t (t.onRemoteRequest path sender lamport ttlMs now).1 := by
  have hp := pruneExpired_noNewLease (k := k) (t := t) path now
  have hput : ∀ l e s, NoNewLease k (t.pruneExpired path now)
      ((t.pruneExpired path now).put path (.held sender l e s)) := fun l e s =>
    noNewLease_put path (by simp [hk.symm])
  unfold onRemoteRequest
  dsimp only
  split
  · exact hp
  · split
    · split
      · exact hp.trans (hput _ _ _)
      · exact hp
    · split
      · exact hp.trans (hput _ _ _)
      · exact hp
    · exact hp.trans (hput _ _ _)

theorem onRelease_noNewLease (path : Path) (sender : Id) :
    NoNewLease k t (t.onRelease path sender) := by
  unfold onRelease
  split
  · split
    · exact noNewLease_drop path
    · exact .refl
  · exact .refl

theorem onRenew_noNewLease (path : Path) {sender : Id} (hk : k ≠ sender) (ttlMs : U64)
    (now : Nat) : NoNewLease k t (t.onRenew path sender ttlMs now) := by
  unfold onRenew
  split
  · split
    · rename_i hs
      exact noNewLease_put path (by simp [hs, hk.symm])
    · exact .refl
  · exact .refl

theorem renewOwn_noNewLease (hk : k ≠ t.me) (path : Path) (now : Nat) :
    NoNewLease k t (t.renewOwn path now) := by
  unfold renewOwn
  split
  · split
    · rename_i hs
      exact noNewLease_put path (by simp [hs, hk.symm])
    · exact .refl
  · exact .refl

/-- A claim of another holder is no lease of `k`. -/
theorem observeLease_noNewLease (path : Path) {holder : Id} (hk : k ≠ holder)
    (lamport ms : U64) (now : Nat) :
    NoNewLease k t (t.observeLease path holder lamport ms now) := by
  have hp := pruneExpired_noNewLease (k := k) (t := t) path now
  have hput : ∀ l e s, NoNewLease k (t.pruneExpired path now)
      ((t.pruneExpired path now).put path (.held holder l e s)) := fun l e s =>
    noNewLease_put path (by simp [hk.symm])
  unfold observeLease
  dsimp only
  split
  · exact hp
  · split
    · exact hp.trans (hput _ _ _)
    · split
      · exact hp.trans (hput _ _ _)
      · exact hp
    · exact hp

end LockTable

open LockTable

namespace LockNode

variable {n : LockNode Id Path} {k : Id} {now : Nat}

/-! ## The table after a handler -/

theorem handleLock_locks (n : LockNode Id Path) (voters : Finset Id) (rel : Path) (now : Nat) :
    (n.handleLock voters rel now).1.locks = n.locks ∨
      (n.handleLock voters rel now).1.locks =
        (n.locks.startRequest rel (n.lamport + 1) voters now).1 := by
  unfold handleLock
  split
  · exact .inl rfl
  · split
    · exact .inl rfl
    · dsimp only
      split
      · rename_i h
        exact .inr (by rw [h])
      · rename_i h
        exact .inr (by rw [h])

theorem onAcquireTimeout_locks (n : LockNode Id Path) (rel : Path) (lamport : U64) :
    (n.onAcquireTimeout rel lamport).1.locks = n.locks ∨
      (n.onAcquireTimeout rel lamport).1.locks = (n.locks.onDeny rel).1 := by
  unfold onAcquireTimeout
  split
  · exact .inr rfl
  · exact .inl rfl

theorem unlock_locks (n : LockNode Id Path) (rel : Path) :
    (n.unlock rel).1.locks = n.locks ∨
      (n.unlock rel).1.locks = n.locks.onRelease rel n.locks.me := by
  unfold LockNode.unlock
  split
  · exact .inr rfl
  · exact .inl rfl

theorem onLockReq_locks (n : LockNode Id Path) (mayLock : Bool) (sender : Id) (rel : Path)
    (lamport ttlMs : U64) (now : Nat) :
    (n.onLockReq mayLock sender rel lamport ttlMs now).1.locks =
      if mayLock then (n.locks.onRemoteRequest rel sender lamport ttlMs now).1 else n.locks := by
  unfold onLockReq
  cases mayLock with
  | false => rfl
  | true =>
      dsimp only
      rw [if_neg (by simp), if_pos rfl]
      rcases n.locks.onRemoteRequest rel sender lamport ttlMs now with ⟨locks, decision⟩
      cases decision <;> rfl

theorem onLockGrant_locks (n : LockNode Id Path) (sender : Id) (rel : Path) (now : Nat) :
    (n.onLockGrant sender rel now).1.locks = (n.locks.onGrant rel sender now).1 := by
  unfold onLockGrant
  rcases n.locks.onGrant rel sender now with ⟨locks, won⟩
  cases won <;> rfl

theorem onLockDeny_locks (n : LockNode Id Path) (rel : Path) :
    (n.onLockDeny rel).1.locks = (n.locks.onDeny rel).1 := by
  unfold onLockDeny
  rcases n.locks.onDeny rel with ⟨locks, aborted⟩
  cases aborted <;> rfl

/-- The operation receives a message of `k`. -/
def hears (k : Id) : PlaneOp Id Path → Bool
  | .receive _ sender _ => decide (sender = k)
  | _ => false

theorem onCtl_noNewLease {mayLock : Bool} {sender : Id} (hk : k ≠ sender)
    {msg : LockMsg Id Path} (hgrant : k ≠ n.locks.me ∨ ∀ rel, msg ≠ .lockGrant rel) :
    NoNewLease k n.locks (n.onCtl mayLock sender now msg).1.locks := by
  cases msg with
  | lockReq rel lamport ttlMs =>
      rw [onCtl, onLockReq_locks]
      split
      · exact onRemoteRequest_noNewLease rel hk lamport ttlMs now
      · exact .refl
  | lockGrant rel =>
      rw [onCtl, onLockGrant_locks]
      exact onGrant_noNewLease (hgrant.resolve_right fun h => h rel rfl) rel sender now
  | lockDeny rel reason =>
      rw [onCtl, onLockDeny_locks]
      exact onDeny_noNewLease rel
  | lockRelease rel => exact onRelease_noNewLease rel sender
  | lockRenew rel lamport ttlMs => exact onRenew_noNewLease rel hk ttlMs now

/-- Apart from votes and ticks, an operation that does not hear `k` has no new lease of it. -/
theorem perform_noNewLease {op : PlaneOp Id Path} (hop : hears k op = false) (hrenew : op ≠ .renew)
    (hgrant : k ≠ n.locks.me ∨ ∀ m sender rel, op ≠ .receive m sender (.lockGrant rel)) :
    NoNewLease k n.locks (n.perform now op).1.locks := by
  cases op with
  | lock voters rel =>
      rw [perform]
      rcases n.handleLock_locks voters rel now with h | h
      · rw [h]
        exact .refl
      · rw [h]
        exact startRequest_noNewLease rel _ voters now
  | timeout rel lamport =>
      rw [perform]
      rcases n.onAcquireTimeout_locks rel lamport with h | h
      · rw [h]
        exact .refl
      · rw [h]
        exact onDeny_noNewLease rel
  | unlock rel =>
      rw [perform]
      rcases n.unlock_locks rel with h | h
      · rw [h]
        exact .refl
      · rw [h]
        exact onRelease_noNewLease rel _
  | renew => exact absurd rfl hrenew
  | receive mayLock sender msg =>
      refine onCtl_noNewLease ?_ (hgrant.imp_right fun h rel hmsg => h _ _ rel (by rw [hmsg]))
      rintro rfl
      simp [hears] at hop
  | peerDown id => exact noNewLease_filter
  | sweep => exact noNewLease_filter
  | retime timings => exact .refl

/-- The tables of a renewal tick, path by path. -/
theorem onRenewTick_locks (n : LockNode Id Path) (now : Nat) :
    (n.onRenewTick now).1.locks =
      n.locks.selfHeldPaths.foldl (fun t rel => t.renewOwn rel now) n.locks := by
  have hloop : ∀ (rels : List Path) (r : Result Id Path),
      (rels.foldl (fun r rel => ({ r.1 with locks := r.1.locks.renewOwn rel now },
        r.2 ++ [.all (.lockRenew rel n.lamport n.ttlMs)])) r).1.locks =
          rels.foldl (fun t rel => t.renewOwn rel now) r.1.locks := by
    intro rels
    induction rels with
    | nil => exact fun r => rfl
    | cons rel rels ih => exact fun r => ih _
  exact hloop _ _

/-- **A lease of another node comes from that node.** -/
theorem perform_foreign (hk : k ≠ n.locks.me) {op : PlaneOp Id Path} (hop : hears k op = false) :
    NoNewLease k n.locks (n.perform now op).1.locks := by
  by_cases hrenew : op = .renew
  · subst hrenew
    rw [perform, onRenewTick_locks]
    have hloop : ∀ (rels : List Path) (t : LockTable Id Path), k ≠ t.me →
        NoNewLease k t (rels.foldl (fun t rel => t.renewOwn rel now) t) := by
      intro rels
      induction rels with
      | nil => exact fun t _ => .refl
      | cons rel rels ih =>
          intro t ht
          have hme := (renewOwn_onlyAt t rel now).me
          exact (renewOwn_noNewLease ht rel now).trans (ih _ (hme ▸ ht))
    exact hloop _ _ hk
  · exact perform_noNewLease hop hrenew (.inl hk)

/-! ## What stays -/

theorem onCtl_me (n : LockNode Id Path) (mayLock : Bool) (sender : Id) (now : Nat)
    (msg : LockMsg Id Path) :
    (n.onCtl mayLock sender now msg).1.locks.me = n.locks.me ∧
      (n.onCtl mayLock sender now msg).1.locks.timings = n.locks.timings := by
  cases msg with
  | lockReq rel lamport ttlMs =>
      have hreq := onRemoteRequest_onlyAt n.locks rel sender lamport ttlMs now
      rw [onCtl, onLockReq_locks]
      split
      · exact ⟨hreq.me, hreq.timings⟩
      · exact ⟨rfl, rfl⟩
  | lockGrant rel =>
      have hgrant := onGrant_onlyAt n.locks rel sender now
      rw [onCtl, onLockGrant_locks]
      exact ⟨hgrant.me, hgrant.timings⟩
  | lockDeny rel reason =>
      have hdeny := onDeny_onlyAt n.locks rel
      rw [onCtl, onLockDeny_locks]
      exact ⟨hdeny.me, hdeny.timings⟩
  | lockRelease rel =>
      have hrel := onRelease_onlyAt n.locks rel sender
      exact ⟨hrel.me, hrel.timings⟩
  | lockRenew rel lamport ttlMs =>
      have hrenew := onRenew_onlyAt n.locks rel sender ttlMs now
      exact ⟨hrenew.me, hrenew.timings⟩

theorem renewAll_me (rels : List Path) (t : LockTable Id Path) (now : Nat) :
    (rels.foldl (fun t rel => t.renewOwn rel now) t).me = t.me ∧
      (rels.foldl (fun t rel => t.renewOwn rel now) t).timings = t.timings := by
  induction rels generalizing t with
  | nil => exact ⟨rfl, rfl⟩
  | cons rel rels ih =>
      have hone := renewOwn_onlyAt t rel now
      obtain ⟨hme, htimings⟩ := ih (t.renewOwn rel now)
      exact ⟨hme.trans hone.me, htimings.trans hone.timings⟩

/-- An operation keeps the node's id, and the timings unless they are set. -/
theorem perform_me (n : LockNode Id Path) (now : Nat) (op : PlaneOp Id Path) :
    (n.perform now op).1.locks.me = n.locks.me ∧
      ((∀ timings, op ≠ .retime timings) →
        (n.perform now op).1.locks.timings = n.locks.timings) := by
  cases op with
  | lock voters rel =>
      have hstart := startRequest_onlyAt n.locks rel (n.lamport + 1) voters now
      rw [perform]
      rcases n.handleLock_locks voters rel now with h | h
      · rw [h]
        exact ⟨rfl, fun _ => rfl⟩
      · rw [h]
        exact ⟨hstart.me, fun _ => hstart.timings⟩
  | timeout rel lamport =>
      have hdeny := onDeny_onlyAt n.locks rel
      rw [perform]
      rcases n.onAcquireTimeout_locks rel lamport with h | h
      · rw [h]
        exact ⟨rfl, fun _ => rfl⟩
      · rw [h]
        exact ⟨hdeny.me, fun _ => hdeny.timings⟩
  | unlock rel =>
      have hrel := onRelease_onlyAt n.locks rel n.locks.me
      rw [perform]
      rcases n.unlock_locks rel with h | h
      · rw [h]
        exact ⟨rfl, fun _ => rfl⟩
      · rw [h]
        exact ⟨hrel.me, fun _ => hrel.timings⟩
  | renew =>
      obtain ⟨hme, htimings⟩ := renewAll_me n.locks.selfHeldPaths n.locks now
      rw [perform, onRenewTick_locks]
      exact ⟨hme, fun _ => htimings⟩
  | receive mayLock sender msg =>
      obtain ⟨hme, htimings⟩ := onCtl_me n mayLock sender now msg
      exact ⟨hme, fun _ => htimings⟩
  | peerDown id => exact ⟨rfl, fun _ => rfl⟩
  | sweep => exact ⟨rfl, fun _ => rfl⟩
  | retime timings => exact ⟨rfl, fun h => absurd rfl (h timings)⟩

/-! ## Leases of our own -/

/-- What a tick leaves of an entry. -/
theorem renewAll_get (rels : List Path) (t : LockTable Id Path) (now : Nat) {p : Path} {l : U64}
    {e s : Nat}
    (h : (rels.foldl (fun t rel => t.renewOwn rel now) t).states[p]? = some (.held t.me l e s)) :
    (∃ e', t.states[p]? = some (.held t.me l e' s)) ∧
      (e = now + t.timings.ttl ∨ p ∉ rels ∧ t.states[p]? = some (.held t.me l e s)) := by
  induction rels generalizing t with
  | nil => exact ⟨⟨e, h⟩, .inr ⟨List.not_mem_nil, h⟩⟩
  | cons rel rels ih =>
      have hone := renewOwn_onlyAt t rel now
      rw [List.foldl_cons, ← hone.me] at h
      obtain ⟨⟨e', hget⟩, htail⟩ := ih (t.renewOwn rel now) h
      rw [hone.me, hone.timings] at htail
      rw [hone.me] at hget
      by_cases hrel : rel = p
      · subst hrel
        have hrenewed : ∀ e₀, (t.renewOwn rel now).states[rel]? = some (.held t.me l e₀ s) →
            e₀ = now + t.timings.ttl ∧ ∃ e₁, t.states[rel]? = some (.held t.me l e₁ s) := by
          intro e₀ h₀
          unfold renewOwn at h₀
          split at h₀
          · rename_i hraw
            split at h₀
            · rename_i hme
              rw [put_get_self] at h₀
              cases h₀
              exact ⟨rfl, _, by rw [hraw]⟩
            · rename_i hme
              rw [hraw] at h₀
              cases h₀
              exact absurd rfl hme
          · rename_i hno
            exact absurd h₀ (hno _ _ _ _)
        refine ⟨(hrenewed e' hget).2, .inl ?_⟩
        rcases htail with he | ⟨_, hsame⟩
        · exact he
        · exact (hrenewed e hsame).1
      · rw [hone.get p hrel] at hget htail
        refine ⟨⟨e', hget⟩, htail.imp_right fun ⟨hmem, hsame⟩ => ⟨?_, hsame⟩⟩
        simp [hmem, Ne.symm hrel]

theorem mem_selfHeldPaths {t : LockTable Id Path} {p : Path} {l : U64} {e s : Nat}
    (h : t.states[p]? = some (.held t.me l e s)) : p ∈ t.selfHeldPaths := by
  refine List.mem_map.mpr ⟨(p, .held t.me l e s), List.mem_filter.mpr ⟨Map.mem_toList.mpr h, ?_⟩, rfl⟩
  simp

/-- **After a tick every lease of our own runs for the TTL in force.** -/
theorem onRenewTick_own {n : LockNode Id Path} {now : Nat} {p : Path} {l : U64} {e s : Nat}
    (h : (n.onRenewTick now).1.locks.states[p]? = some (.held n.locks.me l e s)) :
    e = now + n.locks.timings.ttl ∧ ∃ e', n.locks.states[p]? = some (.held n.locks.me l e' s) := by
  rw [onRenewTick_locks] at h
  obtain ⟨⟨e', hget⟩, he⟩ := renewAll_get n.locks.selfHeldPaths n.locks now h
  refine ⟨he.resolve_right fun ⟨hmem, _⟩ => hmem (mem_selfHeldPaths hget), e', hget⟩

/-- The operation brings the last vote for `p`. -/
def wins (n : LockNode Id Path) (now : Nat) (p : Path) : PlaneOp Id Path → Bool
  | .receive _ sender (.lockGrant rel) =>
      decide (rel = p) && (n.locks.onGrant rel sender now).2
  | _ => false

theorem onGrant_own {t : LockTable Id Path} {rel p : Path} {sender : Id} {now : Nat} {l : U64}
    {e s : Nat}
    (h : (t.onGrant rel sender now).1.states[p]? = some (.held t.me l e s)) :
    t.states[p]? = some (.held t.me l e s) ∨
      rel = p ∧ (t.onGrant rel sender now).2 = true ∧ e = now + t.timings.ttl ∧
        ∃ l needed granted d, t.states[p]? = some (.pendingLocal l needed granted d) := by
  by_cases hrel : rel = p
  · subst hrel
    unfold onGrant at h ⊢
    split at h
    · rename_i hraw
      split at h
      · rename_i hneed
        dsimp only at h
        split at h
        · rename_i hall
          rw [put_get_self] at h
          cases h
          refine .inr ⟨rfl, ?_, rfl, _, _, _, _, hraw⟩
          simp [hneed, hall]
        · rw [put_get_self] at h
          cases h
      · exact .inl h
    · exact .inl h
  · rw [(onGrant_onlyAt t rel sender now).get p hrel] at h
    exact .inl h

/-- **A lease of our own was there, or it was won.** -/
theorem perform_own {op : PlaneOp Id Path} (hop : hears n.locks.me op = false)
    (hrenew : op ≠ .renew) {p : Path} {l : U64} {e s : Nat}
    (h : (n.perform now op).1.locks.states[p]? = some (.held n.locks.me l e s)) :
    n.locks.states[p]? = some (.held n.locks.me l e s) ∨
      wins n now p op = true ∧ e = now + n.locks.timings.ttl ∧
        ∃ l needed granted d, n.locks.states[p]? = some (.pendingLocal l needed granted d) := by
  by_cases hgrant : ∀ m sender rel, op ≠ .receive m sender (.lockGrant rel)
  · exact .inl (perform_noNewLease hop hrenew (.inr hgrant) p l e s h)
  · push Not at hgrant
    obtain ⟨m, sender, rel, rfl⟩ := hgrant
    rw [perform, onCtl, onLockGrant_locks] at h
    rcases onGrant_own h with hsame | ⟨rfl, hwin, he, hpend⟩
    · exact .inl hsame
    · exact .inr ⟨by simp [wins, hwin], he, hpend⟩

/-! ## Rounds, and what is said of a path -/

/-- The operation starts a round for `p`. -/
def starts (n : LockNode Id Path) (now : Nat) (p : Path) : PlaneOp Id Path → Bool
  | .lock voters rel => decide (rel = p) && !(n.handleLock voters rel now).2.isEmpty
  | _ => false

/-- What a message says of the sender's claim to `p`: that it has one, for a TTL, or that it
has none. -/
inductive Word where
  | claim (ttlMs : U64)
  | free

def word (p : Path) : LockMsg Id Path → Option Word
  | .lockReq rel _ ttlMs => if rel = p then some (.claim ttlMs) else none
  | .lockRenew rel _ ttlMs => if rel = p then some (.claim ttlMs) else none
  | .lockRelease rel => if rel = p then some .free else none
  | .lockGrant _ | .lockDeny _ _ => none

/-- What a handler tells `q` about `p`, in order. -/
def words (p : Path) (q : Id) (out : List (Out Id (LockMsg Id Path))) : List Word :=
  (Mesh.outTo q out).filterMap (word p)

/-- Nothing is said, or last that the path is free. -/
def Modest (p : Path) (out : List (Out Id (LockMsg Id Path))) : Prop :=
  ∀ q, (words p q out).getLast? = none ∨ (words p q out).getLast? = some .free

theorem words_nil (p : Path) (q : Id) :
    words p q ([] : List (Out Id (LockMsg Id Path))) = [] := rfl

theorem words_cons_all (p : Path) (q : Id) (msg : LockMsg Id Path)
    (out : List (Out Id (LockMsg Id Path))) :
    words p q (.all msg :: out) = (word p msg).toList ++ words p q out := by
  unfold words Mesh.outTo
  cases hw : word p msg with
  | none => simp [hw]
  | some w => simp [hw]

theorem words_cons_one {p : Path} (q dst : Id) {msg : LockMsg Id Path} (hw : word p msg = none)
    (out : List (Out Id (LockMsg Id Path))) :
    words p q (.one dst msg :: out) = words p q out := by
  unfold words Mesh.outTo
  by_cases hd : dst = q
  · simp [hd, hw]
  · simp [hd]

theorem modest_of_free {p : Path} {out : List (Out Id (LockMsg Id Path))}
    (h : ∀ q, ∀ w ∈ words p q out, w = .free) : Modest p out := by
  intro q
  cases hlast : (words p q out).getLast? with
  | none => exact .inl rfl
  | some w => exact .inr (by rw [h q w (List.mem_of_getLast? hlast)])

theorem words_release_free {p : Path} {q : Id} (rels : List Path) :
    ∀ w ∈ words p q (rels.map fun rel =>
      (.all (.lockRelease rel) : Out Id (LockMsg Id Path))), w = .free := by
  induction rels with
  | nil => simp [words_nil]
  | cons rel rels ih =>
      intro w hw
      rw [List.map_cons, words_cons_all, List.mem_append] at hw
      rcases hw with hw | hw
      · rw [Option.mem_toList, word] at hw
        split at hw
        · exact (Option.some.inj hw).symm
        · cases hw
      · exact ih w hw

/-- **Apart from ticks, a path is claimed by the request of a new round only.** -/
theorem perform_modest {n : LockNode Id Path} {now : Nat} {p : Path} {op : PlaneOp Id Path}
    (hrenew : op ≠ .renew) (hstart : starts n now p op = false) :
    Modest p (n.perform now op).2 := by
  have hnone : ∀ out : List (Out Id (LockMsg Id Path)), (∀ q, words p q out = []) →
      Modest p out := fun out h q => .inl (by rw [h q]; rfl)
  have hrel : ∀ (q : Id) (rel : Path) (out : List (Out Id (LockMsg Id Path))),
      (∀ w ∈ words p q out, w = .free) →
        ∀ w ∈ words p q (.all (.lockRelease rel) :: out), w = .free := by
    intro q rel out hout w hw
    rw [words_cons_all, List.mem_append] at hw
    rcases hw with hw | hw
    · rw [Option.mem_toList, word] at hw
      split at hw
      · exact (Option.some.inj hw).symm
      · cases hw
    · exact hout w hw
  cases op with
  | lock voters rel =>
      by_cases hp : rel = p
      · subst hp
        have hempty : (n.handleLock voters rel now).2 = [] := by
          simpa [starts] using hstart
        rw [perform, hempty]
        exact hnone _ fun q => rfl
      · refine hnone _ fun q => ?_
        rw [perform]
        unfold handleLock
        split
        · rfl
        · split
          · rfl
          · dsimp only
            split
            · rfl
            · rw [words_cons_all, word, if_neg hp]
              rfl
  | timeout rel lamport =>
      rw [perform]
      unfold onAcquireTimeout
      split
      · exact modest_of_free fun q => words_release_free [rel]
      · exact hnone _ fun q => rfl
  | unlock rel =>
      rw [perform]
      unfold LockNode.unlock
      split
      · exact modest_of_free fun q => words_release_free [rel]
      · exact hnone _ fun q => rfl
  | renew => exact absurd rfl hrenew
  | receive mayLock sender msg =>
      rw [perform]
      cases msg with
      | lockReq rel lamport ttlMs =>
          rw [onCtl]
          unfold onLockReq
          dsimp only
          split
          · exact hnone _ fun q => words_cons_one q _ rfl _
          · split
            · exact hnone _ fun q => words_cons_one q _ rfl _
            · refine modest_of_free fun q => hrel q rel _ ?_
              rw [words_cons_one q sender rfl, words_nil]
              simp
            · exact hnone _ fun q => words_cons_one q _ rfl _
      | lockGrant rel =>
          refine hnone _ fun q => ?_
          rw [onCtl]
          unfold onLockGrant
          split <;> rfl
      | lockDeny rel reason =>
          rw [onCtl]
          unfold onLockDeny
          split
          · exact modest_of_free fun q => words_release_free [rel]
          · exact hnone _ fun q => rfl
      | lockRelease rel => exact hnone _ fun q => rfl
      | lockRenew rel lamport ttlMs => exact hnone _ fun q => rfl
  | peerDown id => exact modest_of_free fun q => words_release_free _
  | sweep => exact modest_of_free fun q => words_release_free _
  | retime timings => exact hnone _ fun q => rfl

/-- The request of a new round claims the path for the TTL in force. -/
theorem perform_starts {n : LockNode Id Path} {now : Nat} {p : Path} {op : PlaneOp Id Path}
    (hstart : starts n now p op = true) (q : Id) :
    words p q (n.perform now op).2 = [.claim n.ttlMs] := by
  cases op with
  | lock voters rel =>
      rw [starts, Bool.and_eq_true, decide_eq_true_eq] at hstart
      obtain ⟨rfl, hout⟩ := hstart
      rw [perform]
      unfold handleLock at hout ⊢
      split at hout
      · cases hout
      · split at hout
        · cases hout
        · dsimp only at hout ⊢
          split at hout
          · cases hout
          · rename_i h1 h2 _ _ _ hres
            rw [if_neg h1, if_neg h2, words_cons_all, word, if_pos rfl]
            rfl
  | _ => cases hstart

/-! ## Rounds under way -/

/-- A round for `p` is under way. -/
def InRound (t : LockTable Id Path) (p : Path) : Prop :=
  ∃ l needed granted d, t.states[p]? = some (.pendingLocal l needed granted d)

/-- Every round of `t'` is one of `t`. -/
def NoNewRound (t t' : LockTable Id Path) : Prop := ∀ p, InRound t' p → InRound t p

section Rounds

variable {t t' t'' : LockTable Id Path}

theorem NoNewRound.refl : NoNewRound t t := fun _ h => h

theorem NoNewRound.trans (h : NoNewRound t t') (h' : NoNewRound t' t'') : NoNewRound t t'' :=
  fun p hp => h p (h' p hp)

theorem noNewRound_drop (path : Path) : NoNewRound t (t.drop path) := by
  rintro p ⟨l, needed, granted, d, hp⟩
  rw [drop, Map.get_erase] at hp
  split at hp
  · cases hp
  · exact ⟨l, needed, granted, d, hp⟩

theorem noNewRound_held (path : Path) (k : Id) (l : U64) (e s : Nat) :
    NoNewRound t (t.put path (.held k l e s)) := by
  rintro p ⟨l, needed, granted, d, hp⟩
  rw [put, Map.get_insert] at hp
  split at hp
  · cases hp
  · exact ⟨l, needed, granted, d, hp⟩

theorem noNewRound_filter {f : Path → LockState Id → Bool} :
    NoNewRound t { t with states := t.states.filter f } := by
  rintro p ⟨l, needed, granted, d, hp⟩
  simp only [Std.ExtTreeMap.getElem?_filter'] at hp
  exact ⟨l, needed, granted, d, (Option.filter_eq_some_iff.mp hp).1⟩

theorem pruneExpired_noNewRound (path : Path) (now : Nat) :
    NoNewRound t (t.pruneExpired path now) := by
  unfold pruneExpired
  split
  · split
    · exact noNewRound_drop path
    · exact .refl
  · exact .refl

theorem onGrant_noNewRound (path : Path) (sender : Id) (now : Nat) :
    NoNewRound t (t.onGrant path sender now).1 := by
  unfold onGrant
  split
  · rename_i hraw
    split
    · dsimp only
      split
      · exact noNewRound_held path _ _ _ _
      · rintro p ⟨l, needed, granted, d, hp⟩
        rw [put, Map.get_insert] at hp
        split at hp
        · rename_i hpath
          exact ⟨_, _, _, _, hpath ▸ hraw⟩
        · exact ⟨l, needed, granted, d, hp⟩
    · exact .refl
  · exact .refl

theorem onDeny_noNewRound (path : Path) : NoNewRound t (t.onDeny path).1 := by
  unfold onDeny
  split
  · exact noNewRound_drop path
  · exact .refl

theorem onRemoteRequest_noNewRound (path : Path) (sender : Id) (lamport ttlMs : U64)
    (now : Nat) : NoNewRound t (t.onRemoteRequest path sender lamport ttlMs now).1 := by
  have hp := pruneExpired_noNewRound (t := t) path now
  unfold onRemoteRequest
  dsimp only
  split
  · exact hp
  · split
    · split
      · exact hp.trans (noNewRound_held path _ _ _ _)
      · exact hp
    · split
      · exact hp.trans (noNewRound_held path _ _ _ _)
      · exact hp
    · exact hp.trans (noNewRound_held path _ _ _ _)

theorem onRelease_noNewRound (path : Path) (sender : Id) :
    NoNewRound t (t.onRelease path sender) := by
  unfold onRelease
  split
  · split
    · exact noNewRound_drop path
    · exact .refl
  · exact .refl

theorem onRenew_noNewRound (path : Path) (sender : Id) (ttlMs : U64) (now : Nat) :
    NoNewRound t (t.onRenew path sender ttlMs now) := by
  unfold onRenew
  split
  · split
    · exact noNewRound_held path _ _ _ _
    · exact .refl
  · exact .refl

theorem renewOwn_noNewRound (path : Path) (now : Nat) :
    NoNewRound t (t.renewOwn path now) := by
  unfold renewOwn
  split
  · split
    · exact noNewRound_held path _ _ _ _
    · exact .refl
  · exact .refl

end Rounds

theorem handleLock_inRound {n : LockNode Id Path} {voters : Finset Id} {rel p : Path} {now : Nat}
    (h : InRound (n.handleLock voters rel now).1.locks p) :
    InRound n.locks p ∨ starts n now p (.lock voters rel) = true := by
  by_cases hp : rel = p
  · subst hp
    unfold handleLock at h
    simp only [starts, decide_true, Bool.true_and]
    unfold handleLock
    split at h
    · exact .inl h
    · rename_i hheld
      split at h
      · exact .inl h
      · rename_i hwait
        rw [if_neg hheld, if_neg hwait]
        dsimp only at h ⊢
        rcases hres : n.locks.startRequest rel (n.lamport + 1) voters now with ⟨locks, res⟩
        rw [hres] at h
        cases res with
        | ok _ => exact .inr rfl
        | error err =>
            -- a request that is refused leaves the pruned table
            refine .inl (pruneExpired_noNewRound rel now rel ?_)
            unfold startRequest at hres
            dsimp only at hres
            split at hres
            · cases hres
              exact h
            · cases hres
              exact h
            · cases hres
  · rcases n.handleLock_locks voters rel now with hsame | hstart
    · rw [hsame] at h
      exact .inl h
    · obtain ⟨l, needed, granted, d, hget⟩ := h
      rw [hstart, (startRequest_onlyAt n.locks rel _ voters now).get p hp] at hget
      exact .inl ⟨l, needed, granted, d, hget⟩

/-- **A round was under way, or it starts now.** -/
theorem perform_inRound {n : LockNode Id Path} {now : Nat} {p : Path} {op : PlaneOp Id Path}
    (h : InRound (n.perform now op).1.locks p) :
    InRound n.locks p ∨ starts n now p op = true := by
  cases op with
  | lock voters rel => exact handleLock_inRound h
  | timeout rel lamport =>
      rw [perform] at h
      rcases n.onAcquireTimeout_locks rel lamport with hl | hl
      · exact .inl (hl ▸ h)
      · exact .inl (onDeny_noNewRound rel p (hl ▸ h))
  | unlock rel =>
      rw [perform] at h
      rcases n.unlock_locks rel with hl | hl
      · exact .inl (hl ▸ h)
      · exact .inl (onRelease_noNewRound rel _ p (hl ▸ h))
  | renew =>
      rw [perform, onRenewTick_locks] at h
      have hloop : ∀ (rels : List Path) (t : LockTable Id Path),
          NoNewRound t (rels.foldl (fun t rel => t.renewOwn rel now) t) := by
        intro rels
        induction rels with
        | nil => exact fun t => .refl
        | cons rel rels ih => exact fun t => (renewOwn_noNewRound rel now).trans (ih _)
      exact .inl (hloop _ _ p h)
  | receive mayLock sender msg =>
      refine .inl ?_
      rw [perform] at h
      cases msg with
      | lockReq rel lamport ttlMs =>
          rw [onCtl, onLockReq_locks] at h
          split at h
          · exact onRemoteRequest_noNewRound rel sender lamport ttlMs now p h
          · exact h
      | lockGrant rel =>
          rw [onCtl, onLockGrant_locks] at h
          exact onGrant_noNewRound rel sender now p h
      | lockDeny rel reason =>
          rw [onCtl, onLockDeny_locks] at h
          exact onDeny_noNewRound rel p h
      | lockRelease rel => exact onRelease_noNewRound rel sender p h
      | lockRenew rel lamport ttlMs => exact onRenew_noNewRound rel sender ttlMs now p h
  | peerDown id => exact .inl (noNewRound_filter p h)
  | sweep => exact .inl (noNewRound_filter p h)
  | retime timings => exact .inl h

/-- What a tick says. -/
theorem onRenewTick_out (n : LockNode Id Path) (now : Nat) :
    (n.onRenewTick now).2 = n.locks.selfHeldPaths.map fun rel =>
      .all (.lockRenew rel n.lamport n.ttlMs) := by
  have hloop : ∀ (rels : List Path) (r : Result Id Path),
      (rels.foldl (fun r rel => ({ r.1 with locks := r.1.locks.renewOwn rel now },
        r.2 ++ [.all (.lockRenew rel n.lamport n.ttlMs)])) r).2 =
          r.2 ++ rels.map fun rel => .all (.lockRenew rel n.lamport n.ttlMs) := by
    intro rels
    induction rels with
    | nil => simp
    | cons rel rels ih =>
        intro r
        rw [List.foldl_cons, ih, List.map_cons]
        simp
  exact (hloop n.locks.selfHeldPaths (n, [])).trans (List.nil_append _)

/-- A tick claims the paths that are self-held, for the TTL in force, and no others. -/
theorem onRenewTick_words (n : LockNode Id Path) (now : Nat) (p : Path) (q : Id) :
    (p ∈ n.locks.selfHeldPaths →
      (words p q (n.onRenewTick now).2).getLast? = some (.claim n.ttlMs)) ∧
    (p ∉ n.locks.selfHeldPaths → words p q (n.onRenewTick now).2 = []) := by
  rw [onRenewTick_out]
  have hall : ∀ rels : List Path, ∀ w ∈ words p q (rels.map fun rel =>
      (.all (.lockRenew rel n.lamport n.ttlMs) : Out Id (LockMsg Id Path))),
      w = .claim n.ttlMs ∧ p ∈ rels := by
    intro rels
    induction rels with
    | nil => simp [words_nil]
    | cons rel rels ih =>
        intro w hw
        rw [List.map_cons, words_cons_all, List.mem_append] at hw
        rcases hw with hw | hw
        · rw [Option.mem_toList, word] at hw
          split at hw
          · rename_i hrel
            exact ⟨(Option.some.inj hw).symm, by simp [hrel]⟩
          · cases hw
        · exact ⟨(ih w hw).1, List.mem_cons_of_mem _ (ih w hw).2⟩
  have hin : ∀ rels : List Path, p ∈ rels → words p q (rels.map fun rel =>
      (.all (.lockRenew rel n.lamport n.ttlMs) : Out Id (LockMsg Id Path))) ≠ [] := by
    intro rels hmem hnil
    obtain ⟨before, after, rfl⟩ := List.append_of_mem hmem
    rw [words, List.filterMap_eq_nil_iff] at hnil
    have hword := hnil (.lockRenew p n.lamport n.ttlMs) (by simp [Mesh.outTo])
    rw [word, if_pos rfl] at hword
    cases hword
  constructor
  · intro hmem
    cases hlast : (words p q (n.locks.selfHeldPaths.map fun rel =>
        (.all (.lockRenew rel n.lamport n.ttlMs) : Out Id (LockMsg Id Path)))).getLast? with
    | none => exact absurd (List.getLast?_eq_none_iff.mp hlast) (hin _ hmem)
    | some w => rw [(hall _ w (List.mem_of_getLast? hlast)).1]
  · intro hmem
    refine List.eq_nil_iff_forall_not_mem.mpr fun w hw => hmem (hall _ w hw).2

end LockNode

end Tazamun
