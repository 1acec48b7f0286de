import Tazamun.Locks.Pair

set_option autoImplicit false

/-! # The handlers of the lock plane are moves

Every handler of `LockNode`, whatever it is about, does one of the moves of
`Locks/Pair.lean` to the entry of a given path `p`, and sends exactly the messages about `p`
that go with the move. A handler called for another path, or one that finds nothing to do,
is the move that stands still.

Along with the move, `Handles` records that the handler leaves the node's id alone and that
a waiter still waits only while its request is pending.
-/

namespace Tazamun.Mesh

open LockTable

variable {Id Path : Type} [LinearOrder Id] [LinearOrder Path]

/-! ## The projection to one path -/

/-- What a message says about `p`. A renewal only moves an expiry. -/
def sig (p : Path) : LockMsg Id Path → Option Sig
  | .lockReq q _ _ => if q = p then some .req else none
  | .lockGrant q => if q = p then some .grant else none
  | .lockDeny q _ => if q = p then some .deny else none
  | .lockRelease q => if q = p then some .rel else none
  | .lockRenew _ _ _ => none

def sigs (p : Path) (l : List (LockMsg Id Path)) : List Sig := l.filterMap (sig p)

/-- What the delivery of `msg` from `sender` takes from the channel, seen by `p`. -/
def signal (p : Path) (sender : Id) (msg : LockMsg Id Path) : Option (Id × Sig) :=
  (sig p msg).map fun s => (sender, s)

/-- The signals of a message to `k` alone. -/
theorem sigs_outTo_one {p : Path} (k : Id) (msg : LockMsg Id Path) :
    (fun b => sigs p (outTo b [.one k msg])) =
      fun b => if b = k then (sig p msg).toList else [] := by
  funext b
  by_cases hb : b = k
  · cases h : sig p msg with
    | none => simp [outTo, sigs, hb, h]
    | some s => simp [outTo, sigs, hb, h]
  · simp [outTo, sigs, hb, Ne.symm hb]

theorem sigs_outTo_all_cons {p : Path} (msg : LockMsg Id Path)
    (out : List (Out Id (LockMsg Id Path))) (b : Id) :
    sigs p (outTo b (.all msg :: out)) = (sig p msg).toList ++ sigs p (outTo b out) := by
  cases h : sig p msg with
  | none => simp [outTo, sigs, h]
  | some s => simp [outTo, sigs, h]

/-- A waiter waits only while its request is pending. -/
def WaiterPending (n : LockNode Id Path) (p : Path) : Prop :=
  n.acquires[p]? ≠ none → Pending n.locks.states[p]?

/-- A handler's result, seen by `p`, when the signal `c` was taken. -/
structure Handles (me : Id) (voters : Finset Id) (p : Path) (c : Option (Id × Sig))
    (n : LockNode Id Path) (r : LockNode.Result Id Path) : Prop where
  move : Move me voters c n.locks.states[p]? r.1.locks.states[p]?
    fun b => sigs p (outTo b r.2)
  waiter : WaiterPending n p → WaiterPending r.1 p
  self : r.1.locks.me = n.locks.me

variable {me : Id} {voters : Finset Id} {p : Path} {n : LockNode Id Path}

/-- A result that leaves the entry of `p` alone and says nothing about `p`. -/
theorem Handles.silent {c : Option (Id × Sig)} {r : LockNode.Result Id Path}
    (hc : ∀ k s, c = some (k, s) → s ≠ .req ∧ (s.isVote = true → ¬ Awaits k n.locks.states[p]?))
    (he : r.1.locks.states[p]? = n.locks.states[p]?) (hs : ∀ b, sigs p (outTo b r.2) = [])
    (ha : r.1.acquires[p]? = n.acquires[p]?) (hme : r.1.locks.me = n.locks.me) :
    Handles me voters p c n r := by
  refine ⟨?_, ?_, hme⟩
  · rw [he, show (fun b => sigs p (outTo b r.2)) = fun _ => [] from funext hs]
    exact .idle hc
  · unfold WaiterPending
    rw [he, ha]
    exact id

/-- An operation on another path, with messages about that path only. -/
theorem Handles.elsewhere {rel : Path} {c : Option (Id × Sig)} {r : LockNode.Result Id Path}
    (hc : c = none) (hne : rel ≠ p) (ht : OnlyAt rel n.locks r.1.locks)
    (ha : r.1.acquires[p]? = n.acquires[p]?) (hs : ∀ b, sigs p (outTo b r.2) = []) :
    Handles me voters p c n r :=
  .silent (by simp [hc]) (ht.get p hne) hs ha ht.me

/-! ## Local operations -/

theorem handleLock_handles (rel : Path) (now : Nat) (hlive : Live now n.locks.states[rel]?) :
    Handles me voters p none n (n.handleLock voters rel now) := by
  have hidle : Handles me voters p none n (n, []) :=
    .silent (by simp) rfl (by simp [outTo, sigs]) rfl rfl
  unfold LockNode.handleLock
  split
  · exact hidle
  split
  · exact hidle
  have honly := startRequest_onlyAt n.locks rel (n.lamport + 1) voters now
  by_cases hp : rel = p
  · subst hp
    unfold startRequest
    rw [pruneExpired_of_live hlive]
    dsimp only
    cases he : n.locks.states[rel]? with
    | none =>
        refine ⟨?_, fun _ _ => ?_, rfl⟩
        · simp only [he, put_get_self]
          simpa [outTo, sigs, sig] using Move.start
        · simp only [put_get_self]
          trivial
    | some s =>
        cases s with
        | pendingLocal => exact .silent (by simp) rfl (by simp [outTo, sigs]) rfl rfl
        | held => exact .silent (by simp) rfl (by simp [outTo, sigs]) rfl rfl
  · dsimp only
    split
    · rename_i h
      rw [h] at honly
      exact .elsewhere rfl hp honly rfl (by simp [outTo, sigs])
    · rename_i h
      rw [h] at honly
      exact .elsewhere rfl hp honly (Map.get_insert_ne _ _ hp) (by simp [outTo, sigs, sig, hp])

theorem onAcquireTimeout_handles (rel : Path) (lamport : U64) (hw : WaiterPending n rel) :
    Handles me voters p none n (n.onAcquireTimeout rel lamport) := by
  unfold LockNode.onAcquireTimeout
  split
  · rename_i hwait
    by_cases hp : rel = p
    · subst hp
      have hpend : Pending n.locks.states[rel]? := hw (by simp [hwait])
      refine ⟨?_, fun _ ha => absurd (Map.get_erase_self _ _) ha, (onDeny_onlyAt _ _).me⟩
      unfold onDeny
      unfold Pending at hpend
      split at hpend
      · rename_i he
        simp only [he, drop_get_self]
        simpa [outTo, sigs, sig] using Move.abort (by simp)
      · exact hpend.elim
    · exact .elsewhere rfl hp (onDeny_onlyAt _ _) (Map.get_erase_ne _ hp)
        (by simp [outTo, sigs, sig, hp])
  · exact .silent (by simp) rfl (by simp [outTo, sigs]) rfl rfl

theorem unlock_handles (rel : Path) (hme : n.locks.me = me) :
    Handles me voters p none n (n.unlock rel) := by
  unfold LockNode.unlock
  split
  · rename_i hheld
    by_cases hp : rel = p
    · subst hp
      rw [isHeldByMe_iff] at hheld
      refine ⟨?_, fun hw ha => ?_, (onRelease_onlyAt _ _ _).me⟩
      · unfold onRelease
        unfold HeldBy at hheld
        split at hheld
        · rename_i he
          simp only [he, hheld, if_pos, drop_get_self]
          simpa [outTo, sigs, sig, hme] using Move.unlock
        · exact hheld.elim
      · exact absurd (hw ha) (hheld.not_pending)
    · exact .elsewhere rfl hp (onRelease_onlyAt _ _ _) rfl (by simp [outTo, sigs, sig, hp])
  · exact .silent (by simp) rfl (by simp [outTo, sigs]) rfl rfl

/-! ### Renewals -/

/-- The entry `e'` is `e` up to the expiry of a lease. -/
def Renewed (e e' : Option (LockState Id)) : Prop :=
  e' = e ∨ ∃ h l x x' s, e = some (.held h l x s) ∧ e' = some (.held h l x' s)

omit [LinearOrder Id] in
theorem Renewed.trans {e e' e'' : Option (LockState Id)} (h : Renewed e e')
    (h' : Renewed e' e'') : Renewed e e'' := by
  rcases h with rfl | ⟨i, l, x, x', s, rfl, rfl⟩
  · exact h'
  · rcases h' with rfl | ⟨_, _, _, x'', _, he, rfl⟩
    · exact .inr ⟨i, l, x, x', s, rfl, rfl⟩
    · simp only [Option.some.injEq, LockState.held.injEq] at he
      obtain ⟨rfl, rfl, -, rfl⟩ := he
      exact .inr ⟨i, l, x, x'', s, rfl, rfl⟩

/-- A result that does nothing to `p` but renew its lease. -/
theorem Handles.renew {r : LockNode.Result Id Path}
    (he : Renewed n.locks.states[p]? r.1.locks.states[p]?)
    (hs : ∀ b, sigs p (outTo b r.2) = []) (ha : r.1.acquires[p]? = n.acquires[p]?)
    (hme : r.1.locks.me = n.locks.me) : Handles me voters p none n r := by
  rcases he with he | ⟨_, _, _, _, _, he, he'⟩
  · exact .silent (by simp) he hs ha hme
  · refine ⟨?_, fun hw hr => ?_, hme⟩
    · rw [he, he', funext hs]
      exact .renew
    · rw [ha] at hr
      exact absurd (hw hr) (by rw [he]; exact id)

theorem renewOwn_renewed (t : LockTable Id Path) (rel : Path) (now : Nat) :
    Renewed t.states[p]? (t.renewOwn rel now).states[p]? := by
  by_cases hp : rel = p
  · subst hp
    unfold renewOwn
    split
    · split
      · rename_i he _
        exact .inr ⟨_, _, _, _, _, he, put_get_self _ _ _⟩
      · exact .inl rfl
    · exact .inl rfl
  · exact .inl ((renewOwn_onlyAt t rel now).get p hp)

theorem onRenew_renewed (t : LockTable Id Path) (rel : Path) (sender : Id) (ttlMs : U64)
    (now : Nat) : Renewed t.states[p]? (t.onRenew rel sender ttlMs now).states[p]? := by
  by_cases hp : rel = p
  · subst hp
    unfold onRenew
    split
    · split
      · rename_i he _
        exact .inr ⟨_, _, _, _, _, he, put_get_self _ _ _⟩
      · exact .inl rfl
    · exact .inl rfl
  · exact .inl ((onRenew_onlyAt t rel sender ttlMs now).get p hp)

theorem onRenewTick_handles (now : Nat) :
    Handles me voters p none n (n.onRenewTick now) := by
  -- The fold renews one path after the other; generalise over what is already renewed.
  have main : ∀ (rels : List Path) (r : LockNode.Result Id Path),
      Renewed n.locks.states[p]? r.1.locks.states[p]? →
      (∀ b, sigs p (outTo b r.2) = []) → r.1.acquires = n.acquires →
      r.1.locks.me = n.locks.me →
      Handles me voters p none n (rels.foldl
        (fun r rel => ({ r.1 with locks := r.1.locks.renewOwn rel now },
          r.2 ++ [.all (.lockRenew rel n.lamport n.ttlMs)])) r) := by
    intro rels
    induction rels with
    | nil => exact fun r hr hs ha hme => .renew hr hs (by rw [List.foldl_nil, ha]) hme
    | cons rel rels ih =>
        intro r hr hs ha hme
        refine ih _ (hr.trans (renewOwn_renewed r.1.locks rel now)) (fun b => ?_) ha
          ((renewOwn_onlyAt _ _ _).me.trans hme)
        have := hs b
        simp only [sigs, outTo, List.filterMap_append] at this ⊢
        simp [this, sig]
  exact main _ (n, []) (.inl rfl) (by simp [outTo, sigs]) rfl rfl

theorem onRenewTick_me (now : Nat) : (n.onRenewTick now).1.locks.me = n.locks.me := by
  unfold LockNode.onRenewTick
  generalize n.locks.selfHeldPaths = rels
  suffices ∀ r : LockNode.Result Id Path, (rels.foldl
      (fun r rel => ({ r.1 with locks := r.1.locks.renewOwn rel now },
        r.2 ++ [.all (.lockRenew rel n.lamport n.ttlMs)])) r).1.locks.me = r.1.locks.me from
    this _
  induction rels with
  | nil => exact fun _ => rfl
  | cons rel rels ih => exact fun r => (ih _).trans (renewOwn_onlyAt _ _ _).me

/-! ## Delivered messages -/

/-- What a remote request finds and does when no lease on the path has expired. -/
theorem onRemoteRequest_cases (t : LockTable Id Path) (rel : Path) (sender : Id)
    (lamport ttlMs : U64) (now : Nat) (hlive : Live now t.states[rel]?) :
    (∃ reason, t.onRemoteRequest rel sender lamport ttlMs now = (t, .deny reason)) ∨
    (∃ l x s, (t.states[rel]? = none ∨ HeldBy sender t.states[rel]?) ∧
      t.onRemoteRequest rel sender lamport ttlMs now =
        (t.put rel (.held sender l x s), .grant)) ∨
    ∃ l needed granted d l' x s, t.states[rel]? = some (.pendingLocal l needed granted d) ∧
      t.onRemoteRequest rel sender lamport ttlMs now =
        (t.put rel (.held sender l' x s), .grantAndAbortMine) := by
  unfold onRemoteRequest
  rw [pruneExpired_of_live hlive]
  dsimp only
  split
  · exact .inl ⟨_, rfl⟩
  split
  · rename_i he
    split
    · rename_i hh
      exact .inr (.inl ⟨_, _, _, .inr (by rw [he]; exact hh), rfl⟩)
    · exact .inl ⟨_, rfl⟩
  · rename_i he
    split
    · exact .inr (.inr ⟨_, _, _, _, _, _, _, he, rfl⟩)
    · exact .inl ⟨_, rfl⟩
  · rename_i he
    exact .inr (.inl ⟨_, _, _, .inl he, rfl⟩)

theorem onLockReq_handles (mayLock : Bool) (sender : Id) (rel : Path) (lamport ttlMs : U64)
    (now : Nat) (hlive : Live now n.locks.states[rel]?) :
    Handles me voters p (signal p sender (.lockReq rel lamport ttlMs)) n
      (n.onLockReq mayLock sender rel lamport ttlMs now) := by
  have hcases := onRemoteRequest_cases n.locks rel sender lamport ttlMs now hlive
  have honly := onRemoteRequest_onlyAt n.locks rel sender lamport ttlMs now
  unfold LockNode.onLockReq
  dsimp only
  by_cases hp : rel = p
  · subst hp
    have hsig : signal rel sender (.lockReq rel lamport ttlMs) = some (sender, .req) := by
      simp [signal, sig]
    have hrefuse : ∀ reason, Move me voters (some (sender, .req)) n.locks.states[rel]?
        n.locks.states[rel]? fun b => sigs rel (outTo b
          [.one sender (.lockDeny rel reason : LockMsg Id Path)]) := by
      intro reason
      simp only [sigs_outTo_one, sig, if_pos]
      exact .refuse
    rw [hsig]
    split
    · exact ⟨hrefuse _, id, rfl⟩
    · rcases hcases with ⟨reason, h⟩ | ⟨l, x, s, he, h⟩ | ⟨_, _, _, _, l, x, s, he, h⟩
      · rw [h]
        exact ⟨hrefuse _, id, rfl⟩
      · rw [h]
        refine ⟨?_, fun hw ha => absurd (hw ha) ?_, rfl⟩
        · simp only [sigs_outTo_one, sig, if_pos, put_get_self]
          exact .grant he
        · rcases he with he | he
          · rw [he]
            exact id
          · exact he.not_pending
      · rw [h]
        refine ⟨?_, fun _ ha => absurd (Map.get_erase_self _ _) ha, rfl⟩
        have hout : (fun b => sigs rel (outTo b [.all (.lockRelease rel : LockMsg Id Path),
            .one sender (.lockGrant rel)])) =
              fun b => if b = sender then [.rel, .grant] else [.rel] := by
          funext b
          rw [sigs_outTo_all_cons, congrFun (sigs_outTo_one sender _) b]
          by_cases hb : b = sender
          · simp [sig, hb]
          · simp [sig, hb]
        simp only [he, hout, put_get_self]
        exact .yield
  · have hsig : signal p sender (.lockReq rel lamport ttlMs) = none := by
      simp [signal, sig, hp]
    have hone : ∀ (msg : LockMsg Id Path) b, sig p msg = none →
        sigs p (outTo b [.one sender msg]) = [] := by
      intro msg b hmsg
      simp [congrFun (sigs_outTo_one sender msg) b, hmsg]
    split
    · exact .elsewhere hsig hp .refl rfl fun b => hone _ b (by simp [sig, hp])
    · split
      · rename_i h
        rw [h] at honly
        exact .elsewhere hsig hp honly rfl fun b => hone _ b (by simp [sig, hp])
      · rename_i h
        rw [h] at honly
        refine .elsewhere hsig hp honly (Map.get_erase_ne _ hp) fun b => ?_
        simp [sigs_outTo_all_cons, hone, sig, hp]
      · rename_i h
        rw [h] at honly
        exact .elsewhere hsig hp honly rfl fun b => hone _ b (by simp [sig, hp])

theorem onLockGrant_handles (sender : Id) (rel : Path) (now : Nat) (hme : n.locks.me = me) :
    Handles me voters p (signal p sender (.lockGrant rel)) n
      (n.onLockGrant sender rel now) := by
  have honly := onGrant_onlyAt n.locks rel sender now
  unfold LockNode.onLockGrant
  by_cases hp : rel = p
  · subst hp
    have hsig : signal rel sender (.lockGrant rel) = some (sender, .grant) := by
      simp [signal, sig]
    rw [hsig]
    unfold onGrant
    cases he : n.locks.states[rel]? with
    | none => exact .silent (by simp [he, Awaits]) rfl (by simp [outTo, sigs]) rfl rfl
    | some s =>
        cases s with
        | held => exact .silent (by simp [he, Awaits]) rfl (by simp [outTo, sigs]) rfl rfl
        | pendingLocal l needed granted d =>
            dsimp only
            by_cases hneed : sender ∈ needed
            · rw [if_pos hneed]
              by_cases hlast : needed ⊆ insert sender granted
              · rw [if_pos hlast]
                refine ⟨?_, fun _ ha => absurd (Map.get_erase_self _ _) ha, rfl⟩
                simp only [he, put_get_self, hme]
                exact .win hlast
              · rw [if_neg hlast]
                refine ⟨?_, fun _ _ => ?_, rfl⟩
                · simp only [he, put_get_self]
                  exact .count
                · simp only [put_get_self]
                  trivial
            · rw [if_neg hneed]
              refine .silent ?_ rfl (by simp [outTo, sigs]) rfl rfl
              rintro k s ⟨⟩
              exact ⟨by decide, fun _ ha => by rw [he] at ha; exact hneed ha.1⟩
  · have hsig : signal p sender (.lockGrant rel) = none := by simp [signal, sig, hp]
    split
    · rename_i h
      rw [h] at honly
      exact .elsewhere hsig hp honly (Map.get_erase_ne _ hp) (by simp [outTo, sigs])
    · rename_i h
      rw [h] at honly
      exact .elsewhere hsig hp honly rfl (by simp [outTo, sigs])

theorem onLockDeny_handles (sender : Id) (rel : Path) (reason : DenyReason Id) :
    Handles me voters p (signal p sender (.lockDeny rel reason)) n (n.onLockDeny rel) := by
  have honly := onDeny_onlyAt n.locks rel
  unfold LockNode.onLockDeny
  by_cases hp : rel = p
  · subst hp
    have hsig : signal rel sender (.lockDeny rel reason) = some (sender, .deny) := by
      simp [signal, sig]
    rw [hsig]
    unfold onDeny
    cases he : n.locks.states[rel]? with
    | none => exact .silent (by simp [he, Awaits]) rfl (by simp [outTo, sigs]) rfl rfl
    | some s =>
        cases s with
        | held => exact .silent (by simp [he, Awaits]) rfl (by simp [outTo, sigs]) rfl rfl
        | pendingLocal l needed granted d =>
            refine ⟨?_, fun _ ha => absurd (Map.get_erase_self _ _) ha, rfl⟩
            simp only [he, drop_get_self]
            simpa [outTo, sigs, sig] using Move.abort (by simp)
  · have hsig : signal p sender (.lockDeny rel reason) = none := by simp [signal, sig, hp]
    split
    · rename_i h
      rw [h] at honly
      exact .elsewhere hsig hp honly (Map.get_erase_ne _ hp) (by simp [outTo, sigs, sig, hp])
    · rename_i h
      rw [h] at honly
      exact .elsewhere hsig hp honly rfl (by simp [outTo, sigs])

theorem onLockRelease_handles (sender : Id) (rel : Path) :
    Handles me voters p (signal p sender (.lockRelease rel)) n
      ({ n with locks := n.locks.onRelease rel sender }, []) := by
  by_cases hp : rel = p
  · subst hp
    have hsig : signal rel sender (.lockRelease rel) = some (sender, .rel) := by
      simp [signal, sig]
    rw [hsig]
    by_cases hh : HeldBy sender n.locks.states[rel]?
    · refine ⟨?_, fun hw ha => absurd (hw ha) hh.not_pending, (onRelease_onlyAt _ _ _).me⟩
      unfold onRelease
      unfold HeldBy at hh
      split at hh
      · rename_i he
        subst hh
        rw [he]
        simp only [if_pos, drop_get_self]
        exact .free
      · exact hh.elim
    · refine .silent ?_ ?_ (by simp [outTo, sigs]) rfl (onRelease_onlyAt _ _ _).me
      · rintro k s ⟨⟩
        exact ⟨by decide, fun h => absurd h (by decide)⟩
      · dsimp only
        unfold onRelease
        split
        · rename_i he
          rw [he] at hh
          rw [if_neg (show ¬ _ = sender from hh)]
        · rfl
  · exact .elsewhere (by simp [signal, sig, hp]) hp (onRelease_onlyAt _ _ _) rfl
      (by simp [outTo, sigs])

/-- **Every delivery is a move.** -/
theorem onCtl_handles (mayLock : Bool) (sender : Id) (now : Nat) (msg : LockMsg Id Path)
    (hme : n.locks.me = me)
    (hlive : ∀ rel lamport ttlMs, msg = .lockReq rel lamport ttlMs →
      Live now n.locks.states[rel]?) :
    Handles me voters p (signal p sender msg) n (n.onCtl mayLock sender now msg) := by
  cases msg with
  | lockReq rel lamport ttlMs =>
      exact onLockReq_handles mayLock sender rel lamport ttlMs now (hlive _ _ _ rfl)
  | lockGrant rel => exact onLockGrant_handles sender rel now hme
  | lockDeny rel reason => exact onLockDeny_handles sender rel reason
  | lockRelease rel => exact onLockRelease_handles sender rel
  | lockRenew rel lamport ttlMs =>
      exact .renew (onRenew_renewed n.locks rel sender ttlMs now) (fun _ => rfl) rfl
        (onRenew_onlyAt _ _ _ _ _).me

theorem onCtl_me (mayLock : Bool) (sender : Id) (now : Nat) (msg : LockMsg Id Path) :
    (n.onCtl mayLock sender now msg).1.locks.me = n.locks.me := by
  cases msg with
  | lockReq rel lamport ttlMs =>
      have hme := (onRemoteRequest_onlyAt n.locks rel sender lamport ttlMs now).me
      simp only [LockNode.onCtl, LockNode.onLockReq]
      split
      · rfl
      · split <;> simp_all
  | lockGrant rel =>
      have hme := (onGrant_onlyAt n.locks rel sender now).me
      simp only [LockNode.onCtl, LockNode.onLockGrant]
      split <;> simp_all
  | lockDeny rel reason =>
      have hme := (onDeny_onlyAt n.locks rel).me
      simp only [LockNode.onCtl, LockNode.onLockDeny]
      split <;> simp_all
  | lockRelease rel => exact (onRelease_onlyAt _ _ _).me
  | lockRenew rel lamport ttlMs => exact (onRenew_onlyAt _ _ _ _ _).me

end Tazamun.Mesh
