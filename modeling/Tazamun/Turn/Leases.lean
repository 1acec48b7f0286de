import Tazamun.Turn.Basic

set_option autoImplicit false

/-! # What the operations of the lock table gain

Most operations of the lock table gain the node nothing: no lease that it did not hold, no
vote, and nobody to wait for (`Calm`). The ones that may gain something are the start of a
request, the grant that completes one, and the observation of an advertised lease that names
the node itself.

Most operations end no lease of ours either (`KeepsHeld`). Those that inspect a path first
drop an expired lease of it, ours too, and an advertised lease with a lower claim displaces
ours.
-/

namespace Tazamun.LockTable

variable {Id Path : Type} [LinearOrder Id] [LinearOrder Path]

theorem isHeldByMe_iff_held {t : LockTable Id Path} {p : Path} :
    t.isHeldByMe p = true ↔ ∃ l e s, t.states[p]? = some (.held t.me l e s) := by
  unfold isHeldByMe
  constructor
  · intro h
    split at h
    · rename_i holder l e s hs
      rw [of_decide_eq_true h] at hs
      exact ⟨l, e, s, hs⟩
    · cases h
  · rintro ⟨l, e, s, hs⟩
    rw [hs]
    exact decide_eq_true rfl

theorem mem_grantsOf {t : LockTable Id Path} {p : Path} {v : Id} :
    v ∈ t.grantsOf p ↔
      ∃ l n g d, t.states[p]? = some (.pendingLocal l n g d) ∧ v ∈ g := by
  unfold grantsOf
  constructor
  · intro h
    split at h
    · rename_i l n g d hs
      exact ⟨l, n, g, d, hs, h⟩
    · cases h
  · rintro ⟨l, n, g, d, hs, h⟩
    rw [hs]
    exact h

/-- The new entry of a path is no gain for `me`. -/
def CalmAt (me : Id) (old new : Option (LockState Id)) : Prop :=
  new = old ∨ new = none ∨
    ∃ h l e s, new = some (.held h l e s) ∧
      (h = me → ∃ l' e' s', old = some (.held me l' e' s'))

/-- The new table has no lease of ours, no vote and no voter that the old one had not. -/
structure Calm (t t' : LockTable Id Path) : Prop where
  me : t'.me = t.me
  held : ∀ p, t'.isHeldByMe p = true → t.isHeldByMe p = true
  grants : ∀ p v, v ∈ t'.grantsOf p → v ∈ t.grantsOf p
  waits : ∀ p v, t'.WaitsFor p v → t.WaitsFor p v

namespace Calm

variable {t t' t'' : LockTable Id Path}

theorem refl : Calm t t := ⟨rfl, fun _ h => h, fun _ _ h => h, fun _ _ h => h⟩

theorem trans (h : Calm t t') (h' : Calm t' t'') : Calm t t'' :=
  ⟨h'.me.trans h.me, fun p hp => h.held p (h'.held p hp),
    fun p v hv => h.grants p v (h'.grants p v hv), fun p v hv => h.waits p v (h'.waits p v hv)⟩

theorem of_calmAt (hme : t'.me = t.me)
    (h : ∀ p : Path, CalmAt t.me t.states[p]? t'.states[p]?) : Calm t t' := by
  -- a request that is pending now was pending before
  have hpend : ∀ (p : Path) l n g d, t'.states[p]? = some (.pendingLocal l n g d) →
      t.states[p]? = some (.pendingLocal l n g d) := by
    intro p l n g d hs
    rcases h p with h | h | ⟨holder, l', e', s', h, -⟩
    · exact h.symm.trans hs
    · rw [h] at hs
      cases hs
    · rw [h] at hs
      cases hs
  refine ⟨hme, fun p hp => ?_, fun p v hv => ?_, fun p v hv => ?_⟩
  · obtain ⟨l, e, s, hs⟩ := isHeldByMe_iff_held.mp hp
    rw [hme] at hs
    rw [isHeldByMe_iff_held]
    rcases h p with h | h | ⟨holder, l', e', s', h, hold⟩
    · exact ⟨l, e, s, h.symm.trans hs⟩
    · rw [h] at hs
      cases hs
    · rw [h] at hs
      cases hs
      exact hold rfl
  · obtain ⟨l, n, g, d, hs, hv⟩ := mem_grantsOf.mp hv
    exact mem_grantsOf.mpr ⟨l, n, g, d, hpend p l n g d hs, hv⟩
  · obtain ⟨l, n, g, d, hs, hn, hg⟩ := hv
    exact ⟨l, n, g, d, hpend p l n g d hs, hn, hg⟩

/-- An operation on one path has to be looked at there only. -/
theorem of_onlyAt {path : Path} (ho : OnlyAt path t t')
    (h : CalmAt t.me t.states[path]? t'.states[path]?) : Calm t t' := by
  refine of_calmAt ho.me fun p => ?_
  by_cases hp : path = p
  · rw [← hp]
    exact h
  · exact .inl (ho.get p hp)

/-- An operation that only takes entries away. -/
theorem of_filter {keep : Path → LockState Id → Bool} :
    Calm t { t with states := t.states.filter keep } := by
  refine of_calmAt rfl fun p => ?_
  simp only [Std.ExtTreeMap.getElem?_filter']
  cases hs : t.states[p]? with
  | none => exact .inl rfl
  | some s =>
      rw [Option.filter_some]
      split
      · exact .inl rfl
      · exact .inr (.inl rfl)

end Calm

theorem calm_pruneExpired (t : LockTable Id Path) (path : Path) (now : Nat) :
    Calm t (t.pruneExpired path now) := by
  refine .of_onlyAt (pruneExpired_onlyAt t path now) ?_
  rw [pruneExpired_get_self]
  unfold liveAt
  split
  · split
    · exact .inr (.inl rfl)
    · rename_i hs _
      exact .inl hs.symm
  · exact .inl rfl

theorem calm_onDeny (t : LockTable Id Path) (path : Path) : Calm t (t.onDeny path).1 := by
  unfold onDeny
  split
  · exact .of_onlyAt .drop (.inr (.inl (drop_get_self _ _)))
  · exact .refl

theorem calm_onRelease (t : LockTable Id Path) (path : Path) (sender : Id) :
    Calm t (t.onRelease path sender) := by
  unfold onRelease
  split
  · split
    · exact .of_onlyAt .drop (.inr (.inl (drop_get_self _ _)))
    · exact .refl
  · exact .refl

/-- A lease keeps its holder. -/
theorem calmAt_held {t : LockTable Id Path} {path : Path} {h : Id} {l : U64} {e s : Nat}
    (hs : t.states[path]? = some (.held h l e s)) (l' : U64) (e' s' : Nat) :
    CalmAt t.me t.states[path]? ((t.put path (.held h l' e' s')).states[path]?) := by
  refine .inr (.inr ⟨h, l', e', s', put_get_self _ _ _, ?_⟩)
  rintro rfl
  exact ⟨l, e, s, hs⟩

theorem calm_onRenew (t : LockTable Id Path) (path : Path) (sender : Id) (ttlMs : U64)
    (now : Nat) : Calm t (t.onRenew path sender ttlMs now) := by
  unfold onRenew
  split
  · rename_i hs
    split
    · exact .of_onlyAt (.put _) (calmAt_held hs _ _ _)
    · exact .refl
  · exact .refl

theorem calm_renewOwn (t : LockTable Id Path) (path : Path) (now : Nat) :
    Calm t (t.renewOwn path now) := by
  unfold renewOwn
  split
  · rename_i hs
    split
    · exact .of_onlyAt (.put _) (calmAt_held hs _ _ _)
    · exact .refl
  · exact .refl

theorem calm_onPeerDown (t : LockTable Id Path) (id : Id) : Calm t (t.onPeerDown id).1 :=
  .of_filter

theorem calm_sweep (t : LockTable Id Path) (now : Nat) : Calm t (t.sweep now).1 :=
  .of_filter

theorem calm_setTimings (t : LockTable Id Path) (timings : LockTimings) :
    Calm t (t.setTimings timings) :=
  .of_calmAt rfl fun _ => .inl rfl

/-- A lease for somebody else. -/
theorem calm_put_other {t : LockTable Id Path} {holder : Id} (hne : holder ≠ t.me) (path : Path)
    (l : U64) (e s : Nat) : Calm t (t.put path (.held holder l e s)) :=
  .of_onlyAt (.put _) (.inr (.inr ⟨holder, l, e, s, put_get_self _ _ _,
    fun h => absurd h hne⟩))

theorem calm_onRemoteRequest {t : LockTable Id Path} {holder : Id} (hne : holder ≠ t.me)
    (path : Path) (lamport ttlMs : U64) (now : Nat) :
    Calm t (t.onRemoteRequest path holder lamport ttlMs now).1 := by
  have hp := calm_pruneExpired t path now
  have hne' : holder ≠ (t.pruneExpired path now).me := by
    rw [hp.me]
    exact hne
  unfold onRemoteRequest
  refine hp.trans ?_
  dsimp only
  split
  · exact .refl
  · split
    · split
      · exact calm_put_other hne' _ _ _ _
      · exact .refl
    · split
      · exact calm_put_other hne' _ _ _ _
      · exact .refl
    · exact calm_put_other hne' _ _ _ _

/-! ## Gains -/

/-- A grant that does not complete the request wins no lease. -/
theorem held_of_onGrant {t : LockTable Id Path} {path : Path} {sender : Id} {now : Nat}
    (h : (t.onGrant path sender now).2 = false) {p : Path}
    (hp : (t.onGrant path sender now).1.isHeldByMe p = true) : t.isHeldByMe p = true := by
  unfold onGrant at h hp
  split at h
  · rename_i l n g d hs
    simp only [hs] at hp
    split at h
    · rename_i hin
      dsimp only at h
      split at h
      · cases h
      · rename_i hsub
        rw [if_pos hin, if_neg hsub] at hp
        have hcalm : ∀ q, path ≠ q → (t.put path (.pendingLocal l n (insert sender g) d)).states[q]?
            = t.states[q]? := fun q hq => (OnlyAt.put (t := t) _).get q hq
        obtain ⟨l', e, s, hs'⟩ := isHeldByMe_iff_held.mp hp
        by_cases hpath : path = p
        · rw [← hpath, put_get_self] at hs'
          cases hs'
        · rw [hcalm p hpath] at hs'
          exact isHeldByMe_iff_held.mpr ⟨l', e, s, hs'⟩
    · rename_i hin
      rw [if_neg hin] at hp
      exact hp
  · rename_i hno
    split at hp
    · rename_i hs
      exact absurd hs (hno _ _ _ _)
    · exact hp

/-- A request gains the voters it starts with. -/
theorem startRequest_gain (t : LockTable Id Path) (path : Path) (lamport : U64)
    (voters : Finset Id) (now : Nat) :
    let t' := (t.startRequest path lamport voters now).1
    t'.me = t.me ∧ (∀ p, t'.isHeldByMe p = true → t.isHeldByMe p = true) ∧
      (∀ p v, v ∈ t'.grantsOf p → v ∈ t.grantsOf p) ∧
      ∀ p v, t'.WaitsFor p v → t.WaitsFor p v ∨ v ∈ voters := by
  have hp := calm_pruneExpired t path now
  unfold startRequest
  dsimp only
  split
  · exact ⟨hp.me, hp.held, hp.grants, fun p v hv => .inl (hp.waits p v hv)⟩
  · exact ⟨hp.me, hp.held, hp.grants, fun p v hv => .inl (hp.waits p v hv)⟩
  · generalize t.pruneExpired path now = b at hp ⊢
    have ho : OnlyAt path b (b.put path
      (.pendingLocal lamport voters ∅ (now + b.timings.acquireTimeout))) := .put _
    refine ⟨hp.me, fun p hheld => ?_, fun p v hv => ?_, fun p v hv => ?_⟩
    · obtain ⟨l, e, s, hs⟩ := isHeldByMe_iff_held.mp hheld
      by_cases hpath : path = p
      · rw [← hpath, put_get_self] at hs
        cases hs
      · rw [ho.get p hpath] at hs
        exact hp.held p (isHeldByMe_iff_held.mpr ⟨l, e, s, hs⟩)
    · obtain ⟨l, n, g, d, hs, hg⟩ := mem_grantsOf.mp hv
      by_cases hpath : path = p
      · rw [← hpath, put_get_self] at hs
        cases hs
        cases hg
      · rw [ho.get p hpath] at hs
        exact hp.grants p v (mem_grantsOf.mpr ⟨l, n, g, d, hs, hg⟩)
    · obtain ⟨l, n, g, d, hs, hn, hg⟩ := hv
      by_cases hpath : path = p
      · rw [← hpath, put_get_self] at hs
        cases hs
        exact .inr hn
      · rw [ho.get p hpath] at hs
        exact .inl (hp.waits p v ⟨l, n, g, d, hs, hn, hg⟩)

/-- A grant gains the vote it delivers, and the lease if it completes the request. -/
theorem onGrant_gain (t : LockTable Id Path) (path : Path) (sender : Id) (now : Nat) :
    let r := t.onGrant path sender now
    r.1.me = t.me ∧
      (∀ p, r.1.isHeldByMe p = true → t.isHeldByMe p = true ∨ (p = path ∧ r.2 = true)) ∧
      (∀ p v, v ∈ r.1.grantsOf p → v ∈ t.grantsOf p ∨ (v = sender ∧ p = path)) ∧
      ∀ p v, r.1.WaitsFor p v → t.WaitsFor p v := by
  have ho := onGrant_onlyAt t path sender now
  dsimp only
  refine ⟨ho.me, fun p hp => ?_, fun p v hv => ?_, fun p v hv => ?_⟩
  · by_cases hpath : path = p
    · cases hr : (t.onGrant path sender now).2 with
      | true => exact .inr ⟨hpath.symm, rfl⟩
      | false => exact .inl (held_of_onGrant hr hp)
    · obtain ⟨l, e, s, hs⟩ := isHeldByMe_iff_held.mp hp
      rw [ho.me] at hs
      exact .inl (isHeldByMe_iff_held.mpr ⟨l, e, s, (ho.get p hpath).symm.trans hs⟩)
  · obtain ⟨l, n, g, d, hs, hg⟩ := mem_grantsOf.mp hv
    by_cases hpath : path = p
    · subst hpath
      unfold onGrant at hs
      split at hs
      · rename_i hold
        split at hs
        · dsimp only at hs
          split at hs
          · rw [put_get_self] at hs
            cases hs
          · rw [put_get_self] at hs
            cases hs
            rcases Finset.mem_insert.mp hg with rfl | hg
            · exact .inr ⟨rfl, rfl⟩
            · exact .inl (mem_grantsOf.mpr ⟨_, _, _, _, hold, hg⟩)
        · exact .inl (mem_grantsOf.mpr ⟨l, n, g, d, hs, hg⟩)
      · exact .inl (mem_grantsOf.mpr ⟨l, n, g, d, hs, hg⟩)
    · exact .inl (mem_grantsOf.mpr ⟨l, n, g, d, (ho.get p hpath).symm.trans hs, hg⟩)
  · obtain ⟨l, n, g, d, hs, hn, hg⟩ := hv
    by_cases hpath : path = p
    · subst hpath
      unfold onGrant at hs
      split at hs
      · rename_i hold
        split at hs
        · dsimp only at hs
          split at hs
          · rw [put_get_self] at hs
            cases hs
          · rw [put_get_self] at hs
            cases hs
            exact ⟨_, _, _, _, hold, hn, fun hin => hg (Finset.mem_insert_of_mem hin)⟩
        · exact ⟨l, n, g, d, hs, hn, hg⟩
      · exact ⟨l, n, g, d, hs, hn, hg⟩
    · exact ⟨l, n, g, d, (ho.get p hpath).symm.trans hs, hn, hg⟩

/-- A grant that completes the request wins the lease. -/
theorem isHeldByMe_of_onGrant {t : LockTable Id Path} {path : Path} {sender : Id} {now : Nat}
    (h : (t.onGrant path sender now).2 = true) :
    (t.onGrant path sender now).1.isHeldByMe path = true := by
  have hme := (onGrant_onlyAt t path sender now).me
  rw [isHeldByMe_iff_held, hme]
  unfold onGrant at h ⊢
  split at h
  · split at h
    · dsimp only at h
      split at h
      · rename_i hs hin hsub
        simp only [if_pos hin, if_pos hsub]
        exact ⟨_, _, _, put_get_self _ _ _⟩
      · cases h
    · cases h
  · cases h

/-- The voters of a completed request have all voted, the last one just now. -/
theorem voted_of_onGrant {t : LockTable Id Path} {path : Path} {sender : Id} {now : Nat}
    (h : (t.onGrant path sender now).2 = true) {l : U64} {n g : Finset Id} {d : Nat}
    (hs : t.states[path]? = some (.pendingLocal l n g d)) {v : Id} (hv : v ∈ n) :
    v ∈ t.grantsOf path ∨ v = sender := by
  unfold onGrant at h
  rw [hs] at h
  dsimp only at h
  split at h
  · split at h
    · rename_i hsub
      rcases Finset.mem_insert.mp (hsub hv) with hv | hv
      · exact .inr hv
      · exact .inl (mem_grantsOf.mpr ⟨l, n, g, d, hs, hv⟩)
    · cases h
  · cases h

/-- An advertised lease is a gain only if it names us. -/
theorem observeLease_gain (t : LockTable Id Path) (path : Path) (holder : Id)
    (lamport expiresInMs : U64) (now : Nat) :
    let t' := t.observeLease path holder lamport expiresInMs now
    t'.me = t.me ∧
      (∀ p, t'.isHeldByMe p = true → t.isHeldByMe p = true ∨ (p = path ∧ holder = t.me)) ∧
      (∀ p v, v ∈ t'.grantsOf p → v ∈ t.grantsOf p) ∧
      ∀ p v, t'.WaitsFor p v → t.WaitsFor p v := by
  have hp := calm_pruneExpired t path now
  have hput : ∀ e s, (t.pruneExpired path now).put path (.held holder lamport e s) =
      t.observeLease path holder lamport expiresInMs now → Calm t
        ((t.pruneExpired path now).put path (.held holder lamport e s)) ∨ holder = t.me := by
    intro e s _
    by_cases hme : holder = t.me
    · exact .inr hme
    · exact .inl (hp.trans (calm_put_other (by rw [hp.me]; exact hme) _ _ _ _))
  have ho := observeLease_onlyAt t path holder lamport expiresInMs now
  have hcases : Calm t (t.observeLease path holder lamport expiresInMs now) ∨
      (holder = t.me ∧ ∃ e s, (t.observeLease path holder lamport expiresInMs now).states[path]? =
        some (.held holder lamport e s)) := by
    unfold observeLease at hput ⊢
    dsimp only at hput ⊢
    split at hput
    · rename_i hcap
      rw [if_pos hcap]
      exact .inl hp
    · rename_i hcap
      rw [if_neg hcap]
      split
      · rename_i hs
        rw [hs] at hput
        exact (hput _ _ rfl).imp_right fun h => ⟨h, _, _, put_get_self _ _ _⟩
      · rename_i hs
        rw [hs] at hput
        dsimp only at hput
        split
        · rename_i hwin
          rw [if_pos hwin] at hput
          exact (hput _ _ rfl).imp_right fun h => ⟨h, _, _, put_get_self _ _ _⟩
        · exact .inl hp
      · exact .inl hp
  dsimp only
  rcases hcases with hcalm | ⟨hme, e, s, hs⟩
  · exact ⟨hcalm.me, fun p hp => .inl (hcalm.held p hp), hcalm.grants, hcalm.waits⟩
  · refine ⟨ho.me, fun p hheld => ?_, fun p v hv => ?_, fun p v hv => ?_⟩
    · by_cases hpath : path = p
      · exact .inr ⟨hpath.symm, hme⟩
      · obtain ⟨l', e', s', hs'⟩ := isHeldByMe_iff_held.mp hheld
        rw [ho.me, ho.get p hpath] at hs'
        exact .inl (isHeldByMe_iff_held.mpr ⟨l', e', s', hs'⟩)
    · obtain ⟨l', n, g, d, hs', hv⟩ := mem_grantsOf.mp hv
      by_cases hpath : path = p
      · rw [← hpath, hs] at hs'
        cases hs'
      · rw [ho.get p hpath] at hs'
        exact mem_grantsOf.mpr ⟨l', n, g, d, hs', hv⟩
    · obtain ⟨l', n, g, d, hs', hn, hg⟩ := hv
      by_cases hpath : path = p
      · rw [← hpath, hs] at hs'
        cases hs'
      · rw [ho.get p hpath] at hs'
        exact ⟨l', n, g, d, hs', hn, hg⟩

/-! ## Losses -/

/-- No lease of ours ends. -/
def KeepsHeld (t t' : LockTable Id Path) : Prop :=
  ∀ p, t.isHeldByMe p = true → t'.isHeldByMe p = true

namespace KeepsHeld

variable {t t' t'' : LockTable Id Path}

theorem refl : KeepsHeld t t := fun _ h => h

theorem trans (h : KeepsHeld t t') (h' : KeepsHeld t' t'') : KeepsHeld t t'' :=
  fun p hp => h' p (h p hp)

/-- An operation on one path has to be looked at there only. -/
theorem of_onlyAt {path : Path} (ho : OnlyAt path t t')
    (h : ∀ l e s, t.states[path]? = some (.held t.me l e s) →
      ∃ l' e' s', t'.states[path]? = some (.held t.me l' e' s')) : KeepsHeld t t' := by
  intro p hp
  obtain ⟨l, e, s, hs⟩ := isHeldByMe_iff_held.mp hp
  rw [isHeldByMe_iff_held, ho.me]
  by_cases hpath : path = p
  · subst hpath
    exact h l e s hs
  · exact ⟨l, e, s, (ho.get p hpath).trans hs⟩

end KeepsHeld

theorem keepsHeld_onDeny (t : LockTable Id Path) (path : Path) :
    KeepsHeld t (t.onDeny path).1 := by
  refine .of_onlyAt (onDeny_onlyAt t path) fun l e s hs => ?_
  unfold onDeny
  rw [hs]
  exact ⟨l, e, s, hs⟩

theorem keepsHeld_onRelease {t : LockTable Id Path} {sender : Id} (hne : sender ≠ t.me)
    (path : Path) : KeepsHeld t (t.onRelease path sender) := by
  refine .of_onlyAt (onRelease_onlyAt t path sender) fun l e s hs => ?_
  unfold onRelease
  simp only [hs]
  rw [if_neg (Ne.symm hne)]
  exact ⟨l, e, s, hs⟩

theorem keepsHeld_onRenew (t : LockTable Id Path) (path : Path) (sender : Id) (ttlMs : U64)
    (now : Nat) : KeepsHeld t (t.onRenew path sender ttlMs now) := by
  refine .of_onlyAt (onRenew_onlyAt t path sender ttlMs now) fun l e s hs => ?_
  unfold onRenew
  simp only [hs]
  split
  · exact ⟨_, _, _, put_get_self _ _ _⟩
  · exact ⟨l, e, s, hs⟩

theorem keepsHeld_renewOwn (t : LockTable Id Path) (path : Path) (now : Nat) :
    KeepsHeld t (t.renewOwn path now) := by
  refine .of_onlyAt (renewOwn_onlyAt t path now) fun l e s hs => ?_
  unfold renewOwn
  simp only [hs]
  split
  · exact ⟨_, _, _, put_get_self _ _ _⟩
  · exact ⟨l, e, s, hs⟩

theorem keepsHeld_onPeerDown (t : LockTable Id Path) (id : Id) :
    KeepsHeld t (t.onPeerDown id).1 := by
  intro p hp
  obtain ⟨l, e, s, hs⟩ := isHeldByMe_iff_held.mp hp
  refine isHeldByMe_iff_held.mpr ⟨l, e, s, ?_⟩
  unfold onPeerDown
  simp [hs, Option.filter]

theorem keepsHeld_onGrant (t : LockTable Id Path) (path : Path) (sender : Id) (now : Nat) :
    KeepsHeld t (t.onGrant path sender now).1 := by
  refine .of_onlyAt (onGrant_onlyAt t path sender now) fun l e s hs => ?_
  unfold onGrant
  rw [hs]
  exact ⟨l, e, s, hs⟩

/-- Whoever inspects the path leaves a lease that has not expired. -/
theorem keepsHeld_pruneExpired {t : LockTable Id Path} {path : Path} {now : Nat}
    (hlive : t.isHeldByMe path = true → Live now t.states[path]?) :
    KeepsHeld t (t.pruneExpired path now) := by
  refine .of_onlyAt (pruneExpired_onlyAt t path now) fun l e s hs => ?_
  have hl := hlive (isHeldByMe_iff_held.mpr ⟨l, e, s, hs⟩)
  rw [pruneExpired_of_live hl]
  exact ⟨l, e, s, hs⟩

theorem keepsHeld_startRequest {t : LockTable Id Path} {path : Path} {now : Nat}
    (hlive : t.isHeldByMe path = true → Live now t.states[path]?) (lamport : U64)
    (voters : Finset Id) : KeepsHeld t (t.startRequest path lamport voters now).1 := by
  refine .of_onlyAt (startRequest_onlyAt t path lamport voters now) fun l e s hs => ?_
  have hl := hlive (isHeldByMe_iff_held.mpr ⟨l, e, s, hs⟩)
  unfold startRequest
  dsimp only
  rw [pruneExpired_of_live hl, hs]
  exact ⟨l, e, s, hs⟩

theorem keepsHeld_onRemoteRequest {t : LockTable Id Path} {path : Path} {now : Nat}
    (hlive : t.isHeldByMe path = true → Live now t.states[path]?) {holder : Id}
    (hne : holder ≠ t.me) (lamport ttlMs : U64) :
    KeepsHeld t (t.onRemoteRequest path holder lamport ttlMs now).1 := by
  refine .of_onlyAt (onRemoteRequest_onlyAt t path holder lamport ttlMs now) fun l e s hs => ?_
  have hl := hlive (isHeldByMe_iff_held.mpr ⟨l, e, s, hs⟩)
  unfold onRemoteRequest
  dsimp only
  rw [pruneExpired_of_live hl]
  split
  · exact ⟨l, e, s, hs⟩
  · simp only [hs]
    rw [if_neg (Ne.symm hne)]
    exact ⟨l, e, s, hs⟩

/-- The advertised lease leaves ours alone: it has not expired, and the claim is not lower. -/
def Spares (t : LockTable Id Path) (l : LeaseInfo Id Path) (now : Nat) : Prop :=
  match t.states[l.path]? with
  | some (.held holder lamport expires _) =>
      holder = t.me → now < expires ∧
        (l.holder = t.me ∨ ¬ toLex (l.lamport, l.holder) < toLex (lamport, t.me))
  | _ => True

theorem keepsHeld_observeLease {t : LockTable Id Path} {l : LeaseInfo Id Path} {now : Nat}
    (hs : t.Spares l now) :
    KeepsHeld t (t.observeLease l.path l.holder l.lamport l.expiresInMs now) := by
  have ho := observeLease_onlyAt t l.path l.holder l.lamport l.expiresInMs now
  refine .of_onlyAt ho fun lam e s hold => ?_
  unfold Spares at hs
  rw [hold] at hs
  obtain ⟨hlive, hclaim⟩ := hs rfl
  unfold observeLease
  dsimp only
  rw [pruneExpired_of_live (by rw [hold]; exact hlive)]
  split
  · exact ⟨lam, e, s, hold⟩
  · simp only [hold]
    split
    · rename_i hwin
      have hme : l.holder = t.me := by
        rcases hclaim with hme | hno
        · exact hme
        · rcases hwin with hme | hlow
          · exact hme.symm
          · exact absurd hlow hno
      rw [hme]
      exact ⟨_, _, _, put_get_self _ _ _⟩
    · exact ⟨lam, e, s, hold⟩

/-- Our release of a path ends the lease of that path at most. -/
theorem eq_of_lost_onRelease {t : LockTable Id Path} {path p : Path} {sender : Id}
    (hp : t.isHeldByMe p = true) (hno : (t.onRelease path sender).isHeldByMe p = false) :
    p = path := by
  by_contra hne
  obtain ⟨l, e, s, hs⟩ := isHeldByMe_iff_held.mp hp
  have ho := onRelease_onlyAt t path sender
  have hheld : (t.onRelease path sender).isHeldByMe p = true := by
    rw [isHeldByMe_iff_held, ho.me]
    exact ⟨l, e, s, (ho.get p (Ne.symm hne)).trans hs⟩
  rw [hheld] at hno
  cases hno

/-- The sweep reports the leases of ours that it ends. -/
theorem mem_expired_of_lost_sweep {t : LockTable Id Path} {now : Nat} {p : Path}
    (hp : t.isHeldByMe p = true) (hno : (t.sweep now).1.isHeldByMe p = false) :
    (p, t.me) ∈ (t.sweep now).2.expired := by
  obtain ⟨l, e, s, hs⟩ := isHeldByMe_iff_held.mp hp
  have hdue : LockState.due now (LockState.held t.me l e s) = true := by
    by_contra hdue
    have hkept : (t.sweep now).1.isHeldByMe p = true := by
      refine isHeldByMe_iff_held.mpr ⟨l, e, s, ?_⟩
      unfold sweep
      simp [hs, Option.filter, hdue]
    rw [hkept] at hno
    cases hno
  unfold sweep
  refine List.mem_filterMap.mpr ⟨(p, .held t.me l e s), ?_, rfl⟩
  exact List.mem_filter.mpr ⟨Map.mem_toList.mpr hs, hdue⟩

/-- After a peer is gone nobody waits for its vote. -/
theorem not_waitsFor_onPeerDown (t : LockTable Id Path) (id : Id) (p : Path) :
    ¬ (t.onPeerDown id).1.WaitsFor p id := by
  rintro ⟨l, n, g, d, hs, hn, hg⟩
  unfold onPeerDown at hs
  simp only [Std.ExtTreeMap.getElem?_filter'] at hs
  obtain ⟨-, hkeep⟩ := Option.filter_eq_some_iff.mp hs
  simp [hn, hg] at hkeep

end Tazamun.LockTable
