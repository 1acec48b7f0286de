import Tazamun.Locks.Table

set_option autoImplicit false

/-! # Lease claims in any order

The same leases are advertised by several peers, and the indexes they come in arrive in any
order. Between two holders the lower claim wins. A claim of the holder itself always replaces
the one there was, also by a higher one: this is how a renewed lease is passed on.

The two rules do not go together. Once the winner's own higher claim has taken the place of
its lowest, a claim between the two displaces it. `absorb` is the rule for one claim, over
any order of claims with an owner each. The main result, `observeClaims_confluent_iff`, says
which claims lead to the lowest holder in every order: those in which no claim of another
holder is below a claim of the lowest one.
-/

namespace Tazamun

/-! ## Absorbing claims -/

section Absorb

variable {ρ κ : Type} [LinearOrder ρ] [DecidableEq κ] (owner : ρ → κ)

/-- A claim replaces one of its own owner, and any higher one. -/
def absorb (current : Option ρ) (c : ρ) : Option ρ :=
  match current with
  | none => some c
  | some b => if owner b = owner c ∨ c < b then some c else some b

/-- The claims that are compared: the current one and the new ones. -/
def contenders (current : Option ρ) (cs : List ρ) : List ρ := current.toList ++ cs

/-- Every order of the claims ends with the owner of the lowest one. -/
def Confluent (current : Option ρ) (cs : List ρ) : Prop :=
  ∀ order : List ρ, order.Perm cs →
    (order.foldl (absorb owner) current).map owner = (contenders current cs).min?.map owner

/-- Among the new claims, those of the lowest one's owner are below all others. -/
def Undisputed (current : Option ρ) (cs : List ρ) : Prop :=
  ∀ low, (contenders current cs).min? = some low → ∀ c ∈ cs, owner c = owner low →
    ∀ d ∈ cs, owner d ≠ owner low → c < d

variable {owner} {current : Option ρ} {cs : List ρ} {low : ρ}

/-- What is there at the end was there at the start or has been claimed. -/
theorem mem_of_foldl_absorb {b : ρ} (h : cs.foldl (absorb owner) current = some b) :
    b ∈ contenders current cs := by
  induction cs generalizing current with
  | nil =>
      rw [List.foldl_nil] at h
      simp [contenders, h]
  | cons c cs ih =>
      have hb := ih h
      rw [contenders, List.mem_append] at hb
      rcases hb with hb | hb
      · rw [Option.mem_toList] at hb
        cases current with
        | none =>
            cases hb
            simp [contenders]
        | some a =>
            rw [absorb] at hb
            split at hb
            · cases hb
              simp [contenders]
            · cases hb
              simp [contenders]
      · simp [contenders, hb]

theorem le_of_min {b : ρ} (hlow : (contenders current cs).min? = some low)
    (hb : b ∈ contenders current cs) : low ≤ b :=
  (List.min?_eq_some_iff.mp hlow).2 b hb

/-- The lowest claim displaces whatever is there. -/
theorem absorb_lowest (hle : ∀ b, current = some b → low ≤ b) :
    absorb owner current low = some low := by
  cases current with
  | none => rfl
  | some b =>
      rw [absorb]
      split
      · rfl
      · rename_i hkeep
        rw [not_or] at hkeep
        have heq : low = b := le_antisymm (hle b rfl) (not_lt.mp hkeep.2)
        exact absurd (congrArg owner heq.symm) hkeep.1

/-- **Nobody displaces the owner of the lowest claim**, once it is there, if none of its own
claims is above one of another owner. -/
theorem foldl_absorb_keeps {x : ρ} {l : List ρ} (hx : owner x = owner low)
    (hbelow : ∀ d ∈ l, owner d ≠ owner low → x < d)
    (hown : ∀ c ∈ l, owner c = owner low → ∀ d ∈ l, owner d ≠ owner low → c < d) :
    (l.foldl (absorb owner) (some x)).map owner = some (owner low) := by
  induction l generalizing x with
  | nil => simp [hx]
  | cons c l ih =>
      have hrest : ∀ a ∈ l, owner a = owner low → ∀ d ∈ l, owner d ≠ owner low → a < d :=
        fun a ha hao d hd => hown a (List.mem_cons_of_mem _ ha) hao d (List.mem_cons_of_mem _ hd)
      rw [List.foldl_cons, absorb]
      by_cases hc : owner c = owner low
      · rw [if_pos (.inl (hx.trans hc.symm))]
        exact ih hc (fun d hd => hown c List.mem_cons_self hc d (List.mem_cons_of_mem _ hd)) hrest
      · have hlt : x < c := hbelow c List.mem_cons_self hc
        have hkeep : ¬ (owner x = owner c ∨ c < x) := by
          rintro (heq | hcx)
          · exact hc (heq.symm.trans hx)
          · exact lt_asymm hlt hcx
        rw [if_neg hkeep]
        exact ih hx (fun d hd => hbelow d (List.mem_cons_of_mem _ hd)) hrest

theorem Undisputed.confluent (h : Undisputed owner current cs) : Confluent owner current cs := by
  intro order hperm
  cases hlow : (contenders current cs).min? with
  | none =>
      have hnil := List.min?_eq_none_iff.mp hlow
      rw [contenders, List.append_eq_nil_iff] at hnil
      obtain rfl := hnil.2
      obtain rfl := hperm.eq_nil
      cases current with
      | none => rfl
      | some b => simp at hnil
  | some low =>
      have hund := h low hlow
      have hown : ∀ l : List ρ, l ⊆ order → ∀ c ∈ l, owner c = owner low →
          ∀ d ∈ l, owner d ≠ owner low → c < d := fun l hl c hc hco d hd hdo =>
        hund c (hperm.subset (hl hc)) hco d (hperm.subset (hl hd)) hdo
      have habove : ∀ l : List ρ, l ⊆ order → ∀ d ∈ l, owner d ≠ owner low → low < d := by
        intro l hl d hd hdo
        have hle : low ≤ d := le_of_min hlow (by simp [contenders, hperm.subset (hl hd)])
        exact lt_of_le_of_ne hle fun heq => hdo (congrArg owner heq.symm)
      have hmem : low ∈ contenders current cs := (List.min?_eq_some_iff.mp hlow).1
      rw [contenders, List.mem_append, Option.mem_toList] at hmem
      rcases hmem with hcur | hin
      · -- the lowest claim is there from the start
        rw [hcur]
        exact foldl_absorb_keeps rfl (habove order (List.Subset.refl _))
          (hown order (List.Subset.refl _))
      · -- it is claimed on the way, and displaces what is there by then
        obtain ⟨before, after, rfl⟩ := List.append_of_mem (hperm.symm.subset hin)
        have hafter : after ⊆ before ++ low :: after := fun d hd => by simp [hd]
        rw [List.foldl_append, List.foldl_cons, absorb_lowest]
        · exact foldl_absorb_keeps rfl (habove after hafter) (hown after hafter)
        · intro b hb
          have hb := mem_of_foldl_absorb hb
          rw [contenders, List.mem_append] at hb
          refine le_of_min hlow ?_
          rw [contenders, List.mem_append]
          exact hb.imp_right fun hin => hperm.subset (List.mem_append_left _ hin)

/-- A claim of the owner, followed by a lower one of another, ends with another owner. -/
theorem absorb_absorb_owner {c d : ρ} (hd : owner d ≠ owner c) (hlt : d < c) :
    (absorb owner (absorb owner current c) d).map owner ≠ some (owner c) := by
  have hone : ∀ b, owner b ≠ owner c →
      (absorb owner (some b) d).map owner ≠ some (owner c) := by
    intro b hb
    rw [absorb]
    split
    · simpa using hd
    · simpa using hb
  have hown : (absorb owner (some c) d).map owner ≠ some (owner c) := by
    rw [absorb, if_pos (.inr hlt)]
    simpa using hd
  cases current with
  | none => exact hown
  | some b =>
      by_cases hb : owner b = owner c ∨ c < b
      · rw [absorb, if_pos hb]
        exact hown
      · rw [absorb, if_neg hb]
        exact hone b fun h => hb (.inl h)

/-- **Every order ends with the lowest owner exactly if its claims are undisputed.** -/
theorem confluent_iff_undisputed :
    Confluent owner current cs ↔ Undisputed owner current cs := by
  refine ⟨fun hconf low hlow c hc hco d hd hdo => ?_, Undisputed.confluent⟩
  by_contra hnot
  have hdc : owner d ≠ owner c := fun h => hdo (h.trans hco)
  have hne : c ≠ d := fun h => hdc (congrArg owner h.symm)
  have hlt : d < c := lt_of_le_of_ne (not_lt.mp hnot) hne.symm
  -- the order in which the two come last
  have hmem : d ∈ cs.erase c := (List.mem_erase_of_ne hne.symm).mpr hd
  have hperm : (((cs.erase c).erase d) ++ [c, d]).Perm cs := by
    have hcs : cs.Perm (c :: d :: (cs.erase c).erase d) :=
      (List.perm_cons_erase hc).trans ((List.perm_cons_erase hmem).cons c)
    exact List.perm_append_comm.trans hcs.symm
  have hend := hconf _ hperm
  rw [hlow, List.foldl_append, List.foldl_cons, List.foldl_cons, List.foldl_nil] at hend
  exact absorb_absorb_owner hdc hlt (hend.trans (congrArg some hco.symm))

end Absorb

/-! ## The claims on a path -/

variable {Id Path : Type} [LinearOrder Id] [LinearOrder Path]

/-- A claim to a lease, as an index advertises it. -/
structure Claim (Id : Type) where
  holder : Id
  lamport : U64
  expiresInMs : U64

/-- What claims are compared by. -/
def Claim.rank (c : Claim Id) : U64 ×ₗ Id := toLex (c.lamport, c.holder)

/-- The holder of a claim of that rank. -/
def rankHolder (r : U64 ×ₗ Id) : Id := (ofLex r).2

namespace LockTable

/-- The claims are observed one after the other, all at one instant. -/
def observeClaims (t : LockTable Id Path) (path : Path) (now : Nat) (cs : List (Claim Id)) :
    LockTable Id Path :=
  cs.foldl (fun t c => t.observeLease path c.holder c.lamport c.expiresInMs now) t

/-- The rank of the lease on `path`. One that has expired does not count. -/
def rankAt (t : LockTable Id Path) (path : Path) (now : Nat) : Option (U64 ×ₗ Id) :=
  match (t.pruneExpired path now).states[path]? with
  | some (.held holder lamport _ _) => some (toLex (lamport, holder))
  | _ => none

/-- Who holds `path` at this instant. -/
def holderAt (t : LockTable Id Path) (path : Path) (now : Nat) : Option Id :=
  (t.pruneExpired path now).holder path

/-- We wait for votes on `path`. -/
def isPending (t : LockTable Id Path) (path : Path) : Bool :=
  match t.states[path]? with
  | some (.pendingLocal _ _ _ _) => true
  | _ => false

theorem rankAt_map_rankHolder (t : LockTable Id Path) (path : Path) (now : Nat) :
    (t.rankAt path now).map rankHolder = t.holderAt path now := by
  unfold rankAt holderAt holder
  cases (t.pruneExpired path now).states[path]? with
  | none => rfl
  | some s =>
      cases s with
      | pendingLocal _ _ _ _ => rfl
      | held _ _ _ _ => rfl

theorem lt_add_ttlFromMs (now : Nat) (ms : U64) : now < now + ttlFromMs ms := by
  have hmin : minLeaseTtl ≤ ttlFromMs ms := le_max_left _ _
  have hpos : 0 < minLeaseTtl := by decide
  omega

theorem rankAt_of_live {t : LockTable Id Path} {path : Path} {now : Nat} {holder : Id}
    {lamport : U64} {expires since : Nat}
    (hget : t.states[path]? = some (.held holder lamport expires since)) (hlive : now < expires) :
    t.rankAt path now = some (toLex (lamport, holder)) := by
  have hprune : t.pruneExpired path now = t := pruneExpired_of_live (by rw [hget]; exact hlive)
  rw [rankAt, hprune, hget]

/-- An expired lease frees its room, and a live one has it already. -/
theorem pruneExpired_not_atCapacity {t : LockTable Id Path} {path : Path} {now : Nat}
    (hroom : t.states.size < t.maxLeases ∨ (t.rankAt path now).isSome = true) :
    (t.pruneExpired path now).atCapacityForNew path = false := by
  unfold atCapacityForNew
  rcases hroom with hsize | hsome
  · have hless : (t.pruneExpired path now).states.size < (t.pruneExpired path now).maxLeases := by
      unfold pruneExpired
      split
      · rename_i hget
        split
        · exact (Map.size_erase_lt hget).trans hsize
        · exact hsize
      · exact hsize
    simp [Nat.not_le.mpr hless]
  · have hin : (t.pruneExpired path now).states.contains path = true := by
      rw [Map.contains_eq]
      unfold rankAt at hsome
      split at hsome
      · rename_i hget
        rw [hget]
        rfl
      · cases hsome
    simp [hin]

/-- **What observing a claim does** to a path that is free or held. -/
theorem observeLease_rankAt {t : LockTable Id Path} {path : Path} {now : Nat}
    (hpend : t.isPending path = false)
    (hroom : t.states.size < t.maxLeases ∨ (t.rankAt path now).isSome = true) (c : Claim Id) :
    (t.observeLease path c.holder c.lamport c.expiresInMs now).rankAt path now =
        absorb rankHolder (t.rankAt path now) c.rank ∧
      (t.observeLease path c.holder c.lamport c.expiresInMs now).isPending path = false := by
  have hlive := lt_add_ttlFromMs now c.expiresInMs
  have hcap := pruneExpired_not_atCapacity hroom
  have hpend' : ∀ l n g d,
      (t.pruneExpired path now).states[path]? ≠ some (.pendingLocal l n g d) := by
    intro l n g d hget
    rw [pruneExpired_get_self] at hget
    unfold isPending at hpend
    unfold liveAt at hget
    split at hget
    · split at hget <;> cases hget
    · rw [hget] at hpend
      cases hpend
  have hput : ∀ since, ((t.pruneExpired path now).put path
      (.held c.holder c.lamport (now + ttlFromMs c.expiresInMs) since)).rankAt path now =
        some c.rank := fun since => rankAt_of_live (put_get_self _ _ _) hlive
  have hputp : ∀ since, ((t.pruneExpired path now).put path
      (.held c.holder c.lamport (now + ttlFromMs c.expiresInMs) since)).isPending path =
        false := fun since => by rw [isPending, put_get_self]
  unfold observeLease
  dsimp only
  rw [if_neg (by rw [hcap]; exact Bool.false_ne_true)]
  cases hget : (t.pruneExpired path now).states[path]? with
  | none =>
      have hrank : t.rankAt path now = none := by rw [rankAt, hget]
      rw [hrank]
      exact ⟨hput now, hputp now⟩
  | some s =>
      cases s with
      | pendingLocal l n g d => exact absurd hget (hpend' l n g d)
      | held h l e since =>
          have hrank : t.rankAt path now = some (toLex (l, h)) := by rw [rankAt, hget]
          rw [hrank]
          dsimp only [absorb]
          by_cases hwin : h = c.holder ∨ toLex (c.lamport, c.holder) < toLex (l, h)
          · have hwin' : rankHolder (toLex (l, h)) = rankHolder c.rank ∨
                c.rank < toLex (l, h) := hwin
            rw [if_pos hwin, if_pos hwin']
            exact ⟨hput _, hputp _⟩
          · have hwin' : ¬ (rankHolder (toLex (l, h)) = rankHolder c.rank ∨
                c.rank < toLex (l, h)) := hwin
            rw [if_neg hwin, if_neg hwin']
            -- the lease was live, so dropping expired ones again changes nothing
            have hlive' : now < e := by
              rw [pruneExpired_get_self] at hget
              unfold liveAt at hget
              split at hget
              · split at hget
                · cases hget
                · cases hget
                  omega
              · rename_i hno
                exact absurd hget (hno h l e since)
            exact ⟨rankAt_of_live hget hlive', by rw [isPending, hget]⟩

/-- An order of the images is the image of an order. -/
theorem exists_perm_of_perm_map {α β : Type} {f : α → β} {l : List β} {cs : List α}
    (h : l.Perm (cs.map f)) : ∃ cs' : List α, cs'.map f = l ∧ cs'.Perm cs := by
  have himage : List.Forall₂ (fun b a => b = f a) (cs.map f) cs :=
    List.forall₂_map_left_iff.mpr (List.forall₂_same.mpr fun _ _ => rfl)
  obtain ⟨cs', hl, hperm⟩ := List.perm_comp_forall₂ h himage
  refine ⟨cs', ?_, hperm⟩
  have heq : List.Forall₂ Eq l (cs'.map f) := List.forall₂_map_right_iff.mpr hl
  exact (List.forall₂_eq_eq_eq ▸ heq : l = cs'.map f).symm

/-- Observing claims is absorbing their ranks. -/
theorem observeClaims_rankAt {t : LockTable Id Path} {path : Path} {now : Nat}
    (hpend : t.isPending path = false)
    (hroom : t.states.size < t.maxLeases ∨ (t.rankAt path now).isSome = true)
    (cs : List (Claim Id)) :
    (t.observeClaims path now cs).rankAt path now =
      (cs.map Claim.rank).foldl (absorb rankHolder) (t.rankAt path now) := by
  induction cs generalizing t with
  | nil => rfl
  | cons c cs ih =>
      obtain ⟨hrank, hpend'⟩ := observeLease_rankAt hpend hroom c
      have hsome : (absorb rankHolder (t.rankAt path now) c.rank).isSome = true := by
        unfold absorb
        split
        · rfl
        · split <;> rfl
      show ((t.observeLease path c.holder c.lamport c.expiresInMs now).observeClaims path now
        cs).rankAt path now = _
      rw [ih hpend' (.inr (by rw [hrank]; exact hsome)), hrank]
      rfl

/-- The holder of the lowest of the claims and the lease there is. -/
def lowestHolder (t : LockTable Id Path) (path : Path) (now : Nat) (cs : List (Claim Id)) :
    Option Id :=
  (contenders (t.rankAt path now) (cs.map Claim.rank)).min?.map rankHolder

/-- No claim of another holder is below a claim of the lowest one. -/
def NoneBetween (t : LockTable Id Path) (path : Path) (now : Nat) (cs : List (Claim Id)) :
    Prop :=
  ∀ winner, t.lowestHolder path now cs = some winner →
    ∀ c ∈ cs, c.holder = winner → ∀ d ∈ cs, d.holder ≠ winner → c.rank < d.rank

theorem noneBetween_iff {t : LockTable Id Path} {path : Path} {now : Nat}
    {cs : List (Claim Id)} : t.NoneBetween path now cs ↔
      Undisputed rankHolder (t.rankAt path now) (cs.map Claim.rank) := by
  constructor
  · intro h low hlow c hc hco d hd hdo
    obtain ⟨c, hcin, rfl⟩ := List.mem_map.mp hc
    obtain ⟨d, hdin, rfl⟩ := List.mem_map.mp hd
    exact h (rankHolder low) (by rw [lowestHolder, hlow]; rfl) c hcin hco d hdin hdo
  · intro h winner hwin c hc hco d hd hdo
    obtain ⟨low, hlow, rfl⟩ := Option.map_eq_some_iff.mp hwin
    exact h low hlow _ (List.mem_map_of_mem hc) hco _ (List.mem_map_of_mem hd) hdo

/-- **Observed claims lead to the lowest holder in every order exactly if none is in
between.** The table is below capacity, and the path is free or held. -/
theorem observeClaims_confluent_iff (t : LockTable Id Path) (path : Path) (now : Nat)
    (hpend : t.isPending path = false) (hroom : t.states.size < t.maxLeases)
    (cs : List (Claim Id)) :
    (∀ order : List (Claim Id), order.Perm cs →
        (t.observeClaims path now order).holderAt path now = t.lowestHolder path now cs) ↔
      t.NoneBetween path now cs := by
  rw [noneBetween_iff, ← confluent_iff_undisputed]
  have hrun : ∀ order : List (Claim Id),
      (t.observeClaims path now order).holderAt path now =
        ((order.map Claim.rank).foldl (absorb rankHolder) (t.rankAt path now)).map
          rankHolder := fun order => by
    rw [← rankAt_map_rankHolder, observeClaims_rankAt hpend (.inl hroom)]
  constructor
  · intro h order hperm
    -- an order of the ranks is the order of some claims
    obtain ⟨claims, rfl, hclaims⟩ := exists_perm_of_perm_map hperm
    rw [← hrun]
    exact h claims hclaims
  · intro h order hperm
    rw [hrun]
    exact h _ (hperm.map _)

/-- A table without leases. -/
def emptyTable : LockTable Nat Nat := .new 0 ⟨minLeaseTtl, 3333, 2000⟩

/-- Two claims of node 1, and one of node 2 in between. -/
def claimsOf (low high : U64) : List (Claim Nat) :=
  [⟨1, low, 0⟩, ⟨1, high, 0⟩, ⟨2, 5, 0⟩]

/-- Nothing is between the first and the third claim of node 1, which gets the lease, here in
this order and the reverse. -/
theorem observeClaims_confluent_apart :
    (emptyTable.observeClaims 7 0 (claimsOf 1 3)).holderAt 7 0 = some 1 ∧
      (emptyTable.observeClaims 7 0 (claimsOf 1 3).reverse).holderAt 7 0 = some 1 := by
  have hlow : emptyTable.lowestHolder 7 0 (claimsOf 1 3) = some 1 := by decide
  have hnone : emptyTable.NoneBetween 7 0 (claimsOf 1 3) := by
    intro winner hwin
    obtain rfl : 1 = winner := by simpa [hlow] using hwin
    decide
  have hconf := (observeClaims_confluent_iff emptyTable 7 0 (by decide) (by decide)
    (claimsOf 1 3)).mpr hnone
  rw [hconf _ (.refl _), hconf _ (List.reverse_perm _)]
  exact ⟨hlow, hlow⟩

/-- The first and the tenth claim of node 1, and the fifth of node 2. The lowest is node 1's,
and in this order node 2 ends up with the lease. -/
theorem observeClaims_order_matters :
    emptyTable.isPending 7 = false ∧ emptyTable.states.size < emptyTable.maxLeases ∧
      ¬ ∀ order : List (Claim Nat), order.Perm (claimsOf 1 10) →
        (emptyTable.observeClaims 7 0 order).holderAt 7 0 =
          emptyTable.lowestHolder 7 0 (claimsOf 1 10) := by
  refine ⟨by decide, by decide, fun hall => ?_⟩
  have hend : (emptyTable.observeClaims 7 0 (claimsOf 1 10)).holderAt 7 0 = some 2 := by decide
  have hlow : emptyTable.lowestHolder 7 0 (claimsOf 1 10) = some 1 := by decide
  have heq := hall _ (.refl _)
  rw [hend, hlow] at heq
  cases heq

end LockTable

end Tazamun
