import Tazamun.Locks.Mesh

set_option autoImplicit false

/-! # Requesters and voters

The lease protocol of `Locks/Mesh.lean`, seen by one path and one ordered pair of nodes.
Messages are reduced to what they say about the path (`Sig`), handlers to what they do to
the path's entry (`Move`). `PairInv a j` says how the requester `a` and the voter `j` stand:

* a vote `a` has counted is backed by `j`'s table, and no later request or release of `a` is
  on its way to undo it;
* a vote `a` still waits for is either not yet cast (the request is the last thing `a` sent)
  or in flight, and backed by `j`'s table if it is a grant.

A move of the voter keeps the invariant outright. A move of the requester keeps it if a grant
it counts is the last word between the two: no request of `a` is still on its way to `j`, and
no other vote of `j` on its way to `a`.
-/

namespace Tazamun.Mesh

open LockTable

/-! ## Signals: the messages about one path -/

inductive Sig where
  | req
  | rel
  | grant
  | deny
deriving DecidableEq

/-- Votes travel from a voter to the requester, requests and releases the other way. -/
def Sig.isVote : Sig → Bool
  | .grant => true
  | .deny => true
  | .req => false
  | .rel => false

/-- The last request or release in a channel. -/
def lastCtl (l : List Sig) : Option Sig := (l.filter (!·.isVote)).getLast?

/-- The last vote in a channel. -/
def lastVote (l : List Sig) : Option Sig := (l.filter (·.isVote)).getLast?

theorem lastCtl_append_of_ctl (l : List Sig) {s : Sig} (h : s.isVote = false) :
    lastCtl (l ++ [s]) = some s := by
  simp [lastCtl, List.filter_append, h]

theorem lastVote_append_of_vote (l : List Sig) {s : Sig} (h : s.isVote = true) :
    lastVote (l ++ [s]) = some s := by
  simp [lastVote, List.filter_append, h]

theorem lastVote_append_of_ctl (l : List Sig) {s : Sig} (h : s.isVote = false) :
    lastVote (l ++ [s]) = lastVote l := by
  simp [lastVote, List.filter_append, h]

theorem lastVote_cons_of_ctl (l : List Sig) {s : Sig} (h : s.isVote = false) :
    lastVote (s :: l) = lastVote l := by
  simp [lastVote, h]

theorem lastCtl_append_of_vote (l : List Sig) {s : Sig} (h : s.isVote = true) :
    lastCtl (l ++ [s]) = lastCtl l := by
  simp [lastCtl, List.filter_append, h]

/-- Taking the head off a channel: the last request or release stays, unless it was the
head itself. -/
theorem lastCtl_of_cons {s r : Sig} {l : List Sig} (h : lastCtl (s :: l) = some r) :
    lastCtl l = some r ∨ s = r ∧ ∀ x ∈ l, x.isVote = true := by
  by_cases hl : l.filter (!·.isVote) = []
  · refine .inr ⟨?_, by simpa [List.filter_eq_nil_iff] using hl⟩
    rw [lastCtl, List.filter_cons, hl] at h
    split at h
    · simpa using h
    · cases h
  · refine .inl ?_
    rw [lastCtl, List.filter_cons] at h
    split at h
    · rwa [List.getLast?_cons_of_ne_nil hl] at h
    · exact h

variable {Id : Type}

/-! ## Entries, seen by one pair of nodes -/

/-- The entry is a lease of `h`. -/
def HeldBy (h : Id) : Option (LockState Id) → Prop
  | some (.held h' _ _ _) => h' = h
  | _ => False

/-- The entry is a request waiting for its votes. -/
def Pending : Option (LockState Id) → Prop
  | some (.pendingLocal _ _ _ _) => True
  | _ => False

instance (e : Option (LockState Id)) : Decidable (Pending e) :=
  match e with
  | some (.pendingLocal _ _ _ _) => isTrue trivial
  | some (.held _ _ _ _) => isFalse id
  | none => isFalse id

/-- `me` has counted the vote of `voter`: the request has it, or has become a lease. -/
def HasVote (me voter : Id) : Option (LockState Id) → Prop
  | some (.held h _ _ _) => h = me
  | some (.pendingLocal _ _ granted _) => voter ∈ granted
  | none => False

/-- The request still waits for the vote of `voter`. -/
def Awaits (voter : Id) : Option (LockState Id) → Prop
  | some (.pendingLocal _ needed granted _) => voter ∈ needed ∧ voter ∉ granted
  | _ => False

/-- Every request asks all of `voters`. -/
def AsksAll (voters : Finset Id) : Option (LockState Id) → Prop
  | some (.pendingLocal _ needed _ _) => needed = voters
  | _ => True

theorem HeldBy.unique {h h' : Id} {e : Option (LockState Id)} (hh : HeldBy h e)
    (hh' : HeldBy h' e) : h = h' := by
  unfold HeldBy at hh hh'
  split at hh
  · exact hh.symm.trans hh'
  · exact hh.elim

theorem HeldBy.not_pending {h : Id} {e : Option (LockState Id)} (hh : HeldBy h e) :
    ¬ Pending e := by
  unfold HeldBy at hh
  split at hh
  · exact id
  · exact hh.elim

theorem HeldBy.hasVote {h j : Id} {e : Option (LockState Id)} (hh : HeldBy h e) :
    HasVote h j e := by
  unfold HeldBy at hh
  split at hh
  · exact hh
  · exact hh.elim

/-- How the requester `a` (entry `ea`) and the voter `j` (entry `ej`) stand, with `out` on
the way from `a` to `j` and `back` on the way from `j` to `a`. -/
structure PairInv (a j : Id) (ea ej : Option (LockState Id)) (out back : List Sig) : Prop where
  voted : HasVote a j ea → HeldBy a ej ∧ ∀ s ∈ out, s.isVote = true
  awaiting : Awaits j ea → lastCtl out = some .req ∨
    (∀ s ∈ out, s.isVote = true) ∧
      ∃ v, lastVote back = some v ∧ (v = .grant → HeldBy a ej)

/-- A grant of `j` that is delivered to a request as the last word between the two nodes is
backed by the table of `j`. -/
theorem PairInv.backed {a j : Id} {l : U64} {n g : Finset Id} {d : Nat}
    {ej : Option (LockState Id)} {out back : List Sig}
    (h : PairInv a j (some (.pendingLocal l n g d)) ej out (.grant :: back)) (hn : j ∈ n)
    (hreq : .req ∉ out) (hvotes : ∀ s ∈ back, s.isVote = false) :
    HeldBy a ej ∧ ∀ s ∈ out, s.isVote = true := by
  by_cases hg : j ∈ g
  · exact h.voted hg
  · rcases h.awaiting ⟨hn, hg⟩ with hlast | ⟨hout, v, hv, hheld⟩
    · exact absurd (List.mem_filter.mp (List.mem_of_getLast? hlast)).1 hreq
    · refine ⟨hheld ?_, hout⟩
      have hnone : back.filter (·.isVote) = [] := by
        simpa [List.filter_eq_nil_iff] using hvotes
      have hcons : lastVote (.grant :: back) = some .grant := by
        rw [lastVote, List.filter_cons_of_pos rfl, hnone]
        rfl
      exact (Option.some.inj (hcons.symm.trans hv)).symm

/-- The voter takes anything but a request of `a`, and casts no vote for it. -/
theorem PairInv.voter_other {a j : Id} {ea ej ej' : Option (LockState Id)}
    {got out back new : List Sig} (h : PairInv a j ea ej (got ++ out) back)
    (hgot : got.length ≤ 1) (hreq : .req ∉ got)
    (hheld : HeldBy a ej → HeldBy a ej' ∨ .rel ∈ got)
    (hnew : lastVote (back ++ new) = lastVote back) : PairInv a j ea ej' out (back ++ new) := by
  have keep : (∀ s ∈ got ++ out, s.isVote = true) → HeldBy a ej → HeldBy a ej' := by
    intro hall he
    refine (hheld he).resolve_right fun hrel => ?_
    exact absurd (hall .rel (List.mem_append_left _ hrel)) (by decide)
  refine ⟨fun hv => ?_, fun ha => ?_⟩
  · obtain ⟨he, hall⟩ := h.voted hv
    exact ⟨keep hall he, fun s hs => hall s (List.mem_append_right _ hs)⟩
  · rw [hnew]
    rcases h.awaiting ha with hlast | ⟨hall, v, hv, hg⟩
    · refine .inl ?_
      match got, hgot with
      | [], _ => exact hlast
      | [s], _ =>
          refine (lastCtl_of_cons hlast).resolve_right fun hs => ?_
          exact hreq (by simp [hs.1])
    · exact .inr ⟨fun s hs => hall s (List.mem_append_right _ hs), v, hv,
        fun hvg => keep hall (hg hvg)⟩

/-- The voter takes a request of `a` and answers it. -/
theorem PairInv.voter_answer {a j : Id} {ea ej ej' : Option (LockState Id)}
    {out back new : List Sig} {v : Sig} (h : PairInv a j ea ej (.req :: out) back)
    (hnew : lastVote (back ++ new) = some v) (hv : v = .grant → HeldBy a ej') :
    PairInv a j ea ej' out (back ++ new) := by
  have hctl : ¬ ∀ s ∈ Sig.req :: out, s.isVote = true := fun hall =>
    absurd (hall .req (List.mem_cons_self ..)) (by decide)
  refine ⟨fun hvote => absurd (h.voted hvote).2 hctl, fun ha => ?_⟩
  rcases h.awaiting ha with hlast | ⟨hall, -⟩
  · exact (lastCtl_of_cons hlast).imp_right fun ⟨_, hout⟩ => ⟨hout, v, hnew, hv⟩
  · exact absurd hall hctl

variable {Path : Type} [LinearOrder Id] [LinearOrder Path]

theorem isHeldByMe_iff (t : LockTable Id Path) (p : Path) :
    t.isHeldByMe p = true ↔ HeldBy t.me t.states[p]? := by
  unfold isHeldByMe HeldBy
  split <;> simp_all

/-- The signal, if any, that a step takes from `j`. -/
def taken (j : Id) : Option (Id × Sig) → List Sig
  | some (k, s) => if k = j then [s] else []
  | none => []

theorem taken_length (j : Id) (c : Option (Id × Sig)) : (taken j c).length ≤ 1 := by
  cases c with
  | none => simp [taken]
  | some ks =>
      unfold taken
      dsimp only
      split <;> simp

theorem mem_taken {j : Id} {c : Option (Id × Sig)} {s : Sig} :
    s ∈ taken j c ↔ c = some (j, s) := by
  cases c with
  | none => simp [taken]
  | some ks =>
      obtain ⟨k, s'⟩ := ks
      unfold taken
      dsimp only
      split
      · rename_i hk
        simp [hk, eq_comm]
      · rename_i hk
        simp [hk]

/-! ## What a handler can do to the entry

`Move me voters c e e' sent`: having taken the signal `c`, a handler of `me` turns the entry
`e` into `e'` and sends `sent b` to `b`. -/

inductive Move (me : Id) (voters : Finset Id) : Option (Id × Sig) → Option (LockState Id) →
    Option (LockState Id) → (Id → List Sig) → Prop
  | idle {c e} (h : ∀ k s, c = some (k, s) → s ≠ .req ∧ (s.isVote = true → ¬ Awaits k e)) :
      Move me voters c e e fun _ => []
  | start {l d} : Move me voters none none (some (.pendingLocal l voters ∅ d)) fun _ => [.req]
  | abort {c l n g d} (h : ∀ k s, c = some (k, s) → s = .deny) :
      Move me voters c (some (.pendingLocal l n g d)) none fun _ => [.rel]
  | unlock {l x s} : Move me voters none (some (.held me l x s)) none fun _ => [.rel]
  | renew {h l x x' s} :
      Move me voters none (some (.held h l x s)) (some (.held h l x' s)) fun _ => []
  | grant {k e l x s} (h : e = none ∨ HeldBy k e) :
      Move me voters (some (k, .req)) e (some (.held k l x s))
        fun b => if b = k then [.grant] else []
  | yield {k l n g d l' x s} :
      Move me voters (some (k, .req)) (some (.pendingLocal l n g d)) (some (.held k l' x s))
        fun b => if b = k then [.rel, .grant] else [.rel]
  | refuse {k e} :
      Move me voters (some (k, .req)) e e fun b => if b = k then [.deny] else []
  | count {k l n g d} :
      Move me voters (some (k, .grant)) (some (.pendingLocal l n g d))
        (some (.pendingLocal l n (insert k g) d)) fun _ => []
  | win {k l n g d x s} (h : n ⊆ insert k g) :
      Move me voters (some (k, .grant)) (some (.pendingLocal l n g d)) (some (.held me l x s))
        fun _ => []
  | free {k l x s} : Move me voters (some (k, .rel)) (some (.held k l x s)) none fun _ => []

variable {me : Id} {voters : Finset Id} {c : Option (Id × Sig)}
  {e e' : Option (LockState Id)} {sent : Id → List Sig}

theorem Move.asksAll (h : Move me voters c e e' sent) (he : AsksAll voters e) :
    AsksAll voters e' := by
  cases h with
  | idle => exact he
  | refuse => exact he
  | start => rfl
  | count => exact he
  | _ => trivial

/-- A step of the requester keeps the pair invariant towards a voter `j`, provided a grant
it counts is the last word between the two. -/
theorem PairInv.requester {j : Id} {ej : Option (LockState Id)} {out back : List Sig}
    (hm : Move me voters c e e' sent) (hsender : ∀ k s, c = some (k, s) → k ≠ me)
    (hj : j ∈ voters) (hall : AsksAll voters e)
    (h : PairInv me j e ej out (taken j c ++ back))
    (hok : c = some (j, .grant) → Pending e → .req ∉ out ∧ ∀ s ∈ back, s.isVote = false) :
    PairInv me j e' ej (out ++ sent j) back := by
  cases hm with
  | idle hidle =>
      refine ⟨by simpa using h.voted, fun ha => ?_⟩
      have hback : lastVote (taken j c ++ back) = lastVote back := by
        cases c with
        | none => rfl
        | some ks =>
            obtain ⟨k, s⟩ := ks
            by_cases hk : k = j
            · subst hk
              have hv : s.isVote = false := by
                by_contra hv
                exact (hidle k s rfl).2 (by simpa using hv) ha
              simpa [taken] using lastVote_cons_of_ctl back hv
            · simp [taken, hk]
      simpa [hback] using h.awaiting ha
  | start =>
      exact ⟨fun hv => absurd hv (by simp [HasVote]),
        fun _ => .inl (lastCtl_append_of_ctl out rfl)⟩
  | abort => exact ⟨fun hv => hv.elim, fun ha => ha.elim⟩
  | unlock => exact ⟨fun hv => hv.elim, fun ha => ha.elim⟩
  | renew =>
      refine ⟨fun hv => ?_, fun ha => ha.elim⟩
      simpa using h.voted hv
  | grant => exact ⟨fun hv => absurd hv (hsender _ _ rfl), fun ha => ha.elim⟩
  | yield => exact ⟨fun hv => absurd hv (hsender _ _ rfl), fun ha => ha.elim⟩
  | @refuse k =>
      by_cases hk : j = k
      · subst hk
        simp only [taken, if_pos] at h
        simp only [if_pos]
        refine ⟨fun hv => ⟨(h.voted hv).1, ?_⟩, fun ha => ?_⟩
        · have := (h.voted hv).2
          simp only [List.mem_append, List.mem_singleton]
          rintro s (hs | rfl)
          · exact this s hs
          · rfl
        · have := h.awaiting ha
          rw [lastCtl_append_of_vote out rfl]
          rw [List.singleton_append, lastVote_cons_of_ctl back rfl] at this
          refine this.imp_right fun hlast => ⟨?_, hlast.2⟩
          simp only [List.mem_append, List.mem_singleton]
          rintro s (hs | rfl)
          · exact hlast.1 s hs
          · rfl
      · simpa [taken, hk, Ne.symm hk] using h
  | @count k l n g d =>
      have hn : j ∈ n := by rw [show n = voters from hall]; exact hj
      refine ⟨fun hv => ?_, fun ha => ?_⟩
      · rw [List.append_nil]
        by_cases hjk : k = j
        · subst hjk
          obtain ⟨hreq, hvotes⟩ := hok rfl trivial
          exact PairInv.backed (by simpa [taken] using h) hn hreq hvotes
        · exact h.voted (by simpa [HasVote, Ne.symm hjk] using hv)
      · have hjk : k ≠ j := fun hjk => ha.2 (by simp [hjk])
        have hjg : j ∉ g := fun hjg => ha.2 (by simp [hjg])
        simpa [taken, hjk] using h.awaiting ⟨hn, hjg⟩
  | @win k l n g d x s hsub =>
      have hn : j ∈ n := by rw [show n = voters from hall]; exact hj
      refine ⟨fun _ => ?_, fun ha => ha.elim⟩
      rw [List.append_nil]
      by_cases hjk : k = j
      · subst hjk
        obtain ⟨hreq, hvotes⟩ := hok rfl trivial
        exact PairInv.backed (by simpa [taken] using h) hn hreq hvotes
      · have hjg : j ∈ g := by simpa [Ne.symm hjk] using hsub hn
        exact h.voted hjg
  | free => exact ⟨fun hv => hv.elim, fun ha => ha.elim⟩


/-- A step of the voter keeps the pair invariant of a requester `a`. -/
theorem PairInv.voter {a : Id} {ea : Option (LockState Id)} {out back : List Sig}
    (hm : Move me voters c e e' sent) (hne : a ≠ me)
    (h : PairInv a me ea e (taken a c ++ out) back) :
    PairInv a me ea e' out (back ++ sent a) := by
  have hlen := taken_length a c
  cases hm with
  | idle hidle =>
      refine h.voter_other hlen (fun hr => ?_) .inl (by simp)
      exact (hidle _ _ (mem_taken.mp hr)).1 rfl
  | start =>
      exact h.voter_other hlen (by simp [taken]) (fun he => he.elim)
        (lastVote_append_of_ctl back rfl)
  | abort hdeny =>
      refine h.voter_other hlen (fun hr => ?_) (fun he => he.elim)
        (lastVote_append_of_ctl back rfl)
      exact absurd (hdeny _ _ (mem_taken.mp hr)) (by decide)
  | unlock =>
      exact h.voter_other hlen (by simp [taken]) (fun he => absurd he.symm hne)
        (lastVote_append_of_ctl back rfl)
  | renew => exact h.voter_other hlen (by simp [taken]) .inl (by simp)
  | @grant k _ _ _ _ hcase =>
      by_cases hk : a = k
      · subst hk
        beta_reduce
        rw [if_pos rfl]
        refine PairInv.voter_answer (by simpa [taken] using h)
          (lastVote_append_of_vote back rfl) fun _ => rfl
      · beta_reduce
        rw [if_neg hk]
        refine h.voter_other hlen (by simp [mem_taken, Ne.symm hk]) (fun he => ?_) (by simp)
        rcases hcase with rfl | hheld
        · exact he.elim
        · exact absurd (he.unique hheld) hk
  | @yield k =>
      by_cases hk : a = k
      · subst hk
        beta_reduce
        rw [if_pos rfl]
        refine PairInv.voter_answer (v := .grant) (by simpa [taken] using h) ?_ fun _ => rfl
        simp [lastVote, Sig.isVote]
      · beta_reduce
        rw [if_neg hk]
        exact h.voter_other hlen (by simp [mem_taken, Ne.symm hk]) (fun he => he.elim)
          (lastVote_append_of_ctl back rfl)
  | @refuse k =>
      by_cases hk : a = k
      · subst hk
        beta_reduce
        rw [if_pos rfl]
        refine PairInv.voter_answer (by simpa [taken] using h)
          (lastVote_append_of_vote back rfl) fun hg => by cases hg
      · beta_reduce
        rw [if_neg hk]
        exact h.voter_other hlen (by simp [mem_taken, Ne.symm hk]) .inl (by simp)
  | count => exact h.voter_other hlen (by simp [mem_taken]) (fun he => he.elim) (by simp)
  | win => exact h.voter_other hlen (by simp [mem_taken]) (fun he => he.elim) (by simp)
  | @free k =>
      refine h.voter_other hlen (by simp [mem_taken]) (fun he => .inr ?_) (by simp)
      rw [mem_taken, show k = a from he]

end Tazamun.Mesh
