import Tazamun.Locks.Exclusion

set_option autoImplicit false

/-! # A race for one path

Some nodes of a mesh ask for the same free path, each of them once and before it has heard of
another request, and all messages are delivered. The requests are ordered by `(lamport, id)`,
and the lowest one is meant to win.

It wins whenever it is not beaten to a voter (`Unbeaten`). A voter that has a request of its
own yields to the lowest one, and a voter without one grants it. But a voter that has granted
a higher request before, with or without a request of its own, denies the lowest one, and this
ends it: `lowest_beaten` is a race that nobody wins.

The invariant follows the lowest request `w`. It is on its way to each voter, or the voter has
the path down as held by `w` and its vote is on its way or counted (`RaceInv.votes`). No other
request can win in the meantime, since each needs the vote of `w`, and `w` grants none.
-/

namespace Tazamun.Mesh

open LockTable Lib

variable {Id Path : Type} [LinearOrder Id] [LinearOrder Path]

/-! ## The race -/

/-- A mesh in which nodes race: who has asked, with which lamport clock, and who has received
a request of another node. -/
structure Race (Id Path : Type) [LinearOrder Id] [LinearOrder Path] where
  mesh : Mesh Id Path
  asked : Id → Option U64
  heard : Finset Id

namespace Race

/-- The lamport clock of the request among the messages. -/
def requestIn (out : List (Out Id (LockMsg Id Path))) : Option U64 :=
  out.findSome? fun
    | .all (.lockReq _ lamport _) => some lamport
    | _ => none

/-- The entry that node `i` has for the path. -/
def entry (rel : Path) (r : Race Id Path) (i : Id) : Option (LockState Id) :=
  (r.mesh.node i).locks.states[rel]?

/-- The step function: a node that has neither asked nor heard of a request asks for the path,
or a message is delivered. -/
def step [Fintype Id] (rel : Path) (r : Race Id Path) :
    MeshAct Id Path → Option (Race Id Path)
  | .lock i p now =>
      if p = rel ∧ r.asked i = none ∧ i ∉ r.heard then
        let result := (r.mesh.node i).handleLock (Finset.univ.erase i) rel now
        some { r with
          mesh := r.mesh.commit i result
          asked := Function.update r.asked i (requestIn result.2) }
      else none
  | .deliver src dst now =>
      match r.mesh.step (.deliver src dst now) with
      | none => none
      | some mesh =>
          let heard :=
            match nextReq (r.mesh.chan src dst) with
            | some _ => insert dst r.heard
            | none => r.heard
          some { r with mesh, heard }
  | _ => none

/-- All messages have been delivered. -/
def Quiet (r : Race Id Path) : Prop := ∀ a b, r.mesh.chan a b = []

/-- Of all that have asked, `w` has the lowest request. -/
def Lowest (r : Race Id Path) (w : Id) : Prop :=
  ∃ l, r.asked w = some l ∧
    ∀ j l', r.asked j = some l' → toLex (l, w) ≤ toLex (l', j)

end Race

/-- There is room for one more path in the table. -/
def Room (rel : Path) (t : LockTable Id Path) : Prop := (t.states.erase rel).size < t.maxLeases

/-- The path is free everywhere, all nodes may lock it, and nothing is on its way. -/
structure FreeAt (rel : Path) (m : Mesh Id Path) : Prop where
  me : ∀ i, (m.node i).locks.me = i
  room : ∀ i, Room rel (m.node i).locks
  entry : ∀ i, (m.node i).locks.states[rel]? = none
  acquires : ∀ i, (m.node i).acquires[rel]? = none
  chan : ∀ a b, m.chan a b = []
  mayLock : ∀ i j, m.mayLock i j = true

/-- A request of `w` is delivered only where the path is not held by another node. -/
def Unbeaten (rel : Path) (w : Id) (r : Race Id Path) : MeshAct Id Path → Prop
  | .deliver src dst _ => src = w → nextReq (r.mesh.chan src dst) ≠ none →
      ∀ h, HeldBy h (r.entry rel dst) → h = w
  | _ => True

/-! ## What a message does to an entry -/

/-- Node `me` handles a message of `s` about `rel`: its entry `e` becomes the second one, and
it sends the messages of the list. -/
inductive Answer (rel : Path) (me s : Id) (e : Option (LockState Id)) :
    LockMsg Id Path → Option (LockState Id) → List (Out Id (LockMsg Id Path)) → Prop
  | take (lamport ttlMs : U64) {l : U64} {x t : Nat} (he : e = none ∨ HeldBy s e) :
      Answer rel me s e (.lockReq rel lamport ttlMs) (some (.held s l x t))
        [.one s (.lockGrant rel)]
  | yield (lamport ttlMs : U64) {l l' : U64} {n g : Finset Id} {d x t : Nat}
      (he : e = some (.pendingLocal l n g d)) (hlt : toLex (lamport, s) < toLex (l, me)) :
      Answer rel me s e (.lockReq rel lamport ttlMs) (some (.held s l' x t))
        [.all (.lockRelease rel), .one s (.lockGrant rel)]
  | refuse (lamport ttlMs : U64) (reason : DenyReason Id)
      (he : (∃ h, HeldBy h e ∧ h ≠ s) ∨
        ∃ l n g d, e = some (.pendingLocal l n g d) ∧ ¬ toLex (lamport, s) < toLex (l, me)) :
      Answer rel me s e (.lockReq rel lamport ttlMs) e [.one s (.lockDeny rel reason)]
  | count {l : U64} {n g : Finset Id} {d : Nat} (he : e = some (.pendingLocal l n g d))
      (hs : s ∈ n) (hmore : ¬ n ⊆ insert s g) :
      Answer rel me s e (.lockGrant rel) (some (.pendingLocal l n (insert s g) d)) []
  | win {l : U64} {n g : Finset Id} {d x t : Nat} (he : e = some (.pendingLocal l n g d))
      (hs : s ∈ n) (hall : n ⊆ insert s g) :
      Answer rel me s e (.lockGrant rel) (some (.held me l x t)) []
  | stray (he : ∀ l n g d, e = some (.pendingLocal l n g d) → s ∉ n) :
      Answer rel me s e (.lockGrant rel) e []
  | abort (reason : DenyReason Id) (he : Pending e) :
      Answer rel me s e (.lockDeny rel reason) none [.all (.lockRelease rel)]
  | late (reason : DenyReason Id) (he : ¬ Pending e) :
      Answer rel me s e (.lockDeny rel reason) e []
  | freed (he : HeldBy s e) : Answer rel me s e (.lockRelease rel) none []
  | deaf (he : ¬ HeldBy s e) : Answer rel me s e (.lockRelease rel) e []

theorem atCapacityForNew_of_room {rel : Path} {t : LockTable Id Path} (h : Room rel t) :
    t.atCapacityForNew rel = false := by
  unfold LockTable.atCapacityForNew
  cases hc : t.states.contains rel with
  | true => rfl
  | false =>
      have hsame : t.states.erase rel = t.states := by
        refine Std.ExtTreeMap.ext_getElem? fun q => ?_
        rw [Map.get_erase]
        split
        · rename_i hq
          rw [← hq, Map.get_eq_none hc]
        · rfl
      unfold Room at h
      rw [hsame] at h
      simpa using h

theorem Room.of_onlyAt {rel : Path} {t t' : LockTable Id Path} (h : Room rel t)
    (honly : OnlyAt rel t t') : Room rel t' := by
  have hsame : t'.states.erase rel = t.states.erase rel := by
    refine Std.ExtTreeMap.ext_getElem? fun q => ?_
    rw [Map.get_erase, Map.get_erase]
    split
    · rfl
    · rename_i hq
      exact honly.get q hq
  unfold Room
  rw [hsame, honly.maxLeases]
  exact h

/-- The message is about `rel`, and not a renewal. -/
def About (rel : Path) : LockMsg Id Path → Prop
  | .lockReq p _ _ => p = rel
  | .lockGrant p => p = rel
  | .lockDeny p _ => p = rel
  | .lockRelease p => p = rel
  | .lockRenew _ _ _ => False

/-- **Every delivery is an answer.** -/
theorem onCtl_answer {rel : Path} {n : LockNode Id Path} {me : Id} (hme : n.locks.me = me)
    (hroom : Room rel n.locks) (s : Id) (now : Nat) {msg : LockMsg Id Path} (hmsg : About rel msg)
    (hlive : nextReq [msg] ≠ none → Live now n.locks.states[rel]?) :
    Answer rel me s n.locks.states[rel]? msg
      (n.onCtl true s now msg).1.locks.states[rel]? (n.onCtl true s now msg).2 := by
  cases msg with
  | lockReq p lamport ttlMs =>
      obtain rfl : p = rel := hmsg
      have hcap := atCapacityForNew_of_room hroom
      simp only [LockNode.onCtl, LockNode.onLockReq, onRemoteRequest,
        pruneExpired_of_live (hlive (by simp [nextReq])), hcap, Bool.not_true, Bool.false_eq_true,
        if_false]
      cases he : n.locks.states[p]? with
      | none =>
          simp only [put_get_self]
          exact .take lamport ttlMs (.inl rfl)
      | some e =>
          cases e with
          | held h l x t =>
              dsimp only
              by_cases hs : h = s
              · simp only [if_pos hs, put_get_self]
                exact .take lamport ttlMs (.inr hs)
              · simp only [if_neg hs, he]
                exact .refuse lamport ttlMs _ (.inl ⟨h, rfl, hs⟩)
          | pendingLocal l needed granted d =>
              dsimp only
              rw [hme]
              by_cases hlt : toLex (lamport, s) < toLex (l, me)
              · simp only [if_pos hlt, put_get_self]
                exact .yield lamport ttlMs rfl hlt
              · simp only [if_neg hlt, he]
                exact .refuse lamport ttlMs _ (.inr ⟨l, needed, granted, d, rfl, hlt⟩)
  | lockGrant p =>
      obtain rfl : p = rel := hmsg
      simp only [LockNode.onCtl, LockNode.onLockGrant, onGrant]
      cases he : n.locks.states[p]? with
      | none =>
          simp only [he]
          exact .stray (by simp)
      | some e =>
          cases e with
          | held h l x t =>
              simp only [he]
              exact .stray (by simp)
          | pendingLocal l needed granted d =>
              dsimp only
              by_cases hs : s ∈ needed
              · rw [if_pos hs]
                by_cases hall : needed ⊆ insert s granted
                · simp only [if_pos hall, put_get_self, hme]
                  exact .win rfl hs hall
                · simp only [if_neg hall, put_get_self]
                  exact .count rfl hs hall
              · simp only [if_neg hs, he]
                refine .stray fun l' n' g' d' heq => ?_
                cases heq
                exact hs
  | lockDeny p reason =>
      obtain rfl : p = rel := hmsg
      simp only [LockNode.onCtl, LockNode.onLockDeny, onDeny]
      cases he : n.locks.states[p]? with
      | none =>
          simp only [he]
          exact .late reason id
      | some e =>
          cases e with
          | held h l x t =>
              simp only [he]
              exact .late reason id
          | pendingLocal l needed granted d =>
              simp only [drop_get_self]
              exact .abort reason trivial
  | lockRelease p =>
      obtain rfl : p = rel := hmsg
      simp only [LockNode.onCtl, onRelease]
      cases he : n.locks.states[p]? with
      | none =>
          simp only [he]
          exact .deaf id
      | some e =>
          cases e with
          | held h l x t =>
              dsimp only
              by_cases hs : h = s
              · simp only [if_pos hs, drop_get_self]
                exact .freed hs
              · simp only [if_neg hs, he]
                exact .deaf hs
          | pendingLocal l needed granted d =>
              simp only [he]
              exact .deaf id
  | lockRenew p lamport ttlMs => exact hmsg.elim

theorem onCtl_onlyAt {rel : Path} (n : LockNode Id Path) (s : Id) (now : Nat)
    {msg : LockMsg Id Path} (hmsg : About rel msg) :
    OnlyAt rel n.locks (n.onCtl true s now msg).1.locks := by
  cases msg with
  | lockReq p lamport ttlMs =>
      obtain rfl : p = rel := hmsg
      have honly := onRemoteRequest_onlyAt n.locks p s lamport ttlMs now
      simp only [LockNode.onCtl, LockNode.onLockReq, Bool.not_true, Bool.false_eq_true, if_false]
      split <;> rename_i h <;> rw [h] at honly <;> exact honly
  | lockGrant p =>
      obtain rfl : p = rel := hmsg
      have honly := onGrant_onlyAt n.locks p s now
      simp only [LockNode.onCtl, LockNode.onLockGrant]
      split <;> rename_i h <;> rw [h] at honly <;> exact honly
  | lockDeny p reason =>
      obtain rfl : p = rel := hmsg
      have honly := onDeny_onlyAt n.locks p
      simp only [LockNode.onCtl, LockNode.onLockDeny]
      split <;> rename_i h <;> rw [h] at honly <;> exact honly
  | lockRelease p =>
      obtain rfl : p = rel := hmsg
      exact onRelease_onlyAt n.locks p s
  | lockRenew p lamport ttlMs => exact hmsg.elim

/-- No delivery makes a waiter. -/
theorem onCtl_acquires {rel : Path} (n : LockNode Id Path) (s : Id) (now : Nat)
    {msg : LockMsg Id Path} (hmsg : About rel msg) (hnone : n.acquires[rel]? = none) :
    (n.onCtl true s now msg).1.acquires[rel]? = none := by
  have herase : (n.acquires.erase rel)[rel]? = none := Map.get_erase_self _ _
  cases msg with
  | lockReq p lamport ttlMs =>
      obtain rfl : p = rel := hmsg
      simp only [LockNode.onCtl, LockNode.onLockReq, Bool.not_true, Bool.false_eq_true, if_false]
      split
      · exact hnone
      · exact herase
      · exact hnone
  | lockGrant p =>
      obtain rfl : p = rel := hmsg
      simp only [LockNode.onCtl, LockNode.onLockGrant]
      split
      · exact herase
      · exact hnone
  | lockDeny p reason =>
      obtain rfl : p = rel := hmsg
      simp only [LockNode.onCtl, LockNode.onLockDeny]
      split
      · exact herase
      · exact hnone
  | lockRelease p => exact hnone
  | lockRenew p lamport ttlMs => exact hmsg.elim

theorem mem_outTo {μ : Type} {b : Id} {out : List (Out Id μ)} {m : μ} :
    m ∈ outTo b out ↔ .all m ∈ out ∨ .one b m ∈ out := by
  unfold outTo
  rw [List.mem_filterMap]
  constructor
  · rintro ⟨o, ho, heq⟩
    cases o with
    | all msg =>
        cases heq
        exact .inl ho
    | one dst msg =>
        dsimp only at heq
        split at heq
        · rename_i hdst
          cases heq
          rw [← hdst]
          exact .inr ho
        · cases heq
  · rintro (ho | ho)
    · exact ⟨_, ho, rfl⟩
    · exact ⟨_, ho, if_pos rfl⟩

/-! ## The invariant -/

/-- A message on the way from `a` to `b`: a request is one that was made, `w` grants and
releases nothing, and nobody denies `w` anything. -/
def MsgOk (rel : Path) (asked : Id → Option U64) (w a b : Id) : LockMsg Id Path → Prop
  | .lockReq p lamport _ => p = rel ∧ asked a = some lamport
  | .lockGrant p => p = rel ∧ a ≠ w
  | .lockDeny p _ => p = rel ∧ b ≠ w
  | .lockRelease p => p = rel ∧ a ≠ w
  | .lockRenew _ _ _ => False

omit [LinearOrder Id] [LinearOrder Path] in
theorem MsgOk.about {rel : Path} {asked : Id → Option U64} {w a b : Id} {m : LockMsg Id Path}
    (h : MsgOk rel asked w a b m) : About rel m := by
  cases m with
  | lockReq => exact h.1
  | lockGrant => exact h.1
  | lockDeny => exact h.1
  | lockRelease => exact h.1
  | lockRenew => exact h

/-- The entry of node `i`: a pending request is its own and lacks a vote, and that of `w` if
it is of another node; no node but `w` holds the path itself, and `w` has it down for no other
node. -/
def EntryOk [Fintype Id] (asked : Id → Option U64) (w i : Id) : Option (LockState Id) → Prop
  | none => i = w → asked w = none
  | some (.pendingLocal l needed granted _) =>
      asked i = some l ∧ needed = Finset.univ.erase i ∧ ¬ needed ⊆ granted ∧
        (i ≠ w → w ∉ granted)
  | some (.held h _ _ _) => (i = w → h = w ∧ asked w ≠ none) ∧ (i ≠ w → h ≠ i)

/-- What holds in every state of a race in which `w` has the lowest request. -/
structure RaceInv [Fintype Id] (rel : Path) (w : Id) (r : Race Id Path) : Prop where
  me : ∀ i, (r.mesh.node i).locks.me = i
  room : ∀ i, Room rel (r.mesh.node i).locks
  mayLock : ∀ i j, r.mesh.mayLock i j = true
  free : ∀ i, r.asked i = none → i ∉ r.heard →
    r.entry rel i = none ∧ (r.mesh.node i).acquires[rel]? = none
  entries : ∀ i, EntryOk r.asked w i (r.entry rel i)
  loops : ∀ i, r.mesh.chan i i = []
  msgs : ∀ a b, ∀ m ∈ r.mesh.chan a b, MsgOk rel r.asked w a b m
  votes : r.asked w ≠ none → ∀ v, v ≠ w →
    (∃ lamport ttlMs, .lockReq rel lamport ttlMs ∈ r.mesh.chan w v) ∨
    HeldBy w (r.entry rel v) ∧
      (.lockGrant rel ∈ r.mesh.chan v w ∨ HasVote w v (r.entry rel w))

/-- What the end of the race says of every state before it: all other requests are higher than
that of `w`, and `w` hears of none before it asks. -/
structure Ahead (l : U64) (w : Id) (r : Race Id Path) : Prop where
  own : ∀ l', r.asked w = some l' → l' = l
  others : ∀ j l', r.asked j = some l' → j ≠ w → toLex (l, w) < toLex (l', j)
  first : r.asked w = none → w ∉ r.heard

/-- **At the end of the race** `w` holds the path, and every other node has it down for
`w`. -/
theorem RaceInv.won [Fintype Id] {rel : Path} {w : Id} {r : Race Id Path} (hi : RaceInv rel w r)
    (hquiet : r.Quiet) (hasked : r.asked w ≠ none) (i : Id) : HeldBy w (r.entry rel i) := by
  have hvote : ∀ v, v ≠ w → HeldBy w (r.entry rel v) ∧ HasVote w v (r.entry rel w) := by
    intro v hv
    rcases hi.votes hasked v hv with ⟨l, ttl, hmem⟩ | ⟨hheld, hmem | hcounted⟩
    · rw [hquiet w v] at hmem
      cases hmem
    · rw [hquiet v w] at hmem
      cases hmem
    · exact ⟨hheld, hcounted⟩
  by_cases hiw : i = w
  · subst hiw
    have hentry := hi.entries i
    cases he : r.entry rel i with
    | none =>
        rw [he] at hentry
        exact absurd (hentry rfl) hasked
    | some e =>
        rw [he] at hentry hvote
        cases e with
        | held h l x t => exact (hentry.1 rfl).1
        | pendingLocal l needed granted d =>
            -- all votes are counted, so the request would have become a lease
            obtain ⟨-, hneeded, hmore, -⟩ := hentry
            refine absurd (fun v hv => ?_) hmore
            rw [hneeded] at hv
            exact (hvote v (Finset.ne_of_mem_erase hv)).2
  · exact (hvote i hiw).1

/-! ## Deliveries -/

section Deliver

variable [Fintype Id] {rel : Path} {w : Id} {r : Race Id Path} {l : U64} {me s : Id}
  {e e' : Option (LockState Id)} {msg : LockMsg Id Path} {out : List (Out Id (LockMsg Id Path))}

/-- What is known when `me` handles a message of `s`. -/
structure Arrives (rel : Path) (r : Race Id Path) (l : U64) (w me s : Id)
    (e : Option (LockState Id)) (msg : LockMsg Id Path) : Prop where
  ne : s ≠ me
  ahead : Ahead l w r
  sent : MsgOk rel r.asked w s me msg
  entry : EntryOk r.asked w me e
  request : nextReq [msg] ≠ none → me = w → r.asked w ≠ none
  unbeaten : nextReq [msg] ≠ none → s = w → ∀ h, HeldBy h e → h = w

/-- A request that is delivered to a pending request of `w` is higher, and one of `w` that is
delivered to another pending request is lower. -/
theorem Arrives.lt_iff {lamport ttlMs : U64} {l' : U64} {n g : Finset Id} {d : Nat}
    (ha : Arrives rel r l w me s e (.lockReq rel lamport ttlMs))
    (he : e = some (.pendingLocal l' n g d)) :
    (me = w → ¬ toLex (lamport, s) < toLex (l', me)) ∧
    (s = w → toLex (lamport, s) < toLex (l', me)) := by
  have hentry := ha.entry
  rw [he] at hentry
  have hreq : r.asked s = some lamport := ha.sent.2
  have hpend : r.asked me = some l' := hentry.1
  refine ⟨?_, ?_⟩
  · rintro rfl
    have hown := ha.ahead.own l' hpend
    rw [hown]
    exact lt_asymm (ha.ahead.others s lamport hreq ha.ne)
  · rintro rfl
    have hown := ha.ahead.own lamport hreq
    rw [hown]
    exact ha.ahead.others me l' hpend (Ne.symm ha.ne)

theorem Answer.entryOk (ha : Arrives rel r l w me s e msg) (h : Answer rel me s e msg e' out) :
    EntryOk r.asked w me e' := by
  have hentry := ha.entry
  cases h with
  | take lamport ttlMs he =>
      refine ⟨fun hw => ?_, fun _ => ha.ne⟩
      -- `w` takes nothing for granted: it has asked, and its request or lease is still there
      rcases he with rfl | he
      · exact absurd (hentry hw) (ha.request (by simp [nextReq]) hw)
      · unfold HeldBy at he
        split at he
        · obtain ⟨hh, hasked⟩ := hentry.1 hw
          exact ⟨he ▸ hh, hasked⟩
        · exact he.elim
  | yield lamport ttlMs he hlt =>
      refine ⟨fun hw => absurd hlt ((ha.lt_iff he).1 hw), fun _ => ha.ne⟩
  | refuse => exact hentry
  | count he hs hmore =>
      rw [he] at hentry
      obtain ⟨hasked, hneeded, -, hno⟩ := hentry
      refine ⟨hasked, hneeded, hmore, fun hne => ?_⟩
      rw [Finset.mem_insert, not_or]
      exact ⟨Ne.symm ha.sent.2, hno hne⟩
  | win he hs hall =>
      rw [he] at hentry
      obtain ⟨hasked, hneeded, -, hno⟩ := hentry
      refine ⟨fun hw => ⟨hw, ?_⟩, fun hne => ?_⟩
      · rw [← hw, hasked]
        exact Option.some_ne_none _
      · -- the vote of `w` is missing
        have hmem : w ∈ insert s _ := hall (by rw [hneeded]; simpa using Ne.symm hne)
        rcases Finset.mem_insert.mp hmem with heq | hg
        · exact absurd heq.symm ha.sent.2
        · exact absurd hg (hno hne)
  | stray => exact hentry
  | abort reason he => exact fun hw => absurd hw ha.sent.2
  | late => exact hentry
  | freed he =>
      intro hw
      unfold HeldBy at he
      split at he
      · obtain ⟨hh, -⟩ := hentry.1 hw
        exact absurd (he.symm.trans hh) ha.sent.2
      · exact he.elim
  | deaf => exact hentry

theorem Answer.msgOk (ha : Arrives rel r l w me s e msg) (h : Answer rel me s e msg e' out)
    {b : Id} {m : LockMsg Id Path} (hm : .all m ∈ out ∨ .one b m ∈ out) :
    MsgOk rel r.asked w me b m := by
  have hentry := ha.entry
  cases h with
  | take lamport ttlMs he =>
      obtain ⟨-, rfl⟩ : b = s ∧ m = .lockGrant rel := by simpa using hm
      refine ⟨rfl, fun hw => ?_⟩
      rcases he with rfl | he
      · exact absurd (hentry hw) (ha.request (by simp [nextReq]) hw)
      · unfold HeldBy at he
        split at he
        · obtain ⟨hh, -⟩ := hentry.1 hw
          exact ha.ne ((he.symm.trans hh).trans hw.symm)
        · exact he.elim
  | yield lamport ttlMs he hlt =>
      have hne : me ≠ w := fun hw => absurd hlt ((ha.lt_iff he).1 hw)
      rcases hm with hm | hm
      · obtain rfl : m = .lockRelease rel := by simpa using hm
        exact ⟨rfl, hne⟩
      · obtain ⟨-, rfl⟩ : b = s ∧ m = .lockGrant rel := by simpa using hm
        exact ⟨rfl, hne⟩
  | refuse lamport ttlMs reason he =>
      obtain ⟨rfl, rfl⟩ : b = s ∧ m = .lockDeny rel reason := by simpa using hm
      refine ⟨rfl, fun hw => ?_⟩
      rcases he with ⟨h, hheld, hne⟩ | ⟨l', n, g, d, he, hge⟩
      · exact hne ((ha.unbeaten (by simp [nextReq]) hw h hheld).trans hw.symm)
      · exact hge ((ha.lt_iff he).2 hw)
  | abort reason he =>
      obtain rfl : m = .lockRelease rel := by simpa using hm
      exact ⟨rfl, ha.sent.2⟩
  | _ => simp at hm

/-- A lease of `w` stays where it is. -/
theorem Answer.heldBy (ha : Arrives rel r l w me s e msg) (h : Answer rel me s e msg e' out)
    (hheld : HeldBy w e) : HeldBy w e' := by
  cases h with
  | take lamport ttlMs he =>
      rcases he with rfl | he
      · exact hheld.elim
      · exact he.unique hheld
  | yield lamport ttlMs he hlt =>
      rw [he] at hheld
      exact hheld.elim
  | count he hs hmore =>
      rw [he] at hheld
      exact hheld.elim
  | win he hs hall =>
      rw [he] at hheld
      exact hheld.elim
  | abort reason he => exact absurd he hheld.not_pending
  | freed he => exact absurd (he.unique hheld) ha.sent.2
  | _ => exact hheld

/-- A vote that `w` has counted stays counted. -/
theorem Answer.hasVote (ha : Arrives rel r l w me s e msg) (h : Answer rel me s e msg e' out)
    (hw : me = w) {v : Id} (hvote : HasVote w v e) : HasVote w v e' := by
  subst hw
  have hheld : HeldBy me e → HasVote me v e' := fun hh => (h.heldBy ha hh).hasVote
  cases he₀ : e with
  | none =>
      rw [he₀] at hvote
      exact hvote.elim
  | some e₀ =>
      cases e₀ with
      | held h' l' x t =>
          rw [he₀] at hvote hheld
          exact hheld hvote
      | pendingLocal l' n g d =>
          rw [he₀] at hvote
          cases h with
          | take lamport ttlMs he =>
              rw [he₀] at he
              rcases he with he | he
              · cases he
              · exact he.elim
          | yield lamport ttlMs he hlt => exact absurd hlt ((ha.lt_iff he).1 rfl)
          | refuse =>
              rw [he₀]
              exact hvote
          | count he hs hmore =>
              rw [he₀] at he
              cases he
              exact Finset.mem_insert_of_mem hvote
          | win he hs hall => exact rfl
          | stray =>
              rw [he₀]
              exact hvote
          | abort reason he => exact absurd rfl ha.sent.2
          | late =>
              rw [he₀]
              exact hvote
          | freed he =>
              rw [he₀] at he
              exact he.elim
          | deaf =>
              rw [he₀]
              exact hvote

/-- A request of `w` is granted. -/
theorem Answer.grants (ha : Arrives rel r l w me s e msg) (h : Answer rel me s e msg e' out)
    (hreq : nextReq [msg] ≠ none) (hs : s = w) :
    HeldBy w e' ∧ .one w (.lockGrant rel) ∈ out := by
  subst hs
  cases h with
  | take => exact ⟨rfl, by simp⟩
  | yield => exact ⟨rfl, by simp⟩
  | refuse lamport ttlMs reason he =>
      rcases he with ⟨h, hheld, hne⟩ | ⟨l', n, g, d, he, hge⟩
      · exact absurd (ha.unbeaten hreq rfl h hheld) hne
      · exact absurd ((ha.lt_iff he).2 rfl) hge
  | _ => exact absurd rfl hreq

/-- A vote that is delivered to `w` is counted. -/
theorem Answer.counts (ha : Arrives rel r l w me s e msg) (h : Answer rel me s e msg e' out)
    (hmsg : msg = .lockGrant rel) (hw : me = w) (hasked : r.asked w ≠ none) : HasVote w s e' := by
  subst hw hmsg
  have hentry := ha.entry
  cases h with
  | count he hs hmore => exact Finset.mem_insert_self _ _
  | win he hs hall => exact rfl
  | stray he =>
      cases he₀ : e with
      | none =>
          rw [he₀] at hentry
          exact absurd (hentry rfl) hasked
      | some e₀ =>
          rw [he₀] at hentry
          cases e₀ with
          | held h' l' x t => exact (hentry.1 rfl).1
          | pendingLocal l' n g d =>
              refine absurd ?_ (he l' n g d he₀)
              rw [hentry.2.1]
              simpa using ha.ne

end Deliver

/-! ## Steps -/

section Step

variable [Fintype Id] {rel : Path} {w : Id} {r : Race Id Path} {l : U64}

/-- **A delivery keeps the invariant.** -/
theorem RaceInv.deliver (hi : RaceInv rel w r) (hahead : Ahead l w r) {src dst : Id} {now : Nat}
    {msg : LockMsg Id Path} {rest : List (LockMsg Id Path)}
    (hchan : r.mesh.chan src dst = msg :: rest)
    (hlive : NoExpiry r.mesh (.deliver src dst now)) (hunbeaten : Unbeaten rel w r (.deliver src dst now))
    {heard : Finset Id} (hsub : ∀ i ∈ r.heard, i ∈ heard)
    (hheard : nextReq [msg] ≠ none → dst ∈ heard)
    (hahead' : r.asked w = none → w ∉ heard) :
    RaceInv rel w { r with
      mesh := (r.mesh.pop src dst).commit dst
        ((r.mesh.node dst).onCtl (r.mesh.mayLock dst src) src now msg)
      heard := heard } := by
  have hne : src ≠ dst := by
    rintro rfl
    rw [hi.loops src] at hchan
    cases hchan
  have hmem : msg ∈ r.mesh.chan src dst := by
    rw [hchan]
    exact List.mem_cons_self
  have hmsg := hi.msgs src dst msg hmem
  have hnext : nextReq (r.mesh.chan src dst) = nextReq [msg] := by
    rw [hchan]
    cases msg <;> rfl
  have hfresh : nextReq [msg] ≠ none → Live now (r.mesh.node dst).locks.states[rel]? := by
    intro hreq
    cases msg with
    | lockReq p lamport ttlMs =>
        obtain rfl : p = rel := hmsg.1
        exact hlive p (by rw [hnext]; rfl)
    | _ => exact absurd rfl hreq
  have harr : Arrives rel r l w dst src (r.entry rel dst) msg := by
    refine ⟨hne, hahead, hmsg, hi.entries dst, fun hreq hw hnone => ?_, fun hreq hs => ?_⟩
    · exact hahead' hnone (hw ▸ hheard hreq)
    · exact hunbeaten hs (by rw [hnext]; exact hreq)
  rw [hi.mayLock dst src]
  have hans := onCtl_answer (hi.me dst) (hi.room dst) src now hmsg.about hfresh
  have honly := onCtl_onlyAt (r.mesh.node dst) src now hmsg.about
  have hacq := @onCtl_acquires _ _ _ _ rel (r.mesh.node dst) src now _ hmsg.about
  generalize (r.mesh.node dst).onCtl true src now msg = result at hans honly hacq
  -- the entries and the channels afterwards
  have hnode : ∀ i, i ≠ dst → Function.update r.mesh.node dst result.1 i = r.mesh.node i :=
    fun i hid => Function.update_of_ne hid _ _
  have hself : Function.update r.mesh.node dst result.1 dst = result.1 :=
    Function.update_self _ _ _
  have hkept : ∀ a b m, m ∈ r.mesh.chan a b → (a = src → b = dst → m ≠ msg) →
      m ∈ ((r.mesh.pop src dst).commit dst result).chan a b := by
    intro a b m hm hother
    have hpop : m ∈ (r.mesh.pop src dst).chan a b := by
      unfold pop
      dsimp only
      split
      · rename_i hab
        obtain ⟨rfl, rfl⟩ := hab
        rw [hchan] at hm ⊢
        exact List.mem_of_ne_of_mem (hother rfl rfl) hm
      · exact hm
    unfold commit
    dsimp only
    split
    · exact List.mem_append_left _ hpop
    · exact hpop
  have hadded : ∀ b m, b ≠ dst → m ∈ outTo b result.2 →
      m ∈ ((r.mesh.pop src dst).commit dst result).chan dst b := by
    intro b m hb hm
    unfold commit
    dsimp only
    rw [if_pos ⟨rfl, hb⟩]
    exact List.mem_append_right _ hm
  refine ⟨fun i => ?_, fun i => ?_, hi.mayLock, fun i hask hno => ?_, fun i => ?_, fun i => ?_,
    fun a b m hm => ?_, fun hasked v hv => ?_⟩
  · show (Function.update r.mesh.node dst result.1 i).locks.me = i
    by_cases hid : i = dst
    · subst hid
      rw [hself, honly.me]
      exact hi.me i
    · rw [hnode i hid]
      exact hi.me i
  · show Room rel (Function.update r.mesh.node dst result.1 i).locks
    by_cases hid : i = dst
    · subst hid
      rw [hself]
      exact (hi.room i).of_onlyAt honly
    · rw [hnode i hid]
      exact hi.room i
  · -- a node that has heard of no request has its entry as it was
    show (Function.update r.mesh.node dst result.1 i).locks.states[rel]? = none ∧
      (Function.update r.mesh.node dst result.1 i).acquires[rel]? = none
    obtain ⟨hentry, hwait⟩ := hi.free i hask fun hmem => hno (hsub i hmem)
    by_cases hid : i = dst
    · subst hid
      rw [hself]
      refine ⟨?_, hacq hwait⟩
      have hentry' : (r.mesh.node i).locks.states[rel]? = none := hentry
      rw [hentry'] at hans
      have hnoreq : ¬ nextReq [msg] ≠ none := fun hreq => hno (hheard hreq)
      generalize result.1.locks.states[rel]? = e' at hans ⊢
      generalize result.2 = out at hans
      cases hans with
      | take => exact absurd (by simp [nextReq]) hnoreq
      | yield => exact absurd (by simp [nextReq]) hnoreq
      | count he => cases he
      | win he => cases he
      | _ => rfl
    · rw [hnode i hid]
      exact ⟨hentry, hwait⟩
  · show EntryOk r.asked w i (Function.update r.mesh.node dst result.1 i).locks.states[rel]?
    by_cases hid : i = dst
    · subst hid
      rw [hself]
      exact hans.entryOk harr
    · rw [hnode i hid]
      exact hi.entries i
  · show ((r.mesh.pop src dst).commit dst result).chan i i = []
    unfold commit pop
    dsimp only
    rw [if_neg fun hand => hand.2 hand.1, if_neg fun hand => hne (hand.1.symm.trans hand.2)]
    exact hi.loops i
  · have hmem' : m ∈ r.mesh.chan a b ∨ a = dst ∧ m ∈ outTo b result.2 := by
      have hpop : ∀ x, x ∈ (r.mesh.pop src dst).chan a b → x ∈ r.mesh.chan a b := by
        intro x hx
        unfold pop at hx
        dsimp only at hx
        split at hx
        · exact List.mem_of_mem_tail hx
        · exact hx
      have hm' : m ∈ ((r.mesh.pop src dst).commit dst result).chan a b := hm
      unfold commit at hm'
      dsimp only at hm'
      split at hm'
      · rename_i hab
        rcases List.mem_append.mp hm' with hm' | hm'
        · exact .inl (hpop m hm')
        · exact .inr ⟨hab.1, hm'⟩
      · exact .inl (hpop m hm')
    rcases hmem' with hold | ⟨rfl, hnew⟩
    · exact hi.msgs a b m hold
    · exact hans.msgOk harr (mem_outTo.mp hnew)
  · show (∃ lamport ttlMs, .lockReq rel lamport ttlMs ∈
        ((r.mesh.pop src dst).commit dst result).chan w v) ∨
      HeldBy w (Function.update r.mesh.node dst result.1 v).locks.states[rel]? ∧
        (.lockGrant rel ∈ ((r.mesh.pop src dst).commit dst result).chan v w ∨
          HasVote w v (Function.update r.mesh.node dst result.1 w).locks.states[rel]?)
    rcases hi.votes hasked v hv with ⟨lamport, ttlMs, hreq⟩ | ⟨hheld, hvote⟩
    · by_cases hthis : src = w ∧ dst = v ∧ msg = .lockReq rel lamport ttlMs
      · obtain ⟨rfl, rfl, rfl⟩ := hthis
        obtain ⟨hheld, hgrant⟩ := hans.grants harr (by simp [nextReq]) rfl
        refine .inr ⟨?_, .inl (hadded src _ (Ne.symm hv) (mem_outTo.mpr (.inr hgrant)))⟩
        rw [hself]
        exact hheld
      · refine .inl ⟨lamport, ttlMs, hkept w v _ hreq fun hs hd heq => ?_⟩
        exact hthis ⟨hs.symm, hd.symm, heq.symm⟩
    · have hheld' : HeldBy w (Function.update r.mesh.node dst result.1 v).locks.states[rel]? := by
        by_cases hid : v = dst
        · subst hid
          rw [hself]
          exact hans.heldBy harr hheld
        · rw [hnode v hid]
          exact hheld
      refine .inr ⟨hheld', ?_⟩
      rcases hvote with hgrant | hcounted
      · by_cases hthis : src = v ∧ dst = w ∧ msg = .lockGrant rel
        · obtain ⟨rfl, rfl, hmsgEq⟩ := hthis
          refine .inr ?_
          rw [hself]
          exact hans.counts harr hmsgEq rfl hasked
        · refine .inl (hkept v w _ hgrant fun hs hd heq => ?_)
          exact hthis ⟨hs.symm, hd.symm, heq.symm⟩
      · refine .inr ?_
        by_cases hid : w = dst
        · subst hid
          rw [hself]
          exact hans.hasVote harr rfl hcounted
        · rw [hnode w hid]
          exact hcounted

omit [Fintype Id] in
/-- A node that finds the path free starts a request. -/
theorem handleLock_free {n : LockNode Id Path} {voters : Finset Id} {now : Nat}
    (hentry : n.locks.states[rel]? = none) (hwait : n.acquires[rel]? = none) :
    n.handleLock voters rel now =
      ({ locks := n.locks.put rel
          (.pendingLocal (n.lamport + 1) voters ∅ (now + n.locks.timings.acquireTimeout))
         lamport := n.lamport + 1
         acquires := n.acquires.insert rel (n.lamport + 1) },
        [.all (.lockReq rel (n.lamport + 1) n.ttlMs)]) := by
  have hholder : n.locks.holder rel = none := by
    unfold LockTable.holder
    rw [hentry]
  have hlive : Live now n.locks.states[rel]? := by
    rw [hentry]
    trivial
  unfold LockNode.handleLock
  rw [hholder, Map.contains_eq, hwait]
  simp only [Option.isSome_none, Bool.false_eq_true, if_false, startRequest,
    pruneExpired_of_live hlive, hentry]

/-- **A new request keeps the invariant.** -/
theorem RaceInv.lock [Nontrivial Id] (hi : RaceInv rel w r) {i : Id} {now : Nat}
    (hasked : r.asked i = none) (hheard : i ∉ r.heard) :
    RaceInv rel w { r with
      mesh := r.mesh.commit i ((r.mesh.node i).handleLock (Finset.univ.erase i) rel now)
      asked := Function.update r.asked i
        (Race.requestIn ((r.mesh.node i).handleLock (Finset.univ.erase i) rel now).2) } := by
  obtain ⟨hentry, hwait⟩ := hi.free i hasked hheard
  rw [handleLock_free hentry hwait]
  have hreq : Race.requestIn [(.all (.lockReq rel ((r.mesh.node i).lamport + 1)
      (r.mesh.node i).ttlMs) : Out Id (LockMsg Id Path))] =
      some ((r.mesh.node i).lamport + 1) := rfl
  rw [hreq]
  have honly : OnlyAt rel (r.mesh.node i).locks ((r.mesh.node i).locks.put rel
      (.pendingLocal ((r.mesh.node i).lamport + 1) (Finset.univ.erase i) ∅
        (now + (r.mesh.node i).locks.timings.acquireTimeout))) := .put _
  have hself : ((r.mesh.node i).locks.put rel
      (.pendingLocal ((r.mesh.node i).lamport + 1) (Finset.univ.erase i) ∅
        (now + (r.mesh.node i).locks.timings.acquireTimeout))).states[rel]? = some
      (.pendingLocal ((r.mesh.node i).lamport + 1) (Finset.univ.erase i) ∅
        (now + (r.mesh.node i).locks.timings.acquireTimeout)) := put_get_self _ _ _
  generalize (r.mesh.node i).locks.put rel
    (.pendingLocal ((r.mesh.node i).lamport + 1) (Finset.univ.erase i) ∅
      (now + (r.mesh.node i).locks.timings.acquireTimeout)) = locks at honly hself
  generalize (r.mesh.node i).lamport + 1 = lamport at hself
  generalize (r.mesh.node i).ttlMs = ttlMs
  generalize hn : ({ locks, lamport, acquires := (r.mesh.node i).acquires.insert rel lamport } :
    LockNode Id Path) = n
  have hlocks : n.locks = locks := by rw [← hn]
  have hnode : ∀ j, j ≠ i → Function.update r.mesh.node i n j = r.mesh.node j :=
    fun j hj => Function.update_of_ne hj _ _
  have hasks : ∀ j, j ≠ i → Function.update r.asked i (some lamport) j = r.asked j :=
    fun j hj => Function.update_of_ne hj _ _
  have hask : Function.update r.asked i (some lamport) i = some lamport :=
    Function.update_self _ _ _
  have hchan : ∀ a b, (r.mesh.commit i (n, [.all (.lockReq rel lamport ttlMs)])).chan a b =
      if a = i ∧ b ≠ i then r.mesh.chan a b ++ [.lockReq rel lamport ttlMs]
      else r.mesh.chan a b := fun _ _ => rfl
  have hkept : ∀ a b m, m ∈ r.mesh.chan a b →
      m ∈ (r.mesh.commit i (n, [.all (.lockReq rel lamport ttlMs)])).chan a b := by
    intro a b m hm
    rw [hchan]
    split
    · exact List.mem_append_left _ hm
    · exact hm
  refine ⟨fun j => ?_, fun j => ?_, hi.mayLock, fun j hnone hno => ?_, fun j => ?_, fun j => ?_,
    fun a b m hm => ?_, fun hw v hv => ?_⟩
  · show (Function.update r.mesh.node i n j).locks.me = j
    by_cases hj : j = i
    · subst hj
      rw [Function.update_self, hlocks, honly.me]
      exact hi.me j
    · rw [hnode j hj]
      exact hi.me j
  · show Room rel (Function.update r.mesh.node i n j).locks
    by_cases hj : j = i
    · subst hj
      rw [Function.update_self, hlocks]
      exact (hi.room j).of_onlyAt honly
    · rw [hnode j hj]
      exact hi.room j
  · show (Function.update r.mesh.node i n j).locks.states[rel]? = none ∧
      (Function.update r.mesh.node i n j).acquires[rel]? = none
    have hnone' : Function.update r.asked i (some lamport) j = none := hnone
    by_cases hj : j = i
    · subst hj
      rw [hask] at hnone'
      cases hnone'
    · rw [hasks j hj] at hnone'
      rw [hnode j hj]
      exact hi.free j hnone' hno
  · show EntryOk (Function.update r.asked i (some lamport)) w j
      (Function.update r.mesh.node i n j).locks.states[rel]?
    by_cases hj : j = i
    · subst hj
      rw [Function.update_self, hlocks, hself]
      refine ⟨hask, rfl, fun hsub => ?_, fun _ => Finset.notMem_empty _⟩
      obtain ⟨v, hv⟩ := exists_ne j
      exact Finset.notMem_empty v (hsub (Finset.mem_erase.mpr ⟨hv, Finset.mem_univ _⟩))
    · rw [hnode j hj]
      have hold := hi.entries j
      unfold Race.entry at hold
      generalize (r.mesh.node j).locks.states[rel]? = e at hold ⊢
      cases e with
      | none =>
          intro hjw
          rw [hasks w (fun hwi => hj (hjw.trans hwi))]
          exact hold hjw
      | some e =>
          cases e with
          | held h l' x t =>
              refine ⟨fun hjw => ?_, hold.2⟩
              rw [hasks w (fun hwi => hj (hjw.trans hwi))]
              exact hold.1 hjw
          | pendingLocal l' needed granted d =>
              obtain ⟨hl, hrest⟩ := hold
              refine ⟨?_, hrest⟩
              rw [hasks j hj]
              exact hl
  · show (r.mesh.commit i (n, [.all (.lockReq rel lamport ttlMs)])).chan j j = []
    rw [hchan, if_neg fun hand => hand.2 hand.1]
    exact hi.loops j
  · have hold : ∀ m, m ∈ r.mesh.chan a b →
        MsgOk rel (Function.update r.asked i (some lamport)) w a b m := by
      intro m hm
      have hok := hi.msgs a b m hm
      cases m with
      | lockReq p lamport' ttlMs' =>
          refine ⟨hok.1, ?_⟩
          have hne : a ≠ i := by
            rintro rfl
            have hasked' : r.asked a = some lamport' := hok.2
            rw [hasked] at hasked'
            cases hasked'
          rw [hasks a hne]
          exact hok.2
      | _ => exact hok
    have hm' : m ∈ (r.mesh.commit i (n, [.all (.lockReq rel lamport ttlMs)])).chan a b := hm
    rw [hchan] at hm'
    split at hm'
    · rename_i hab
      rcases List.mem_append.mp hm' with hm' | hm'
      · exact hold m hm'
      · rw [List.mem_singleton.mp hm', hab.1]
        exact ⟨rfl, hask⟩
    · exact hold m hm'
  · show (∃ lamport' ttlMs', .lockReq rel lamport' ttlMs' ∈
        (r.mesh.commit i (n, [.all (.lockReq rel lamport ttlMs)])).chan w v) ∨
      HeldBy w (Function.update r.mesh.node i n v).locks.states[rel]? ∧
        (.lockGrant rel ∈ (r.mesh.commit i (n, [.all (.lockReq rel lamport ttlMs)])).chan v w ∨
          HasVote w v (Function.update r.mesh.node i n w).locks.states[rel]?)
    by_cases hwi : w = i
    · refine .inl ⟨lamport, ttlMs, ?_⟩
      rw [hchan, if_pos ⟨hwi, fun hvi => hv (hvi.trans hwi.symm)⟩]
      exact List.mem_append_right _ (List.mem_singleton_self _)
    · have hw' : r.asked w ≠ none := by
        have hw'' : Function.update r.asked i (some lamport) w ≠ none := hw
        rw [hasks w hwi] at hw''
        exact hw''
      rcases hi.votes hw' v hv with ⟨lamport', ttlMs', hmem⟩ | ⟨hheld, hvote⟩
      · exact .inl ⟨lamport', ttlMs', hkept w v _ hmem⟩
      · have hvi : v ≠ i := by
          rintro rfl
          rw [hentry] at hheld
          exact hheld
        rw [hnode v hvi, hnode w hwi]
        refine .inr ⟨hheld, ?_⟩
        rcases hvote with hmem | hcounted
        · exact .inl (hkept v w _ hmem)
        · exact .inr hcounted

/-- **A step keeps the invariant.** -/
theorem RaceInv.step [Nontrivial Id] (hi : RaceInv rel w r) (hahead : Ahead l w r)
    {a : MeshAct Id Path} (hlive : NoExpiry r.mesh a) (hunbeaten : Unbeaten rel w r a)
    {r' : Race Id Path} (hstep : r.step rel a = some r') (hahead' : Ahead l w r') :
    RaceInv rel w r' := by
  cases a with
  | lock i p now =>
      simp only [Race.step] at hstep
      split at hstep
      · rename_i hfirst
        cases hstep
        exact hi.lock hfirst.2.1 hfirst.2.2
      · cases hstep
  | deliver src dst now =>
      simp only [Race.step, Mesh.step] at hstep
      cases hchan : r.mesh.chan src dst with
      | nil =>
          rw [hchan] at hstep
          cases hstep
      | cons msg rest =>
          have hnext : nextReq (msg :: rest) = nextReq [msg] := by cases msg <;> rfl
          simp only [hchan, hnext] at hstep
          cases hstep
          refine hi.deliver hahead hchan hlive hunbeaten ?_ ?_ hahead'.first
          · intro i hmem
            split
            · exact Finset.mem_insert_of_mem hmem
            · exact hmem
          · intro hreq
            cases hq : nextReq [msg] with
            | none => exact absurd hq hreq
            | some p => exact Finset.mem_insert_self _ _
  | timeout => cases hstep
  | unlock => cases hstep
  | renew => cases hstep

/-- What the end says of a state, it says of the state before. -/
theorem Ahead.backward {a : MeshAct Id Path} {r' : Race Id Path} (hahead : Ahead l w r')
    (hstep : r.step rel a = some r') : Ahead l w r := by
  cases a with
  | lock i p now =>
      simp only [Race.step] at hstep
      split at hstep
      · rename_i hfirst
        cases hstep
        have hasks : ∀ j, r.asked j ≠ none → Function.update r.asked i (Race.requestIn
            ((r.mesh.node i).handleLock (Finset.univ.erase i) rel now).2) j = r.asked j := by
          intro j hj
          refine Function.update_of_ne ?_ _ _
          rintro rfl
          exact hj hfirst.2.1
        refine ⟨fun l' hl' => ?_, fun j l' hl' hj => ?_, fun hnone => ?_⟩
        · exact hahead.own l' ((hasks w (by rw [hl']; simp)).trans hl')
        · exact hahead.others j l' ((hasks j (by rw [hl']; simp)).trans hl') hj
        · by_cases hwi : w = i
          · rw [hwi]
            exact hfirst.2.2
          · exact hahead.first ((Function.update_of_ne hwi _ _).trans hnone)
      · cases hstep
  | deliver src dst now =>
      simp only [Race.step] at hstep
      split at hstep
      · cases hstep
      · cases hstep
        refine ⟨hahead.own, hahead.others, fun hnone hmem => hahead.first hnone ?_⟩
        dsimp only
        split
        · exact Finset.mem_insert_of_mem hmem
        · exact hmem
  | timeout => cases hstep
  | unlock => cases hstep
  | renew => cases hstep

end Step

/-! ## The winner -/

variable [Fintype Id]

/-- **The lowest request wins.** In every race for a path that is free everywhere, without
lease expiry, in which the request with the lowest `(lamport, id)` is delivered nowhere after
the path was granted to another node, the node that has made it holds the path once all
messages are delivered, and no other node does. -/
theorem lowest_wins_of_unbeaten [Nontrivial Id] {rel : Path} {m₀ : Mesh Id Path}
    (hfree : FreeAt rel m₀) {w : Id} {r : Race Id Path}
    (hrun : Reaches (Race.step rel) (fun r a => NoExpiry r.mesh a ∧ Unbeaten rel w r a)
      { mesh := m₀, asked := fun _ => none, heard := ∅ } r)
    (hquiet : r.Quiet) (hlow : r.Lowest w) (i : Id) :
    (r.mesh.node i).locks.isHeldByMe rel = true ↔ i = w := by
  obtain ⟨l, hl, hle⟩ := hlow
  have hend : Ahead l w r := by
    refine ⟨fun l' hl' => ?_, fun j l' hl' hj => ?_, fun hnone => ?_⟩
    · rw [hl] at hl'
      exact (Option.some.inj hl').symm
    · refine lt_of_le_of_ne (hle j l' hl') fun heq => hj ?_
      exact (congrArg (fun x => (ofLex x).2) heq).symm
    · rw [hl] at hnone
      cases hnone
  have hstart : RaceInv rel w { mesh := m₀, asked := fun _ => none, heard := ∅ } := by
    refine ⟨hfree.me, hfree.room, hfree.mayLock, fun i _ _ => ⟨hfree.entry i, hfree.acquires i⟩,
      fun i => ?_, fun i => hfree.chan i i, fun a b m hm => ?_, fun hasked => absurd rfl hasked⟩
    · show EntryOk _ w i (m₀.node i).locks.states[rel]?
      rw [hfree.entry i]
      exact fun _ => rfl
    · have hm' : m ∈ m₀.chan a b := hm
      rw [hfree.chan a b] at hm'
      cases hm'
  have hback := hrun.backward (I := Ahead l w) hend fun _ _ _ hahead _ hstep =>
    hahead.backward hstep
  have hinv : RaceInv rel w r := hback.invariant hstart
    fun _ _ _ hi hok hstep => hi.step hok.2.1 hok.1.1 hok.1.2 hstep (hok.2.2 _ hstep)
  have hwon := hinv.won hquiet (by rw [hl]; simp) i
  rw [isHeldByMe_iff, hinv.me i]
  refine ⟨fun hown => hown.unique hwon, fun hiw => ?_⟩
  rw [hiw] at hwon ⊢
  exact hwon

/-! ## Three nodes

Nodes 0 and 1 ask for path 0 with the same lamport clock, and node 2 votes. -/

def trio : Race (Fin 3) Nat where
  mesh := init (fun _ => ⟨90000, 30000, 8000⟩) fun _ _ => true
  asked _ := none
  heard := ∅

theorem trio_free : FreeAt 0 trio.mesh := by
  refine ⟨fun _ => rfl, fun i => ?_, fun i => ?_, fun i => ?_, fun _ _ => rfl, fun _ _ => rfl⟩
  · show ((∅ : Map Nat (LockState (Fin 3))).erase 0).size < maxTrackedLeases
    decide
  · simp [trio, init, LockTable.new]
  · simp [trio, init]

/-- Nodes 0 and 1 have asked, and all is delivered. -/
def trioDone (r : Race (Fin 3) Nat) : Bool :=
  decide (r.asked 0 = some 1 ∧ r.asked 1 = some 1 ∧ r.asked 2 = none ∧
    ∀ a b, r.mesh.chan a b = [])

theorem lowest_of_trioDone {r : Race (Fin 3) Nat} (h : trioDone r = true) :
    r.Quiet ∧ r.Lowest 0 := by
  obtain ⟨h0, h1, h2, hquiet⟩ := of_decide_eq_true h
  refine ⟨hquiet, 1, h0, fun j l' hl' => ?_⟩
  fin_cases j
  · rw [show r.asked ⟨0, _⟩ = some 1 from h0] at hl'
    cases hl'
    exact le_refl _
  · rw [show r.asked ⟨1, _⟩ = some 1 from h1] at hl'
    cases hl'
    decide
  · rw [show r.asked ⟨2, _⟩ = none from h2] at hl'
    cases hl'

instance (h : Fin 3) (e : Option (LockState (Fin 3))) : Decidable (HeldBy h e) :=
  match e with
  | some (.held h' _ _ _) => inferInstanceAs (Decidable (h' = h))
  | some (.pendingLocal _ _ _ _) => isFalse id
  | none => isFalse id

instance (r : Race (Fin 3) Nat) : DecidablePred (Unbeaten 0 0 r)
  | .deliver src dst _ => inferInstanceAs (Decidable (src = 0 →
      nextReq (r.mesh.chan src dst) ≠ none → ∀ h, HeldBy h (r.entry 0 dst) → h = 0))
  | .lock _ _ _ => isTrue trivial
  | .timeout _ _ _ => isTrue trivial
  | .unlock _ _ => isTrue trivial
  | .renew _ _ => isTrue trivial

/-- The request of node 0 reaches node 2 first, and node 0 wins. -/
theorem lowest_wins_trio : ∃ r : Race (Fin 3) Nat,
    Reaches (Race.step 0) (fun r a => NoExpiry r.mesh a ∧ Unbeaten 0 0 r a) trio r ∧
      r.Quiet ∧ r.Lowest 0 ∧ ∀ i, (r.mesh.node i).locks.isHeldByMe 0 = true ↔ i = 0 := by
  have hexec : (executeChecked (Race.step 0)
      (fun r a => decide (NoExpiry r.mesh a ∧ Unbeaten 0 0 r a))
      [.lock 0 0 0, .lock 1 0 0, .deliver 0 2 1, .deliver 1 2 1, .deliver 0 1 1, .deliver 1 0 2,
        .deliver 2 0 2, .deliver 1 0 2, .deliver 1 0 2, .deliver 2 1 2, .deliver 1 2 2,
        .deliver 0 1 2] trio).any trioDone = true := by
    decide +kernel
  obtain ⟨r, hok, hdone⟩ := exists_reaches_of_executeChecked hexec
  have hrun := hok.mono fun _ _ h => of_decide_eq_true h
  obtain ⟨hquiet, hlow⟩ := lowest_of_trioDone hdone
  exact ⟨r, hrun, hquiet, hlow, lowest_wins_of_unbeaten trio_free hrun hquiet hlow⟩

/-- The request of node 1 reaches node 2 first. Node 2 then denies the request of node 0, and
at the end nobody holds the path. -/
theorem lowest_beaten : ∃ r : Race (Fin 3) Nat,
    Reaches (Race.step 0) (fun r a => NoExpiry r.mesh a) trio r ∧
      r.Quiet ∧ r.Lowest 0 ∧ ∀ i, (r.mesh.node i).locks.isHeldByMe 0 = false := by
  have hexec : (executeChecked (Race.step 0) (fun r a => decide (NoExpiry r.mesh a))
      [.lock 0 0 0, .lock 1 0 0, .deliver 1 2 1, .deliver 0 2 1, .deliver 2 0 2, .deliver 0 1 2,
        .deliver 0 1 2, .deliver 0 2 2, .deliver 1 0 2, .deliver 1 0 2, .deliver 1 0 2,
        .deliver 2 1 2, .deliver 1 2 2, .deliver 0 1 3] trio).any
      (fun r => trioDone r && decide (∀ i, (r.mesh.node i).locks.isHeldByMe 0 = false)) =
        true := by
    decide +kernel
  obtain ⟨r, hok, hdone⟩ := exists_reaches_of_executeChecked hexec
  obtain ⟨hdone, hnone⟩ := Bool.and_eq_true_iff.mp hdone
  obtain ⟨hquiet, hlow⟩ := lowest_of_trioDone hdone
  exact ⟨r, hok.mono fun _ _ h => of_decide_eq_true h, hquiet, hlow, of_decide_eq_true hnone⟩

end Tazamun.Mesh
