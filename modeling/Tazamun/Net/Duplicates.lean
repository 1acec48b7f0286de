import Tazamun.Turn.Books

set_option autoImplicit false

/-! # Two connections between two nodes

Two nodes may dial each other at the same time, and more than once. Each of them decides alone
which connection to keep (`on_authed`, `daemon.rs`): the one that the lower id has initiated,
and of two with the same initiator the one that it has seen first. It closes the other one,
and the node at the other end then learns that the connection is gone, possibly before it has
looked at the connection itself.

The two never end up with different connections, whatever the order of the events. The reason
is short: a node closes every connection that it has seen and does not have installed
(`EndOk.kept`). So if one node has a connection installed and the other has not, the other has
closed it, and the first one has a notice to process.

`Duo` has the two daemons as they are, the connections between them, and, for each end, which
connections it has seen, which it has closed, and which notices it has processed.
-/

namespace Tazamun

open Lib Actor

variable {Id Path : Type} [LinearOrder Id] [LinearOrder Path]

/-! ## The two ends -/

/-- The connections that `on_authed` closes: the new one if it is not taken, the old one if it
is replaced. -/
def Actor.closesOnAuthed (a : Actor Id Path) (id : Id) (connId : Nat) (initiatedByMe : Bool) :
    Finset Nat :=
  if id = a.me then {connId}
  else if !a.peers.contains id && decide (maxPeers ≤ a.peers.size) then {connId}
  else
    let initiator (byMe : Bool) : Id := if byMe then a.me else id
    match a.peers[id]? with
    | none => ∅
    | some existing =>
        if initiator initiatedByMe < initiator existing.initiatedByMe then {existing.connId}
        else {connId}

/-- The connections that `on_peer_gone` closes. -/
def Actor.closesOnGone (a : Actor Id Path) (id : Id) (connId : Nat) : Finset Nat :=
  if a.peers[id]?.map Peer.connId ≠ some connId then ∅ else {connId}

/-- One of the two nodes, with the connections it has seen authenticated, those it has closed,
and those whose end it was told. -/
structure End (Id Path : Type) [LinearOrder Id] [LinearOrder Path] where
  actor : Actor Id Path
  seen : Finset Nat
  closed : Finset Nat
  gone : Finset Nat

namespace End

variable (h : Host Id Path) (env : Env Path)

def handleAuthed (e : End Id Path) (peer : Id) (connId : Nat) (initiatedByMe : Bool) :
    End Id Path where
  actor := e.actor.handle h env (.authed peer connId initiatedByMe)
  seen := insert connId e.seen
  closed := e.closed ∪ e.actor.closesOnAuthed peer connId initiatedByMe
  gone := e.gone

def handleGone (e : End Id Path) (peer : Id) (connId : Nat) : End Id Path where
  actor := e.actor.handle h env (.gone peer connId)
  seen := e.seen
  closed := e.closed ∪ e.actor.closesOnGone peer connId
  gone := insert connId e.gone

/-- The connection installed for the peer. -/
def installed (e : End Id Path) (peer : Id) : Option Nat := e.actor.peers[peer]?.map Peer.connId

end End

structure Duo (Id Path : Type) [LinearOrder Id] [LinearOrder Path] where
  left : End Id Path
  right : End Id Path

inductive DuoAct (Id Path : Type) [Ord Id] where
  | authed (left : Bool) (connId : Nat)
  | gone (left : Bool) (connId : Nat)
  /-- Anything that no other node has sent. -/
  | inside (left : Bool) (act : Act Id Path)

/-- The step is not about another node. -/
def Actor.isInside (a : Actor Id Path) (act : Act Id Path) : Bool :=
  match a.handled act with
  | some (.authed _ _ _) | some (.msg _ _) | some (.gone _ _) => false
  | _ => true

def End.handleInside (h : Host Id Path) (env : Env Path) (e : End Id Path) (act : Act Id Path) :
    Option (End Id Path) :=
  if e.actor.isInside act then
    match e.actor.step h (env, act) with
    | none => none
    | some actor => some { e with actor }
  else none

namespace Duo

variable (h : Host Id Path) (p q : Id) (conns : Map Nat Bool)

/-- The step function. `conns` has the connections between the two nodes; the value says
whether the left one has initiated it. An end is told that a connection is gone after it has
seen it and the other end has closed it. -/
def step (d : Duo Id Path) (s : Env Path × DuoAct Id Path) : Option (Duo Id Path) :=
  let env := s.1
  match s.2 with
  | .authed left connId =>
      match conns[connId]? with
      | none => none
      | some byLeft =>
          if left then
            if connId ∈ d.left.seen then none
            else some { d with left := d.left.handleAuthed h env q connId byLeft }
          else if connId ∈ d.right.seen then none
          else some { d with right := d.right.handleAuthed h env p connId !byLeft }
  | .gone left connId =>
      if left then
        if connId ∈ d.left.seen ∧ connId ∈ d.right.closed then
          some { d with left := d.left.handleGone h env q connId }
        else none
      else if connId ∈ d.right.seen ∧ connId ∈ d.left.closed then
        some { d with right := d.right.handleGone h env p connId }
      else none
  | .inside left act =>
      if left then (d.left.handleInside h env act).map fun left => { d with left }
      else (d.right.handleInside h env act).map fun right => { d with right }

/-- All connections were seen at both ends, and all notices processed. -/
structure Done (d : Duo Id Path) : Prop where
  seen : ∀ (connId : Nat), conns.contains connId = true → connId ∈ d.left.seen ∧ connId ∈ d.right.seen
  left : ∀ connId ∈ d.right.closed, connId ∈ d.left.gone
  right : ∀ connId ∈ d.left.closed, connId ∈ d.right.gone

/-- Both daemons have just started. -/
def start (envL envR : Env Path) (persistedL persistedR : Persisted Id Path)
    (foundingL foundingR : Bool) : Duo Id Path where
  left := ⟨boot h envL p persistedL foundingL, ∅, ∅, ∅⟩
  right := ⟨boot h envR q persistedR foundingR, ∅, ∅, ∅⟩

end Duo

/-! ## One end -/

/-- What holds of one end in every state. `mine` says whether a connection was initiated
here. -/
structure EndOk (h : Host Id Path) (me peer : Id) (mine : Nat → Option Bool) (e : End Id Path) :
    Prop where
  run : RunInv h Terms.none e.actor
  me : e.actor.me = me
  only : ∀ (id : Id), id ≠ peer → e.actor.peers[id]? = none
  known : ∀ c ∈ e.seen, (mine c).isSome = true
  installed : ∀ (x : Peer), e.actor.peers[peer]? = some x →
    x.connId ∈ e.seen ∧ x.connId ∉ e.closed ∧ x.connId ∉ e.gone ∧
      mine x.connId = some x.initiatedByMe
  kept : ∀ c ∈ e.seen, c ∈ e.closed ∨ e.installed peer = some c
  closed : ∀ c ∈ e.closed, c ∈ e.seen
  gone : ∀ c ∈ e.gone, c ∈ e.seen

theorem size_le_one {ν : Type} {m : Map Id ν} {k : Id} (h : ∀ (id : Id), id ≠ k → m[id]? = none) :
    m.size ≤ 1 := by
  cases hk : m[k]? with
  | none =>
      have hempty : m = ∅ := Std.ExtTreeMap.ext_getElem? fun id => by
        by_cases hid : id = k
        · rw [hid, hk]
          rfl
        · rw [h id hid]
          rfl
      rw [hempty]
      exact Nat.zero_le 1
  | some v =>
      have hone : m = (∅ : Map Id ν).insert k v := Std.ExtTreeMap.ext_getElem? fun id => by
        rw [Map.get_insert]
        by_cases hid : k = id
        · rw [if_pos hid, ← hid, hk]
        · rw [if_neg hid, h id (Ne.symm hid)]
          rfl
      rw [hone]
      exact Std.ExtTreeMap.size_insert_le

namespace EndOk

variable {h : Host Id Path} (env : Env Path) {me peer : Id} {mine : Nat → Option Bool}
  {e : End Id Path}

/-- What an end does with a new connection: it is the first one, or it replaces one with a
higher initiator, or it is closed. -/
theorem authed_cases (hok : EndOk h me peer mine e) (hne : peer ≠ me) (connId : Nat)
    (initiatedByMe : Bool) :
    (e.actor.peers[peer]? = none ∧
      (e.handleAuthed h env peer connId initiatedByMe).actor =
        e.actor.join h env peer ⟨connId, initiatedByMe⟩ ∧
      e.actor.closesOnAuthed peer connId initiatedByMe = ∅) ∨
    ∃ x, e.actor.peers[peer]? = some x ∧
      (((if initiatedByMe then me else peer) < (if x.initiatedByMe then me else peer) ∧
        (e.handleAuthed h env peer connId initiatedByMe).actor =
          e.actor.join h env peer ⟨connId, initiatedByMe⟩ ∧
        e.actor.closesOnAuthed peer connId initiatedByMe = {x.connId}) ∨
      (¬ (if initiatedByMe then me else peer) < (if x.initiatedByMe then me else peer) ∧
        (e.handleAuthed h env peer connId initiatedByMe).actor = e.actor ∧
        e.actor.closesOnAuthed peer connId initiatedByMe = {connId})) := by
  have hself : ¬ peer = e.actor.me := by
    rw [hok.me]
    exact hne
  have hfull : ¬ maxPeers ≤ e.actor.peers.size := by
    have hone := size_le_one hok.only
    have hmax : maxPeers = 128 := rfl
    omega
  have hroom : (!e.actor.peers.contains peer && decide (maxPeers ≤ e.actor.peers.size)) = false := by
    rw [decide_eq_false hfull, Bool.and_false]
  have hactor : (e.handleAuthed h env peer connId initiatedByMe).actor =
      e.actor.onAuthed h env peer connId initiatedByMe := rfl
  rw [hactor]
  unfold Actor.onAuthed Actor.closesOnAuthed
  rw [if_neg hself, if_neg hself, hroom, if_neg Bool.false_ne_true, if_neg Bool.false_ne_true,
    hok.me]
  cases hx : e.actor.peers[peer]? with
  | none => exact .inl ⟨rfl, rfl, rfl⟩
  | some x =>
      refine .inr ⟨x, rfl, ?_⟩
      dsimp only
      by_cases hlt : (if initiatedByMe then me else peer) < (if x.initiatedByMe then me else peer)
      · rw [if_pos hlt, if_pos hlt]
        exact .inl ⟨hlt, rfl, rfl⟩
      · rw [if_neg hlt, if_neg hlt]
        exact .inr ⟨hlt, rfl, rfl⟩

/-- A step that leaves the connections alone. -/
theorem of_peers_eq (hok : EndOk h me peer mine e) {actor : Actor Id Path}
    (hrun : RunInv h Terms.none actor) (hme : actor.me = e.actor.me)
    (hpeers : ∀ (id : Id), actor.peers[id]? = e.actor.peers[id]?) :
    EndOk h me peer mine { e with actor } := by
  refine ⟨hrun, hme.trans hok.me, fun id hid => ?_, hok.known, fun x hx => ?_, fun c hc => ?_,
    hok.closed, hok.gone⟩
  · exact (hpeers id).trans (hok.only id hid)
  · exact hok.installed x ((hpeers peer).symm.trans hx)
  · rcases hok.kept c hc with hclosed | hinst
    · exact .inl hclosed
    · refine .inr ?_
      show (actor.peers[peer]?).map Peer.connId = some c
      rw [hpeers peer]
      exact hinst

theorem runInv_handle (hok : EndOk h me peer mine e) (ev : Event Id Path)
    (hext : ev.isExternal = true) :
    RunInv h Terms.none (e.actor.handle h env ev) := by
  have hstep : e.actor.step h (env, .event ev) = some (e.actor.handle h env ev) := if_pos hext
  exact hok.run.step False.elim ⟨False.elim, False.elim, False.elim, False.elim⟩ hstep

theorem handleAuthed (hok : EndOk h me peer mine e) (hne : peer ≠ me) {connId : Nat}
    {initiatedByMe : Bool} (hmine : mine connId = some initiatedByMe)
    (hnew : connId ∉ e.seen) :
    EndOk h me peer mine (e.handleAuthed h env peer connId initiatedByMe) := by
  have hrun := hok.runInv_handle env (.authed peer connId initiatedByMe) rfl
  have hknown : ∀ c ∈ insert connId e.seen, (mine c).isSome = true := by
    intro c hc
    rcases Finset.mem_insert.mp hc with rfl | hc
    · rw [hmine]
      rfl
    · exact hok.known c hc
  have hclosed : connId ∉ e.closed := fun hc => hnew (hok.closed connId hc)
  have hgone : connId ∉ e.gone := fun hc => hnew (hok.gone connId hc)
  -- the connection is taken, and at most the one that was there is closed
  have htaken : ∀ closes : Finset Nat,
      (e.handleAuthed h env peer connId initiatedByMe).actor =
        e.actor.join h env peer ⟨connId, initiatedByMe⟩ →
      e.actor.closesOnAuthed peer connId initiatedByMe = closes →
      (∀ c ∈ closes, e.installed peer = some c) →
      (∀ c, e.installed peer = some c → c ∈ closes) →
      EndOk h me peer mine (e.handleAuthed h env peer connId initiatedByMe) := by
    intro closes hactor hcloses hsub hsup
    have hclosedEq : (e.handleAuthed h env peer connId initiatedByMe).closed =
        e.closed ∪ closes := by rw [← hcloses]; rfl
    have hpeer : (e.handleAuthed h env peer connId initiatedByMe).actor.peers[peer]? =
        some ⟨connId, initiatedByMe⟩ := by
      rw [hactor]
      exact Map.get_insert_self _ _ _
    have hold : ∀ c, e.installed peer = some c → c ∈ e.seen := by
      intro c hc
      obtain ⟨x, hx, rfl⟩ := Option.map_eq_some_iff.mp hc
      exact (hok.installed x hx).1
    refine ⟨hrun, ?_, fun id hid => ?_, hknown, fun x hx => ?_, fun c hc => ?_, fun c hc => ?_,
      fun c hc => Finset.mem_insert_of_mem (hok.gone c hc)⟩
    · rw [hactor]
      exact hok.me
    · rw [hactor]
      exact (Map.get_insert_ne _ _ (Ne.symm hid)).trans (hok.only id hid)
    · rw [hpeer] at hx
      cases hx
      refine ⟨Finset.mem_insert_self _ _, ?_, hgone, hmine⟩
      rw [hclosedEq]
      intro hc
      rcases Finset.mem_union.mp hc with hc | hc
      · exact hclosed hc
      · exact hnew (hold _ (hsub _ hc))
    · rcases Finset.mem_insert.mp hc with rfl | hc
      · refine .inr ?_
        show ((e.handleAuthed h env peer c initiatedByMe).actor.peers[peer]?).map Peer.connId = _
        rw [hpeer]
        rfl
      · refine .inl ?_
        rw [hclosedEq]
        rcases hok.kept c hc with hc | hc
        · exact Finset.mem_union_left _ hc
        · exact Finset.mem_union_right _ (hsup c hc)
    · rw [hclosedEq] at hc
      refine Finset.mem_insert_of_mem ?_
      rcases Finset.mem_union.mp hc with hc | hc
      · exact hok.closed c hc
      · exact hold c (hsub c hc)
  rcases hok.authed_cases env hne connId initiatedByMe with
    ⟨hnone, hactor, hcloses⟩ | ⟨x, hx, ⟨-, hactor, hcloses⟩ | ⟨-, hactor, hcloses⟩⟩
  · have hinst : e.installed peer = none := by
      unfold End.installed
      rw [hnone]
      rfl
    refine htaken ∅ hactor hcloses (by simp) ?_
    rw [hinst]
    simp
  · have hinst : e.installed peer = some x.connId := by
      unfold End.installed
      rw [hx]
      rfl
    refine htaken {x.connId} hactor hcloses ?_ ?_
    · intro c hc
      rw [hinst, Finset.mem_singleton.mp hc]
    · intro c hc
      rw [hinst] at hc
      cases hc
      exact Finset.mem_singleton_self _
  · -- the connection is closed, and all else stays
    have hclosedEq : (e.handleAuthed h env peer connId initiatedByMe).closed =
        e.closed ∪ {connId} := by rw [← hcloses]; rfl
    refine ⟨hrun, ?_, ?_, hknown, fun y hy => ?_, fun c hc => ?_, fun c hc => ?_,
      fun c hc => Finset.mem_insert_of_mem (hok.gone c hc)⟩
    · rw [hactor]
      exact hok.me
    · rw [hactor]
      exact hok.only
    · rw [hactor] at hy
      obtain ⟨hseen, hcl, hg, hm⟩ := hok.installed y hy
      refine ⟨Finset.mem_insert_of_mem hseen, ?_, hg, hm⟩
      rw [hclosedEq]
      intro hc
      rcases Finset.mem_union.mp hc with hc | hc
      · exact hcl hc
      · rw [Finset.mem_singleton.mp hc] at hseen
        exact hnew hseen
    · rw [hclosedEq]
      rcases Finset.mem_insert.mp hc with rfl | hc
      · exact .inl (Finset.mem_union_right _ (Finset.mem_singleton_self _))
      · rcases hok.kept c hc with hc | hc
        · exact .inl (Finset.mem_union_left _ hc)
        · refine .inr ?_
          show ((e.handleAuthed h env peer connId initiatedByMe).actor.peers[peer]?).map _ = _
          rw [hactor]
          exact hc
    · rw [hclosedEq] at hc
      rcases Finset.mem_union.mp hc with hc | hc
      · exact Finset.mem_insert_of_mem (hok.closed c hc)
      · rw [Finset.mem_singleton.mp hc]
        exact Finset.mem_insert_self _ _

theorem handleGone (hok : EndOk h me peer mine e) {connId : Nat} (hseen : connId ∈ e.seen) :
    EndOk h me peer mine (e.handleGone h env peer connId) := by
  have hrun := hok.runInv_handle env (.gone peer connId) rfl
  have hconn : ∀ (id : Id), (e.handleGone h env peer connId).actor.peers[id]? =
      if id = peer ∧ e.installed peer = some connId then none else e.actor.peers[id]? := by
    intro id
    have hbook := congrArg Book.conn (handle_book (hok.run.aside env) (.gone peer connId) id)
    refine hbook.trans ?_
    unfold Book.handle Book.gone
    dsimp only
    by_cases hid : id = peer
    · subst hid
      have hinst : e.installed id = (e.actor.book id).conn.map Peer.connId := rfl
      rw [hinst, if_pos rfl]
      split
      · rename_i hne
        rw [if_neg fun hand => hne hand.2]
        rfl
      · rename_i heq
        rw [if_pos ⟨rfl, not_not.mp heq⟩]
    · rw [if_neg (Ne.symm hid), if_neg fun hand => hid hand.1]
      rfl
  have hme : (e.handleGone h env peer connId).actor.me = e.actor.me :=
    handle_me (hok.run.aside env) _
  have hclosedEq : (e.handleGone h env peer connId).closed =
      e.closed ∪ if e.installed peer ≠ some connId then ∅ else {connId} := rfl
  have hgoneEq : (e.handleGone h env peer connId).gone = insert connId e.gone := rfl
  by_cases hinst : e.installed peer = some connId
  · have hnone : (e.handleGone h env peer connId).actor.peers[peer]? = none := by
      rw [hconn peer, if_pos ⟨rfl, hinst⟩]
    refine ⟨hrun, hme.trans hok.me, fun id hid => ?_, hok.known, fun x hx => ?_, fun c hc => ?_,
      fun c hc => ?_, fun c hc => ?_⟩
    · rw [hconn id, if_neg fun hand => hid hand.1]
      exact hok.only id hid
    · rw [hnone] at hx
      cases hx
    · refine .inl ?_
      rw [hclosedEq, if_neg (not_not.mpr hinst)]
      rcases hok.kept c hc with hc | hc
      · exact Finset.mem_union_left _ hc
      · rw [hinst] at hc
        cases hc
        exact Finset.mem_union_right _ (Finset.mem_singleton_self _)
    · rw [hclosedEq, if_neg (not_not.mpr hinst)] at hc
      rcases Finset.mem_union.mp hc with hc | hc
      · exact hok.closed c hc
      · rw [Finset.mem_singleton.mp hc]
        exact hseen
    · rcases Finset.mem_insert.mp hc with rfl | hc
      · exact hseen
      · exact hok.gone c hc
  · -- the notice is about another connection than the installed one
    have hpeers : ∀ (id : Id), (e.handleGone h env peer connId).actor.peers[id]? =
        e.actor.peers[id]? := by
      intro id
      rw [hconn id, if_neg fun hand => hinst hand.2]
    have hsame := hok.of_peers_eq hrun hme hpeers
    refine ⟨hrun, hsame.me, hsame.only, hok.known, fun x hx => ?_, fun c hc => ?_, fun c hc => ?_,
      fun c hc => ?_⟩
    · obtain ⟨hs, hcl, hg, hm⟩ := hsame.installed x hx
      refine ⟨hs, ?_, ?_, hm⟩
      · rw [hclosedEq, if_pos hinst, Finset.union_empty]
        exact hcl
      · rw [hgoneEq, Finset.mem_insert]
        rintro (heq | hmem)
        · refine hinst ?_
          unfold End.installed
          rw [← hpeers peer, hx, ← heq]
          rfl
        · exact hg hmem
    · rw [hclosedEq, if_pos hinst, Finset.union_empty]
      exact hsame.kept c hc
    · rw [hclosedEq, if_pos hinst, Finset.union_empty] at hc
      exact hok.closed c hc
    · rcases Finset.mem_insert.mp hc with rfl | hc
      · exact hseen
      · exact hok.gone c hc

theorem handleInside (hok : EndOk h me peer mine e) {act : Act Id Path} {e' : End Id Path}
    (hstep : e.handleInside h env act = some e') : EndOk h me peer mine e' := by
  unfold End.handleInside at hstep
  split at hstep
  · rename_i hinside
    split at hstep
    · cases hstep
    · rename_i actor hactor
      cases hstep
      have hrun : RunInv h Terms.none actor :=
        hok.run.step False.elim ⟨False.elim, False.elim, False.elim, False.elim⟩ hactor
      refine hok.of_peers_eq hrun (step_me hok.run hactor) fun id => ?_
      have hbook := step_book hok.run hactor id
      unfold Actor.isInside at hinside
      cases hev : e.actor.handled act with
      | none =>
          simp only [hev] at hbook
          exact congrArg Book.conn hbook
      | some ev =>
          simp only [hev] at hbook hinside
          cases ev with
          | authed => cases hinside
          | msg => cases hinside
          | gone => cases hinside
          | _ => exact congrArg Book.conn hbook
  · cases hstep

end EndOk

/-! ## Both ends -/

/-- What holds of the two nodes in every state. -/
structure DuoOk (h : Host Id Path) (p q : Id) (conns : Map Nat Bool) (d : Duo Id Path) : Prop where
  left : EndOk h p q (fun c => conns[c]?) d.left
  right : EndOk h q p (fun c => conns[c]?.map not) d.right

section Step

variable {h : Host Id Path} {p q : Id} {conns : Map Nat Bool} {d d' : Duo Id Path}

/-- **A step keeps the invariant.** -/
theorem DuoOk.step (hpq : p ≠ q) (hok : DuoOk h p q conns d) {s : Env Path × DuoAct Id Path}
    (hstep : d.step h p q conns s = some d') : DuoOk h p q conns d' := by
  obtain ⟨env, act⟩ := s
  cases act with
  | authed left connId =>
      simp only [Duo.step] at hstep
      split at hstep
      · cases hstep
      · rename_i byLeft hconn
        cases left with
        | true =>
            simp only [if_true] at hstep
            split at hstep
            · cases hstep
            · rename_i hnew
              cases hstep
              exact ⟨hok.left.handleAuthed env hpq.symm hconn hnew, hok.right⟩
        | false =>
            simp only [Bool.false_eq_true, if_false] at hstep
            split at hstep
            · cases hstep
            · rename_i hnew
              cases hstep
              have hmine : conns[connId]?.map not = some !byLeft := by
                rw [hconn]
                rfl
              exact ⟨hok.left, hok.right.handleAuthed env hpq hmine hnew⟩
  | gone left connId =>
      simp only [Duo.step] at hstep
      cases left with
      | true =>
          simp only [if_true] at hstep
          split at hstep
          · rename_i hseen
            cases hstep
            exact ⟨hok.left.handleGone env hseen.1, hok.right⟩
          · cases hstep
      | false =>
          simp only [Bool.false_eq_true, if_false] at hstep
          split at hstep
          · rename_i hseen
            cases hstep
            exact ⟨hok.left, hok.right.handleGone env hseen.1⟩
          · cases hstep
  | inside left act =>
      simp only [Duo.step] at hstep
      cases left with
      | true =>
          simp only [if_true] at hstep
          obtain ⟨e, he, rfl⟩ := Option.map_eq_some_iff.mp hstep
          exact ⟨hok.left.handleInside env he, hok.right⟩
      | false =>
          simp only [Bool.false_eq_true, if_false] at hstep
          obtain ⟨e, he, rfl⟩ := Option.map_eq_some_iff.mp hstep
          exact ⟨hok.left, hok.right.handleInside env he⟩

theorem EndOk.boot (h : Host Id Path) (env : Env Path) (me peer : Id) (mine : Nat → Option Bool)
    (persisted : Persisted Id Path) (founding : Bool) :
    EndOk h me peer mine ⟨boot h env me persisted founding, ∅, ∅, ∅⟩ := by
  have hpeers : ∀ (id : Id), (Actor.boot h env me persisted founding).peers[id]? = none :=
    fun id => congrArg Book.conn (boot_book h env me persisted founding id)
  refine ⟨.boot h (fun hc => False.elim hc) me False.elim founding,
    boot_me h env me persisted founding, fun id _ => hpeers id, by simp, fun x hx => ?_, by simp,
    by simp, by simp⟩
  have hnone := hpeers peer
  dsimp only at hx
  rw [hnone] at hx
  cases hx

/-- What one end has installed, the other has too, once all is processed. -/
theorem EndOk.agree {me peer : Id} {mine mine' : Nat → Option Bool} {e e' : End Id Path}
    (hok : EndOk h me peer mine e) (hok' : EndOk h peer me mine' e')
    (hseen : ∀ c, (mine c).isSome = true → c ∈ e'.seen)
    (hnotice : ∀ c ∈ e'.closed, c ∈ e.gone) {c : Nat} (hc : e.installed peer = some c) :
    e'.installed me = some c := by
  obtain ⟨x, hx, rfl⟩ := Option.map_eq_some_iff.mp hc
  obtain ⟨hmine, -, hgone, -⟩ := hok.installed x hx
  rcases hok'.kept x.connId (hseen _ (hok.known _ hmine)) with hclosed | hinst
  · exact absurd (hnotice _ hclosed) hgone
  · exact hinst

/-! ## The connection with the lowest initiator -/

/-- The connection has a lower initiator than all others. -/
def Lowest (me peer : Id) (mine : Nat → Option Bool) (low : Nat) : Prop :=
  ∀ b, mine low = some b → ∀ k b', mine k = some b' → k ≠ low →
    (if b then me else peer) < (if b' then me else peer)

/-- No end closes it when it sees a connection. -/
theorem EndOk.low_not_closed {me peer : Id} {mine : Nat → Option Bool} {e : End Id Path}
    (hok : EndOk h me peer mine e) (hne : peer ≠ me) {low : Nat} (hlow : Lowest me peer mine low)
    (hopen : low ∉ e.closed) (env : Env Path) {connId : Nat} {initiatedByMe : Bool}
    (hmine : mine connId = some initiatedByMe) (hnew : connId ∉ e.seen) :
    low ∉ (e.handleAuthed h env peer connId initiatedByMe).closed := by
  have hclosedEq : (e.handleAuthed h env peer connId initiatedByMe).closed =
      e.closed ∪ e.actor.closesOnAuthed peer connId initiatedByMe := rfl
  rw [hclosedEq, Finset.mem_union]
  rintro (hc | hc)
  · exact hopen hc
  · rcases hok.authed_cases env hne connId initiatedByMe with
      ⟨-, -, hcloses⟩ | ⟨x, hx, ⟨hlt, -, hcloses⟩ | ⟨hnlt, -, hcloses⟩⟩
    · rw [hcloses] at hc
      exact Finset.notMem_empty _ hc
    · -- a connection with a lower initiator would have replaced it
      rw [hcloses, Finset.mem_singleton] at hc
      obtain ⟨hseen, -, -, hxmine⟩ := hok.installed x hx
      have hother : connId ≠ low := by
        rintro rfl
        rw [← hc] at hseen
        exact hnew hseen
      rw [← hc] at hxmine
      exact lt_asymm hlt (hlow _ hxmine connId _ hmine hother)
    · -- it would have been turned away for one with a lower initiator
      rw [hcloses, Finset.mem_singleton] at hc
      subst hc
      obtain ⟨hseen, -, -, hxmine⟩ := hok.installed x hx
      have hother : x.connId ≠ low := by
        rintro rfl
        exact hnew hseen
      exact hnlt (hlow _ hmine _ _ hxmine hother)

/-- Nor does an end close it for another reason. -/
theorem low_not_closed_step (hpq : p ≠ q) (hok : DuoOk h p q conns d) {low : Nat}
    (hlow : Lowest p q (fun c => conns[c]?) low)
    (hopen : low ∉ d.left.closed ∧ low ∉ d.right.closed) {s : Env Path × DuoAct Id Path}
    (hstep : d.step h p q conns s = some d') : low ∉ d'.left.closed ∧ low ∉ d'.right.closed := by
  have hlow' : Lowest q p (fun c => conns[c]?.map not) low := by
    intro b hb k b' hb' hk
    obtain ⟨c, hc, rfl⟩ := Option.map_eq_some_iff.mp hb
    obtain ⟨c', hc', rfl⟩ := Option.map_eq_some_iff.mp hb'
    have hlt := hlow c hc k c' hc' hk
    cases c <;> cases c' <;> exact hlt
  have hgone : ∀ (e : End Id Path) (peer : Id) (connId : Nat), low ∉ e.closed → connId ≠ low →
      ∀ env, low ∉ (e.handleGone h env peer connId).closed := by
    intro e peer connId hno hne env
    have hclosedEq : (e.handleGone h env peer connId).closed =
        e.closed ∪ e.actor.closesOnGone peer connId := rfl
    rw [hclosedEq, Finset.mem_union]
    rintro (hc | hc)
    · exact hno hc
    · unfold Actor.closesOnGone at hc
      split at hc
      · exact Finset.notMem_empty _ hc
      · exact hne (Finset.mem_singleton.mp hc).symm
  have hinside : ∀ (e e' : End Id Path) act env, e.handleInside h env act = some e' →
      e'.closed = e.closed := by
    intro e e' act env he
    unfold End.handleInside at he
    split at he
    · split at he
      · cases he
      · cases he
        rfl
    · cases he
  obtain ⟨env, act⟩ := s
  cases act with
  | authed left connId =>
      simp only [Duo.step] at hstep
      split at hstep
      · cases hstep
      · rename_i byLeft hconn
        cases left with
        | true =>
            simp only [if_true] at hstep
            split at hstep
            · cases hstep
            · rename_i hnew
              cases hstep
              exact ⟨hok.left.low_not_closed hpq.symm hlow hopen.1 env hconn hnew, hopen.2⟩
        | false =>
            simp only [Bool.false_eq_true, if_false] at hstep
            split at hstep
            · cases hstep
            · rename_i hnew
              cases hstep
              have hmine : conns[connId]?.map not = some !byLeft := by
                rw [hconn]
                rfl
              exact ⟨hopen.1, hok.right.low_not_closed hpq hlow' hopen.2 env hmine hnew⟩
  | gone left connId =>
      simp only [Duo.step] at hstep
      cases left with
      | true =>
          simp only [if_true] at hstep
          split at hstep
          · rename_i hseen
            cases hstep
            exact ⟨hgone _ _ _ hopen.1 (fun heq => hopen.2 (heq ▸ hseen.2)) env, hopen.2⟩
          · cases hstep
      | false =>
          simp only [Bool.false_eq_true, if_false] at hstep
          split at hstep
          · rename_i hseen
            cases hstep
            exact ⟨hopen.1, hgone _ _ _ hopen.2 (fun heq => hopen.1 (heq ▸ hseen.2)) env⟩
          · cases hstep
  | inside left act =>
      simp only [Duo.step] at hstep
      cases left with
      | true =>
          simp only [if_true] at hstep
          obtain ⟨e, he, rfl⟩ := Option.map_eq_some_iff.mp hstep
          refine ⟨?_, hopen.2⟩
          rw [hinside _ _ _ _ he]
          exact hopen.1
      | false =>
          simp only [Bool.false_eq_true, if_false] at hstep
          obtain ⟨e, he, rfl⟩ := Option.map_eq_some_iff.mp hstep
          refine ⟨hopen.1, ?_⟩
          rw [hinside _ _ _ _ he]
          exact hopen.2

end Step

/-- **Duplicate connections are settled alike at both ends.** Once all events are processed,
the two nodes have the same connection installed, or neither has one; and if each of them has
initiated one, it is the one that the lower id has initiated. -/
theorem duplicates_agree (h : Host Id Path) {p q : Id} (hpq : p ≠ q) (conns : Map Nat Bool)
    (envL envR : Env Path) (persistedL persistedR : Persisted Id Path)
    (foundingL foundingR : Bool) {d : Duo Id Path}
    (hrun : Reaches (Duo.step h p q conns) anyStep
      (Duo.start h p q envL envR persistedL persistedR foundingL foundingR) d)
    (hdone : d.Done conns) :
    d.left.installed q = d.right.installed p ∧
    ∀ c c' : Nat, (∀ (k : Nat), conns[k]? = some true ↔ k = c) →
      (∀ (k : Nat), conns[k]? = some false ↔ k = c') →
      d.left.installed q = some (if p < q then c else c') := by
  have hstart : DuoOk h p q conns
      (Duo.start h p q envL envR persistedL persistedR foundingL foundingR) :=
    ⟨.boot .., .boot ..⟩
  have hok : DuoOk h p q conns d :=
    hrun.invariant hstart fun _ _ _ hok _ hstep => hok.step hpq hstep
  have hseenL : ∀ c : Nat, (conns[c]?.map not).isSome = true → c ∈ d.left.seen := by
    intro c hc
    rw [Option.isSome_map, ← Map.contains_eq] at hc
    exact (hdone.seen c hc).1
  have hseenR : ∀ c : Nat, conns[c]?.isSome = true → c ∈ d.right.seen := by
    intro c hc
    rw [← Map.contains_eq] at hc
    exact (hdone.seen c hc).2
  refine ⟨?_, fun c c' htrue hfalse => ?_⟩
  · refine Option.ext fun c => ⟨fun hc => ?_, fun hc => ?_⟩
    · exact hok.left.agree hok.right hseenR hdone.left hc
    · exact hok.right.agree hok.left hseenL hdone.right hc
  · -- the one with the lower initiator is never closed, and so it is installed
    have hinst : ∀ low : Nat, Lowest p q (fun c => conns[c]?) low → conns[low]?.isSome = true →
        d.left.installed q = some low := by
      intro low hlow hsome
      have hopen : DuoOk h p q conns d ∧ low ∉ d.left.closed ∧ low ∉ d.right.closed := by
        refine hrun.invariant
          (I := fun d => DuoOk h p q conns d ∧ low ∉ d.left.closed ∧ low ∉ d.right.closed)
          ⟨hstart, Finset.notMem_empty _, Finset.notMem_empty _⟩ ?_
        intro _ _ _ hboth _ hstep
        exact ⟨hboth.1.step hpq hstep, low_not_closed_step hpq hboth.1 hlow hboth.2 hstep⟩
      rw [← Map.contains_eq] at hsome
      rcases hok.left.kept low (hdone.seen low hsome).1 with hc | hc
      · exact absurd hc hopen.2.1
      · exact hc
    by_cases hlt : p < q
    · rw [if_pos hlt]
      refine hinst c (fun b hb k b' hb' hk => ?_) ?_
      · have hb : conns[c]? = some b := hb
        have hb' : conns[k]? = some b' := hb'
        rw [(htrue c).mpr rfl] at hb
        cases hb
        cases b' with
        | true => exact absurd ((htrue k).mp hb') hk
        | false => exact hlt
      · rw [(htrue c).mpr rfl]
        rfl
    · rw [if_neg hlt]
      have hgt : q < p := lt_of_le_of_ne (not_lt.mp hlt) (Ne.symm hpq)
      refine hinst c' (fun b hb k b' hb' hk => ?_) ?_
      · have hb : conns[c']? = some b := hb
        have hb' : conns[k]? = some b' := hb'
        rw [(hfalse c').mpr rfl] at hb
        cases hb
        cases b' with
        | true => exact hgt
        | false => exact absurd ((hfalse k).mp hb') hk
      · rw [(hfalse c').mpr rfl]
        rfl

/-- One connection initiated by each node. -/
def crossed : Map Nat Bool := ((∅ : Map Nat Bool).insert 10 true).insert 11 false

/-- Each node sees first the connection that the other one has initiated. -/
def crossing : List (Env Nat × DuoAct Nat Nat) :=
  [.authed true 11, .authed false 10, .authed true 10, .authed false 11, .gone true 11,
    .gone false 11].map fun act => (plainEnv 0, act)

/-- All is seen and processed; the connection of the higher id is closed at both ends. -/
def crossedDone (d : Duo Nat Nat) : Bool :=
  decide (d.left.seen = {10, 11} ∧ d.right.seen = {10, 11} ∧ d.left.closed = {11} ∧
    d.right.closed = {11} ∧ d.left.gone = {11} ∧ d.right.gone = {11})

theorem done_of_crossedDone {d : Duo Nat Nat} (hd : crossedDone d = true) : d.Done crossed := by
  obtain ⟨hsl, hsr, hcl, hcr, hgl, hgr⟩ := of_decide_eq_true hd
  refine ⟨fun c hc => ?_, ?_, ?_⟩
  · have hmem : c ∈ ({10, 11} : Finset Nat) := by
      simp only [crossed, Std.ExtTreeMap.contains_insert, Bool.or_eq_true,
        Std.ExtTreeMap.contains_empty, Bool.false_eq_true, or_false] at hc
      simp only [Finset.mem_insert, Finset.mem_singleton]
      rcases hc with hc | hc
      · exact .inr (compare_eq_iff_eq.mp (eq_of_beq hc)).symm
      · exact .inl (compare_eq_iff_eq.mp (eq_of_beq hc)).symm
    rw [hsl, hsr]
    exact ⟨hmem, hmem⟩
  · rw [hcr, hgl]
    exact fun _ hc => hc
  · rw [hcl, hgr]
    exact fun _ hc => hc

/-- Nodes 0 and 1 dial each other at the same time, and both keep the connection of node 0. -/
theorem duplicates_agree_crossed : ∃ d : Duo Nat Nat,
    Reaches (Duo.step plainHost 0 1 crossed) anyStep
      (Duo.start plainHost 0 1 (plainEnv 0) (plainEnv 0) plainState plainState false false) d ∧
    d.Done crossed ∧ d.left.installed 1 = some 10 ∧ d.right.installed 0 = some 10 := by
  have hexec : (execute (Duo.step plainHost 0 1 crossed) crossing
      (Duo.start plainHost 0 1 (plainEnv 0) (plainEnv 0) plainState plainState false false)).any
      crossedDone = true := by
    decide +kernel
  obtain ⟨d, hrun, hd⟩ := exists_reaches_of_execute anyStep (fun _ _ _ => trivial) hexec
  have hdone := done_of_crossedDone hd
  have htrue : ∀ (k : Nat), crossed[k]? = some true ↔ k = 10 := by
    intro k
    unfold crossed
    rw [Map.get_insert, Map.get_insert]
    by_cases h11 : 11 = k
    · rw [if_pos h11]
      simp
      omega
    · rw [if_neg h11]
      by_cases h10 : 10 = k
      · simp [h10]
      · simp [h10, Ne.symm h10]
  have hfalse : ∀ (k : Nat), crossed[k]? = some false ↔ k = 11 := by
    intro k
    unfold crossed
    rw [Map.get_insert, Map.get_insert]
    by_cases h11 : 11 = k
    · simp [h11]
    · rw [if_neg h11]
      by_cases h10 : 10 = k
      · simp [h10, Ne.symm h11]
      · simp [h10, Ne.symm h11]
  obtain ⟨hsame, hlow⟩ := duplicates_agree plainHost (by decide) crossed (plainEnv 0) (plainEnv 0)
    plainState plainState false false hrun hdone
  have hleft := hlow 10 11 htrue hfalse
  exact ⟨d, hrun, hdone, hleft, hsame ▸ hleft⟩

end Tazamun
