import Tazamun.Index.Exchange

set_option autoImplicit false

/-! # The index exchange across connections

A peer may connect, lose the connection, and connect again, and two connections with one peer
may overlap until one of them is chosen (`on_authed`, `daemon.rs`). On each connection the
peer sends its index first. The reader of a connection posts its messages to the queue of the
actor (`PeerHandle::spawn`, `net/control.rs`), so messages of a connection may be handled
after it was replaced or closed.

The parts are staged per peer and not per connection, and a message does not say on which
connection it came. So the exchange is in order only as long as the connections of a peer do
not overlap: a connection is replaced before any of its messages was handled, and what is left
of a connection that was replaced or closed is not handled once another one is there
(`Orderly`). Then the parts are taken in sequence, what is installed is what was sent, and the
index counts as received only when the index of the installed connection is complete
(`Exchanged`).
-/

namespace Tazamun

open Lib Actor

variable {Id Path : Type} [LinearOrder Id] [LinearOrder Path]

/-! ## The connections of a peer -/

/-- A connection that was installed at some time: the map that goes out on it, all messages of
the peer, and the number of those handled so far. -/
structure Conn (Id Path : Type) [LinearOrder Id] [LinearOrder Path] where
  sent : Map Path (FileRecord Id)
  script : List (Msg Id Path)
  pos : Nat

/-- The messages that are not handled yet. -/
def Conn.rest (c : Conn Id Path) : List (Msg Id Path) := c.script.drop c.pos

structure Link (Id Path : Type) [LinearOrder Id] [LinearOrder Path] where
  actor : Actor Id Path
  conns : Map Nat (Conn Id Path)

inductive LinkAct (Id Path : Type) [LinearOrder Id] [LinearOrder Path] where
  /-- A connection is authenticated. -/
  | connect (connId : Nat) (initiatedByMe : Bool) (sent : Map Path (FileRecord Id))
      (script : List (Msg Id Path))
  /-- The next message of a connection is handled. -/
  | deliver (connId : Nat)
  /-- The end of a connection is reported. -/
  | cut (connId : Nat)
  /-- Anything else, events of other peers among it. -/
  | other (act : Act Id Path)

/-- The peer that an event is from. -/
def Event.sender : Event Id Path → Option Id
  | .authed id _ _ => some id
  | .msg id _ => some id
  | .gone id _ => some id
  | _ => none

namespace Link

variable (h : Host Id Path) (remote : Id)

/-- The step function. A connection that is not taken has no reader. -/
def step (l : Link Id Path) (s : Env Path × LinkAct Id Path) : Option (Link Id Path) :=
  let env := s.1
  match s.2 with
  | .connect connId initiatedByMe sent script =>
      match l.conns[connId]? with
      | some _ => none
      | none =>
          match l.actor.step h (env, .event (.authed remote connId initiatedByMe)) with
          | none => none
          | some actor =>
              if actor.peers[remote]?.map Peer.connId = some connId then
                some { actor, conns := l.conns.insert connId ⟨sent, script, 0⟩ }
              else some { l with actor }
  | .deliver connId =>
      match l.conns[connId]? with
      | none => none
      | some c =>
          match c.script[c.pos]? with
          | none => none
          | some m =>
              match l.actor.step h (env, .event (.msg remote m)) with
              | none => none
              | some actor =>
                  some { actor, conns := l.conns.insert connId { c with pos := c.pos + 1 } }
  | .cut connId =>
      match l.conns[connId]? with
      | none => none
      | some _ =>
          match l.actor.step h (env, .event (.gone remote connId)) with
          | none => none
          | some actor => some { l with actor }
  | .other act =>
      if (l.actor.handled act).bind Event.sender = some remote then none
      else
        match l.actor.step h (env, act) with
        | none => none
        | some actor => some { l with actor }

/-- No connection yet. -/
def start (env : Env Path) (me : Id) (p : Persisted Id Path) (founding : Bool) : Link Id Path :=
  { actor := boot h env me p founding, conns := ∅ }

end Link

/-- A message that an honest peer sends after its index. -/
def Msg.isLater : Msg Id Path → Bool
  | .handshake | .index _ _ _ | .indexPart _ _ _ _ _ => false
  | _ => true

/-- The peer sends its index first, then other messages. -/
def Honest (h : Host Id Path) (_ : Link Id Path) (s : Env Path × LinkAct Id Path) : Prop :=
  match s.2 with
  | .connect _ _ sent script => ∃ lamport files leases later, Wellformed h files ∧
      sent = sentFiles h lamport files leases ∧
      script = splitIndexParts h lamport files leases ++ later ∧ ∀ m ∈ later, m.isLater = true
  | _ => True

/-- A connection is replaced only before any of its messages was handled, and a message is
handled only while its own connection is installed, or none. -/
def orderly (remote : Id) (l : Link Id Path) (s : Env Path × LinkAct Id Path) : Bool :=
  match s.2, l.actor.peers[remote]? with
  | .connect _ initiatedByMe _ _, some peer =>
      let initiator (byMe : Bool) : Id := if byMe then l.actor.me else remote
      match l.conns[peer.connId]? with
      | none => true
      | some c => decide (initiator initiatedByMe < initiator peer.initiatedByMe → c.pos = 0)
  | .deliver connId, some peer => decide (peer.connId = connId)
  | _, _ => true

/-! ## How far the exchange has come -/

/-- All that is left is not part of the index. -/
def Conn.Complete (c : Conn Id Path) : Prop := ∀ m ∈ c.rest, m.isLater = true

/-- The exchange is in order: the messages of the installed connection are taken in sequence,
what they install is what was sent on it, and an index that counts as received is the one of
the installed connection. -/
structure Exchanged (h : Host Id Path) (remote : Id) (l : Link Id Path) : Prop where
  sequence : ∀ peer c seq last lamport files leases, l.actor.peers[remote]? = some peer →
    l.conns[peer.connId]? = some c →
    c.script[c.pos]? = some (.indexPart seq last lamport files leases) →
    seq = (l.actor.book remote).stage.1
  installs : ∀ peer c env l', l.actor.peers[remote]? = some peer →
    l.conns[peer.connId]? = some c → l.step h remote (env, .deliver peer.connId) = some l' →
    (l'.actor.book remote).installed = (l.actor.book remote).installed ∨
      ∃ leases, (l'.actor.book remote).installed =
        (l.actor.book remote).installed ++ [(c.sent.toList, leases)]
  received : l.actor.indexReceived.contains remote = true →
    ∃ peer c leases, l.actor.peers[remote]? = some peer ∧ l.conns[peer.connId]? = some c ∧
      c.Complete ∧ (l.actor.book remote).installed.getLast? = some (c.sent.toList, leases)

/-- The book is where the handled messages of the connection have brought it. -/
inductive Follows (h : Host Id Path) (b : Book Id Path) (c : Conn Id Path) : Prop
  | parts (lamport : U64) (leases : List (LeaseInfo Id Path)) (k : Nat)
      (bs : List (List (Path × FileRecord Id))) (later : List (Msg Id Path))
      (map : Map Path (FileRecord Id)) (hne : bs ≠ [])
      (hrest : c.rest = partStream lamport leases k bs ++ later)
      (hlater : ∀ m ∈ later, m.isLater = true) (hstage : b.stage = (k, map))
      (hreceived : b.received = false) (hmap : ingestMap h map bs.flatten = c.sent)
  | whole (lamport : U64) (leases : List (LeaseInfo Id Path)) (later : List (Msg Id Path))
      (hrest : c.rest = .index lamport c.sent.toList leases :: later)
      (hlater : ∀ m ∈ later, m.isLater = true) (hreceived : b.received = false)
      (hmap : ingestMap h ∅ c.sent.toList = c.sent)
  | done (leases : List (LeaseInfo Id Path)) (hrest : c.Complete)
      (hinstalled : b.installed.getLast? = some (c.sent.toList, leases))

/-- Nothing is staged and nothing received. -/
def Book.Clean (b : Book Id Path) : Prop := b.stage = (0, ∅) ∧ b.received = false

/-- A connection starts with a clean book. -/
theorem Follows.start {h : Host Id Path} {b : Book Id Path} (hb : b.Clean) {lamport : U64}
    {files : Map Path (FileRecord Id)} (hf : Wellformed h files)
    {leases : List (LeaseInfo Id Path)} {later : List (Msg Id Path)}
    (hlater : ∀ m ∈ later, m.isLater = true) :
    Follows h b ⟨sentFiles h lamport files leases,
      splitIndexParts h lamport files leases ++ later, 0⟩ := by
  by_cases hfits : h.encodedLen (.index lamport files.toList leases) ≤ maxFrame
  · have hsent : sentFiles h lamport files leases = files := if_pos hfits
    have hwhole : splitIndexParts h lamport files leases =
        [.index lamport files.toList leases] := if_pos hfits
    rw [hsent, hwhole]
    exact .whole lamport leases later rfl hlater hb.2 hf.ingestMap_self
  · obtain ⟨bs, kept, heq, hflat, -, hne, -⟩ := splitIndexParts_eq lamport files leases hfits
    have hsent : sentFiles h lamport files leases =
        files.filter fun path record => fits h (path, record) := if_neg hfits
    refine .parts lamport kept 0 bs later ∅ hne ?_ hlater hb.1 hb.2 ?_
    · show splitIndexParts h lamport files leases ++ later = _
      rw [heq]
    · show ingestMap h ∅ bs.flatten = sentFiles h lamport files leases
      rw [hflat, hsent, ← hf.ingestMap_filter, Std.ExtTreeMap.toList_filter]

theorem Conn.rest_eq {c : Conn Id Path} {m : Msg Id Path} (hm : c.script[c.pos]? = some m) :
    c.rest = m :: ({ c with pos := c.pos + 1 } : Conn Id Path).rest := by
  obtain ⟨hlt, rfl⟩ := List.getElem?_eq_some_iff.mp hm
  exact List.drop_eq_getElem_cons hlt

/-- The next message of a split index is the next part. -/
theorem Follows.head_parts {c : Conn Id Path} {lamport : U64} {leases : List (LeaseInfo Id Path)}
    {k : Nat} {bs : List (List (Path × FileRecord Id))} {later : List (Msg Id Path)} (hne : bs ≠ [])
    (hrest : c.rest = partStream lamport leases k bs ++ later) {m : Msg Id Path}
    (hm : c.script[c.pos]? = some m) :
    ∃ files bs', bs = files :: bs' ∧
      m = .indexPart k (decide (bs' = [])) lamport files (if bs' = [] then leases else []) ∧
      ({ c with pos := c.pos + 1 } : Conn Id Path).rest =
        partStream lamport leases (k + 1) bs' ++ later := by
  obtain ⟨files, bs', rfl⟩ := List.exists_cons_of_ne_nil hne
  rw [Conn.rest_eq hm, partStream_cons, List.cons_append] at hrest
  obtain ⟨hhead, htail⟩ := List.cons_eq_cons.mp hrest
  exact ⟨files, bs', rfl, hhead, htail⟩

/-- The parts of the installed connection come in sequence. -/
theorem Follows.sequence {h : Host Id Path} {b : Book Id Path} {c : Conn Id Path}
    (hf : Follows h b c) {seq : Nat} {last : Bool} {lamport : U64}
    {files : List (Path × FileRecord Id)} {leases : List (LeaseInfo Id Path)}
    (hm : c.script[c.pos]? = some (.indexPart seq last lamport files leases)) :
    seq = b.stage.1 := by
  cases hf with
  | parts lamport leases k bs later map hne hrest hlater hstage hreceived hmap =>
      obtain ⟨files, bs', rfl, heq, -⟩ := Follows.head_parts hne hrest hm
      cases heq
      rw [hstage]
  | whole lamport leases later hrest hlater hreceived hmap =>
      rw [Conn.rest_eq hm] at hrest
      cases hrest
  | done leases hrest hinstalled =>
      have hlater := hrest _ (by rw [Conn.rest_eq hm]; exact List.mem_cons_self)
      cases hlater

/-- What the next message of the installed connection does to the book: the connection ends
and the book is clean, or the book follows and at most the index of the connection is
installed. -/
theorem Follows.msg {h : Host Id Path} {b : Book Id Path} {c : Conn Id Path}
    (hf : Follows h b c) {peer : Peer} (hconn : b.conn = some peer) {m : Msg Id Path}
    (hm : c.script[c.pos]? = some m) :
    ((b.msg h m).conn = none ∧ (b.msg h m).Clean ∧ (b.msg h m).installed = b.installed) ∨
    (b.msg h m).conn = some peer ∧ Follows h (b.msg h m) { c with pos := c.pos + 1 } ∧
      ((b.msg h m).installed = b.installed ∨
        ∃ leases, (b.msg h m).installed = b.installed ++ [(c.sent.toList, leases)]) := by
  cases hf with
  | parts lamport leases k bs later map hne hrest hlater hstage hreceived hmap =>
      obtain ⟨files, bs', rfl, rfl, htail⟩ := Follows.head_parts hne hrest hm
      rw [Book.msg_part h hconn]
      unfold Book.part
      rw [hstage]
      split
      · -- the index has too many parts or entries
        exact .inl ⟨rfl, ⟨rfl, hreceived⟩, rfl⟩
      · rw [List.flatten_cons, ingestMap_append] at hmap
        by_cases hbs : bs' = []
        · subst hbs
          rw [if_pos (decide_eq_true rfl)]
          have hsent : ingestMap h map files = c.sent := hmap
          refine .inr ⟨hconn, .done leases ?_ ?_, .inr ⟨leases, ?_⟩⟩
          · intro m hm'
            rw [htail] at hm'
            exact hlater m hm'
          · show (b.installed ++ [_]).getLast? = _
            rw [List.getLast?_concat, hsent]
            rfl
          · show b.installed ++ [_] = _
            rw [hsent]
            rfl
        · rw [decide_eq_false hbs, if_neg Bool.false_ne_true]
          exact .inr ⟨hconn, .parts lamport leases (k + 1) bs' later (ingestMap h map files) hbs
            htail hlater rfl hreceived hmap, .inl rfl⟩
  | whole lamport leases later hrest hlater hreceived hmap =>
      rw [Conn.rest_eq hm] at hrest
      obtain ⟨rfl, htail⟩ := List.cons_eq_cons.mp hrest
      have hmsg : b.msg h (.index lamport c.sent.toList leases) = b.install c.sent leases := by
        unfold Book.msg
        rw [hconn]
        show b.install (ingestMap h ∅ c.sent.toList) leases = _
        rw [hmap]
      rw [hmsg]
      refine .inr ⟨hconn, .done leases ?_ ?_, .inr ⟨leases, rfl⟩⟩
      · intro m hm'
        rw [htail] at hm'
        exact hlater m hm'
      · exact List.getLast?_concat
  | done leases hrest hinstalled =>
      have hlater : m.isLater = true := hrest m (by rw [Conn.rest_eq hm]; exact List.mem_cons_self)
      have htail : ({ c with pos := c.pos + 1 } : Conn Id Path).Complete := fun m' hm' =>
        hrest m' (by rw [Conn.rest_eq hm]; exact List.mem_cons_of_mem _ hm')
      have hsame : b.msg h m = b → (b.msg h m).conn = some peer ∧
          Follows h (b.msg h m) { c with pos := c.pos + 1 } ∧
          ((b.msg h m).installed = b.installed ∨
            ∃ leases, (b.msg h m).installed = b.installed ++ [(c.sent.toList, leases)]) := by
        intro heq
        rw [heq]
        exact ⟨hconn, .done leases htail hinstalled, .inl rfl⟩
      cases m with
      | handshake => cases hlater
      | index => cases hlater
      | indexPart => cases hlater
      | bye =>
          have hmsg : b.msg h .bye = ⟨none, false, none, b.installed⟩ := by
            unfold Book.msg Book.gone
            rw [hconn]
            exact if_neg fun hne => hne rfl
          rw [hmsg]
          exact .inl ⟨rfl, ⟨rfl, rfl⟩, rfl⟩
      | _ =>
          refine .inr (hsame ?_)
          unfold Book.msg
          rw [hconn]

/-! ## Runs -/

/-- What holds in every state of an orderly run. -/
structure LinkInv (h : Host Id Path) (remote : Id) (l : Link Id Path) : Prop where
  run : RunInv h Terms.none l.actor
  free : (l.actor.book remote).conn = none → (l.actor.book remote).Clean
  linked : ∀ peer, (l.actor.book remote).conn = some peer →
    ∃ c, l.conns[peer.connId]? = some c ∧ Follows h (l.actor.book remote) c ∧
      (c.pos = 0 → (l.actor.book remote).Clean)

theorem LinkInv.exchanged {h : Host Id Path} {remote : Id} {l : Link Id Path}
    (hi : LinkInv h remote l) : Exchanged h remote l := by
  refine ⟨?_, ?_, ?_⟩
  · intro peer c seq last lamport files leases hpeer hc hm
    obtain ⟨c', hc', hf, -⟩ := hi.linked peer hpeer
    rw [hc] at hc'
    cases hc'
    exact hf.sequence hm
  · intro peer c env l' hpeer hc hstep
    obtain ⟨c', hc', hf, -⟩ := hi.linked peer hpeer
    rw [hc] at hc'
    cases hc'
    simp only [Link.step, hc] at hstep
    split at hstep
    · cases hstep
    · rename_i m hm
      split at hstep
      · cases hstep
      · rename_i actor hactor
        cases hstep
        have hbook := step_book hi.run hactor remote
        simp only [handled, Book.handle, if_true] at hbook
        rw [hbook]
        rcases hf.msg hpeer hm with ⟨-, -, hsame⟩ | ⟨-, -, hinst⟩
        · exact .inl hsame
        · exact hinst
  · intro hreceived
    have htrue : (l.actor.book remote).received = true := hreceived
    cases hconn : (l.actor.book remote).conn with
    | none =>
        have hclean := (hi.free hconn).2
        rw [htrue] at hclean
        cases hclean
    | some peer =>
        obtain ⟨c, hc, hf, -⟩ := hi.linked peer hconn
        cases hf with
        | parts _ _ _ _ _ _ _ _ _ _ hno _ =>
            rw [htrue] at hno
            cases hno
        | whole _ _ _ _ _ hno _ =>
            rw [htrue] at hno
            cases hno
        | done leases hrest hinstalled => exact ⟨peer, c, leases, hconn, hc, hrest, hinstalled⟩

/-- A connection is not taken, or it is the first one, or it replaces one. -/
theorem Book.handle_authed (h : Host Id Path) (me id : Id) (full : Bool) (b : Book Id Path)
    (connId : Nat) (initiatedByMe : Bool) :
    b.handle h me id full (.authed id connId initiatedByMe) = b ∨
    b.handle h me id full (.authed id connId initiatedByMe) =
        { b with conn := some ⟨connId, initiatedByMe⟩ } ∧
      ∀ peer, b.conn = some peer →
        (if initiatedByMe then me else id) < (if peer.initiatedByMe then me else id) := by
  simp only [Book.handle]
  split
  · exact .inl rfl
  · unfold Book.authed
    dsimp only
    split
    · rename_i hnone
      refine .inr ⟨rfl, fun peer hpeer => ?_⟩
      rw [hnone] at hpeer
      cases hpeer
    · rename_i existing hsome
      by_cases hlt : (if initiatedByMe then me else id) <
          (if existing.initiatedByMe then me else id)
      · rw [if_pos hlt]
        refine .inr ⟨rfl, fun peer hpeer => ?_⟩
        rw [hsome] at hpeer
        cases hpeer
        exact hlt
      · rw [if_neg hlt]
        exact .inl rfl

section Step

variable {h : Host Id Path} {remote : Id} {l : Link Id Path}

/-- A step that leaves the book as it is and loses no connection. -/
theorem LinkInv.of_book_eq (hi : LinkInv h remote l) {actor : Actor Id Path}
    (hrun : RunInv h Terms.none actor) (hbook : actor.book remote = l.actor.book remote)
    {conns : Map Nat (Conn Id Path)}
    (hconns : ∀ (connId : Nat) c, l.conns[connId]? = some c → conns[connId]? = some c) :
    LinkInv h remote { actor, conns } := by
  refine ⟨hrun, ?_, ?_⟩
  · dsimp only
    rw [hbook]
    exact hi.free
  · dsimp only
    rw [hbook]
    intro peer hpeer
    obtain ⟨c, hc, hf, hpos⟩ := hi.linked peer hpeer
    exact ⟨c, hconns _ c hc, hf, hpos⟩

/-- A step after which the peer is not connected and nothing of it is on record. -/
theorem LinkInv.of_clean {actor : Actor Id Path} (hrun : RunInv h Terms.none actor)
    (hnone : (actor.book remote).conn = none) (hclean : (actor.book remote).Clean)
    (conns : Map Nat (Conn Id Path)) : LinkInv h remote { actor, conns } := by
  refine ⟨hrun, fun _ => hclean, fun peer hpeer => ?_⟩
  dsimp only at hpeer
  rw [hnone] at hpeer
  cases hpeer

theorem get_insert_fresh {m : Map Nat (Conn Id Path)} {k : Nat} (hk : m[k]? = none)
    (c : Conn Id Path) {k' : Nat} {c' : Conn Id Path} (hget : m[k']? = some c') :
    (m.insert k c)[k']? = some c' := by
  have hne : k ≠ k' := by
    rintro rfl
    rw [hk] at hget
    cases hget
  rw [Map.get_insert_ne _ _ hne]
  exact hget

theorem LinkInv.connect (hi : LinkInv h remote l) {env : Env Path} {connId : Nat}
    {initiatedByMe : Bool} {sent : Map Path (FileRecord Id)} {script : List (Msg Id Path)}
    (hhonest : Honest h l (env, .connect connId initiatedByMe sent script))
    (hord : orderly remote l (env, .connect connId initiatedByMe sent script) = true)
    {actor : Actor Id Path} (hrun : RunInv h Terms.none actor) (hfresh : l.conns[connId]? = none)
    (hstep : l.actor.step h (env, .event (.authed remote connId initiatedByMe)) = some actor) :
    LinkInv h remote
      (if actor.peers[remote]?.map Peer.connId = some connId then
        { actor, conns := l.conns.insert connId ⟨sent, script, 0⟩ }
      else { l with actor }) := by
  have hbook := step_book hi.run hstep remote
  simp only [handled] at hbook
  rcases Book.handle_authed h l.actor.me remote (decide (maxPeers ≤ l.actor.peers.size))
    (l.actor.book remote) connId initiatedByMe with hsame | ⟨htaken, hreplaces⟩
  · rw [hsame] at hbook
    split
    · exact hi.of_book_eq hrun hbook fun _ _ hget => get_insert_fresh hfresh _ hget
    · exact hi.of_book_eq hrun hbook fun _ _ hget => hget
  · rw [htaken] at hbook
    have hconn : actor.peers[remote]? = some ⟨connId, initiatedByMe⟩ :=
      congrArg Book.conn hbook
    -- whatever connection there was, nothing of it has been handled
    have hclean : (l.actor.book remote).Clean := by
      cases hpeer : (l.actor.book remote).conn with
      | none => exact hi.free hpeer
      | some peer =>
          obtain ⟨c, hc, -, hpos⟩ := hi.linked peer hpeer
          have hget : l.actor.peers[remote]? = some peer := hpeer
          simp only [orderly, hget, hc, decide_eq_true_eq] at hord
          exact hpos (hord (hreplaces peer hpeer))
    obtain ⟨lamport, files, leases, later, hwf, rfl, rfl, hlater⟩ := hhonest
    have hstage : (actor.book remote).stage = (l.actor.book remote).stage := by
      rw [hbook]
      rfl
    have hreceived : (actor.book remote).received = (l.actor.book remote).received := by
      rw [hbook]
    have hclean' : (actor.book remote).Clean := ⟨hstage.trans hclean.1, hreceived.trans hclean.2⟩
    rw [if_pos (by rw [hconn]; rfl)]
    refine ⟨hrun, fun _ => hclean', fun peer hpeer => ?_⟩
    have hpeer' : actor.peers[remote]? = some peer := hpeer
    rw [hconn] at hpeer'
    cases hpeer'
    exact ⟨_, Map.get_insert_self _ _ _, .start hclean' hwf hlater, fun _ => hclean'⟩

theorem LinkInv.deliver (hi : LinkInv h remote l) {env : Env Path} {connId : Nat}
    (hord : orderly remote l (env, .deliver connId) = true) {actor : Actor Id Path}
    (hrun : RunInv h Terms.none actor) {c : Conn Id Path} (hc : l.conns[connId]? = some c)
    {m : Msg Id Path} (hm : c.script[c.pos]? = some m)
    (hstep : l.actor.step h (env, .event (.msg remote m)) = some actor) :
    LinkInv h remote { actor, conns := l.conns.insert connId { c with pos := c.pos + 1 } } := by
  have hbook := step_book hi.run hstep remote
  simp only [handled, Book.handle, if_true] at hbook
  cases hpeer : (l.actor.book remote).conn with
  | none =>
      have hsame : (l.actor.book remote).msg h m = l.actor.book remote := by
        unfold Book.msg
        rw [hpeer]
      rw [hsame] at hbook
      refine .of_clean hrun ?_ ?_ _
      · rw [hbook]
        exact hpeer
      · rw [hbook]
        exact hi.free hpeer
  | some peer =>
      have hget : l.actor.peers[remote]? = some peer := hpeer
      have hid : peer.connId = connId := by
        simpa only [orderly, hget, decide_eq_true_eq] using hord
      obtain ⟨c', hc', hf, -⟩ := hi.linked peer hpeer
      rw [hid, hc] at hc'
      cases hc'
      rcases hf.msg hpeer hm with ⟨hnone, hclean, -⟩ | ⟨hconn, hf', -⟩
      · rw [← hbook] at hnone hclean
        exact .of_clean hrun hnone hclean _
      · rw [← hbook] at hconn hf'
        refine ⟨hrun, fun hnone => ?_, fun peer' hpeer' => ?_⟩
        · dsimp only at hnone
          rw [hconn] at hnone
          cases hnone
        · dsimp only at hpeer'
          rw [hconn] at hpeer'
          cases hpeer'
          refine ⟨_, ?_, hf', fun hzero => absurd hzero (Nat.succ_ne_zero _)⟩
          rw [hid]
          exact Map.get_insert_self _ _ _

/-- **A step keeps the invariant.** -/
theorem LinkInv.step (hi : LinkInv h remote l) {s : Env Path × LinkAct Id Path}
    (hhonest : Honest h l s) (hord : orderly remote l s = true) {l' : Link Id Path}
    (hstep : l.step h remote s = some l') : LinkInv h remote l' := by
  obtain ⟨env, act⟩ := s
  have hrun : ∀ act actor, l.actor.step h (env, act) = some actor → RunInv h Terms.none actor :=
    fun act actor hact =>
      hi.run.step False.elim ⟨False.elim, False.elim, False.elim, False.elim⟩ hact
  cases act with
  | connect connId initiatedByMe sent script =>
      simp only [Link.step] at hstep
      split at hstep
      · cases hstep
      · rename_i hfresh
        split at hstep
        · cases hstep
        · rename_i actor hactor
          have hnext := hi.connect hhonest hord (hrun _ _ hactor) hfresh hactor
          split at hstep
          · rename_i hinst
            cases hstep
            rw [if_pos hinst] at hnext
            exact hnext
          · rename_i hinst
            cases hstep
            rw [if_neg hinst] at hnext
            exact hnext
  | deliver connId =>
      simp only [Link.step] at hstep
      split at hstep
      · cases hstep
      · rename_i c hc
        split at hstep
        · cases hstep
        · rename_i m hm
          split at hstep
          · cases hstep
          · rename_i actor hactor
            cases hstep
            exact hi.deliver hord (hrun _ _ hactor) hc hm hactor
  | cut connId =>
      simp only [Link.step] at hstep
      split at hstep
      · cases hstep
      · split at hstep
        · cases hstep
        · rename_i actor hactor
          cases hstep
          have hbook := step_book hi.run hactor remote
          simp only [handled, Book.handle, if_true] at hbook
          unfold Book.gone at hbook
          split at hbook
          · exact hi.of_book_eq (hrun _ _ hactor) hbook fun _ _ hget => hget
          · refine .of_clean (hrun _ _ hactor) ?_ ?_ _
            · rw [hbook]
            · rw [hbook]
              exact ⟨rfl, rfl⟩
  | other act =>
      simp only [Link.step] at hstep
      split at hstep
      · cases hstep
      · rename_i hother
        split at hstep
        · cases hstep
        · rename_i actor hactor
          cases hstep
          have hbook := step_book hi.run hactor remote
          refine hi.of_book_eq (hrun _ _ hactor) (hbook.trans ?_) fun _ _ hget => hget
          cases hev : l.actor.handled act with
          | none => rfl
          | some ev =>
              rw [hev] at hother
              cases ev with
              | authed id connId initiatedByMe =>
                  have hne : id ≠ remote := fun heq => hother (congrArg some heq)
                  exact if_pos (Or.inl hne)
              | msg id m => exact if_neg fun heq => hother (congrArg some heq)
              | gone id connId => exact if_neg fun heq => hother (congrArg some heq)
              | _ => rfl

end Step

/-- **The index exchange across connections.** In every run in which the peer sends a
well-formed index first on each connection, a connection is replaced only before any of its
messages was handled, and nothing of a former connection is handled once another one is
installed, the exchange is in order in every state. -/
theorem exchanged_of_orderly (h : Host Id Path) (remote : Id) (env : Env Path) (me : Id)
    (p : Persisted Id Path) (founding : Bool) {l : Link Id Path}
    (hrun : Reaches (Link.step h remote) (fun l s => Honest h l s ∧ orderly remote l s = true)
      (Link.start h env me p founding) l) : Exchanged h remote l := by
  have hinv : LinkInv h remote l := by
    refine hrun.invariant ?_ fun l s l' hi hok hstep => hi.step hok.1 hok.2 hstep
    have hbook : (Link.start h env me p founding).actor.book remote = ⟨none, false, none, []⟩ :=
      boot_book h env me p founding remote
    refine .of_clean (.boot h (fun hc => False.elim hc) me False.elim founding) ?_ ?_ _
    · exact congrArg Book.conn hbook
    · exact ⟨congrArg Book.stage hbook, congrArg Book.received hbook⟩
  exact hinv.exchanged

/-! ## Two connections with node 1 -/

/-- A connection on which the two entries go out in two parts. -/
def shardConnect (connId : Nat) (initiatedByMe : Bool) : Env Nat × LinkAct Nat Nat :=
  (plainEnv 0, .connect connId initiatedByMe (sentFiles shardHost 0 shardFiles [])
    (splitIndexParts shardHost 0 shardFiles []))

theorem shardConnect_honest (connId : Nat) (initiatedByMe : Bool) (l : Link Nat Nat) :
    Honest shardHost l (shardConnect connId initiatedByMe) :=
  ⟨0, shardFiles, [], [], shardFiles_wellformed, rfl, (List.append_nil _).symm, by simp⟩

def handleNext (connId : Nat) : Env Nat × LinkAct Nat Nat := (plainEnv 0, .deliver connId)

theorem handleNext_honest (connId : Nat) (l : Link Nat Nat) :
    Honest shardHost l (handleNext connId) := trivial

def shardStart : Link Nat Nat := Link.start shardHost (plainEnv 0) 0 plainState false

/-- The connection of node 1 is replaced at once by our own, and the index arrives on that. -/
theorem exchanged_of_orderly_replaced : ∃ l : Link Nat Nat,
    Reaches (Link.step shardHost 1) (fun l s => Honest shardHost l s ∧ orderly 1 l s = true)
      shardStart l ∧
    l.actor.indexReceived.contains 1 = true ∧ Exchanged shardHost 1 l := by
  have hhonest : ∀ s ∈ [shardConnect 0 false, shardConnect 1 true, handleNext 1, handleNext 1],
      ∀ l, Honest shardHost l s := by
    intro s hs l
    simp only [List.mem_cons, List.not_mem_nil, or_false] at hs
    rcases hs with rfl | rfl | rfl | rfl
    · exact shardConnect_honest 0 false l
    · exact shardConnect_honest 1 true l
    · exact handleNext_honest 1 l
    · exact handleNext_honest 1 l
  have hexec : (executeChecked (Link.step shardHost 1) (orderly 1)
      [shardConnect 0 false, shardConnect 1 true, handleNext 1, handleNext 1] shardStart).any
      (fun l => l.actor.indexReceived.contains 1) = true := by
    decide +kernel
  obtain ⟨l, hrun, hreceived⟩ := exists_reaches_of_executeChecked_and hhonest hexec
  exact ⟨l, hrun, hreceived,
    exchanged_of_orderly shardHost 1 (plainEnv 0) 0 plainState false hrun⟩

/-- The next part of the installed connection with node 1 is not the one that is expected. -/
def outOfSequence (l : Link Nat Nat) : Bool :=
  match l.actor.peers[(1 : Nat)]? with
  | none => false
  | some peer =>
      match (l.conns[peer.connId]? : Option (Conn Nat Nat)) with
      | none => false
      | some c =>
          match c.script[c.pos]? with
          | some (.indexPart seq _ _ _ _) => decide (seq ≠ (l.actor.book 1).stage.1)
          | _ => false

/-- The connection of node 1 is replaced when the first of two parts was handled. The index
on the new connection then starts with a part that is not the next one. -/
theorem replaced_out_of_sequence : ∃ l : Link Nat Nat,
    Reaches (Link.step shardHost 1) (Honest shardHost) shardStart l ∧
      ¬ Exchanged shardHost 1 l := by
  have hhonest : ∀ s ∈ [shardConnect 0 false, handleNext 0, shardConnect 1 true],
      ∀ l, Honest shardHost l s := by
    intro s hs l
    simp only [List.mem_cons, List.not_mem_nil, or_false] at hs
    rcases hs with rfl | rfl | rfl
    · exact shardConnect_honest 0 false l
    · exact handleNext_honest 0 l
    · exact shardConnect_honest 1 true l
  have hexec : (execute (Link.step shardHost 1)
      [shardConnect 0 false, handleNext 0, shardConnect 1 true] shardStart).any
      outOfSequence = true := by
    decide +kernel
  obtain ⟨l, hrun, hout⟩ := exists_reaches_of_execute (Honest shardHost) hhonest hexec
  refine ⟨l, hrun, fun hex => ?_⟩
  unfold outOfSequence at hout
  split at hout
  · cases hout
  · rename_i peer hpeer
    split at hout
    · cases hout
    · rename_i c hc
      split at hout
      · rename_i seq last lamport files leases hm
        exact of_decide_eq_true hout (hex.sequence peer c _ _ _ _ _ hpeer hc hm)
      · cases hout

end Tazamun
