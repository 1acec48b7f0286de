import Tazamun.Turn.Runs

set_option autoImplicit false

/-! # What is on record of one peer

Of everything the actor keeps, four things decide how an index of a peer is received: the
connection installed for the peer, whether its index is complete, the parts staged so far, and
the indexes that were installed (the last is read off the journal). This is the `Book` of the
peer. It is small, and it changes in few places: when a connection comes or goes, and when the
peer sends an index, a part of one, or a message that ends the connection.

`Book.handle` says what becomes of it, and `handle_book` that this is what the handlers of the
actor do. The index exchange and the choice between two connections are then properties of an
automaton with four fields, and the rest of the actor does not matter any more.
-/

namespace Tazamun

open Lib

variable {Id Path : Type} [LinearOrder Id] [LinearOrder Path]

/-! ## The book -/

/-- A complete index, as it was installed. -/
abbrev Snapshot (Id Path : Type) [Ord Id] : Type :=
  List (Path × FileRecord Id) × List (LeaseInfo Id Path)

structure Book (Id Path : Type) [LinearOrder Id] [LinearOrder Path] where
  conn : Option Peer
  received : Bool
  staging : Option (Nat × Map Path (FileRecord Id))
  installed : List (Snapshot Id Path)

/-- The index of the peer `id` that a journal entry is about. -/
def Effect.installedBy (id : Id) : Effect Id Path → Option (Snapshot Id Path)
  | .indexed sender files leases => if sender = id then some (files, leases) else none
  | _ => none

/-- The book of the peer `id`. -/
def Actor.book (a : Actor Id Path) (id : Id) : Book Id Path where
  conn := a.peers[id]?
  received := a.indexReceived.contains id
  staging := a.indexStaging[id]?
  installed := a.journal.filterMap (Effect.installedBy id)

/-- The entries of a list with an acceptable record and path, added to a map. -/
def ingestMap (h : Host Id Path) (map : Map Path (FileRecord Id))
    (files : List (Path × FileRecord Id)) : Map Path (FileRecord Id) :=
  files.foldl
    (fun map e => if recordAcceptable e.2 && h.sanitize e.1 then map.insert e.1 e.2 else map) map

namespace Book

/-- Nothing is on record once the peer is gone. -/
def gone (b : Book Id Path) (connId : Nat) : Book Id Path :=
  if b.conn.map Peer.connId ≠ some connId then b
  else { conn := none, received := false, staging := none, installed := b.installed }

/-- The connection that the lower id has initiated stays. -/
def authed (me id : Id) (b : Book Id Path) (connId : Nat) (initiatedByMe : Bool) :
    Book Id Path :=
  let initiator (byMe : Bool) : Id := if byMe then me else id
  match b.conn with
  | none => { b with conn := some ⟨connId, initiatedByMe⟩ }
  | some existing =>
      if initiator initiatedByMe < initiator existing.initiatedByMe then
        { b with conn := some ⟨connId, initiatedByMe⟩ }
      else b

/-- The parts staged so far. -/
def stage (b : Book Id Path) : Nat × Map Path (FileRecord Id) := b.staging.getD (0, ∅)

def install (b : Book Id Path) (map : Map Path (FileRecord Id))
    (leases : List (LeaseInfo Id Path)) : Book Id Path :=
  { b with received := true, staging := none, installed := b.installed ++ [(map.toList, leases)] }

/-- A part that is not the next one, or one too many, ends the connection. -/
def part (h : Host Id Path) (b : Book Id Path) (seq : Nat) (last : Bool)
    (files : List (Path × FileRecord Id)) (leases : List (LeaseInfo Id Path)) : Book Id Path :=
  if seq ≠ b.stage.1 ∨ maxIndexParts ≤ seq ∨ maxIndexEntries < b.stage.2.size + files.length then
    { b with conn := none, staging := none }
  else if last then b.install (ingestMap h b.stage.2 files) leases
  else { b with staging := some (b.stage.1 + 1, ingestMap h b.stage.2 files) }

/-- A message of the peer; without a connection it is ignored. -/
def msg (h : Host Id Path) (b : Book Id Path) (m : Msg Id Path) : Book Id Path :=
  match b.conn with
  | none => b
  | some peer =>
      match m with
      | .handshake => { b with conn := none }
      | .index _ files leases => b.install (ingestMap h ∅ files) leases
      | .indexPart seq last _ files leases => b.part h seq last files leases
      | .bye => b.gone peer.connId
      | _ => b

/-- The book of `id` after an event; `full` says that no further peer is taken in. -/
def handle (h : Host Id Path) (me id : Id) (full : Bool) (b : Book Id Path) :
    Event Id Path → Book Id Path
  | .authed id' connId initiatedByMe =>
      if id' ≠ id ∨ id = me ∨ b.conn = none ∧ full = true then b
      else b.authed me id connId initiatedByMe
  | .gone id' connId => if id' = id then b.gone connId else b
  | .msg id' m => if id' = id then b.msg h m else b
  | _ => b

end Book

/-! ## What leaves the book alone -/

theorem Micro.book_eq {c : Ctx Id Path} {hand hand' : List (Advert Id Path)}
    {a a' : Actor Id Path} (h : Micro c (hand, a) (hand', a')) (hp : ¬ c.peering) (id : Id) :
    a'.book id = a.book id := by
  have hadd : ∀ es : List (Effect Id Path), (∀ e ∈ es, e.installedBy id = none) →
      (a.journal ++ es).filterMap (Effect.installedBy id) =
        a.journal.filterMap (Effect.installedBy id) := by
    intro es hes
    rw [List.filterMap_append, List.filterMap_eq_nil_iff.mpr hes, List.append_nil]
  have hrevival : ∀ rel record, ∀ e ∈ a.revival rel record, e.installedBy id = none := by
    intro rel record e he
    unfold Actor.revival at he
    dsimp only at he
    split at he
    · rw [List.mem_singleton.mp he]
      rfl
    · cases he
  have hbooks : ∀ (b : Actor Id Path), b.peers = a.peers → b.indexReceived = a.indexReceived →
      b.indexStaging = a.indexStaging →
      b.journal.filterMap (Effect.installedBy id) = a.journal.filterMap (Effect.installedBy id) →
      b.book id = a.book id := by
    intro b hpeers hreceived hstaging hjournal
    unfold Actor.book
    rw [hpeers, hreceived, hstaging, hjournal]
  cases h with
  | loss es he =>
      refine hbooks _ rfl rfl rfl (hadd es fun e hmem => ?_)
      have hloss := he e hmem
      cases e with
      | indexed => cases hloss
      | _ => rfl
  | replaced rel =>
      unfold Actor.noteReplaced
      split
      · rfl
      · refine hbooks _ rfl rfl rfl (hadd _ fun e he => ?_)
        rw [List.mem_singleton.mp he]
        rfl
  | shift _ _ _ _ _ _ _ _ hs hb =>
      obtain ⟨hpeers, -, hreceived, hstaging⟩ := hb.still hp
      exact hbooks _ hpeers rfl hstaging rfl
  | book peerRoles indexReceived hb =>
      obtain ⟨-, -, hreceived, -⟩ := hb.still hp
      exact hbooks _ rfl hreceived rfl rfl
  | applied rel sender record staged hm =>
      refine hbooks _ rfl rfl rfl (hadd _ fun e he => ?_)
      rcases List.mem_cons.mp he with rfl | he
      · rfl
      · exact hrevival rel record e he
  | committed kind rel record hm =>
      refine hbooks _ rfl rfl rfl (hadd _ fun e he => ?_)
      rcases List.mem_cons.mp he with rfl | he
      · rfl
      · exact hrevival rel record e he
  | granted rel requester =>
      refine hbooks _ rfl rfl rfl (hadd _ fun e he => ?_)
      rw [List.mem_singleton.mp he]
      rfl
  | acquired rel voters hv =>
      refine hbooks _ rfl rfl rfl (hadd _ fun e he => ?_)
      rw [List.mem_singleton.mp he]
      rfl
  | tick =>
      refine hbooks _ rfl rfl rfl (hadd _ fun e he => ?_)
      rw [List.mem_singleton.mp he]
      rfl
  | indexed sender files leases hp' => exact absurd hp' hp
  | join id' peer hid hp' _ => exact absurd hp' hp
  | _ => rfl

theorem Steps.book_eq {c : Ctx Id Path} {s t : List (Advert Id Path) × Actor Id Path}
    (h : Steps c s t) (hp : ¬ c.peering) (id : Id) : t.2.book id = s.2.book id :=
  h.induct (P := fun _ a => a.book id = s.2.book id)
    (fun hm ih => (hm.book_eq hp id).trans ih) rfl

/-- A context in which nothing is assumed, and the books do not change. -/
def Ctx.aside (h : Host Id Path) (env : Env Path) : Ctx Id Path :=
  ⟨h, env, fun _ _ => True, fun _ _ _ => True, True, False, False, False, False, False, False⟩

namespace Actor

variable (h : Host Id Path) (env : Env Path)

/-! ## The handlers that write it -/

theorem ingest_map (a : Actor Id Path) (sender : Id) (map : Map Path (FileRecord Id))
    (files : List (Path × FileRecord Id)) :
    (a.ingest h sender map files).2 = ingestMap h map files := by
  unfold ingest ingestMap
  induction files generalizing a map with
  | nil => rfl
  | cons e files ih =>
      obtain ⟨path, record⟩ := e
      rw [List.foldl_cons, List.foldl_cons]
      by_cases hok : (recordAcceptable record && h.sanitize path) = true
      · simp only [hok, if_true]
        exact ih _ _
      · simp only [hok]
        exact ih _ _

include h env in
theorem ingest_book (a : Actor Id Path) (sender : Id) (map : Map Path (FileRecord Id))
    (files : List (Path × FileRecord Id)) (id : Id) :
    (a.ingest h sender map files).1.book id = a.book id :=
  (@ingest_steps _ _ _ _ (Ctx.aside h env) [] a sender map files).book_eq (fun hp => hp) id

include h env in
theorem supersede_book (a : Actor Id Path) (sender : Id) (map : Map Path (FileRecord Id))
    (staged : List (Path × FileRecord Id)) (id : Id) :
    (a.supersede sender map staged).book id = a.book id :=
  (@supersede_steps _ _ _ _ (Ctx.aside h env) [] a sender map staged).book_eq (fun hp => hp) id

theorem commitPeerIndex_book (a : Actor Id Path) (sender : Id) (map : Map Path (FileRecord Id))
    (leases : List (LeaseInfo Id Path)) (id : Id) :
    (a.commitPeerIndex h env sender map leases).book id =
      if sender = id then
        { a.book id with
          received := true, installed := (a.book id).installed ++ [(map.toList, leases)] }
      else a.book id := by
  unfold commitPeerIndex
  dsimp only
  have hindex : ∀ b : Actor Id Path, b.peerIndex = a.peerIndex.insert sender map →
      (b.reconcile h env sender).book id = b.book id := by
    intro b hb
    refine (@reconcile_steps _ _ _ _ (Ctx.aside h env) [] b sender map ?_).book_eq (fun hp => hp) id
    rw [hb]
    exact Map.get_insert_self _ _ _
  rw [hindex _ rfl]
  unfold observeLeases note book
  dsimp only
  rw [List.filterMap_append, Std.ExtTreeMap.contains_insert]
  by_cases hid : sender = id
  · subst hid
    simp [Effect.installedBy]
  · simp [Effect.installedBy, hid]

theorem onIndex_book (a : Actor Id Path) (sender : Id) (lamport : U64)
    (files : List (Path × FileRecord Id)) (leases : List (LeaseInfo Id Path)) (id : Id) :
    (a.onIndex h env sender lamport files leases).book id =
      if sender = id then (a.book id).install (ingestMap h ∅ files) leases else a.book id := by
  unfold onIndex
  dsimp only
  rw [commitPeerIndex_book, supersede_book h env, ingest_book h env, ingest_map]
  unfold book Book.install
  dsimp only
  rw [Map.get_erase]
  split <;> rfl

theorem onIndexPart_book (a : Actor Id Path) (sender : Id) (seq : Nat) (last : Bool)
    (lamport : U64) (files : List (Path × FileRecord Id)) (leases : List (LeaseInfo Id Path))
    (id : Id) :
    (a.onIndexPart h env sender seq last lamport files leases).book id =
      if sender = id then (a.book id).part h seq last files leases else a.book id := by
  -- the staged parts are those of the book of the sender
  have hstage : a.indexStaging[sender]?.getD (0, ∅) = (a.book sender).stage := rfl
  unfold onIndexPart Book.part
  dsimp only
  rw [hstage]
  by_cases hid : sender = id
  · subst hid
    rw [if_pos rfl]
    split
    · unfold dropPeer book
      simp only [Map.get_erase_self]
    · split
      · rw [commitPeerIndex_book, if_pos rfl, ingest_book h env, ingest_map]
        unfold book Book.install
        simp only [Map.get_erase_self]
      · obtain ⟨journal, heq⟩ := ingest_eq h
          ({ a with lamport := max a.lamport lamport,
                    indexStaging := a.indexStaging.erase sender } : Actor Id Path) sender
          (a.book sender).stage.2 files
        have hbook := ingest_book h env
          ({ a with lamport := max a.lamport lamport,
                    indexStaging := a.indexStaging.erase sender } : Actor Id Path) sender
          (a.book sender).stage.2 files sender
        rw [heq] at hbook
        rw [ingest_map, heq]
        unfold book at hbook ⊢
        simp only [Book.mk.injEq] at hbook
        simp only [Map.get_insert_self, hbook.2.2.2]
  · rw [if_neg hid]
    split
    · unfold dropPeer book
      simp only [Map.get_erase_ne _ hid]
    · split
      · rw [commitPeerIndex_book, if_neg hid, ingest_book h env]
        unfold book
        simp only [Map.get_erase_ne _ hid]
      · obtain ⟨journal, heq⟩ := ingest_eq h
          ({ a with lamport := max a.lamport lamport,
                    indexStaging := a.indexStaging.erase sender } : Actor Id Path) sender
          (a.book sender).stage.2 files
        have hbook := ingest_book h env
          ({ a with lamport := max a.lamport lamport,
                    indexStaging := a.indexStaging.erase sender } : Actor Id Path) sender
          (a.book sender).stage.2 files id
        rw [heq] at hbook
        rw [heq]
        unfold book at hbook ⊢
        simp only [Book.mk.injEq] at hbook
        simp only [Map.get_insert_ne _ _ hid, Map.get_erase_ne _ hid, hbook.2.2.2]

include h env in
theorem onPeerGone_book (a : Actor Id Path) (sender : Id) (connId : Nat) (id : Id) :
    (a.onPeerGone sender connId).book id =
      if sender = id then (a.book id).gone connId else a.book id := by
  unfold onPeerGone Book.gone
  dsimp only
  have habort : ∀ (rels : List Path) (b : Actor Id Path),
      (rels.foldl abortRound b).book id = b.book id := fun rels b =>
    (@foldl_steps _ _ _ _ (Ctx.aside h env) [] _ _ (fun a rel => abortRound_steps a rel)
      rels b).book_eq (fun hp => hp) id
  by_cases hid : sender = id
  · subst hid
    rw [if_pos rfl]
    have hconn : (a.book sender).conn = a.peers[sender]? := rfl
    rw [hconn]
    split
    · rfl
    · rw [habort]
      unfold book
      simp
  · rw [if_neg hid]
    split
    · rfl
    · rw [habort]
      unfold book
      simp [Map.get_erase_ne _ hid, Std.ExtTreeMap.contains_erase, hid]

theorem onAuthed_book (a : Actor Id Path) (sender : Id) (connId : Nat) (initiatedByMe : Bool)
    (id : Id) :
    (a.onAuthed h env sender connId initiatedByMe).book id =
      (a.book id).handle h a.me id (decide (maxPeers ≤ a.peers.size))
        (.authed sender connId initiatedByMe) := by
  have hjoin : ∀ peer, (a.join h env sender peer).book id =
      if sender = id then { a.book id with conn := some peer } else a.book id := by
    intro peer
    unfold join book
    dsimp only
    rw [Map.get_insert]
    split <;> rfl
  unfold onAuthed Book.handle
  by_cases hid : sender = id
  · subst hid
    have hconn : (a.book sender).conn = a.peers[sender]? := rfl
    unfold Book.authed
    rw [hconn, Map.contains_eq]
    cases hpeer : a.peers[sender]? with
    | none =>
        by_cases hme : sender = a.me
        · simp [hme]
        · by_cases hfull : maxPeers ≤ a.peers.size
          · simp [hme, hfull]
          · simp [hme, hfull, hjoin]
    | some peer =>
        by_cases hme : sender = a.me
        · simp [hme]
        · simp only [hme, if_false, Option.isSome_some, Bool.not_true, Bool.false_and, ne_eq,
            not_true_eq_false, false_or, reduceCtorEq, false_and, Bool.false_eq_true]
          by_cases hlt : (if initiatedByMe = true then a.me else sender) <
              (if peer.initiatedByMe = true then a.me else sender)
          · rw [if_pos hlt, if_pos hlt, hjoin, if_pos rfl]
          · rw [if_neg hlt, if_neg hlt]
  · dsimp only
    rw [if_pos (Or.inl hid)]
    split
    · rfl
    · split
      · rfl
      · split
        · rw [hjoin, if_neg hid]
        · rw [apply_ite (fun b : Actor Id Path => b.book id), hjoin, if_neg hid, ite_self]

theorem onPeerIdentity_book (a : Actor Id Path) (sender : Id) (grant : SignedGrant Nat) (id : Id) :
    (a.onPeerIdentity env sender grant).book id = a.book id := by
  unfold onPeerIdentity
  split
  · rfl
  · split
    · rfl
    · split <;> rfl

theorem onCtl_book (a : Actor Id Path) (sender : Id) {m : Msg Id Path}
    (hm : (Event.msg sender m).isPeering = true) (id : Id) :
    (a.onCtl h env sender m).book id =
      if sender = id then (a.book id).msg h m else a.book id := by
  unfold onCtl
  by_cases hid : sender = id
  · subst hid
    have hconn : (a.book sender).conn = a.peers[sender]? := rfl
    rw [if_pos rfl]
    unfold Book.msg
    rw [hconn]
    cases hpeer : a.peers[sender]? with
    | none => rfl
    | some peer =>
        dsimp only
        cases m with
        | handshake =>
            unfold dropPeer book
            simp only [Map.get_erase_self]
        | index lamport files leases => exact (onIndex_book ..).trans (if_pos rfl)
        | indexPart seq last lamport files leases =>
            exact (onIndexPart_book ..).trans (if_pos rfl)
        | bye => exact (onPeerGone_book h env ..).trans (if_pos rfl)
        | identity grant => exact onPeerIdentity_book ..
        | _ => cases hm
  · rw [if_neg hid]
    split
    · rfl
    · cases m with
      | handshake =>
          unfold dropPeer book
          simp only [Map.get_erase_ne _ hid]
      | index lamport files leases => exact (onIndex_book ..).trans (if_neg hid)
      | indexPart seq last lamport files leases =>
          exact (onIndexPart_book ..).trans (if_neg hid)
      | bye => exact (onPeerGone_book h env ..).trans (if_neg hid)
      | identity grant => exact onPeerIdentity_book ..
      | _ => cases hm

variable {h env}

/-- **The handlers keep the book.** -/
theorem handle_book {a : Actor Id Path} (hs : Sound (Ctx.aside h env) a) (ev : Event Id Path)
    (id : Id) :
    (a.handle h env ev).book id =
      (a.book id).handle h a.me id (decide (maxPeers ≤ a.peers.size)) ev := by
  have haside : ev.isPeering = false → (a.handle h env ev).book id = a.book id := by
    intro hev
    refine (handle_steps hs ⟨fun _ _ _ => trivial, fun _ _ _ _ _ _ _ => trivial,
      fun _ _ _ _ => trivial, False.elim, False.elim, False.elim, False.elim, fun hp => ?_,
      False.elim, False.elim⟩).book_eq (fun hp => hp) id
    rw [hev] at hp
    cases hp
  cases ev with
  | authed sender connId initiatedByMe => exact onAuthed_book h env a sender connId _ id
  | gone sender connId => exact onPeerGone_book h env a sender connId id
  | msg sender m =>
      cases hpeering : (Event.msg sender m).isPeering with
      | true => exact onCtl_book h env a sender hpeering id
      | false =>
          -- a message about files or locks says nothing about the connection
          have hsame : (a.book id).msg h m = a.book id := by
            unfold Book.msg
            cases (a.book id).conn with
            | none => rfl
            | some peer =>
                cases m with
                | handshake => cases hpeering
                | index => cases hpeering
                | indexPart => cases hpeering
                | bye => cases hpeering
                | _ => rfl
          rw [haside hpeering]
          exact (ite_eq_right_iff.mpr fun _ => hsame).symm
  | _ => exact haside rfl

/-- The runs that assume nothing are sound for handlers that leave the books alone. -/
theorem RunInv.aside {a : Actor Id Path} (hi : RunInv h Terms.none a) (env : Env Path) :
    Sound (Ctx.aside h env) a := by
  have hs := hi.sound env False.elim
  exact ⟨hs.me, hs.peers, False.elim, fun _ _ _ _ _ hf => False.elim hf, False.elim, False.elim,
    False.elim, False.elim⟩

theorem load_sound (h : Host Id Path) (env : Env Path) (me : Id) (p : Persisted Id Path) :
    Sound (Ctx.aside h env) (load h me p) :=
  ⟨rfl, by simp [load], False.elim, fun _ _ _ _ _ hf => False.elim hf, False.elim, False.elim,
    False.elim, False.elim⟩

/-- Nothing is on record when the daemon starts. -/
theorem boot_book (h : Host Id Path) (env : Env Path) (me : Id) (p : Persisted Id Path)
    (founding : Bool) (id : Id) : (boot h env me p founding).book id = ⟨none, false, none, []⟩ := by
  have hboot := (@boot_steps _ _ _ _ (Ctx.aside h env) me p (load_sound h env me p)
    founding).book_eq (fun hp => hp) id
  refine hboot.trans ?_
  simp [book, load]

theorem boot_me (h : Host Id Path) (env : Env Path) (me : Id) (p : Persisted Id Path)
    (founding : Bool) : (boot h env me p founding).me = me :=
  (@boot_steps _ _ _ _ (Ctx.aside h env) me p (load_sound h env me p) founding).me_eq

theorem handle_me {a : Actor Id Path} (hs : Sound (Ctx.aside h env) a) (ev : Event Id Path) :
    (a.handle h env ev).me = a.me := by
  have hsound : Sound { Ctx.aside h env with peering := True } a :=
    ⟨hs.me, hs.peers, hs.quiet, hs.staged, hs.booked, hs.opened, hs.readonly, hs.modes⟩
  exact (handle_steps hsound ⟨fun _ _ _ => trivial, fun _ _ _ _ _ _ _ => trivial,
    fun _ _ _ _ => trivial, False.elim, False.elim, False.elim, False.elim, fun _ => trivial,
    False.elim, False.elim⟩).me_eq

/-- What a step is: a turn, with its event taken out of the inbox or not, or a change outside
the tables of the actor. -/
theorem step_cases {a b : Actor Id Path} {s : Env Path × Act Id Path}
    (hstep : a.step h s = some b) :
    (∃ a' ev, (a' = a ∨ ∃ n, a' = { a with inbox := a.inbox.eraseIdx n }) ∧
      a.handled s.2 = some ev ∧ b = a'.handle h s.1 ev) ∨
    a.handled s.2 = none ∧ ∃ tasks inbox conflicts known disk,
      b = { a with tasks, inbox, conflicts, known, disk } := by
  obtain ⟨env, act⟩ := s
  cases act with
  | event ev =>
      simp only [Actor.step] at hstep
      split at hstep
      · cases hstep
        exact .inl ⟨a, ev, .inl rfl, rfl, rfl⟩
      · cases hstep
  | inbox n =>
      simp only [Actor.step] at hstep
      split at hstep
      · cases hstep
      · rename_i ev hev
        cases hstep
        exact .inl ⟨_, ev, .inr ⟨n, rfl⟩, hev, rfl⟩
  | task n failure =>
      simp only [Actor.step] at hstep
      split at hstep
      · cases hstep
      · rename_i t ht
        cases hstep
        obtain ⟨conflicts, known, heq⟩ := runTask_eq h env
          { a with tasks := a.tasks.eraseIdx n } failure t
        rw [heq]
        exact .inr ⟨rfl, _, _, conflicts, known, a.disk, rfl⟩
  | write rel bytes =>
      cases hstep
      exact .inr ⟨rfl, a.tasks, a.inbox, a.conflicts, a.known, _, rfl⟩
  | delete rel =>
      cases hstep
      exact .inr ⟨rfl, a.tasks, a.inbox, a.conflicts, a.known, _, rfl⟩
  | chmod rel readonly =>
      simp only [Actor.step] at hstep
      split at hstep
      · cases hstep
      · cases hstep
        exact .inr ⟨rfl, a.tasks, a.inbox, a.conflicts, a.known, _, rfl⟩

theorem step_me {a b : Actor Id Path} (hi : RunInv h Terms.none a) {s : Env Path × Act Id Path}
    (hstep : a.step h s = some b) : b.me = a.me := by
  rcases step_cases hstep with ⟨a', ev, hpre, -, rfl⟩ | ⟨-, tasks, inbox, conflicts, known, disk, rfl⟩
  · rcases hpre with rfl | ⟨n, rfl⟩
    · exact handle_me (hi.aside s.1) ev
    · exact handle_me ((hi.take n).aside s.1) ev
  · rfl

/-- **What a step does to the book** is what its event does. -/
theorem step_book {a b : Actor Id Path} (hi : RunInv h Terms.none a) {s : Env Path × Act Id Path}
    (hstep : a.step h s = some b) (id : Id) :
    b.book id =
      match a.handled s.2 with
      | some ev => (a.book id).handle h a.me id (decide (maxPeers ≤ a.peers.size)) ev
      | none => a.book id := by
  rcases step_cases hstep with ⟨a', ev, hpre, hev, rfl⟩ |
    ⟨hnone, tasks, inbox, conflicts, known, disk, rfl⟩
  · simp only [hev]
    rcases hpre with rfl | ⟨n, rfl⟩
    · exact handle_book (hi.aside s.1) ev id
    · exact handle_book ((hi.take n).aside s.1) ev id
  · simp only [hnone]
    rfl

end Actor

end Tazamun
