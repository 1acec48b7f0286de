import Tazamun.Index.Split
import Tazamun.Turn.Walk

set_option autoImplicit false

/-! # The walk through requests, messages and timers

The second half of the walk, up to the dispatch of an event. `Event.Passes` says that an event
has passed the guard: its own paths, records and manifests, the parts of its message that the
handlers do not turn away, and the paths of which it may take up a deferred record.
-/

namespace Tazamun

variable {Id Path : Type} [LinearOrder Id] [LinearOrder Path]

/-! ## Events that pass the guard -/

/-- The path that a lock message is about. -/
def LockMsg.path : LockMsg Id Path → Path
  | .lockReq rel _ _ | .lockGrant rel | .lockDeny rel _ | .lockRelease rel
  | .lockRenew rel _ _ => rel

/-- The message may end a round of our own. -/
def LockMsg.endsRound : LockMsg Id Path → Bool
  | .lockReq _ _ _ | .lockDeny _ _ => true
  | .lockGrant _ | .lockRelease _ | .lockRenew _ _ _ => false

/-- The records and leases that are not turned away have passed the guard. -/
structure Guard.Parts (g : Guard Id Path) (h : Host Id Path)
    (files : List (Path × FileRecord Id)) (leases : List (LeaseInfo Id Path)) : Prop where
  files : ∀ e ∈ files, recordAcceptable e.2 = true → h.sanitize e.1 = true → g.record e.1 e.2
  leases : ∀ l ∈ leases, h.sanitize l.path = true → g.path l.path

def Msg.Passes (g : Guard Id Path) (h : Host Id Path) : Msg Id Path → Prop
  | .index _ files leases | .indexPart _ _ _ files leases => g.Parts h files leases
  | .fileMeta rel record _ =>
      recordAcceptable record = true → h.sanitize rel = true → g.record rel record
  | .lock m => h.sanitize m.path = true → g.path m.path ∧ (m.endsRound = true → g.release m.path)
  | .lockInterest rel => h.sanitize rel = true → g.path rel
  | .handshake | .bye | .lockFreed _ | .identity _ => True

def IpcRequest.Passes (g : Guard Id Path) (h : Host Id Path) : IpcRequest Path → Prop
  | .lock rel | .unlock rel | .restore rel _ | .conflictApply _ rel =>
      h.sanitize rel = true → g.path rel
  | .lockWait _ | .conflictDiscard _ | .tag _ _ _ | .pin _ _ _ | .configSet _ => True

/-- The event may be handled in the state. -/
def Event.Passes (g : Guard Id Path) (h : Host Id Path) (env : Env Path) (a : Actor Id Path) :
    Event Id Path → Prop
  | .authed _ _ _ | .gone _ _ | .renew | .pullRetry _ => True
  | .msg _ m => m.Passes g h
  | .watch rel => g.path rel
  | .ipc req _ => req.Passes g h
  | .sweep => ∀ rel ∈ (a.locks.sweep env.now).2.timedOut, g.release rel
  | .inspected rel _ _ | .violationStaged rel _ _ _ | .autolockReady rel _ _
  | .conflictApplied rel _ _ => g.path rel ∧ g.release rel
  | .publishDone rel result cause => (g.path rel ∧ g.release rel) ∧
      ∀ p, result = some p → a.locks.isHeldByMe rel = true ∨ cause = .import →
        g.content rel p.manifest ∧ g.commit rel
  | .pullStaged rel _ record result => g.record rel record ∧
      (result.isSome = true → a.Takes rel record ∨ g.release rel → g.apply rel record)
  | .restoreStaged rel entry result _ => (g.path rel ∧ g.release rel) ∧
      ∀ bytes, result = .ok bytes → a.locks.isHeldByMe rel = true →
        g.content rel entry.manifest ∧ g.commit rel
  | .acquireTimeout rel _ => g.release rel

namespace Actor

variable {h : Host Id Path} {env : Env Path} {g : Guard Id Path}
variable {P : Actor Id Path → Prop} (k : Kept g P) {a : Actor Id Path}

include k

/-! ## Requests of the user -/

/-- An autolock whose round has ended fails; without one, somebody may be waiting. -/
theorem roundOver_kept (ha : P a) {rel : Path} (hrel : g.release rel) {f : Actor Id Path}
    (hf : P f) : P (match a.autolockPending[rel]? with
      | some (quarantined, newFile) => a.autolockFail h env rel quarantined newFile
      | none => f) := by
  split
  · rename_i he
    exact autolockFail_kept k ha ((k.within ha).autolocks.of_get he) hrel _ _
  · exact hf

theorem unpend_kept (ha : P a) (rel : Path) :
    P { a with pendingAcquires := a.pendingAcquires.erase rel } :=
  k.move ha (.rounds _ _ (.erase rel) .refl)

theorem handleLock_kept (ha : P a) {rel : Path} (hp : h.sanitize rel = true → g.path rel)
    (r : Nat) : P (a.handleLock h env rel r) := by
  have hsay : ∀ resp, P (a.reply r resp) := fun resp => reply_kept k ha r resp
  unfold handleLock
  split
  · exact hsay _
  · rename_i hclean
    split
    · exact hsay _
    · split
      · exact hsay _
      · split
        · exact hsay _
        · split
          · exact hsay _
          · split
            · exact hsay _
            · have hstarted : P (a.startAcquire env rel (some r)).1 :=
                startAcquire_kept k ha (hp (by simpa using hclean)) (some r)
              split
              · rename_i b hb
                rw [hb] at hstarted
                exact hstarted
              · rename_i b holder hb
                rw [hb] at hstarted
                exact reply_kept k hstarted r _
              · rename_i b hb
                rw [hb] at hstarted
                exact reply_kept k hstarted r _

theorem onAcquireTimeout_kept (ha : P a) {rel : Path} (hrel : g.release rel) (lamport : U64) :
    P (a.onAcquireTimeout h env rel lamport) := by
  unfold onAcquireTimeout
  split
  · exact ha
  · rename_i l waiter hround
    dsimp only
    split
    · exact ha
    · have hp := (k.within ha).acquires.of_get hround
      have hended : P { a with
          pendingAcquires := a.pendingAcquires.erase rel, locks := (a.locks.onDeny rel).1 } :=
        locksAt_kept k (unpend_kept k ha rel) hp (LockTable.onDeny_onlyAt a.locks rel)
      have hsent := broadcast_kept k hended (.lock (.lockRelease rel)) rfl
      exact roundOver_kept k hsent hrel (replyTo_kept k hsent waiter _)

theorem handleUnlock_kept (ha : P a) {rel : Path} (hp : h.sanitize rel = true → g.path rel)
    (r : Nat) : P (a.handleUnlock h rel r) := by
  have hsay : ∀ resp, P (a.reply r resp) := fun resp => reply_kept k ha r resp
  unfold handleUnlock
  split
  · exact hsay _
  · rename_i hclean
    split
    · exact hsay _
    · split
      · exact hsay _
      · split
        · exact hsay _
        · exact inspect_kept k (k.move ha (.misc ..)) (hp (by simpa using hclean)) _

theorem handleLockWait_kept (ha : P a) (rel : Path) (r : Nat) :
    P (a.handleLockWait h env rel r) := by
  have hsay : ∀ resp, P (a.reply r resp) := fun resp => reply_kept k ha r resp
  unfold handleLockWait
  split
  · exact hsay _
  · split
    · exact hsay _
    · split
      · exact hsay _
      · exact reply_kept k (broadcast_kept k (k.move ha (.misc ..)) _ rfl) r _

theorem releaseOwnLease_kept (ha : P a) (rel : Path) : P (a.releaseOwnLease env rel) := by
  unfold releaseOwnLease
  split
  · exact ha
  · rename_i hheld
    have hp : g.path rel := by
      refine (k.within ha).locks rel ?_
      rw [Bool.not_eq_true, Bool.not_eq_false'] at hheld
      unfold LockTable.isHeldByMe at hheld
      split at hheld
      · rename_i hs
        exact Map.contains_of_get hs
      · cases hheld
    have hreleased : P { a with
        locks := a.locks.onRelease rel a.me, autolockIdle := a.autolockIdle.erase rel } :=
      k.move (locksAt_kept k ha hp (LockTable.onRelease_onlyAt a.locks rel a.me)) (.misc ..)
    exact broadcast_kept k (broadcast_kept k (settleMode_kept k hreleased env rel) _ rfl) _ rfl

/-- A history in which versions are named or pinned has the same manifests. -/
theorem setHistory_kept (ha : P a) (rel : Path) (n r : Nat) {history : Option (History Id Path)}
    (hh : ∀ h', history = some h' → ∀ (p : Path) l, h'[p]? = some l → ∀ e ∈ l,
      ∃ l' e', a.history[p]? = some l' ∧ e' ∈ l' ∧ e'.manifest = e.manifest) :
    P (a.setHistory h rel n r history) := by
  unfold setHistory
  split
  · exact reply_kept k ha r _
  · split
    · rename_i h'
      refine reply_kept k (k.move ha (.history h' fun p l hl e he => ?_)) r _
      obtain ⟨l', e', hl', he', heq⟩ := hh h' rfl p l hl e he
      rw [← heq]
      exact (k.within ha).history p l' hl' e' he'
    · exact reply_kept k ha r _

omit k in
/-- A version that a change of its notes leads to has the manifest of one that was there. -/
theorem modify_manifest {es : List (VersionEntry Id)} {n : Nat}
    {f : VersionEntry Id → VersionEntry Id} {e : VersionEntry Id} (he : e ∈ es.modify n f)
    (hf : ∀ e, (f e).manifest = e.manifest) : ∃ e' ∈ es, e'.manifest = e.manifest := by
  obtain ⟨i, hi⟩ := List.mem_iff_getElem?.mp he
  rw [List.getElem?_modify] at hi
  obtain ⟨e', he', heq⟩ := Option.map_eq_some_iff.mp hi
  refine ⟨e', List.mem_of_getElem? he', ?_⟩
  subst heq
  split
  · exact (hf e').symm
  · rfl

theorem handleTag_kept (ha : P a) (rel : Path) (n : Nat) (name : Option String) (r : Nat) :
    P (a.handleTag h rel n name r) := by
  refine setHistory_kept k ha rel n r fun h' hh p l hl e he => ?_
  unfold History.tag at hh
  split at hh
  · cases hh
  · rename_i es hes
    split at hh
    · cases hh
    · cases hh
      rw [Map.get_insert] at hl
      split at hl
      · rename_i heq
        subst heq
        cases hl
        obtain ⟨e₁, he₁, hm₁⟩ := modify_manifest he fun _ => rfl
        have hold : ∃ e' ∈ es, e'.manifest = e₁.manifest := by
          split at he₁
          · obtain ⟨e', he', rfl⟩ := List.mem_map.mp he₁
            refine ⟨e', he', ?_⟩
            split <;> rfl
          · exact ⟨e₁, he₁, rfl⟩
        obtain ⟨e', he', hm'⟩ := hold
        exact ⟨es, e', hes, he', hm'.trans hm₁⟩
      · exact ⟨l, e, hl, he, rfl⟩

theorem handlePin_kept (ha : P a) (rel : Path) (n : Nat) (pinned : Bool) (r : Nat) :
    P (a.handlePin h rel n pinned r) := by
  refine setHistory_kept k ha rel n r fun h' hh p l hl e he => ?_
  unfold History.setPinned at hh
  split at hh
  · cases hh
  · rename_i es hes
    split at hh
    · cases hh
    · cases hh
      rw [Map.get_insert] at hl
      split at hl
      · rename_i heq
        subst heq
        cases hl
        obtain ⟨e', he', hm'⟩ := modify_manifest he fun _ => rfl
        exact ⟨es, e', hes, he', hm'⟩
      · exact ⟨l, e, hl, he, rfl⟩

theorem handleRestore_kept (ha : P a) {rel : Path} (hp : h.sanitize rel = true → g.path rel)
    (n r : Nat) : P (a.handleRestore h rel n r) := by
  have hsay : ∀ resp, P (a.reply r resp) := fun resp => reply_kept k ha r resp
  unfold handleRestore
  split
  · exact hsay _
  · rename_i hclean
    have hpath : g.path rel := hp (by simpa using hclean)
    split
    · exact hsay _
    · split
      · exact hsay _
      · split
        · exact hsay _
        · split
          · exact hsay _
          · split
            · exact hsay _
            · rename_i entry hentry
              obtain ⟨es, hes, he⟩ := Option.bind_eq_some_iff.mp hentry
              exact k.begun ha hpath (t := .restore rel entry r)
                ⟨hpath, (k.within ha).history rel es hes entry (List.mem_of_getElem? he)⟩

theorem onRestoreStaged_kept (ha : P a) {rel : Path} (hp : g.path rel) (hrel : g.release rel)
    {entry : VersionEntry Id} {result : Except String Bytes}
    (hc : ∀ bytes, result = .ok bytes → a.locks.isHeldByMe rel = true →
      g.content rel entry.manifest ∧ g.commit rel) (r : Nat) :
    P (a.onRestoreStaged h env rel entry result r) := by
  unfold onRestoreStaged
  split
  · exact unbusy_kept k (reply_kept k ha r _) hp hrel
  · rename_i hheld
    split
    · exact unbusy_kept k (reply_kept k ha r _) hp hrel
    · rename_i bytes
      obtain ⟨hm, hcommit⟩ := hc bytes rfl (by simpa using hheld)
      have hwritten : P ((a.mute env rel).persistTemp h env rel bytes).1 :=
        k.onDisk (k.onDisk ha (mute_onDisk a env rel)) (persistTemp_onDisk h env _ rel bytes)
      refine unbusy_kept k ?_ hp hrel
      split
      · rename_i b hb
        rw [hb] at hwritten
        exact reply_kept k (commitNext_kept k (k.move hwritten (.misc ..) : P (b.openFor rel)) hp
          hcommit bytes rfl hm) r _
      · rename_i b hb
        rw [hb] at hwritten
        exact reply_kept k hwritten r _

theorem handleConflictApply_kept (ha : P a) (id : CopyName Path) {rel : Path}
    (hp : h.sanitize rel = true → g.path rel) (r : Nat) :
    P (a.handleConflictApply h id rel r) := by
  have hsay : ∀ resp, P (a.reply r resp) := fun resp => reply_kept k ha r resp
  unfold handleConflictApply
  split
  · exact hsay _
  · split
    · exact hsay _
    · rename_i hclean
      have hpath : g.path rel := hp (by simpa using hclean)
      split
      · exact hsay _
      · split
        · exact hsay _
        · split
          · exact hsay _
          · split
            · exact hsay _
            · split
              · exact hsay _
              · exact k.begun ha hpath (t := .conflictApply rel id r) hpath

theorem onConflictApplied_kept (ha : P a) {rel : Path} (hp : g.path rel) (hrel : g.release rel)
    (result : Except String Bytes) (r : Nat) : P (a.onConflictApplied h env rel result r) := by
  unfold onConflictApplied
  split
  · exact reply_kept k (unbusy_kept k ha hp hrel) r _
  · rename_i bytes
    split
    · exact reply_kept k (unbusy_kept k ha hp hrel) r _
    · have hwritten : P ((a.mute env rel).persistTemp h env rel bytes).1 :=
        k.onDisk (k.onDisk ha (mute_onDisk a env rel)) (persistTemp_onDisk h env _ rel bytes)
      split
      · rename_i b hb
        rw [hb] at hwritten
        have hopen : P (b.openFor rel) := k.move hwritten (.misc ..)
        refine reply_kept k (unbusy_kept k ?_ hp hrel) r _
        split
        · exact know_kept k hopen rel bytes
        · exact forget_kept k hopen rel
      · rename_i b hb
        rw [hb] at hwritten
        exact reply_kept k (unbusy_kept k hwritten hp hrel) r _

theorem onIpc_kept (ha : P a) {req : IpcRequest Path} (hreq : req.Passes g h) (r : Nat) :
    P (a.onIpc h env req r) := by
  cases req with
  | lock rel => exact handleLock_kept k ha hreq r
  | unlock rel => exact handleUnlock_kept k ha hreq r
  | lockWait rel => exact handleLockWait_kept k ha rel r
  | restore rel n => exact handleRestore_kept k ha hreq n r
  | conflictApply id rel => exact handleConflictApply_kept k ha id hreq r
  | conflictDiscard id =>
      show P (a.handleConflictDiscard h id r)
      unfold handleConflictDiscard loseCopy
      split
      · refine reply_kept k ?_ r _
        split
        · exact ha
        · exact k.move ha (.misc ..)
      · exact reply_kept k ha r _
  | tag rel n name => exact handleTag_kept k ha rel n name r
  | pin rel n pinned => exact handlePin_kept k ha rel n pinned r
  | configSet key =>
      have hset : ∀ config (locks : LockTable Id Path), locks.states = a.locks.states →
          P { a with config, locks } := fun config locks hsame =>
        k.move (k.move ha (.locks locks fun p hin => .inl (by rw [← hsame]; exact hin))) (.misc ..)
      refine reply_kept k ?_ r _
      cases key <;> exact hset _ _ rfl

/-! ## Peers -/

omit k in
/-- An index goes out in index messages. -/
theorem splitIndexParts_isFileMeta (lamport : U64) (files : Map Path (FileRecord Id))
    (leases : List (LeaseInfo Id Path)) :
    ∀ m ∈ splitIndexParts h lamport files leases, m.isFileMeta = false := by
  intro m hm
  by_cases hfits : h.encodedLen (.index lamport files.toList leases) ≤ maxFrame
  · rw [splitIndexParts, if_pos hfits, List.mem_singleton] at hm
    rw [hm]
    rfl
  · obtain ⟨bs, kept, heq, -⟩ := splitIndexParts_eq lamport files leases hfits
    rw [heq] at hm
    obtain ⟨i, hi, rfl⟩ := List.mem_mapIdx.mp hm
    rfl

theorem join_kept (ha : P a) (id : Id) (peer : Peer) : P (a.join h env id peer) := by
  refine k.move (k.move ha (.sends (a.join h env id peer).sent fun e he => ?_)) (.misc ..)
  rcases List.mem_append.mp he with he | he
  · exact .inl he
  · obtain ⟨m, hm, rfl⟩ := List.mem_map.mp he
    refine .inr ?_
    rcases List.mem_append.mp hm with hm | hm
    · exact splitIndexParts_isFileMeta _ _ _ m hm
    · cases hgrant : a.myGrant with
      | none =>
          rw [hgrant] at hm
          cases hm
      | some grant =>
          rw [hgrant] at hm
          rw [List.mem_singleton.mp hm]
          rfl

theorem onAuthed_kept (ha : P a) (id : Id) (connId : Nat) (initiatedByMe : Bool) :
    P (a.onAuthed h env id connId initiatedByMe) := by
  have hjoin : ∀ peer, P (a.join h env id peer) := fun peer => join_kept k ha id peer
  unfold onAuthed
  dsimp only
  split
  · exact ha
  · split
    · exact ha
    · split
      · exact hjoin _
      · split_ifs <;> first | exact hjoin _ | exact ha

theorem abortRound_kept (ha : P a) (rel : Path) : P (a.abortRound rel) := by
  have hsent := broadcast_kept k ha (.lock (.lockRelease rel)) rfl
  unfold abortRound
  dsimp only
  split
  · exact hsent
  · exact replyTo_kept k (unpend_kept k hsent rel) _ _

theorem onPeerGone_kept (ha : P a) (id : Id) (connId : Nat) : P (a.onPeerGone id connId) := by
  have hw := k.within ha
  unfold onPeerGone
  split
  · exact ha
  · have hgone : P { a with
        peers := a.peers.erase id
        peerIndex := a.peerIndex.erase id
        peerRoles := a.peerRoles.erase id
        indexReceived := a.indexReceived.erase id
        indexStaging := a.indexStaging.erase id } := by
      refine k.move (k.move ha (.books (a.peerIndex.erase id) (a.indexStaging.erase id)
        (fun i m hm => ?_) fun i m hm => ?_)) (.misc ..)
      · rw [Map.get_erase] at hm
        split at hm
        · cases hm
        · exact hw.index i m hm
      · rw [Map.get_erase] at hm
        split at hm
        · cases hm
        · exact hw.staging i m hm
    refine Kept.foldl (k.move hgone (.locks _ fun p hin => .inl ?_)) fun b rel _ hb =>
      abortRound_kept k hb rel
    exact Guard.contains_of_filter hin

theorem dropPeer_kept (ha : P a) (id : Id) : P (a.dropPeer id) := k.move ha (.misc ..)

theorem onPeerIdentity_kept (ha : P a) (sender : Id) (grant : SignedGrant Nat) :
    P (a.onPeerIdentity env sender grant) := by
  unfold onPeerIdentity
  split
  · exact ha
  · split
    · exact k.move ha (.misc ..)
    · split <;> exact k.move ha (.misc ..)

/-- Records that are turned away do not get into the map. -/
theorem ingest_kept (ha : P a) (sender : Id) {map : Map Path (FileRecord Id)}
    {files : List (Path × FileRecord Id)} (hmap : g.Records map)
    (hfiles : ∀ e ∈ files, recordAcceptable e.2 = true → h.sanitize e.1 = true →
      g.record e.1 e.2) :
    P (a.ingest h sender map files).1 ∧ g.Records (a.ingest h sender map files).2 := by
  unfold ingest
  induction files generalizing a map with
  | nil => exact ⟨ha, hmap⟩
  | cons e files ih =>
      rw [List.foldl_cons]
      have hrest : ∀ e ∈ files, recordAcceptable e.2 = true → h.sanitize e.1 = true →
          g.record e.1 e.2 := fun e he => hfiles e (List.mem_cons_of_mem _ he)
      dsimp only
      split
      · rename_i hok
        rw [Bool.and_eq_true] at hok
        exact ih (displace_kept k ha e.1 _ e.2)
          (hmap.insert (hfiles e List.mem_cons_self hok.1 hok.2)) hrest
      · exact ih (letGo_kept k ha e.1 sender e.2) hmap hrest

theorem observeLeases_kept (ha : P a) {leases : List (LeaseInfo Id Path)}
    (hl : ∀ l ∈ leases, h.sanitize l.path = true → g.path l.path) :
    P (a.observeLeases h env leases) := by
  unfold observeLeases
  refine k.move ha (.locks _ ?_)
  suffices hfold : ∀ t : LockTable Id Path, g.Extends a.locks.states t.states →
      g.Extends a.locks.states (leases.foldl (fun t l =>
        if h.sanitize l.path then t.observeLease l.path l.holder l.lamport l.expiresInMs env.now
        else t) t).states from hfold a.locks .refl
  induction leases with
  | nil => exact fun t ht => ht
  | cons l leases ih =>
      intro t ht
      rw [List.foldl_cons]
      refine ih (fun l' hl' => hl l' (List.mem_cons_of_mem l hl')) _ ?_
      split
      · rename_i hclean
        have honly := LockTable.observeLease_onlyAt t l.path l.holder l.lamport l.expiresInMs
          env.now
        intro p hin
        by_cases heq : l.path = p
        · subst heq
          exact .inr (hl l List.mem_cons_self hclean)
        · rw [Map.contains_eq, honly.get p heq, ← Map.contains_eq] at hin
          exact ht p hin
      · exact ht

theorem commitPeerIndex_kept (ha : P a) {sender : Id} {map : Map Path (FileRecord Id)}
    {leases : List (LeaseInfo Id Path)} (hmap : g.Records map)
    (hl : ∀ l ∈ leases, h.sanitize l.path = true → g.path l.path) :
    P (a.commitPeerIndex h env sender map leases) := by
  have hw := k.within ha
  unfold commitPeerIndex
  have hbooked : P { a with peerIndex := a.peerIndex.insert sender map } := by
    refine k.move ha (.books (a.peerIndex.insert sender map) a.indexStaging
      (fun i m hm => ?_) hw.staging)
    rw [Map.get_insert] at hm
    split at hm
    · cases hm
      exact hmap
    · exact hw.index i m hm
  have hnoted : P (({ a with
      peerIndex := a.peerIndex.insert sender map
      indexReceived := a.indexReceived.insert sender () } : Actor Id Path).note
        (.indexed sender map.toList leases)) :=
    k.move hbooked (.misc ..)
  exact reconcileWith_kept k (rebuildIgnore_kept k) (observeLeases_kept k hnoted hl) sender

theorem supersede_kept (ha : P a) (sender : Id) (map : Map Path (FileRecord Id))
    (staged : List (Path × FileRecord Id)) : P (a.supersede sender map staged) := by
  unfold supersede
  refine Kept.foldl ha fun b e _ hb => ?_
  dsimp only
  split
  · exact displace_kept k hb e.1 _ _
  · exact letGo_kept k hb e.1 sender e.2

/-- The partial index is taken out. -/
theorem unstage_kept (ha : P a) (sender : Id) (lamport : U64) :
    P { a with
      lamport := max a.lamport lamport, indexStaging := a.indexStaging.erase sender } := by
  have hw := k.within ha
  refine k.move (k.move ha (.books a.peerIndex (a.indexStaging.erase sender) hw.index
    fun i m hm => ?_)) (.misc ..)
  rw [Map.get_erase] at hm
  split at hm
  · cases hm
  · exact hw.staging i m hm

theorem onIndex_kept (ha : P a) {sender : Id} {lamport : U64}
    {files : List (Path × FileRecord Id)} {leases : List (LeaseInfo Id Path)}
    (hp : g.Parts h files leases) : P (a.onIndex h env sender lamport files leases) := by
  unfold onIndex
  obtain ⟨hread, hmap⟩ := ingest_kept k (unstage_kept k ha sender lamport) sender
    Guard.Records.empty hp.files
  exact commitPeerIndex_kept k (supersede_kept k hread sender _ _) hmap hp.leases

theorem onIndexPart_kept (ha : P a) {sender : Id} {seq : Nat} {last : Bool} {lamport : U64}
    {files : List (Path × FileRecord Id)} {leases : List (LeaseInfo Id Path)}
    (hp : g.Parts h files leases) :
    P (a.onIndexPart h env sender seq last lamport files leases) := by
  have hstaged : g.Records (a.indexStaging[sender]?.getD (0, ∅)).2 := by
    cases hs : a.indexStaging[sender]? with
    | none => exact Guard.Records.empty
    | some stage => exact (k.within ha).staging sender stage hs
  unfold onIndexPart
  dsimp only
  have hout := unstage_kept k ha sender lamport
  split
  · exact dropPeer_kept k hout sender
  · obtain ⟨hread, hmap⟩ := ingest_kept k hout sender hstaged hp.files
    split
    · exact commitPeerIndex_kept k hread hmap hp.leases
    · have hw := k.within hread
      refine k.move hread (.books _ (Std.ExtTreeMap.insert _ sender _) hw.index
        fun i m hm => ?_)
      rw [Map.get_insert] at hm
      split at hm
      · cases hm
        exact hmap
      · exact hw.staging i m hm

theorem onFileMeta_kept (ha : P a) {sender : Id} {rel : Path} {record : FileRecord Id}
    {lamport : U64}
    (hr : recordAcceptable record = true → h.sanitize rel = true → g.record rel record) :
    P (a.onFileMeta h env sender rel record lamport) := by
  have hheard : P { a with lamport := max a.lamport lamport } := k.move ha (.misc ..)
  unfold onFileMeta
  dsimp only
  split
  · rename_i hok
    rw [Bool.and_eq_true] at hok
    have hrec := hr hok.2 hok.1
    refine reconcileOneWith_kept k (rebuildIgnore_kept k) (k.move hheard (.books
      (a.peerIndex.insert sender ((a.peerIndex[sender]?.getD ∅).insert rel record)) a.indexStaging
      (fun i m hm => ?_) (k.within ha).staging)) hrec
    rw [Map.get_insert] at hm
    split at hm
    · cases hm
      refine Guard.Records.insert ?_ hrec
      cases hs : a.peerIndex[sender]? with
      | none => exact Guard.Records.empty
      | some m => exact (k.within ha).index sender m hs
    · exact (k.within ha).index i m hm
  · exact letGo_kept k hheard rel sender record

/-! ## Lock messages -/

theorem tieLost_kept (ha : P a) {rel : Path} (hrel : g.release rel) :
    P (a.tieLost h env rel) := by
  have hover := unpend_kept k ha rel
  unfold tieLost
  refine roundOver_kept k hover hrel ?_
  split
  · exact replyTo_kept k hover _ _
  · exact hover

theorem onLockReq_kept (ha : P a) {sender : Id} {rel : Path} (lamport ttlMs : U64)
    (hp : h.sanitize rel = true → g.path rel ∧ g.release rel) :
    P (a.onLockReq h env sender rel lamport ttlMs) := by
  have hheard : P { a with lamport := max a.lamport lamport } := k.move ha (.misc ..)
  have honly := LockTable.onRemoteRequest_onlyAt a.locks rel sender lamport ttlMs env.now
  unfold onLockReq
  dsimp only
  split
  · exact hheard
  · rename_i hclean
    obtain ⟨hpath, hrel⟩ := hp (by simpa using hclean)
    split
    · exact send_kept k hheard sender _ rfl
    · split
      · rename_i locks hr
        rw [hr] at honly
        have hgranted := locksAt_kept k hheard hpath honly
        exact send_kept k (k.move hgranted (.misc ..)) sender _ rfl
      · rename_i locks hr
        rw [hr] at honly
        have hgranted := locksAt_kept k hheard hpath honly
        exact send_kept k (broadcast_kept k
          (tieLost_kept k (k.move hgranted (.misc ..)) hrel) _ rfl) sender _ rfl
      · rename_i locks reason hr
        rw [hr] at honly
        exact send_kept k (locksAt_kept k hheard hpath honly) sender _ rfl

theorem leaseAcquired_kept (ha : P a) (rel : Path) : P (a.leaseAcquired env rel) := by
  have hopen : P ((a.setMode env rel false).1.openFor rel) :=
    k.move (setMode_kept k ha env rel false) (.misc ..)
  have hserved : P { (a.setMode env rel false).1.openFor rel with
      myWaits := ((a.setMode env rel false).1.openFor rel).myWaits.erase rel
      interest := ((a.setMode env rel false).1.openFor rel).interest.erase rel } :=
    k.move (k.move hopen (.interest _ (.erase rel))) (.misc ..)
  have hwon : P (Actor.autolockSucceed env { (a.setMode env rel false).1.openFor rel with
      myWaits := ((a.setMode env rel false).1.openFor rel).myWaits.erase rel
      interest := ((a.setMode env rel false).1.openFor rel).interest.erase rel } rel) :=
    autolockSucceed_kept k hserved rel
  unfold leaseAcquired
  dsimp only
  split
  · exact hwon
  · exact replyTo_kept k (unpend_kept k hwon rel) _ _

theorem onLockGrant_kept (ha : P a) {sender : Id} {rel : Path}
    (hp : h.sanitize rel = true → g.path rel) : P (a.onLockGrant h env sender rel) := by
  have honly := LockTable.onGrant_onlyAt a.locks rel sender env.now
  unfold onLockGrant
  split
  · exact ha
  · rename_i hclean
    have hpath : g.path rel := hp (by simpa using hclean)
    split
    · rename_i locks hr
      rw [hr] at honly
      exact locksAt_kept k ha hpath honly
    · rename_i locks hr
      rw [hr] at honly
      exact leaseAcquired_kept k (k.move (locksAt_kept k ha hpath honly) (.misc ..)) rel

theorem onLockDeny_kept (ha : P a) {rel : Path}
    (hp : h.sanitize rel = true → g.path rel ∧ g.release rel) (reason : DenyReason Id) :
    P (a.onLockDeny h env rel reason) := by
  have honly := LockTable.onDeny_onlyAt a.locks rel
  unfold onLockDeny
  split
  · exact ha
  · rename_i hclean
    obtain ⟨hpath, hrel⟩ := hp (by simpa using hclean)
    split
    · rename_i locks hr
      rw [hr] at honly
      exact locksAt_kept k ha hpath honly
    · rename_i locks hr
      rw [hr] at honly
      have hover := unpend_kept k (broadcast_kept k (locksAt_kept k ha hpath honly)
        (.lock (.lockRelease rel)) rfl) rel
      refine roundOver_kept k hover hrel ?_
      split
      · exact replyTo_kept k hover _ _
      · exact hover

theorem onLockMsg_kept (ha : P a) {sender : Id} {m : LockMsg Id Path}
    (hm : (Msg.lock m).Passes g h) : P (a.onLockMsg h env sender m) := by
  cases m with
  | lockReq rel lamport ttlMs =>
      exact onLockReq_kept k ha lamport ttlMs fun hc => ⟨(hm hc).1, (hm hc).2 rfl⟩
  | lockGrant rel => exact onLockGrant_kept k ha fun hc => (hm hc).1
  | lockDeny rel reason =>
      exact onLockDeny_kept k ha (fun hc => ⟨(hm hc).1, (hm hc).2 rfl⟩) reason
  | lockRelease rel =>
      show P (if h.sanitize rel then { a with locks := a.locks.onRelease rel sender } else a)
      split
      · rename_i hclean
        exact locksAt_kept k ha (hm hclean).1 (LockTable.onRelease_onlyAt a.locks rel sender)
      · exact ha
  | lockRenew rel lamport ttlMs =>
      have hheard : P { a with lamport := max a.lamport lamport } := k.move ha (.misc ..)
      show P (if h.sanitize rel then { a with
        lamport := max a.lamport lamport, locks := a.locks.onRenew rel sender ttlMs env.now }
        else { a with lamport := max a.lamport lamport })
      split
      · rename_i hclean
        exact locksAt_kept k hheard (hm hclean).1
          (LockTable.onRenew_onlyAt a.locks rel sender ttlMs env.now)
      · exact hheard

theorem onCtl_kept (ha : P a) (sender : Id) {m : Msg Id Path} (hm : m.Passes g h) :
    P (a.onCtl h env sender m) := by
  unfold onCtl
  split
  · exact ha
  · cases m with
    | handshake => exact dropPeer_kept k ha sender
    | index lamport files leases => exact onIndex_kept k ha hm
    | indexPart seq last lamport files leases => exact onIndexPart_kept k ha hm
    | fileMeta rel record lamport => exact onFileMeta_kept k ha hm
    | lock m => exact onLockMsg_kept k ha hm
    | bye => exact onPeerGone_kept k ha sender _
    | lockInterest rel =>
        dsimp only
        unfold onLockInterest
        split
        · exact ha
        · rename_i hclean
          split
          · exact ha
          · exact k.move ha (.interest _ (.insert (hm (by simpa using hclean)) _))
    | lockFreed rel =>
        dsimp only
        split
        · exact k.move ha (.interest _ (.erase rel))
        · exact ha
    | identity grant => exact onPeerIdentity_kept k ha sender grant

/-! ## Timers -/

theorem leaseExpired_kept (ha : P a) (rel : Path) (holder : Id) :
    P (a.leaseExpired env rel holder) := by
  unfold leaseExpired
  refine broadcast_kept k (k.move (a := if holder = a.me then a.settleMode env rel else a) ?_
    (.misc ..)) _ rfl
  split
  · exact settleMode_kept k ha env rel
  · exact ha

theorem roundTimedOut_kept (ha : P a) {rel : Path} (hrel : g.release rel) :
    P (a.roundTimedOut h env rel) := by
  have hover := unpend_kept k (broadcast_kept k ha (.lock (.lockRelease rel)) rfl) rel
  unfold roundTimedOut
  refine roundOver_kept k hover hrel ?_
  split
  · exact replyTo_kept k hover _ _
  · exact hover

omit k in
/-- Releasing a lease of our own adds nothing to the table. -/
theorem releaseOwnLease_states {rel p : Path} {s : LockState Id}
    (hs : (a.releaseOwnLease env rel).locks.states[p]? = some s) :
    a.locks.states[p]? = some s := by
  unfold releaseOwnLease at hs
  split at hs
  · exact hs
  · have hlocks : ∀ (b : Actor Id Path), (b.settleMode env rel).locks = b.locks :=
      fun b => (setMode_onDisk b env rel _).aside.locks
    simp only [broadcast, hlocks, LockTable.onRelease] at hs
    split at hs
    · split at hs
      · change (a.locks.states.erase rel)[p]? = some s at hs
        rw [Map.get_erase] at hs
        split at hs
        · cases hs
        · exact hs
      · exact hs
    · exact hs

omit k in
/-- Releasing leases of our own ends no more rounds. -/
theorem timedOut_releaseOwnLease (idle : List Path) (a : Actor Id Path) (now : Nat) :
    ∀ rel ∈ ((idle.foldl (fun a rel => a.releaseOwnLease env rel) a).locks.sweep now).2.timedOut,
      rel ∈ (a.locks.sweep now).2.timedOut := by
  have hsub : ∀ (p : Path) s, (idle.foldl (fun a rel =>
      a.releaseOwnLease env rel) a).locks.states[p]? = some s → a.locks.states[p]? = some s := by
    induction idle generalizing a with
    | nil => exact fun p s hs => hs
    | cons rel idle ih => exact fun p s hs => releaseOwnLease_states (ih _ p s hs)
  intro rel hrel
  obtain ⟨e, he, hout⟩ := List.mem_filterMap.mp hrel
  obtain ⟨he, hdue⟩ := List.mem_filter.mp he
  have hin := hsub e.1 e.2 (Map.mem_toList.mp he)
  exact List.mem_filterMap.mpr ⟨e, List.mem_filter.mpr ⟨Map.mem_toList.mpr hin, hdue⟩, hout⟩

theorem onSweep_kept (ha : P a)
    (hrel : ∀ rel ∈ (a.locks.sweep env.now).2.timedOut, g.release rel) :
    P (a.onSweep h env) := by
  unfold onSweep
  dsimp only
  generalize (a.autolockIdle.toList.filter fun e =>
    decide (e.2 ≤ env.now) && a.locks.isHeldByMe e.1).map Prod.fst = idle
  have hout := @timedOut_releaseOwnLease _ _ _ _ env idle a env.now
  have hidle : P (idle.foldl (fun a rel => a.releaseOwnLease env rel) a) :=
    Kept.foldl ha fun b rel _ hb => releaseOwnLease_kept k hb rel
  generalize idle.foldl (fun a rel => a.releaseOwnLease env rel) a = b at hout hidle ⊢
  have hcleared : P { b with
      autolockIdle := b.autolockIdle.filter fun _ d => decide (env.now < d) } :=
    k.move hidle (.misc ..)
  have hswept := k.move hcleared (.locks (b.locks.sweep env.now).1 fun p hin =>
    .inl (Guard.contains_of_filter hin))
  have hexpired : P ((b.locks.sweep env.now).2.expired.foldl
      (fun a e => a.leaseExpired env e.1 e.2) _) :=
    Kept.foldl hswept fun b e _ hb => leaseExpired_kept k hb e.1 e.2
  refine Kept.foldl (k.move hexpired (.misc ..)) fun d rel hmem hd => ?_
  exact roundTimedOut_kept k hd (hrel rel (hout rel hmem))

theorem onRenewTick_kept (ha : P a) : P (a.onRenewTick env) := by
  unfold onRenewTick
  refine Kept.foldl ha fun b rel _ hb =>
    broadcast_kept k (k.move hb (.locks _ fun p hin => ?_)) _ rfl
  -- renewing leaves no entry where there was none
  unfold LockTable.renewOwn at hin
  split at hin
  · rename_i hs
    split at hin
    · rcases Map.contains_insert_iff.mp hin with rfl | hin
      · exact .inl (Map.contains_of_get hs)
      · exact .inl hin
    · exact .inl hin
  · exact .inl hin

/-! ## The dispatch -/

/-- **Every handler is made of moves**: what every move keeps, it keeps. -/
theorem handle_kept (ha : P a) {ev : Event Id Path} (hev : ev.Passes g h env a) :
    P (a.handle h env ev) := by
  cases ev with
  | authed id connId initiatedByMe => exact onAuthed_kept k ha id connId initiatedByMe
  | msg id m => exact onCtl_kept k ha id hev
  | gone id connId => exact onPeerGone_kept k ha id connId
  | watch rel => exact onWatch_kept k ha hev
  | ipc req reply => exact onIpc_kept k ha hev reply
  | sweep => exact onSweep_kept k ha hev
  | renew => exact onRenewTick_kept k ha
  | inspected rel outcome cause => exact onInspected_kept k ha hev.1 hev.2 outcome cause
  | publishDone rel result cause => exact onPublishDone_kept k ha hev.1.1 hev.1.2 hev.2
  | pullStaged rel sender record result => exact onPullStaged_kept k ha hev.1 hev.2
  | pullRetry rel => exact onPullRetry_kept k ha rel
  | violationStaged rel result quarantined preserveRequired =>
      exact onViolationStaged_kept k ha hev.1 hev.2 result quarantined preserveRequired
  | autolockReady rel quarantined newFile =>
      exact beginAutolockAcquire_kept k ha hev.1 hev.2 quarantined newFile
  | restoreStaged rel entry result reply =>
      exact onRestoreStaged_kept k ha hev.1.1 hev.1.2 hev.2 reply
  | conflictApplied rel result reply =>
      exact onConflictApplied_kept k ha hev.1 hev.2 result reply
  | acquireTimeout rel lamport => exact onAcquireTimeout_kept k ha hev lamport

end Actor

end Tazamun
