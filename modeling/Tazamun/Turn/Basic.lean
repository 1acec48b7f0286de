import Tazamun.Daemon.Run

set_option autoImplicit false

/-! # What a turn of the actor can do

A handler is a long chain of small changes. `Micro` lists the kinds of change there are, each
with what the code has checked by then, and the modules after this one show that every
handler is a chain of them (`Steps`). What holds of all runs is then proved once per kind of
change and not once per handler.

While it works, a handler has records in its hand: those of the message it handles, or one
it has taken out of a slot. A `Shift` moves records between the hand and the slots of the
pull pipeline, and may lose none of them: afterwards every record is still somewhere, or the
index has caught up with it, or the journal says that it was dropped, or its sender is gone.

The context of a turn (`Ctx`) has what is assumed of the event: the vote it delivers, the
request it grants, whether it brings a connection, and whether it keeps to the conditions
under which leases protect a path, the books on the peers stay in order (`Booked`), and files
are read-only again after a lease.
-/

namespace Tazamun

variable {Id Path : Type} [LinearOrder Id] [LinearOrder Path]

/-- A record, the path it is of, and the peer it came from. -/
abbrev Advert (Id Path : Type) [Ord Id] : Type := Path × Id × FileRecord Id

/-- The votes collected for `rel` so far. -/
def LockTable.grantsOf (t : LockTable Id Path) (rel : Path) : Finset Id :=
  match t.states[rel]? with
  | some (.pendingLocal _ _ granted _) => granted
  | _ => ∅

/-- Our request for `rel` still waits for the vote of `v`. -/
def LockTable.WaitsFor (t : LockTable Id Path) (rel : Path) (v : Id) : Prop :=
  ∃ l needed granted d, t.states[rel]? = some (.pendingLocal l needed granted d) ∧
    v ∈ needed ∧ v ∉ granted

/-- Neither a vote nor a message about files. -/
def Msg.isPlain : Msg Id Path → Bool
  | .index _ _ _ | .indexPart _ _ _ _ _ | .fileMeta _ _ _ | .lock (.lockGrant _) => false
  | _ => true

def Task.isPull : Task Id Path → Bool
  | .pull _ _ _ => true
  | _ => false

/-- The entries of a notice that something was lost. -/
def Effect.isLoss : Effect Id Path → Bool
  | .dropped _ _ _ | .revived _ _ => true
  | _ => false

namespace Actor

/-- The vector of a record that is applied (`commitApplied`). -/
def appliedVv (a : Actor Id Path) (rel : Path) (record : FileRecord Id) : VClock Id :=
  match a.files[rel]? with
  | some p => VClock.merge p.vv record.vv
  | none => record.vv

/-! ## Where records are -/

/-- The record waits in the pull pipeline. -/
def Waits (a : Actor Id Path) (x : Advert Id Path) : Prop :=
  (∃ job, a.pendingPulls[x.1]? = some job ∧
    ((job.sender, job.record) = x.2 ∨ job.queued = some x.2)) ∨
  x ∈ a.pullBacklog ∨
  (∃ d, a.deferred[x.1]? = some d ∧ (d.sender, d.record) = x.2) ∨
  Task.pull x.1 x.2.1 x.2.2 ∈ a.tasks ∨
  ∃ result, Event.pullStaged x.1 x.2.1 x.2.2 result ∈ a.inbox

/-- The record is part of an index that has not arrived as a whole. -/
def Staged (a : Actor Id Path) (x : Advert Id Path) : Prop :=
  ∃ stage, a.indexStaging[x.2.1]? = some stage ∧ stage.2[x.1]? = some x.2.2

/-- The record is what the peer is known to have. -/
def Viewed (a : Actor Id Path) (x : Advert Id Path) : Prop :=
  ∃ map, a.peerIndex[x.2.1]? = some map ∧ map[x.1]? = some x.2.2

/-- The record is to be dealt with. -/
def Owed (hand : List (Advert Id Path)) (a : Actor Id Path) (x : Advert Id Path) : Prop :=
  x ∈ hand ∨ a.Waits x ∨ a.Staged x

/-- The record is somewhere. -/
def Stored (hand : List (Advert Id Path)) (a : Actor Id Path) (x : Advert Id Path) : Prop :=
  Owed hand a x ∨ a.Viewed x ∨ (x.2.1, x.1, x.2.2) ∈ a.skipped

/-- Nothing is lost with the record, wherever it is: the index has caught up, the loss is on
record, or the sender is gone. -/
def Excused (a : Actor Id Path) (x : Advert Id Path) : Prop :=
  (∃ mine, a.files[x.1]? = some mine ∧ VClock.Le x.2.2.vv mine.vv) ∨
  .dropped x.1 x.2.1 x.2.2 ∈ a.journal ∨
  a.peers.contains x.2.1 = false

/-- Nothing is lost with the record: it is excused, or a record that covers it is still to be
dealt with, or it is a tombstone that was skipped. -/
def Settled (hand : List (Advert Id Path)) (a : Actor Id Path) (x : Advert Id Path) : Prop :=
  a.Excused x ∨
  (∃ y, Owed hand a y ∧ y.1 = x.1 ∧ VClock.Le x.2.2.vv y.2.2.vv) ∨
  (a.files[x.1]? = none ∧ x.2.2.deleted = true ∧ (x.2.1, x.1, x.2.2) ∈ a.skipped)

/-- No pull of `rel` is under way. -/
def Quiet (a : Actor Id Path) (rel : Path) : Prop :=
  a.pendingPulls[rel]? = none ∧ a.deferred[rel]? = none ∧
    (∀ sender record, Task.pull rel sender record ∉ a.tasks) ∧
    ∀ sender record bytes, Event.pullStaged rel sender record (some bytes) ∉ a.inbox

/-- The vector of the own record, empty if there is none. -/
def vvOf (a : Actor Id Path) (rel : Path) : VClock Id :=
  match a.files[rel]? with
  | some record => record.vv
  | none => ∅

end Actor

/-! ## The books on the peers -/

/-- What is on record of peers, and who is waited for, is about connected peers. -/
structure BookedIn (peers : Map Id Peer) (peerRoles : Map Id UInt8)
    (indexReceived : Map Id Unit) (indexStaging : Map Id (Nat × Map Path (FileRecord Id)))
    (locks : LockTable Id Path) : Prop where
  roles : ∀ id, peerRoles.contains id = true → peers.contains id = true
  received : ∀ id, indexReceived.contains id = true → peers.contains id = true
  staging : ∀ id, indexStaging.contains id = true → peers.contains id = true
  voters : ∀ rel v, locks.WaitsFor rel v → peers.contains v = true

def Actor.Booked (a : Actor Id Path) : Prop :=
  BookedIn a.peers a.peerRoles a.indexReceived a.indexStaging a.locks

/-! ## The kinds of change -/

/-- A turn: its outside, the vote it delivers, and what is assumed of it. -/
structure Ctx (Id Path : Type) [LinearOrder Id] [LinearOrder Path] where
  host : Host Id Path
  env : Env Path
  got : Id → Path → Prop
  /-- The request that is granted, with our record of the path. -/
  asks : Id → Path → Option (FileRecord Id) → Prop
  /-- A connection may come up. -/
  joining : Prop
  /-- The store has the bytes of every manifest that was made. -/
  storeOk : Prop
  /-- A tombstone at an unlock is committed under the lease. -/
  leasedUnlock : Prop
  /-- A path becomes self-held only while no pull of it is under way. -/
  quietWins : Prop
  /-- The books on the peers may change. -/
  peering : Prop
  /-- A peer that is dropped has nothing on record. -/
  tidy : Prop
  /-- Only the handlers that make the file read-only again end a lease of ours. -/
  clamps : Prop

/-- The bytes are the content of the manifest. -/
def Ctx.Backs (c : Ctx Id Path) (manifest : ManifestRef) (bytes : Bytes) : Prop :=
  c.storeOk → c.host.content manifest = some bytes

/-- Known bytes are in a quarantine copy, or the index has them. -/
def Actor.KnownOk (c : Ctx Id Path) (a : Actor Id Path) : Prop :=
  ∀ (rel : Path) (bytes : Bytes), a.known[rel]? = some bytes →
    (∃ name : CopyName Path, a.conflicts[name]? = some bytes) ∨
    ∃ record : FileRecord Id, a.files[rel]? = some record ∧ c.Backs record.manifest bytes

/-- Records move between the hand, the pull pipeline and the indexes of the peers. -/
structure Shift (c : Ctx Id Path) (hand : List (Advert Id Path)) (a : Actor Id Path)
    (hand' : List (Advert Id Path)) (a' : Actor Id Path) : Prop where
  peers : ∀ id, a'.peers.contains id = true → a.peers.contains id = true
  skipped : ∀ s ∈ a.skipped, s ∈ a'.skipped
  stored : ∀ x, a'.Stored hand' x → a.Stored hand x
  settled : ∀ x, a.Owed hand x → a'.Settled hand' x
  quiet : c.quietWins → ∀ p, a.locks.isHeldByMe p = true → a.Quiet p → a'.Quiet p
  staged : ∀ (rel : Path) (d : DeferredApply Id) (bytes : Bytes),
    a'.deferred[rel]? = some d → d.staged = some bytes →
    a.deferred[rel]? = some d ∨ c.Backs d.record.manifest bytes
  cap : a.pendingPulls.size ≤ maxConcurrentPulls → a'.pendingPulls.size ≤ maxConcurrentPulls

/-- A peer's record may be applied now. -/
structure MayApply (c : Ctx Id Path) (hand : List (Advert Id Path)) (a : Actor Id Path)
    (rel : Path) (sender : Id) (record : FileRecord Id) (staged : Option Bytes) : Prop where
  mem : (rel, sender, record) ∈ hand
  news : a.isCurrent rel record = false
  leaseless : c.quietWins → a.locks.isHeldByMe rel = false
  content : ∀ bytes, staged = some bytes → c.Backs record.manifest bytes

/-- The vector of a record that is committed: one step up from the own one, or, where the
own copy is asserted against a concurrent one, from both. -/
def NextVv (hand : List (Advert Id Path)) (a : Actor Id Path) (kind : CommitKind) (rel : Path)
    (record : FileRecord Id) : Prop :=
  (kind ≠ .reassert ∧ record.vv = VClock.inc (a.vvOf rel) a.me) ∨
  ∃ mine x, kind = .reassert ∧ x ∈ hand ∧ x.1 = rel ∧ a.files[rel]? = some mine ∧
    record = { mine with
      vv := VClock.inc (VClock.merge mine.vv x.2.2.vv) a.me, updatedAtMs := record.updatedAtMs }

/-- A record of our own may be committed now. -/
structure MayCommit (c : Ctx Id Path) (hand : List (Advert Id Path)) (a : Actor Id Path)
    (kind : CommitKind) (rel : Path) (record : FileRecord Id) : Prop where
  licence : kind = .import ∨ kind = .reassert ∨ a.locks.isHeldByMe rel = true ∨
    kind = .tombstone ∧ ¬ c.leasedUnlock
  vv : NextVv hand a kind rel record
  known : kind ≠ .reassert → a.known[rel]? = none

/-- What may become of the lock table. -/
structure MayLock (c : Ctx Id Path) (a : Actor Id Path) (locks : LockTable Id Path) : Prop where
  me : locks.me = a.locks.me
  quiet : c.quietWins → ∀ p, locks.isHeldByMe p = true → a.locks.isHeldByMe p = false → a.Quiet p
  grants : ∀ p v, v ∈ locks.grantsOf p → v ∈ a.locks.grantsOf p ∨ c.got v p
  waits : ∀ p v, locks.WaitsFor p v → a.locks.WaitsFor p v ∨ a.peers.contains v = true
  ends : c.clamps → ∀ p, a.locks.isHeldByMe p = true → locks.isHeldByMe p = false →
    a.opened.contains p = false

/-- What may become of the books on the peers. -/
structure MayBook (c : Ctx Id Path) (a a' : Actor Id Path) : Prop where
  still : ¬ c.peering → a'.peers = a.peers ∧ a'.peerRoles = a.peerRoles ∧
    a'.indexReceived = a.indexReceived ∧ a'.indexStaging = a.indexStaging
  booked : c.tidy → a.Booked → a'.Booked

theorem MayBook.of_peering {c : Ctx Id Path} {a a' : Actor Id Path} (hp : c.peering)
    (hb : c.tidy → a.Booked → a'.Booked) : MayBook c a a' :=
  ⟨fun h => absurd hp h, hb⟩

theorem MayBook.refl {c : Ctx Id Path} {a : Actor Id Path} : MayBook c a a :=
  ⟨fun _ => ⟨rfl, rfl, rfl, rfl⟩, fun _ h => h⟩

/-- One small change. -/
inductive Micro (c : Ctx Id Path) :
    List (Advert Id Path) × Actor Id Path → List (Advert Id Path) × Actor Id Path → Prop
  /-- Parts of the state that nothing here depends on. -/
  | misc {hand a} history unapplied pulling
      pendingAcquires pendingUnlocks myWaits interest autolockIdle autolockPending
      ignoreRules heldLocal muted busy recheck disk replies :
      Micro c (hand, a) (hand, { a with
        history := history, unapplied := unapplied, pulling := pulling
        pendingAcquires := pendingAcquires, pendingUnlocks := pendingUnlocks
        myWaits := myWaits, interest := interest, autolockIdle := autolockIdle
        autolockPending := autolockPending, ignoreRules := ignoreRules
        heldLocal := heldLocal, muted := muted, busy := busy, recheck := recheck
        disk := disk, replies := replies })
  /-- The clock catches up with one that was heard. -/
  | hear {hand a} (lamport : U64) :
      Micro c (hand, a) (hand, { a with lamport := max a.lamport lamport })
  | tick {hand a} : Micro c (hand, a) (hand, a.tick)
  /-- A setting, other than those that decide whether files are read-only. -/
  | config {hand a} (config : SessionConfig)
      (hc : config.enforceReadonly = a.config.enforceReadonly) :
      Micro c (hand, a) (hand, { a with config })
  | opened {hand a} (opened : Map Path Unit)
      (ho : ∀ p, opened.contains p = true →
        a.opened.contains p = true ∨ a.locks.isHeldByMe p = true) :
      Micro c (hand, a) (hand, { a with opened })
  | loss {hand a} (es : List (Effect Id Path)) (he : ∀ e ∈ es, e.isLoss = true) :
      Micro c (hand, a) (hand, { a with journal := a.journal ++ es })
  | replaced {hand a} (rel : Path) : Micro c (hand, a) (hand, a.noteReplaced c.host rel)
  | copies {hand a} (conflicts : Map (CopyName Path) Bytes) (known : Map Path Bytes)
      (hk : a.KnownOk c → ({ a with conflicts, known } : Actor Id Path).KnownOk c) :
      Micro c (hand, a) (hand, { a with conflicts, known })
  | spawn {hand a} (t : Task Id Path) (ht : t.isPull = false) :
      Micro c (hand, a) (hand, a.spawn t)
  | shift {hand a hand'} pendingPulls pullBacklog deferred tasks peerIndex indexStaging skipped
      peers
      (hs : Shift c hand a hand' { a with
        pendingPulls := pendingPulls, pullBacklog := pullBacklog, deferred := deferred
        tasks := tasks, peerIndex := peerIndex, indexStaging := indexStaging
        skipped := skipped, peers := peers })
      (hb : MayBook c a { a with indexStaging := indexStaging, peers := peers }) :
      Micro c (hand, a) (hand', { a with
        pendingPulls := pendingPulls, pullBacklog := pullBacklog, deferred := deferred
        tasks := tasks, peerIndex := peerIndex, indexStaging := indexStaging
        skipped := skipped, peers := peers })
  | book {hand a} (peerRoles : Map Id UInt8) (indexReceived : Map Id Unit)
      (hb : MayBook c a { a with peerRoles, indexReceived }) :
      Micro c (hand, a) (hand, { a with peerRoles, indexReceived })
  | applied {hand a} (rel : Path) (sender : Id) (record : FileRecord Id)
      (staged : Option Bytes) (hm : MayApply c hand a rel sender record staged) :
      Micro c (hand, a) (hand, a.commitApplied rel record staged)
  | committed {hand a} (kind : CommitKind) (rel : Path) (record : FileRecord Id)
      (hm : MayCommit c hand a kind rel record) :
      Micro c (hand, a) (hand, a.commitLocal kind rel record)
  | locks {hand a} (locks : LockTable Id Path) (hl : MayLock c a locks) :
      Micro c (hand, a) (hand, { a with locks })
  | send {hand a} (msgs : List (Id × Msg Id Path)) (hm : ∀ m ∈ msgs, m.2.isPlain = true) :
      Micro c (hand, a) (hand, { a with sent := a.sent ++ msgs })
  | granted {hand a} (rel : Path) (requester : Id) (ha : c.asks requester rel a.files[rel]?) :
      Micro c (hand, a) (hand, a.note (.granted rel requester a.files[rel]?))
  | vote {hand a} (rel : Path) (requester : Id) (record : Option (FileRecord Id))
      (hg : .granted rel requester record ∈ a.journal) :
      Micro c (hand, a) (hand, { a with sent := a.sent ++ [(requester, .lock (.lockGrant rel))] })
  | acquired {hand a} (rel : Path) (voters : Finset Id)
      (hv : ∀ v ∈ voters, v ∈ a.locks.grantsOf rel ∨ c.got v rel) :
      Micro c (hand, a) (hand, a.note (.acquired rel voters a.files[rel]?))
  | indexed {hand a} (sender : Id) (files : List (Path × FileRecord Id))
      (leases : List (LeaseInfo Id Path)) (hp : c.peering) :
      Micro c (hand, a) (hand, a.note (.indexed sender files leases))
  | join {hand a} (id : Id) (peer : Peer) (hid : id ≠ a.me) (hp : c.peering)
      (hj : c.joining) :
      Micro c (hand, a) (hand, a.join c.host c.env id peer)

/-- A chain of small changes. -/
abbrev Steps (c : Ctx Id Path) :
    List (Advert Id Path) × Actor Id Path → List (Advert Id Path) × Actor Id Path → Prop :=
  Relation.ReflTransGen (Micro c)

/-! ## What every small change keeps -/

/-- What handlers rely on between any two small changes. -/
structure Sound (c : Ctx Id Path) (a : Actor Id Path) : Prop where
  me : a.locks.me = a.me
  peers : a.peers.contains a.me = false
  quiet : c.quietWins → ∀ p, a.locks.isHeldByMe p = true → a.Quiet p
  staged : ∀ (rel : Path) (d : DeferredApply Id) (bytes : Bytes),
    a.deferred[rel]? = some d → d.staged = some bytes →
    c.Backs d.record.manifest bytes
  booked : c.tidy → a.Booked
  opened : c.clamps → ∀ p, a.opened.contains p = true → a.locks.isHeldByMe p = true
  readonly : c.clamps → a.config.enforceReadonly = true
  modes : c.clamps → ∀ p, c.env.io.setMode p = true

/-- A property of the state that every small change keeps holds at the end of the chain. -/
theorem Steps.induct {c : Ctx Id Path} {P : List (Advert Id Path) → Actor Id Path → Prop}
    (hstep : ∀ {hand a hand' a'}, Micro c (hand, a) (hand', a') → P hand a → P hand' a')
    {s t : List (Advert Id Path) × Actor Id Path} (h : Steps c s t) (h₀ : P s.1 s.2) :
    P t.1 t.2 := by
  induction h with
  | refl => exact h₀
  | tail _ hm ih => exact hstep hm ih

namespace Micro

variable {c : Ctx Id Path} {hand hand' : List (Advert Id Path)} {a a' : Actor Id Path}

theorem me_eq (h : Micro c (hand, a) (hand', a')) : a'.me = a.me := by
  cases h with
  | replaced rel =>
      unfold Actor.noteReplaced
      split <;> rfl
  | _ => rfl

/-- The journal only grows. -/
theorem journal_extends (h : Micro c (hand, a) (hand', a')) : a.journal <+: a'.journal := by
  cases h with
  | loss es _ => exact List.prefix_append _ _
  | replaced rel =>
      unfold Actor.noteReplaced
      split
      · exact List.prefix_rfl
      · exact List.prefix_append _ _
  | applied rel sender record staged hm => exact List.prefix_append _ _
  | committed kind rel record hm => exact List.prefix_append _ _
  | granted rel requester ha => exact List.prefix_append _ _
  | acquired rel voters hv => exact List.prefix_append _ _
  | indexed sender files leases hp => exact List.prefix_append _ _
  | tick => exact List.prefix_append _ _
  | _ => exact List.prefix_rfl

/-- A table that gains no lease keeps the paths we hold quiet. -/
theorem quiet_of_mayLock {locks : LockTable Id Path} (hl : MayLock c a locks)
    (h : c.quietWins → ∀ p, a.locks.isHeldByMe p = true → a.Quiet p) (hq : c.quietWins)
    (p : Path) (hp : locks.isHeldByMe p = true) : a.Quiet p := by
  cases hold : a.locks.isHeldByMe p with
  | true => exact h hq p hold
  | false => exact hl.quiet hq p hp hold

/-- A change of the parts that `Sound` does not speak of. -/
theorem sound_of_eq (hs : Sound c a) (hme : a'.me = a.me) (hlocks : a'.locks = a.locks)
    (hpeers : a'.peers = a.peers) (hroles : a'.peerRoles = a.peerRoles)
    (hreceived : a'.indexReceived = a.indexReceived)
    (hstaging : a'.indexStaging = a.indexStaging) (hopened : a'.opened = a.opened)
    (hconfig : a'.config = a.config) (hquiet : ∀ p, a.Quiet p → a'.Quiet p)
    (hdeferred : a'.deferred = a.deferred) : Sound c a' := by
  refine ⟨?_, ?_, ?_, ?_, ?_, ?_, ?_, hs.modes⟩
  · rw [hlocks, hme]
    exact hs.me
  · rw [hpeers, hme]
    exact hs.peers
  · intro hq p hp
    rw [hlocks] at hp
    exact hquiet p (hs.quiet hq p hp)
  · rw [hdeferred]
    exact hs.staged
  · intro ht
    unfold Actor.Booked
    rw [hpeers, hroles, hreceived, hstaging, hlocks]
    exact hs.booked ht
  · rw [hopened, hlocks]
    exact hs.opened
  · rw [hconfig]
    exact hs.readonly

theorem sound (h : Micro c (hand, a) (hand', a')) (hs : Sound c a) : Sound c a' := by
  cases h with
  | replaced rel =>
      unfold Actor.noteReplaced
      split
      · exact hs
      · exact sound_of_eq hs rfl rfl rfl rfl rfl rfl rfl rfl (fun _ h => h) rfl
  | config config hc =>
      exact ⟨hs.me, hs.peers, hs.quiet, hs.staged, hs.booked, hs.opened,
        fun hcl => hc.trans (hs.readonly hcl), hs.modes⟩
  | opened opened ho =>
      refine ⟨hs.me, hs.peers, hs.quiet, hs.staged, hs.booked, ?_, hs.readonly, hs.modes⟩
      intro hc p hp
      rcases ho p hp with hold | hheld
      · exact hs.opened hc p hold
      · exact hheld
  | spawn t ht =>
      refine sound_of_eq hs rfl rfl rfl rfl rfl rfl rfl rfl ?_ rfl
      rintro p ⟨hjob, hdef, htask, hin⟩
      refine ⟨hjob, hdef, fun sender record hmem => ?_, hin⟩
      rcases List.mem_append.mp hmem with hmem | hmem
      · exact htask _ _ hmem
      · rw [List.mem_singleton] at hmem
        rw [← hmem] at ht
        cases ht
  | shift _ _ _ _ _ _ _ _ hsh hb =>
      refine ⟨hs.me, ?_, fun hq p hp => hsh.quiet hq p hp (hs.quiet hq p hp),
        fun rel d bytes hd hb => ?_, fun ht => hb.booked ht (hs.booked ht), hs.opened,
        hs.readonly, hs.modes⟩
      · by_contra hin
        have hold := hsh.peers _ (by simpa using hin)
        exact absurd (hs.peers.symm.trans hold) (by simp)
      · rcases hsh.staged rel d bytes hd hb with hold | hok
        · exact hs.staged rel d bytes hold hb
        · exact hok
  | book peerRoles indexReceived hb =>
      exact ⟨hs.me, hs.peers, hs.quiet, hs.staged, fun ht => hb.booked ht (hs.booked ht),
        hs.opened, hs.readonly, hs.modes⟩
  | locks locks hl =>
      refine ⟨hl.me.trans hs.me, hs.peers, fun hq p hp => quiet_of_mayLock hl hs.quiet hq p hp,
        hs.staged, fun ht => ?_, fun hc p hp => ?_, hs.readonly, hs.modes⟩
      · have hold := hs.booked ht
        refine ⟨hold.roles, hold.received, hold.staging, fun rel v hv => ?_⟩
        rcases hl.waits rel v hv with hv | hv
        · exact hold.voters rel v hv
        · exact hv
      · by_contra hno
        have hend := hl.ends hc p (hs.opened hc p hp) (by simpa using hno)
        exact absurd (hend.symm.trans hp) (by simp)
  | join id peer hid hp hj =>
      refine ⟨hs.me, ?_, hs.quiet, hs.staged, fun ht => ?_, hs.opened, hs.readonly, hs.modes⟩
      · have hp := hs.peers
        unfold Actor.join
        simp only [Std.ExtTreeMap.contains_insert, hp, Bool.or_false]
        simpa using hid
      · have hold := hs.booked ht
        have hin : ∀ q, a.peers.contains q = true →
            (a.peers.insert id peer).contains q = true := by
          intro q hq
          rw [Std.ExtTreeMap.contains_insert, hq, Bool.or_true]
        exact ⟨fun q hq => hin q (hold.roles q hq), fun q hq => hin q (hold.received q hq),
          fun q hq => hin q (hold.staging q hq), fun rel v hv => hin v (hold.voters rel v hv)⟩
  | _ => exact sound_of_eq hs rfl rfl rfl rfl rfl rfl rfl rfl (fun _ h => h) rfl

end Micro

theorem Steps.sound {c : Ctx Id Path} {s t : List (Advert Id Path) × Actor Id Path}
    (h : Steps c s t) (hs : Sound c s.2) : Sound c t.2 :=
  h.induct (P := fun _ a => Sound c a) Micro.sound hs

theorem Steps.journal_extends {c : Ctx Id Path} {s t : List (Advert Id Path) × Actor Id Path}
    (h : Steps c s t) : s.2.journal <+: t.2.journal :=
  h.induct (P := fun _ a => s.2.journal <+: a.journal)
    (fun hm ih => ih.trans hm.journal_extends) List.prefix_rfl

theorem Steps.mem_journal {c : Ctx Id Path} {s t : List (Advert Id Path) × Actor Id Path}
    (h : Steps c s t) {e : Effect Id Path} (he : e ∈ s.2.journal) : e ∈ t.2.journal :=
  h.journal_extends.subset he

theorem Steps.me_eq {c : Ctx Id Path} {s t : List (Advert Id Path) × Actor Id Path}
    (h : Steps c s t) : t.2.me = s.2.me :=
  h.induct (P := fun _ a => a.me = s.2.me) (fun hm ih => hm.me_eq.trans ih) rfl

end Tazamun
