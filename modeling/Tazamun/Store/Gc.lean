import Tazamun.Daemon.Run
import Tazamun.Lib.Run

set_option autoImplicit false

/-! # The blob store and its garbage collection

The chunks of every version a node keeps are blobs in one store, named by their hashes. The
store sweeps: it removes each blob that is neither in the protected set (`Transfer.protected`)
nor held by a temp tag. The protected set is recomputed from the persisted state by a task of
its own (`start_gc`, `compute_live`, `set_protected`), which `persist` starts after a commit,
or asks to be started again when one is running already (`gc_dirty`).

`Keeper` is the actor together with the store. Its steps are the commits of the actor that
change `files`, `history` or `pulling` (the functions of the daemon's model), the steps of the
publish, pull and restore tasks on the store, the steps of the refresh, and the sweeps. A
refresh looks at one manifest at a time, so that anything can happen between two of them. The
tags of a task are dropped by a step of their own: the code drops them right before or right
after the commit, and a sweep runs on another thread.
-/

namespace Tazamun

variable {Id Path : Type} [LinearOrder Id] [LinearOrder Path]

/-- The chunk list a blob decodes to. Blobs are content-addressed: it depends on the hash. -/
abbrev Decoded : Type := Nat → Option (List ChunkRef)

/-- The hashes a manifest refers to: its chunks, and the blob that lists them. -/
def ManifestRef.hashes (listed : Decoded) : ManifestRef → List Nat
  | .inline refs => refs.map ChunkRef.hash
  | .blob hash => hash :: ((listed hash).getD []).map ChunkRef.hash

/-- The manifests of the index, the history and the pull targets, as `compute_live` chains
them. -/
def Actor.manifests (a : Actor Id Path) : List ManifestRef :=
  a.files.toList.map (fun e => e.2.manifest) ++
    a.history.toList.flatMap (fun e => e.2.map VersionEntry.manifest) ++
    a.pulling.toList.map (fun e => e.2.manifest)

/-- A running `compute_live`: the manifests still to look at, the set so far, the snapshot it
works on, and the blobs it did not find in the store. -/
structure Refresh where
  todo : List ManifestRef
  live : Finset Nat
  snapshot : List ManifestRef
  missed : List Nat

/-- The body of the loop of `compute_live`, for one manifest. -/
def Refresh.look (listed : Decoded) (store : Finset Nat) (r : Refresh) (m : ManifestRef)
    (todo : List ManifestRef) : Refresh :=
  match m with
  | .inline refs => { r with todo, live := r.live ∪ (refs.map ChunkRef.hash).toFinset }
  | .blob hash =>
      if hash ∈ store then
        match listed hash with
        | some refs =>
            { r with todo, live := insert hash r.live ∪ (refs.map ChunkRef.hash).toFinset }
        | none => { r with todo, live := insert hash r.live }
      else { r with todo, live := insert hash r.live, missed := hash :: r.missed }

structure Keeper (Id Path : Type) [LinearOrder Id] [LinearOrder Path] where
  actor : Actor Id Path
  /-- The blobs in the store. -/
  store : Finset Nat
  /-- The snapshot that `set_protected` installed. -/
  guarded : Finset Nat
  /-- The live temp tags, each with the task that holds it. -/
  tags : List (Nat × Nat)
  refresh : Option Refresh
  gcRunning : Bool
  gcDirty : Bool

namespace Keeper

/-- After a start: the persisted state, what the store holds, and an empty protected set. -/
def boot (actor : Actor Id Path) (store : Finset Nat) : Keeper Id Path :=
  { actor, store, guarded := ∅, tags := [], refresh := none, gcRunning := false,
    gcDirty := false }

/-! ## The refresh -/

def startGc (k : Keeper Id Path) : Keeper Id Path :=
  if k.gcRunning then k
  else
    { k with
      gcRunning := true
      refresh := some
        { todo := k.actor.manifests, live := ∅, snapshot := k.actor.manifests, missed := [] } }

def persist (k : Keeper Id Path) : Keeper Id Path :=
  if k.gcRunning then { k with gcDirty := true } else k.startGc

/-- The task goes on by one manifest. -/
def look (listed : Decoded) (k : Keeper Id Path) : Option (Keeper Id Path) :=
  match k.refresh with
  | none => none
  | some r =>
      match r.todo with
      | [] => none
      | m :: todo => some { k with refresh := some (r.look listed k.store m todo) }

/-- The end of the task: `set_protected` when all manifests were looked at, and nothing if
the store failed it (`ok` false). -/
def setProtected (k : Keeper Id Path) (ok : Bool) : Option (Keeper Id Path) :=
  match k.refresh with
  | none => none
  | some r =>
      if ok then
        match r.todo with
        | [] => some { k with guarded := r.live, refresh := none }
        | _ :: _ => none
      else some { k with refresh := none }

/-- The actor reads `GcDone`. -/
def onGcDone (k : Keeper Id Path) : Option (Keeper Id Path) :=
  match k.gcRunning, k.refresh with
  | true, none =>
      let dirty := k.gcDirty
      let k := { k with gcRunning := false, gcDirty := false }
      some (if dirty then k.startGc else k)
  | _, _ => none

/-! ## Tasks and sweeps -/

/-- `add_bytes(..).temp_tag()`. -/
def addBytes (k : Keeper Id Path) (task hash : Nat) : Keeper Id Path :=
  { k with store := insert hash k.store, tags := (task, hash) :: k.tags }

/-- `remote().fetch`. -/
def fetch (k : Keeper Id Path) (hash : Nat) : Keeper Id Path :=
  { k with store := insert hash k.store }

/-- `tags().temp_tag`. -/
def tempTag (k : Keeper Id Path) (task hash : Nat) : Keeper Id Path :=
  { k with tags := (task, hash) :: k.tags }

/-- The result of a task is dropped, and its tags with it. -/
def dropTags (k : Keeper Id Path) (task : Nat) : Keeper Id Path :=
  { k with tags := k.tags.filter (fun t => t.1 ≠ task) }

/-- Something holds the blob. -/
def holds (k : Keeper Id Path) (hash : Nat) : Bool :=
  decide (hash ∈ k.guarded) || k.tags.any (fun t => decide (t.2 = hash))

/-- The store's own collection. -/
def sweep (k : Keeper Id Path) : Keeper Id Path :=
  { k with store := k.store.filter (fun hash => k.holds hash = true) }

/-! ## Commits -/

/-- The commit of `on_publish_done`, which persists nothing when the content is the same. -/
def publishDone (env : Env Path) (k : Keeper Id Path) (rel : Path) (p : Published)
    (cause : PublishCause) : Keeper Id Path :=
  let unchanged :=
    match k.actor.files[rel]? with
    | some r => !r.deleted && decide (r.manifest = p.manifest) && decide (r.size = p.size)
    | none => false
  let k := { k with actor := k.actor.commitPublished env rel p cause }
  if unchanged then k else k.persist

/-- `start_pull`. -/
def startPull (k : Keeper Id Path) (rel : Path) (sender : Id) (record : FileRecord Id) :
    Keeper Id Path :=
  let known := decide (k.actor.pulling[rel]? = some record)
  let k := { k with actor := k.actor.startPull rel sender record }
  if known then k else k.persist

/-- The commit of `apply_remote`; on a failure (`ok` false) the old version stays pushed onto
the history, and nothing is persisted. -/
def applyRemote (k : Keeper Id Path) (rel : Path) (record : FileRecord Id)
    (staged : Option Bytes) (ok : Bool) : Keeper Id Path :=
  let k := { k with actor := k.actor.pushHistory rel k.actor.files[rel]? }
  if ok then persist { k with actor := k.actor.commitApplied rel record staged } else k

/-- The commit of `on_restore_staged`. -/
def restoreStaged (env : Env Path) (k : Keeper Id Path) (rel : Path) (entry : VersionEntry Id)
    (bytes : Bytes) : Keeper Id Path :=
  persist { k with actor := k.actor.commitRestored env rel entry bytes }

/-- `commit_tombstone`, for a live record. -/
def commitTombstone (env : Env Path) (k : Keeper Id Path) (rel : Path) : Keeper Id Path :=
  let live := FileRecord.isLive k.actor.files[rel]?
  let k := { k with actor := k.actor.commitTombstone env rel }
  if live then k.persist else k

/-- `on_concurrent` at the higher endpoint id: the own record under a new clock. -/
def reassert (env : Env Path) (k : Keeper Id Path) (rel : Path) (record : FileRecord Id) :
    Keeper Id Path :=
  match k.actor.files[rel]? with
  | none => k
  | some mine =>
      let vv := VClock.inc (VClock.merge mine.vv record.vv) k.actor.me
      persist { k with
        actor := k.actor.tick.commitLocal .reassert rel { mine with vv, updatedAtMs := env.nowMs } }

/-- The `tag` and `pin` requests. -/
def tagVersion (k : Keeper Id Path) (rel : Path) (n : Nat) (name : Option String) :
    Keeper Id Path :=
  match k.actor.history.tag rel n name with
  | none => k
  | some history => persist { k with actor := { k.actor with history } }

def pinVersion (k : Keeper Id Path) (rel : Path) (n : Nat) (pinned : Bool) : Keeper Id Path :=
  match k.actor.history.setPinned rel n pinned with
  | none => k
  | some history => persist { k with actor := { k.actor with history } }

/-- The start drops the pull targets that are satisfied. -/
def clearPulling (k : Keeper Id Path) : Keeper Id Path :=
  persist { k with
    actor := { k.actor with
      pulling := k.actor.pulling.filter fun rel target => !k.actor.isCurrent rel target } }

/-- Anything else the actor does: the three tables stay as they are. -/
def otherTurn (k : Keeper Id Path) (b : Actor Id Path) : Keeper Id Path :=
  { k with
    actor := { b with
      files := k.actor.files, history := k.actor.history, pulling := k.actor.pulling } }

end Keeper

/-! ## Steps -/

/-- What can happen next. -/
inductive KeeperAct (Id Path : Type) [LinearOrder Id] [LinearOrder Path] where
  | publishDone (env : Env Path) (rel : Path) (p : Published) (cause : PublishCause)
  | startPull (rel : Path) (sender : Id) (record : FileRecord Id)
  | applyRemote (rel : Path) (record : FileRecord Id) (staged : Option Bytes) (ok : Bool)
  | restoreStaged (env : Env Path) (rel : Path) (entry : VersionEntry Id) (bytes : Bytes)
  | commitTombstone (env : Env Path) (rel : Path)
  | reassert (env : Env Path) (rel : Path) (record : FileRecord Id)
  | tagVersion (rel : Path) (n : Nat) (name : Option String)
  | pinVersion (rel : Path) (n : Nat) (pinned : Bool)
  | clearPulling
  /-- `persist` for another part of the state. -/
  | persist
  | otherTurn (b : Actor Id Path)
  | addBytes (task hash : Nat)
  | fetch (hash : Nat)
  | tempTag (task hash : Nat)
  | dropTags (task : Nat)
  /-- `GcTick`, or the `gc` request. -/
  | startGc
  | look
  | setProtected (ok : Bool)
  | gcDone
  | sweep

def Keeper.step (listed : Decoded) (k : Keeper Id Path) :
    KeeperAct Id Path → Option (Keeper Id Path)
  | .publishDone env rel p cause => some (k.publishDone env rel p cause)
  | .startPull rel sender record => some (k.startPull rel sender record)
  | .applyRemote rel record staged ok => some (k.applyRemote rel record staged ok)
  | .restoreStaged env rel entry bytes => some (k.restoreStaged env rel entry bytes)
  | .commitTombstone env rel => some (k.commitTombstone env rel)
  | .reassert env rel record => some (k.reassert env rel record)
  | .tagVersion rel n name => some (k.tagVersion rel n name)
  | .pinVersion rel n pinned => some (k.pinVersion rel n pinned)
  | .clearPulling => some k.clearPulling
  | .persist => some k.persist
  | .otherTurn b => some (k.otherTurn b)
  | .addBytes task hash => some (k.addBytes task hash)
  | .fetch hash => some (k.fetch hash)
  | .tempTag task hash => some (k.tempTag task hash)
  | .dropTags task => some (k.dropTags task)
  | .startGc => some k.startGc
  | .look => k.look listed
  | .setProtected ok => k.setProtected ok
  | .gcDone => k.onGcDone
  | .sweep => some k.sweep

end Tazamun
