import Tazamun.Sync.VClock

set_option autoImplicit false

/-! # File records and their history

`FileRecord` (`proto.rs`) is what a node knows and advertises about a path, `VersionEntry`
(`state.rs`) a replaced version it keeps, and `diff` (`sync/index.rs`) the comparison of a
peer's records with the own ones. Chunk hashes are numbers: how they are computed is the
business of the chunker and the hash function.
-/

namespace Tazamun

/-- One content-defined chunk of a file. -/
structure ChunkRef where
  hash : Nat
  len : Nat
deriving DecidableEq

/-- The chunk list of a file, or the hash of a blob that holds it. -/
inductive ManifestRef where
  | inline (chunks : List ChunkRef)
  | blob (hash : Nat)
deriving DecidableEq

def ManifestRef.empty : ManifestRef := .inline []

/-- Everything a peer advertises about one path. -/
structure FileRecord (Id : Type) [Ord Id] where
  size : U64
  manifest : ManifestRef
  vv : VClock Id
  deleted : Bool
  updatedAtMs : U64

variable {Id Path : Type} [LinearOrder Id] [LinearOrder Path]

instance : DecidableEq (FileRecord Id) := fun r r' =>
  decidable_of_iff (r.size = r'.size ∧ r.manifest = r'.manifest ∧ r.vv = r'.vv ∧
      r.deleted = r'.deleted ∧ r.updatedAtMs = r'.updatedAtMs) (by
    cases r
    cases r'
    simp)

namespace FileRecord

def tombstone (vv : VClock Id) (tsMs : U64) : FileRecord Id :=
  { size := 0, manifest := .empty, vv, deleted := true, updatedAtMs := tsMs }

/-- The path has a live record. -/
def isLive (r : Option (FileRecord Id)) : Bool :=
  match r with
  | some r => !r.deleted
  | none => false

end FileRecord

/-! ## History (`versions.rs`) -/

structure VersionEntry (Id : Type) [Ord Id] where
  manifest : ManifestRef
  vv : VClock Id
  tsMs : U64
  size : U64
  tag : Option String
  pinned : Bool

inductive NodeRole where
  | editor
  | viewer
  | archive
deriving DecidableEq

def NodeRole.canEdit : NodeRole → Bool
  | .editor => true
  | .viewer => false
  | .archive => false

def historyKeep : Nat := 5
def archiveHistoryKeep : Nat := 25

/-- The number of unpinned versions kept per path. -/
def effectiveDepth (historyDepth : Nat) (role : NodeRole) : Nat :=
  if 0 < historyDepth then historyDepth
  else
    match role with
    | .archive => archiveHistoryKeep
    | _ => historyKeep

/-- Keeps the newest `depth` versions and every pinned one; `idx` versions have been seen. -/
def pruneFrom (depth : Nat) : Nat → List (VersionEntry Id) → List (VersionEntry Id)
  | _, [] => []
  | idx, e :: es =>
      if idx < depth || e.pinned then e :: pruneFrom depth (idx + 1) es
      else pruneFrom depth (idx + 1) es

def pruneToDepth (entries : List (VersionEntry Id)) (depth : Nat) : List (VersionEntry Id) :=
  pruneFrom depth 0 entries

abbrev History (Id Path : Type) [Ord Id] [Ord Path] : Type := Map Path (List (VersionEntry Id))

namespace History

/-- Pushes the record being replaced onto the path's history and prunes it. Tombstones carry
no bytes and are skipped. -/
def push (history : History Id Path) (depth : Nat) (path : Path) (replaced : FileRecord Id) :
    History Id Path :=
  if replaced.deleted then history
  else
    let entry : VersionEntry Id :=
      { manifest := replaced.manifest, vv := replaced.vv, tsMs := replaced.updatedAtMs,
        size := replaced.size, tag := none, pinned := false }
    history.insert path (pruneToDepth (entry :: history[path]?.getD []) depth)

def entry (history : History Id Path) (path : Path) (n : Nat) : Option (VersionEntry Id) :=
  history[path]?.bind fun es => es[n]?

/-- Names version `n`, taking the name off any other version; `none` if there is none. -/
def tag (history : History Id Path) (path : Path) (n : Nat) (name : Option String) :
    Option (History Id Path) :=
  match history[path]? with
  | none => none
  | some es =>
      if es.length ≤ n then none
      else
        let es : List (VersionEntry Id) :=
          match name with
          | some _ => es.map fun e => if e.tag = name then { e with tag := none } else e
          | none => es
        some (history.insert path (es.modify n fun e => { e with tag := name }))

/-- Pins or unpins version `n`; `none` if there is none. -/
def setPinned (history : History Id Path) (path : Path) (n : Nat) (pinned : Bool) :
    Option (History Id Path) :=
  match history[path]? with
  | none => none
  | some es =>
      if es.length ≤ n then none
      else some (history.insert path (es.modify n fun e => { e with pinned }))

end History

/-! ## Reconciliation (`sync/index.rs`) -/

structure Diff (Path : Type) where
  pull : List Path
  conflicts : List Path

/-- Compares a peer's advertised records against the local ones. -/
def diff (files : Map Path (FileRecord Id)) (remote : List (Path × FileRecord Id)) :
    Diff Path :=
  remote.foldl
    (fun out e =>
      match files[e.1]? with
      | none => if e.2.deleted then out else { out with pull := out.pull ++ [e.1] }
      | some mine =>
          match VClock.compare mine.vv e.2.vv with
          | .before => { out with pull := out.pull ++ [e.1] }
          | .concurrent => { out with conflicts := out.conflicts ++ [e.1] }
          | .equal | .after => out)
    ⟨[], []⟩

/-- The entry is news: unknown and live, or newer than ours. -/
def isNews (files : Map Path (FileRecord Id)) (e : Path × FileRecord Id) : Bool :=
  match files[e.1]? with
  | none => !e.2.deleted
  | some mine => decide (VClock.compare mine.vv e.2.vv = .before)

/-- The entry is concurrent with ours. -/
def isConflict (files : Map Path (FileRecord Id)) (e : Path × FileRecord Id) : Bool :=
  match files[e.1]? with
  | none => false
  | some mine => decide (VClock.compare mine.vv e.2.vv = .concurrent)

/-- **What `diff` computes**: the news are pulled, the concurrent entries are conflicts. -/
theorem diff_eq (files : Map Path (FileRecord Id)) (remote : List (Path × FileRecord Id)) :
    diff files remote = ⟨(remote.filter (isNews files)).map Prod.fst,
      (remote.filter (isConflict files)).map Prod.fst⟩ := by
  suffices h : ∀ out : Diff Path, remote.foldl _ out =
      ⟨out.pull ++ (remote.filter (isNews files)).map Prod.fst,
        out.conflicts ++ (remote.filter (isConflict files)).map Prod.fst⟩ from h ⟨[], []⟩
  induction remote with
  | nil => simp
  | cons e remote ih =>
      intro out
      rw [List.foldl_cons, ih]
      cases hmine : files[e.1]? with
      | none => cases hdel : e.2.deleted <;> simp [isNews, isConflict, hmine, hdel]
      | some mine =>
          cases hc : VClock.compare mine.vv e.2.vv <;> simp [isNews, isConflict, hmine, hc]

/-- An active lease as advertised in an index. -/
structure LeaseInfo (Id Path : Type) where
  path : Path
  holder : Id
  lamport : U64
  expiresInMs : U64
deriving DecidableEq

end Tazamun
