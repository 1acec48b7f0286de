import Tazamun.Oneshot.Transfer
import Tazamun.Paths.Sanitize

set_option autoImplicit false

/-! # Publishing a one-shot transfer

The end of `receive` (`oneshot.rs`). Up to the last chunk everything happens in the staging
directory, so a transfer that fails by then has not touched the destination. The publish loop
then puts the files into place one by one: it makes the directories of a file, makes the file
that is in place writable and removes it, and renames the part. Every step of it can fail, and
the steps before it are not taken back.

`Disk` is the destination directory, with what has been touched in it. A loop that fails has
left the destination alone exactly if it failed with the first file that leads out of the
staging directory, and before anything was done for it (`Blocked`).
-/

namespace Tazamun.Oneshot

/-! ## The destination -/

/-- A place below the destination directory. -/
abbrev Place : Type := List Segment

inductive Node where
  | dir
  | file (bytes : Bytes) (mode : Nat)
deriving DecidableEq

/-- What is at the places, and which have been created, changed or removed. -/
structure Disk where
  tree : Place → Option Node
  touched : Place → Bool

def stagingDir : Segment := ".tazamun-recv".toList

/-- The place is the staging directory, or in it. -/
def inStaging : Place → Bool
  | name :: _ => name == stagingDir
  | [] => false

/-- The part file of the `i`-th entry. -/
def partPlace (id : Segment) (i : Nat) : Place := [stagingDir, id, (toString i).toList]

namespace Disk

/-- One change. -/
def put (d : Disk) (p : Place) (node : Option Node) : Disk :=
  { tree := fun q => if q = p then node else d.tree q
    touched := fun q => if q = p then true else d.touched q }

/-- The parts are complete. -/
def stage (d : Disk) (id : Segment) (parts : List Bytes) : Disk :=
  parts.zipIdx.foldl (fun d e => d.put (partPlace id e.2) (some (.file e.1 0o644))) d

/-- `remove_dir_all` of the staging directory; it may be left in part. -/
def clear (d : Disk) (removes : Place → Bool) : Disk :=
  { tree := fun p => if inStaging p && removes p then none else d.tree p
    touched := fun p => (inStaging p && removes p) || d.touched p }

end Disk

/-! ## The publish loop -/

/-- How the file operations for one entry end, where nothing at the places decides it. -/
structure PublishIo where
  mkdir : Place → Bool
  chmod : Bool
  remove : Bool
  rename : Bool

/-- `create_dir_all`: the names are gone through from the top. -/
def createDirs (mkdir : Place → Bool) : Place → List Segment → Disk → Bool × Disk
  | _, [], d => (true, d)
  | top, name :: rest, d =>
      match d.tree (top ++ [name]) with
      | some .dir => createDirs mkdir (top ++ [name]) rest d
      | some (.file _ _) => (false, d)
      | none =>
          if mkdir (top ++ [name]) then
            createDirs mkdir (top ++ [name]) rest (d.put (top ++ [name]) (some .dir))
          else (false, d)

/-- `set_writable`. -/
def setWritable (ok : Bool) (p : Place) (d : Disk) : Disk :=
  match d.tree p with
  | some (.file bytes mode) =>
      if ok && decide (mode ≠ 0o644) then d.put p (some (.file bytes 0o644)) else d
  | _ => d

def removeFile (ok : Bool) (p : Place) (d : Disk) : Disk :=
  match d.tree p with
  | some (.file _ _) => if ok then d.put p none else d
  | _ => d

/-- A file is renamed; a directory in place is not replaced. -/
def rename (ok : Bool) (src dst : Place) (d : Disk) : Option Disk :=
  match d.tree src, d.tree dst with
  | some (.file _ _), some .dir => none
  | some (.file bytes mode), _ =>
      if ok then some ((d.put src none).put dst (some (.file bytes mode))) else none
  | _, _ => none

/-- Why `receive` gives up. -/
inductive Failure where
  /-- Before anything is published. -/
  | transfer (err : RecvError String)
  /-- `create_dir_all`. -/
  | directory (path : String)
  /-- "publishing ..: .." -/
  | publishing (path : String)
  /-- The confirmation could not be sent. -/
  | confirm
deriving DecidableEq

/-- What is in place is cleared away, and the part is renamed. -/
def install (io : PublishIo) (part : Place) (path : String) (d : Disk) : Option Failure × Disk :=
  let place := segments path
  let d := removeFile io.remove place (setWritable io.chmod place d)
  match rename io.rename part place d with
  | some d => (none, d)
  | none => (some (.publishing path), d)

/-- One round of the loop. -/
def publishEntry (io : PublishIo) (part : Place) (path : String) (d : Disk) :
    Option Failure × Disk :=
  match createDirs io.mkdir [] (segments path).dropLast d with
  | (false, d) => (some (.directory path), d)
  | (true, d) => install io part path d

/-- The loop, from the `i`-th entry on. -/
def publishLoop (io : Nat → PublishIo) (id : Segment) :
    Nat → List String → Disk → Option Failure × Disk
  | _, [], d => (none, d)
  | i, path :: rest, d =>
      match publishEntry (io i) (partPlace id i) path d with
      | (none, d) => publishLoop io id (i + 1) rest d
      | (some e, d) => (some e, d)

/-! ## Receiving -/

/-- `receive` up to the end of the stream: the manifest, and the parts as they are staged. -/
def fetch (ck : Chunker) (io : RecvIo) (staging : Nat → Option Bytes)
    (talk : Conversation String) :
    Except (RecvError String) (List (SendEntry String) × List Bytes) :=
  match talk.offer with
  | none => .error .closed
  | some (.manifest entries) =>
      match validateManifest (fun path => (sanitizeRelPath path).isOk) entries with
      | .error e => .error e
      | .ok () =>
          if !io.creates then .error .create
          else
            let planned := plan ck io.part staging entries
            if !io.starts then .error .start
            else
              match recvEntries ck io.part 0 (entries.zip planned)
                  (talk.stream (planned.map Prod.fst)) with
              | .error e => .error e
              | .ok (parts, .allDone :: _) => .ok (entries, parts)
              | .ok (_, .fail msg :: _) => .error (.aborted msg)
              | .ok (_, []) => .error .closed
              | .ok (_, _ :: _) => .error .expectedAllDone
  | some _ => .error .expectedManifest

/-- What else `receive` depends on when it publishes: `manifest_id`, a hash, names the staging
directory of the transfer. -/
structure PublishCtx where
  manifestId : List (SendEntry String) → Segment
  entry : Nat → PublishIo
  clears : Place → Bool

/-- `receive`, with the destination directory it leaves. -/
def receiveInto (ck : Chunker) (io : RecvIo) (ctx : PublishCtx) (staging : Nat → Option Bytes)
    (talk : Conversation String) (d : Disk) : Option Failure × Disk :=
  match fetch ck io staging talk with
  | .error e => (some (.transfer e), d)
  | .ok (entries, parts) =>
      let id := ctx.manifestId entries
      match publishLoop ctx.entry id 0 (entries.map SendEntry.path) (d.stage id parts) with
      | (some e, d) => (some e, d)
      | (none, d) => (if io.confirms then none else some .confirm, d.clear ctx.clears)

end Tazamun.Oneshot
