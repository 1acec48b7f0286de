import Tazamun.Lib.Json
import Tazamun.Paths.Sanitize
import Tazamun.Daemon.Pull
import Mathlib.Data.String.Basic

set_option autoImplicit false

/-! # The status snapshot on its line

A status reply carries the first `FILES_LIST_MAX` entries of the index (`files_json_capped`),
and like every reply it has to fit one line of `IPC_LINE_MAX` bytes; `serve_conn` replaces a
longer one by an error. The cap counts entries, but the line counts bytes: what an entry takes
depends on its path, on how much of it must be escaped and on its version vector.

`snapshot_fits_iff`: the map of the files alone stays below the limit exactly if its entries
(`entryBytes`) do together; otherwise no status reply gets through. A thousand files in
directories with long names are too much (`deepFiles_overflow`).
-/

namespace Tazamun

open Lib (Json)

/-- A path that went through the sanitizer. -/
abbrev RelPath : Type := { rel : String // Sanitized rel }

/-! ## Replies -/

def ipcLineMax : Nat := 1024 * 1024
def filesListMax : Nat := 1000

namespace Ipc

/-- A reply of the daemon; an error has a code and a message. -/
structure Response where
  ok : Bool
  data : Option Json
  error : Option (String × String)

def Response.success (data : Json) : Response := { ok := true, data := some data, error := none }

def Response.err (code message : String) : Response :=
  { ok := false, data := none, error := some (code, message) }

def Response.json (r : Response) : Json :=
  .obj (("ok".toList, .bool r.ok) :: (r.data.map fun data => ("data".toList, data)).toList ++
    (r.error.map fun e => ("error".toList, .obj
      [("code".toList, .str e.1.toList), ("message".toList, .str e.2.toList)])).toList)

def tooLarge : Response :=
  .err "response_too_large" "the daemon's response exceeded the IPC line limit"

/-- The line that `serve_conn` sends. -/
def line (r : Response) : List Char :=
  let out := r.json.render
  let out := if ipcLineMax ≤ Json.size out then tooLarge.json.render else out
  out ++ ['\n']

end Ipc

/-! ## The snapshot -/

def clockJson (vv : VClock String) : Json :=
  .obj (vv.toList.map fun e => (e.1.toList, .nat e.2))

def fileJson (r : FileRecord String) : Json :=
  .obj [("deleted".toList, .bool r.deleted), ("size".toList, .nat r.size),
    ("vv".toList, clockJson r.vv)]

/-- At most `cap` entries, with the true total and whether something was left out. -/
def filesJsonCapped (files : Map RelPath (FileRecord String)) (cap : Nat) :
    List (List Char × Json) × Nat × Bool :=
  let total := files.size
  let map := (files.toList.take cap).map fun e => (e.1.1.toList, fileJson e.2)
  (map, total, decide (cap < total))

/-- The status of the daemon. Its members that do not come from the index, and those before
and after, are `before` and `after`. -/
def statusJson (files : Map RelPath (FileRecord String)) (before after : List (List Char × Json)) :
    Json :=
  let (filesJson, filesTotal, filesTruncated) := filesJsonCapped files filesListMax
  .obj (before ++ [("files".toList, .obj filesJson), ("files_total".toList, .nat filesTotal),
    ("files_truncated".toList, .bool filesTruncated)] ++ after)

/-! ## The bytes of an entry -/

/-- The decimal digits of a number. -/
def digits (n : Nat) : Nat := (Nat.toDigits 10 n).length

/-- The bytes of a version vector: each counter with its node. -/
def clockBytes (vv : VClock String) : Nat :=
  Json.objBytes (vv.toList.map fun e => Json.memberBytes e.1.toList (digits e.2))

/-- The bytes of an entry: its path, and 27 bytes of punctuation and names with the three
values. -/
def entryBytes (e : RelPath × FileRecord String) : Nat :=
  Json.strBytes e.1.1.toList + 27 + (if e.2.deleted then 4 else 5) + digits e.2.size +
    clockBytes e.2.vv

theorem toDigits_ascii {n : Nat} {c : Char} (hc : c ∈ Nat.toDigits 10 n) : c.toNat < 128 := by
  have hdigit := Nat.isDigit_of_mem_toDigits (by decide) (by decide) hc
  rw [Char.isDigit_iff_toNat] at hdigit
  have hnine : '9'.toNat = 57 := rfl
  omega

theorem size_nat (n : Nat) : Json.size (Json.nat n).render = digits n := by
  rw [Json.nat, Json.render]
  exact Json.size_of_ascii fun c hc => toDigits_ascii hc

theorem size_clockJson (vv : VClock String) : Json.size (clockJson vv).render = clockBytes vv := by
  rw [clockJson, Json.size_render_obj, clockBytes, List.map_map]
  simp only [Function.comp_def, size_nat]

theorem size_fileJson (e : RelPath × FileRecord String) :
    Json.memberBytes e.1.1.toList (Json.size (fileJson e.2).render) = entryBytes e := by
  have hkeys : Json.strBytes "deleted".toList = 9 ∧ Json.strBytes "size".toList = 6 ∧
      Json.strBytes "vv".toList = 4 := by decide
  obtain ⟨hdeleted, hsize, hvv⟩ := hkeys
  have hbool : Json.size (Json.bool e.2.deleted).render = if e.2.deleted then 4 else 5 := by
    cases e.2.deleted with
    | false => rfl
    | true => rfl
  rw [fileJson, Json.size_render_obj, Json.objBytes, Json.memberBytes, entryBytes]
  simp only [List.map_cons, List.map_nil, List.sum_cons, List.sum_nil, Json.memberBytes, hbool,
    size_nat, size_clockJson, hdeleted, hsize, hvv]
  omega

/-- The size of the map of the files. -/
theorem size_filesJsonCapped (files : Map RelPath (FileRecord String)) (cap : Nat) :
    Json.size (Json.obj (filesJsonCapped files cap).1).render =
      Json.objBytes ((files.toList.take cap).map entryBytes) := by
  rw [Json.size_render_obj, filesJsonCapped, List.map_map]
  refine congrArg Json.objBytes (List.map_congr_left fun e _ => ?_)
  exact size_fileJson e

/-! ## Whether it fits -/

/-- The bytes of the entries of a snapshot, with the braces and the commas. -/
def snapshotBytes (files : Map RelPath (FileRecord String)) : Nat :=
  1 + ((files.toList.take filesListMax).map fun e => entryBytes e + 1).sum

/-- Where the map of the files alone reaches the limit, so does the reply. -/
theorem line_tooLarge {files : Map RelPath (FileRecord String)}
    (h : ipcLineMax ≤ Json.size (Json.obj (filesJsonCapped files filesListMax).1).render)
    (before after : List (List Char × Json)) :
    Ipc.line (.success (statusJson files before after)) = Ipc.tooLarge.json.render ++ ['\n'] := by
  have hfiles : Json.size (Json.obj (filesJsonCapped files filesListMax).1).render <
      Json.size (statusJson files before after).render :=
    Json.size_lt_of_mem (List.mem_append_left _ (List.mem_append_right _ List.mem_cons_self))
  have hdata : Json.size (statusJson files before after).render <
      Json.size (Ipc.Response.success (statusJson files before after)).json.render :=
    Json.size_lt_of_mem (List.mem_cons_of_mem _ List.mem_cons_self)
  have hlong : ipcLineMax ≤
      Json.size (Ipc.Response.success (statusJson files before after)).json.render := by omega
  simp only [Ipc.line, hlong, if_true]

/-- **When the snapshot fits its line**: the map of the files is shorter than a line exactly if
its entries take less than that together, and if they do not, every status reply is replaced by
an error. -/
theorem snapshot_fits_iff (files : Map RelPath (FileRecord String)) :
    (Json.size (Json.obj (filesJsonCapped files filesListMax).1).render < ipcLineMax ↔
      snapshotBytes files < ipcLineMax) ∧
    (¬ snapshotBytes files < ipcLineMax → ∀ before after,
      Ipc.line (.success (statusJson files before after)) =
        Ipc.tooLarge.json.render ++ ['\n']) := by
  have hiff : Json.size (Json.obj (filesJsonCapped files filesListMax).1).render < ipcLineMax ↔
      snapshotBytes files < ipcLineMax := by
    rw [size_filesJsonCapped, Json.objBytes_lt_iff (by decide), List.map_map]
    rfl
  refine ⟨hiff, fun h before after => line_tooLarge ?_ before after⟩
  exact not_lt.mp (mt hiff.mp h)

/-- Entries of a kilobyte each fit, whatever the size of the index. -/
theorem snapshot_fits_of_entryBytes_le {files : Map RelPath (FileRecord String)}
    (h : ∀ e ∈ files.toList, entryBytes e ≤ 1047) :
    Json.size (Json.obj (filesJsonCapped files filesListMax).1).render < ipcLineMax := by
  rw [(snapshot_fits_iff files).1, snapshotBytes]
  have hsum : ((files.toList.take filesListMax).map fun e => entryBytes e + 1).sum ≤
      ((files.toList.take filesListMax).map fun e => entryBytes e + 1).length • 1048 := by
    refine List.sum_le_card_nsmul _ _ fun n hn => ?_
    obtain ⟨e, he, rfl⟩ := List.mem_map.mp hn
    have hle := h e (List.mem_of_mem_take he)
    omega
  rw [List.length_map, List.length_take, smul_eq_mul] at hsum
  have hcap : min filesListMax files.toList.length ≤ 1000 := min_le_left _ _
  have hmax : ipcLineMax = 1048576 := rfl
  omega

/-- A thousand entries of `n` bytes and more. -/
theorem le_snapshotBytes {files : Map RelPath (FileRecord String)} {n : Nat}
    (hsize : filesListMax ≤ files.size) (h : ∀ e ∈ files.toList, n ≤ entryBytes e) :
    1 + 1000 * (n + 1) ≤ snapshotBytes files := by
  have hsum : ((files.toList.take filesListMax).map fun e => entryBytes e + 1).length • (n + 1) ≤
      ((files.toList.take filesListMax).map fun e => entryBytes e + 1).sum := by
    refine List.card_nsmul_le_sum _ _ fun m hm => ?_
    obtain ⟨e, he, rfl⟩ := List.mem_map.mp hm
    exact Nat.succ_le_succ (h e (List.mem_of_mem_take he))
  have hlen : (files.toList.take filesListMax).length = 1000 := by
    rw [List.length_take, Std.ExtTreeMap.length_toList, min_eq_left hsize]
    rfl
  rw [List.length_map, hlen, smul_eq_mul] at hsum
  exact Nat.add_le_add_left hsum 1

/-! ## A thousand long paths -/

def longName : Segment := List.replicate 250 'd'

/-- `n` directories, one within the other. -/
def deepDir : Nat → List Char
  | 0 => []
  | n + 1 => longName ++ '/' :: deepDir n

def digitOf (n : Nat) : Char := Nat.digitChar (n % 10)

/-- A file name of three digits. -/
def shortName (i : Nat) : Segment := [digitOf (i / 100), digitOf (i / 10), digitOf i]

def deepPath (i : Nat) : List Char := deepDir 5 ++ shortName i

/-- The characters of the paths. -/
def deepChars : List Char := ['d', '/', '0', '1', '2', '3', '4', '5', '6', '7', '8', '9']

theorem digitOf_cases (n : Nat) : digitOf n ∈ deepChars.drop 2 := by
  have hall : ∀ d < 10, Nat.digitChar d ∈ deepChars.drop 2 := by decide
  exact hall _ (Nat.mod_lt _ (by decide))

theorem digitOf_inj {m n : Nat} (h : digitOf m = digitOf n) : m % 10 = n % 10 := by
  have hall : ∀ a < 10, ∀ b < 10, Nat.digitChar a = Nat.digitChar b → a = b := by decide
  exact hall _ (Nat.mod_lt _ (by decide)) _ (Nat.mod_lt _ (by decide)) h

theorem shortName_inj {i j : Nat} (hi : i < 1000) (hj : j < 1000) (h : shortName i = shortName j) :
    i = j := by
  simp only [shortName, List.cons.injEq, and_true] at h
  have h100 := digitOf_inj h.1
  have h10 := digitOf_inj h.2.1
  have h1 := digitOf_inj h.2.2
  omega

theorem mem_shortName {c : Char} {i : Nat} (h : c ∈ shortName i) : c ∈ deepChars.drop 2 := by
  simp only [shortName, List.mem_cons, List.not_mem_nil, or_false] at h
  rcases h with rfl | rfl | rfl
  · exact digitOf_cases _
  · exact digitOf_cases _
  · exact digitOf_cases _

theorem mem_deepPath {c : Char} {i : Nat} (h : c ∈ deepPath i) : c ∈ deepChars := by
  have hdir : ∀ n, ∀ c ∈ deepDir n, c ∈ deepChars := by
    intro n
    induction n with
    | zero => simp [deepDir]
    | succ n ih =>
        intro c hc
        rcases List.mem_append.mp hc with hc | hc
        · rw [List.eq_of_mem_replicate hc]
          decide
        · rcases List.mem_cons.mp hc with rfl | hc
          · decide
          · exact ih c hc
  rcases List.mem_append.mp h with hc | hc
  · exact hdir 5 c hc
  · exact List.mem_of_mem_drop (mem_shortName hc)

theorem length_deepPath (i : Nat) : (deepPath i).length = 1258 := by
  have hdir : ∀ n, (deepDir n).length = 251 * n := by
    intro n
    induction n with
    | zero => rfl
    | succ n ih =>
        rw [deepDir, List.length_append, List.length_cons, ih, longName, List.length_replicate]
        omega
  rw [deepPath, List.length_append, hdir]
  rfl

theorem splitOn_deepPath (i n : Nat) :
    (deepDir n ++ shortName i).splitOn '/' = List.replicate n longName ++ [shortName i] := by
  induction n with
  | zero =>
      refine List.splitOn_eq_singleton fun h => ?_
      exact absurd (mem_shortName h) (by decide)
  | succ n ih =>
      rw [deepDir, List.append_assoc, List.cons_append, List.splitOn_append_cons_self_of_not_mem,
        ih]
      · rfl
      · exact fun h => absurd (List.eq_of_mem_replicate h) (by decide)

theorem longName_plain : longName.Plain where
  nonempty := by decide
  notDot := by decide
  notParent := by decide
  notMeta := by decide

theorem shortName_plain (i : Nat) : (shortName i).Plain where
  nonempty := fun h => by cases h
  notDot := fun h => absurd (congrArg List.length h) (by simp [shortName])
  notParent := fun h => absurd (congrArg List.length h) (by simp [shortName])
  notMeta := by
    rw [eqIgnoreAsciiCase, beq_eq_false_iff_ne]
    intro h
    have hlen := congrArg List.length h
    have hthree : (shortName i).length = 3 := rfl
    rw [List.length_map, List.length_map, hthree] at hlen
    exact absurd hlen (by decide)

theorem deepPath_sanitized (i : Nat) : Sanitized (String.ofList (deepPath i)) where
  nonempty := by
    intro h
    have hlen := length_deepPath i
    rw [← String.toList_ofList (l := deepPath i), h] at hlen
    cases hlen
  short := by
    have hascii : ∀ c ∈ deepChars, c.toNat < 128 := by simp [deepChars]
    rw [Json.utf8ByteSize_ofList, Json.size_of_ascii fun c hc => hascii c (mem_deepPath hc),
      length_deepPath]
    decide
  noNul := by
    rw [String.toList_ofList]
    exact fun h => absurd (mem_deepPath h) (by decide)
  noBackslash := by
    rw [String.toList_ofList]
    exact fun h => absurd (mem_deepPath h) (by decide)
  relative := by
    rw [String.toList_ofList]
    rfl
  plain := by
    intro seg hseg
    rw [segments, String.toList_ofList, deepPath, splitOn_deepPath] at hseg
    rcases List.mem_append.mp hseg with hseg | hseg
    · rw [List.eq_of_mem_replicate hseg]
      exact longName_plain
    · rw [List.mem_singleton.mp hseg]
      exact shortName_plain i

def deepKey (i : Nat) : RelPath := ⟨String.ofList (deepPath i), deepPath_sanitized i⟩

/-- A file of one byte. -/
def deepRecord : FileRecord String where
  size := 1
  manifest := .empty
  vv := (∅ : VClock String).inc "n1"
  deleted := false
  updatedAtMs := 0

/-- `n` such files in the innermost directory. -/
def deepFiles : Nat → Map RelPath (FileRecord String)
  | 0 => ∅
  | n + 1 => (deepFiles n).insert (deepKey n) deepRecord

theorem deepKey_inj {i j : Nat} (hi : i < 1000) (hj : j < 1000) (h : deepKey i = deepKey j) :
    i = j := by
  have htext := congrArg (fun p : RelPath => p.1.toList) h
  simp only [deepKey, String.toList_ofList, deepPath] at htext
  exact shortName_inj hi hj (List.append_inj' htext rfl).2

theorem deepFiles_get {n : Nat} {path : RelPath} {r : FileRecord String}
    (h : (deepFiles n)[path]? = some r) : r = deepRecord ∧ ∃ i < n, path = deepKey i := by
  induction n with
  | zero =>
      rw [deepFiles, Std.ExtTreeMap.getElem?_empty] at h
      cases h
  | succ n ih =>
      rw [deepFiles, Map.get_insert] at h
      split at h
      · rename_i hkey
        exact ⟨(Option.some.inj h).symm, n, Nat.lt_succ_self n, hkey.symm⟩
      · obtain ⟨hr, i, hi, hpath⟩ := ih h
        exact ⟨hr, i, Nat.lt_succ_of_lt hi, hpath⟩

theorem deepFiles_size {n : Nat} (hn : n ≤ 1000) : (deepFiles n).size = n := by
  induction n with
  | zero => rfl
  | succ n ih =>
      have hnew : (deepFiles n).contains (deepKey n) = false := by
        rw [Map.contains_eq]
        cases hget : (deepFiles n)[deepKey n]? with
        | none => rfl
        | some r =>
            obtain ⟨-, i, hi, hkey⟩ := deepFiles_get hget
            exact absurd (deepKey_inj (by omega) (by omega) hkey) (by omega)
      rw [deepFiles, Std.ExtTreeMap.size_insert, hnew, ih (by omega)]
      rfl

theorem entryBytes_deep (i : Nat) : 1258 ≤ entryBytes (deepKey i, deepRecord) := by
  have hlen := Json.length_le_strBytes (deepPath i)
  have htext : (deepKey i).1.toList = deepPath i := String.toList_ofList
  rw [length_deepPath] at hlen
  rw [entryBytes, htext]
  omega

theorem deepRecord_acceptable : recordAcceptable deepRecord = true := by
  have hsize : ((∅ : VClock String).inc "n1").size = 1 := rfl
  rw [recordAcceptable, deepRecord, hsize]
  rfl

/-- **They are too much for a line**, although every path is sanitized and every record would
be accepted. -/
theorem deepFiles_overflow :
    ¬ ∀ files : Map RelPath (FileRecord String),
      (∀ e ∈ files.toList, recordAcceptable e.2 = true) →
        Json.size (Json.obj (filesJsonCapped files filesListMax).1).render < ipcLineMax := by
  intro hclaim
  have hmem : ∀ e ∈ (deepFiles 1000).toList, ∃ i, e = (deepKey i, deepRecord) := by
    rintro ⟨path, r⟩ he
    obtain ⟨rfl, i, -, rfl⟩ := deepFiles_get (Map.mem_toList.mp he)
    exact ⟨i, rfl⟩
  have hok : ∀ e ∈ (deepFiles 1000).toList, recordAcceptable e.2 = true := by
    intro e he
    obtain ⟨i, rfl⟩ := hmem e he
    exact deepRecord_acceptable
  have hbytes : ∀ e ∈ (deepFiles 1000).toList, 1258 ≤ entryBytes e := by
    intro e he
    obtain ⟨i, rfl⟩ := hmem e he
    exact entryBytes_deep i
  have hsize : filesListMax ≤ (deepFiles 1000).size := (deepFiles_size le_rfl).ge
  have hfits := (snapshot_fits_iff _).1.mp (hclaim _ hok)
  exact absurd ((le_snapshotBytes hsize hbytes).trans_lt hfits) (by decide)

end Tazamun
