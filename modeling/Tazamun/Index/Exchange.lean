import Tazamun.Index.Split
import Tazamun.Turn.Books

set_option autoImplicit false

/-! # The index exchange

What the splitter sends is what the receiver installs. A stream of parts is received by one
induction over its batches (`foldl_partStream`): before each part the stage has the number of
the part and the entries before it, and the last part installs the whole. Since the paths of
an index are all different, adding its entries to an empty map gives the map back
(`ingestMap_toList`).
-/

namespace Tazamun

open Lib Actor

variable {Id Path : Type} [LinearOrder Id] [LinearOrder Path]

/-! ## Entries -/

section Entries

variable {h : Host Id Path}

theorem ingestMap_append (map : Map Path (FileRecord Id)) (l l' : List (Path × FileRecord Id)) :
    ingestMap h map (l ++ l') = ingestMap h (ingestMap h map l) l' :=
  List.foldl_append ..

theorem size_ingestMap_le (map : Map Path (FileRecord Id)) (l : List (Path × FileRecord Id)) :
    (ingestMap h map l).size ≤ map.size + l.length := by
  induction l generalizing map with
  | nil => exact Nat.le_refl _
  | cons e l ih =>
      have hstep := ih (if recordAcceptable e.2 && h.sanitize e.1 then map.insert e.1 e.2 else map)
      have hone : (if recordAcceptable e.2 && h.sanitize e.1 then map.insert e.1 e.2
          else map).size ≤ map.size + 1 := by
        split
        · exact Std.ExtTreeMap.size_insert_le
        · exact Nat.le_succ _
      rw [List.length_cons]
      exact hstep.trans (by omega)

/-- Of acceptable entries with different paths all are in the map afterwards. -/
theorem get_ingestMap {map : Map Path (FileRecord Id)} {l : List (Path × FileRecord Id)}
    (hok : ∀ e ∈ l, recordAcceptable e.2 = true ∧ h.sanitize e.1 = true)
    (hnodup : (l.map Prod.fst).Nodup) {path : Path} {record : FileRecord Id} :
    (ingestMap h map l)[path]? = some record ↔
      (path, record) ∈ l ∨ path ∉ l.map Prod.fst ∧ map[path]? = some record := by
  induction l generalizing map with
  | nil => simp [ingestMap]
  | cons e l ih =>
      obtain ⟨p, r⟩ := e
      obtain ⟨hacc, hclean⟩ := hok (p, r) List.mem_cons_self
      rw [List.map_cons, List.nodup_cons] at hnodup
      have hrest := @ih (map.insert p r) (fun e he => hok e (List.mem_cons_of_mem _ he)) hnodup.2
      have hcons : ingestMap h map ((p, r) :: l) = ingestMap h (map.insert p r) l := by
        show ingestMap h (if recordAcceptable r && h.sanitize p then map.insert p r else map) l = _
        rw [hacc, hclean]
        rfl
      rw [hcons, hrest, Map.get_insert, List.mem_cons, List.map_cons, List.mem_cons]
      by_cases hp : p = path
      · subst hp
        have hout : (p, record) ∉ l := fun hmem =>
          hnodup.1 (List.mem_map.mpr ⟨_, hmem, rfl⟩)
        simp [hnodup.1, hout, eq_comm]
      · have hne : path ≠ p := Ne.symm hp
        simp [hp, hne]

/-- The entries of a map, added to an empty map, are the map. -/
theorem ingestMap_toList {files : Map Path (FileRecord Id)}
    (hok : ∀ e ∈ files.toList, recordAcceptable e.2 = true ∧ h.sanitize e.1 = true) :
    ingestMap h ∅ files.toList = files := by
  have hnodup : (files.toList.map Prod.fst).Nodup := by
    rw [Std.ExtTreeMap.map_fst_toList_eq_keys]
    exact Std.ExtTreeMap.nodup_keys
  refine Std.ExtTreeMap.ext_getElem? fun path => Option.ext fun record => ?_
  rw [get_ingestMap hok hnodup, Map.mem_toList]
  simp

end Entries

/-! ## Receiving a stream -/

section Receive

variable (h : Host Id Path)

/-- The next part is taken, if it is in sequence and not too big. -/
theorem Book.part_next {b : Book Id Path} {k : Nat} {map : Map Path (FileRecord Id)}
    (hstage : b.stage = (k, map)) (hk : k < maxIndexParts) {files : List (Path × FileRecord Id)}
    (hsize : map.size + files.length ≤ maxIndexEntries) (last : Bool)
    (leases : List (LeaseInfo Id Path)) :
    b.part h k last files leases =
      if last then b.install (ingestMap h map files) leases
      else { b with staging := some (k + 1, ingestMap h map files) } := by
  unfold Book.part
  rw [hstage]
  refine if_neg ?_
  rintro (hne | hmany | hbig)
  · exact hne rfl
  · omega
  · dsimp only at hbig
    omega

theorem Book.msg_part {b : Book Id Path} {peer : Peer} (hconn : b.conn = some peer) (seq : Nat)
    (last : Bool) (lamport : U64) (files : List (Path × FileRecord Id))
    (leases : List (LeaseInfo Id Path)) :
    b.msg h (.indexPart seq last lamport files leases) = b.part h seq last files leases := by
  unfold Book.msg
  rw [hconn]

/-- **A stream of parts installs all its entries**, once. -/
theorem foldl_partStream (lamport : U64) (leases : List (LeaseInfo Id Path))
    (bs : List (List (Path × FileRecord Id))) (hne : bs ≠ []) {b : Book Id Path} {peer : Peer}
    (hconn : b.conn = some peer) {k : Nat} {map : Map Path (FileRecord Id)}
    (hstage : b.stage = (k, map)) (hk : k + bs.length ≤ maxIndexParts)
    (hsize : map.size + bs.flatten.length ≤ maxIndexEntries) :
    (partStream lamport leases k bs).foldl (Book.msg h) b =
      b.install (ingestMap h map bs.flatten) leases := by
  induction bs generalizing b k map with
  | nil => exact absurd rfl hne
  | cons files bs ih =>
      rw [List.length_cons] at hk
      rw [List.flatten_cons, List.length_append] at hsize
      rw [partStream_cons, List.foldl_cons, List.flatten_cons, ingestMap_append]
      have hfirst : k < maxIndexParts := by omega
      have hfits : map.size + files.length ≤ maxIndexEntries := by omega
      have hmsg : ∀ last leases, b.msg h (.indexPart k last lamport files leases) =
          if last then b.install (ingestMap h map files) leases
          else { b with staging := some (k + 1, ingestMap h map files) } := by
        intro last leases
        rw [Book.msg_part h hconn]
        exact Book.part_next h hstage hfirst hfits last leases
      rw [hmsg]
      by_cases hbs : bs = []
      · subst hbs
        rfl
      · rw [decide_eq_false hbs, if_neg Bool.false_ne_true]
        have hmap := @size_ingestMap_le _ _ _ _ h map files
        have hrest : k + 1 + bs.length ≤ maxIndexParts := by omega
        have hroom : (ingestMap h map files).size + bs.flatten.length ≤ maxIndexEntries := by
          omega
        exact ih hbs (b := { b with staging := some (k + 1, ingestMap h map files) }) hconn rfl
          hrest hroom

variable {h}

/-- What goes out: the whole index, or, if it is split, the entries that fit a frame. -/
def sentFiles (h : Host Id Path) (lamport : U64) (files : Map Path (FileRecord Id))
    (leases : List (LeaseInfo Id Path)) : Map Path (FileRecord Id) :=
  if h.encodedLen (.index lamport files.toList leases) ≤ maxFrame then files
  else files.filter fun path record => fits h (path, record)

/-- All paths and records of the index pass the checks of the receiver. -/
def Wellformed (h : Host Id Path) (files : Map Path (FileRecord Id)) : Prop :=
  ∀ path record, files[path]? = some record →
    h.sanitize path = true ∧ record.vv.size ≤ maxVvEntries

theorem Wellformed.ingestMap_self {files : Map Path (FileRecord Id)} (hf : Wellformed h files) :
    ingestMap h ∅ files.toList = files := by
  refine ingestMap_toList fun e he => ?_
  obtain ⟨hsan, hvv⟩ := hf e.1 e.2 (Map.mem_toList.mp he)
  exact ⟨decide_eq_true hvv, hsan⟩

theorem Wellformed.ingestMap_filter {files : Map Path (FileRecord Id)} (hf : Wellformed h files)
    (p : Path → FileRecord Id → Bool) :
    ingestMap h ∅ (files.filter p).toList = files.filter p := by
  refine Wellformed.ingestMap_self fun path record hget => ?_
  rw [Std.ExtTreeMap.getElem?_filter'] at hget
  exact hf path record (Option.filter_eq_some_iff.mp hget).1

variable {leaseLen : LeaseInfo Id Path → Nat}

/-- The frames of an index install what goes out, and a prefix of the leases. -/
theorem foldl_splitIndexParts (lamport : U64)
    {files : Map Path (FileRecord Id)} (hf : Wellformed h files)
    (leases : List (LeaseInfo Id Path)) {b : Book Id Path} {peer : Peer}
    (hconn : b.conn = some peer) (hstage : b.stage = (0, ∅))
    (hparts : (splitIndexParts h lamport files leases).length ≤ maxIndexParts)
    (hsize : (sentFiles h lamport files leases).size ≤ maxIndexEntries) :
    ∃ kept, kept <+: leases ∧
      (splitIndexParts h lamport files leases).foldl (Book.msg h) b =
        b.install (sentFiles h lamport files leases) kept := by
  unfold sentFiles at hsize ⊢
  by_cases hfits : h.encodedLen (.index lamport files.toList leases) ≤ maxFrame
  · rw [if_pos hfits]
    refine ⟨leases, List.prefix_rfl, ?_⟩
    have hwhole : splitIndexParts h lamport files leases =
        [.index lamport files.toList leases] := if_pos hfits
    rw [hwhole, List.foldl_cons, List.foldl_nil]
    unfold Book.msg
    rw [hconn]
    show b.install (ingestMap h ∅ files.toList) leases = _
    rw [hf.ingestMap_self]
  · rw [if_neg hfits] at hsize ⊢
    obtain ⟨bs, kept, heq, hflat, hpre, hne, -⟩ := splitIndexParts_eq lamport files leases hfits
    refine ⟨kept, hpre, ?_⟩
    have hlist : bs.flatten = (files.filter fun path record => fits h (path, record)).toList := by
      rw [hflat, Std.ExtTreeMap.toList_filter]
    have hlen : bs.length ≤ maxIndexParts := by
      rw [heq, partStream, List.length_mapIdx] at hparts
      exact hparts
    have hentries : (∅ : Map Path (FileRecord Id)).size + bs.flatten.length ≤ maxIndexEntries := by
      rw [hlist, Std.ExtTreeMap.length_toList, Std.ExtTreeMap.size_empty, Nat.zero_add]
      exact hsize
    rw [heq, foldl_partStream h lamport kept bs hne hconn hstage (by omega) hentries, hlist,
      hf.ingestMap_filter]

/-- Messages with indexes, handled one after the other. -/
theorem foldl_onCtl_book (sender : Id) (stream : List (Env Path × Msg Id Path))
    (hindex : ∀ m ∈ stream, (Event.msg sender m.2).isPeering = true) (a : Actor Id Path) :
    (stream.foldl (fun a m => a.onCtl h m.1 sender m.2) a).book sender =
      (stream.map Prod.snd).foldl (Book.msg h) (a.book sender) := by
  induction stream generalizing a with
  | nil => rfl
  | cons m stream ih =>
      have hhead := Actor.onCtl_book h m.1 a sender (hindex m List.mem_cons_self) sender
      rw [if_pos rfl] at hhead
      rw [List.foldl_cons, List.map_cons, List.foldl_cons, ← hhead]
      exact ih (fun m hm => hindex m (List.mem_cons_of_mem _ hm)) _

/-- **The sharded index round trip.** The frames of an index are within the limits, numbered,
and only the last one says that it is the last and has leases. Handled in order for a peer
with nothing staged, they install one index: the entries that went out, and a prefix of the
leases. -/
theorem splitIndexParts_roundTrip (hp : h.Postcard leaseLen) (lamport : U64)
    {files : Map Path (FileRecord Id)} (hf : Wellformed h files)
    (leases : List (LeaseInfo Id Path)) :
    (∀ m ∈ splitIndexParts h lamport files leases,
      1 ≤ h.encodedLen m ∧ h.encodedLen m ≤ maxFrame) ∧
    (splitIndexParts h lamport files leases = [.index lamport files.toList leases] ∨
      ∃ bs kept, splitIndexParts h lamport files leases = partStream lamport kept 0 bs) ∧
    ∀ (a : Actor Id Path) (sender : Id) (stream : List (Env Path × Msg Id Path)),
      a.peers.contains sender = true → a.indexStaging[sender]? = none →
      stream.map Prod.snd = splitIndexParts h lamport files leases →
      stream.length ≤ maxIndexParts →
      (sentFiles h lamport files leases).size ≤ maxIndexEntries →
      ∃ kept, kept <+: leases ∧
        ((stream.foldl (fun a m => a.onCtl h m.1 sender m.2) a).book sender).installed =
          (a.book sender).installed ++ [((sentFiles h lamport files leases).toList, kept)] := by
  have hshape : (splitIndexParts h lamport files leases = [.index lamport files.toList leases] ∧
      h.encodedLen (.index lamport files.toList leases) ≤ maxFrame) ∨
      ∃ bs kept, splitIndexParts h lamport files leases = partStream lamport kept 0 bs ∧
        ∀ m ∈ splitIndexParts h lamport files leases, h.encodedLen m ≤ maxFrame := by
    by_cases hfits : h.encodedLen (.index lamport files.toList leases) ≤ maxFrame
    · exact .inl ⟨if_pos hfits, hfits⟩
    · obtain ⟨bs, kept, heq, -, -, -, hlen⟩ := splitIndexParts_eq lamport files leases hfits
      exact .inr ⟨bs, kept, heq, fun m hm => (hlen m hm).encodedLen_le hp⟩
  have hmsg : ∀ m ∈ splitIndexParts h lamport files leases,
      (∃ files leases, m = .index lamport files leases) ∨
        ∃ seq last files leases, m = .indexPart seq last lamport files leases := by
    intro m hm
    rcases hshape with ⟨heq, -⟩ | ⟨bs, kept, heq, -⟩
    · rw [heq, List.mem_singleton] at hm
      exact .inl ⟨_, _, hm⟩
    · rw [heq] at hm
      obtain ⟨i, hi, rfl⟩ := List.mem_mapIdx.mp hm
      exact .inr ⟨_, _, _, _, rfl⟩
  refine ⟨fun m hm => ⟨?_, ?_⟩, ?_, ?_⟩
  · rcases hmsg m hm with ⟨files, leases, rfl⟩ | ⟨seq, last, files, leases, rfl⟩
    · rw [hp.index]
      omega
    · rw [hp.part]
      omega
  · rcases hshape with ⟨heq, hlen⟩ | ⟨-, -, -, hlen⟩
    · rw [heq, List.mem_singleton] at hm
      rw [hm]
      exact hlen
    · exact hlen m hm
  · rcases hshape with ⟨heq, -⟩ | ⟨bs, kept, heq, -⟩
    · exact .inl heq
    · exact .inr ⟨bs, kept, heq⟩
  · intro a sender stream hpeer hstaging hstream hparts hsize
    have hindex : ∀ m ∈ stream, (Event.msg sender m.2).isPeering = true := by
      intro m hm
      have hmem : m.2 ∈ splitIndexParts h lamport files leases := by
        rw [← hstream]
        exact List.mem_map_of_mem hm
      rcases hmsg m.2 hmem with ⟨files, leases, heq⟩ | ⟨seq, last, files, leases, heq⟩
      · rw [heq]
        rfl
      · rw [heq]
        rfl
    rw [Map.contains_eq] at hpeer
    obtain ⟨peer, hconn⟩ := Option.isSome_iff_exists.mp hpeer
    have hstage : (a.book sender).stage = (0, ∅) := by
      show (a.indexStaging[sender]?).getD (0, ∅) = (0, ∅)
      rw [hstaging]
      rfl
    rw [← List.length_map (f := Prod.snd), hstream] at hparts
    obtain ⟨kept, hpre, heq⟩ := foldl_splitIndexParts lamport hf leases
      (b := a.book sender) hconn hstage hparts hsize
    refine ⟨kept, hpre, ?_⟩
    rw [foldl_onCtl_book sender stream hindex a, hstream, heq]
    rfl

end Receive

/-- A host whose entries take three million bytes each, so that no two fit a frame. -/
def shardHost : Host Nat Nat :=
  { plainHost with
    entryLen := fun _ => 3000000
    encodedLen := fun
      | .index lamport files leases => 1 + varintLen lamport.val +
          seqLen (fun _ => 3000000) files + seqLen (fun _ => 20) leases
      | .indexPart seq _ lamport files leases => 1 + varintLen (seq % 2 ^ 32) + 1 +
          varintLen lamport.val + seqLen (fun _ => 3000000) files + seqLen (fun _ => 20) leases
      | _ => 1 }

theorem shardHost_postcard : shardHost.Postcard fun _ => 20 :=
  ⟨fun _ _ _ => rfl, fun _ _ _ _ _ => rfl⟩

/-- Two entries, which go into two parts. -/
def shardFiles : Map Nat (FileRecord Nat) :=
  ((∅ : Map Nat (FileRecord Nat)).insert 1 (plainRecord 7 ((∅ : VClock Nat).insert 1 1))).insert 2
    (plainRecord 8 ((∅ : VClock Nat).insert 1 1))

theorem shardFiles_wellformed : Wellformed shardHost shardFiles := by
  intro path record hget
  have hall : shardFiles.toList.all (fun e => decide (e.2.vv.size ≤ maxVvEntries)) = true := by
    decide +kernel
  exact ⟨rfl, of_decide_eq_true (List.all_eq_true.mp hall _ (Map.mem_toList.mpr hget))⟩

/-- Both parts are handled, and the index is installed. -/
theorem splitIndexParts_roundTrip_shardFiles :
    (splitIndexParts shardHost 0 shardFiles []).length = 2 ∧
    ∃ kept, kept <+: [] ∧
      ((((splitIndexParts shardHost 0 shardFiles []).map fun m => (plainEnv 0, m)).foldl
        (fun a m => a.onCtl shardHost m.1 1 m.2)
        (plainStart.onAuthed shardHost (plainEnv 0) 1 0 true)).book 1).installed =
        ((plainStart.onAuthed shardHost (plainEnv 0) 1 0 true).book 1).installed ++
          [((sentFiles shardHost 0 shardFiles []).toList, kept)] := by
  have hlen : (splitIndexParts shardHost 0 shardFiles []).length = 2 := by decide +kernel
  refine ⟨hlen, ?_⟩
  refine (splitIndexParts_roundTrip shardHost_postcard 0 shardFiles_wellformed []).2.2 _ 1 _
    (by decide +kernel) ?_ ?_ ?_ (by decide +kernel)
  · have hstaging : (plainStart.onAuthed shardHost (plainEnv 0) 1 0 true).indexStaging.contains 1 =
        false := by decide +kernel
    exact Map.get_eq_none hstaging
  · rw [List.map_map]
    exact List.map_id _
  · rw [List.length_map, hlen]
    decide

end Tazamun
