import Tazamun.Sync.Record

set_option autoImplicit false

/-! # The version history over whole runs

A path's history is one list, newest version first. A push puts the replaced version in front
and prunes, so every index shifts; tags and pins are given by index. `Trail` is what the list
stands for: the records pushed so far, the versions kept under the number of their push, and
for every tag name the number of the version that has it. There nothing shifts, pruning is
"the newest `depth` and what is pinned", and a name belongs to one version because it is a
function of the name.

**`history_represented`** says that the list is a picture of the trail after every sequence of
pushes, tags, pins and changes of the depth or the role, and draws from it what the history
promises. The induction (`Pictures.step`) is over the acts; the invariant besides the picture
itself is that numbers fall along the list and that a version carries a tag exactly when the
name belongs to its number.
-/

namespace Tazamun

variable {Id Path : Type} [LinearOrder Id] [LinearOrder Path]

/-! ## Runs -/

/-- The part of the state the version functions read and write. -/
structure Versions (Id Path : Type) [Ord Id] [Ord Path] where
  history : History Id Path
  historyDepth : Nat
  role : NodeRole

inductive VersionAct (Id Path : Type) [Ord Id] where
  | push (path : Path) (replaced : FileRecord Id)
  | tag (path : Path) (n : Nat) (name : Option String)
  | setPinned (path : Path) (n : Nat) (pinned : Bool)
  | configure (historyDepth : Nat) (role : NodeRole)

namespace Versions

/-- The effective depth in force. -/
def depth (v : Versions Id Path) : Nat := effectiveDepth v.historyDepth v.role

/-- The versions kept of a path, newest first. -/
def entries (v : Versions Id Path) (path : Path) : List (VersionEntry Id) :=
  v.history[path]?.getD []

/-- A change that came about, or the state as it was. -/
def replace (v : Versions Id Path) (history : Option (History Id Path)) : Versions Id Path :=
  match history with
  | some history => { v with history }
  | none => v

def step (v : Versions Id Path) : VersionAct Id Path → Versions Id Path
  | .push path replaced => { v with history := v.history.push v.depth path replaced }
  | .tag path n name => v.replace (v.history.tag path n name)
  | .setPinned path n pinned => v.replace (v.history.setPinned path n pinned)
  | .configure historyDepth role => { v with historyDepth, role }

/-- No history yet. -/
def start (historyDepth : Nat) (role : NodeRole) : Versions Id Path :=
  { history := ∅, historyDepth, role }

/-- The version index a tag name stands for (`index_of_tag`). -/
def indexOfTag (v : Versions Id Path) (path : Path) (name : String) : Option Nat :=
  v.history[path]?.bind fun es => es.findIdx? fun e => decide (e.tag = some name)

end Versions

/-- The version that replacing a record makes. -/
def VersionEntry.ofRecord (r : FileRecord Id) : VersionEntry Id :=
  { manifest := r.manifest, vv := r.vv, tsMs := r.updatedAtMs, size := r.size,
    tag := none, pinned := false }

/-- A version without its tag and its pin. -/
def VersionEntry.bare (e : VersionEntry Id) : VersionEntry Id :=
  { e with tag := none, pinned := false }

theorem VersionEntry.clear_of_none {e : VersionEntry Id} (h : e.tag = none) :
    { e with tag := none } = e := by
  cases e
  dsimp only at h
  rw [h]

/-! ## The trail -/

/-- What a path's history stands for. -/
structure Trail (Id : Type) [Ord Id] where
  depth : Nat
  /-- The records pushed, in their order. -/
  pushed : List (FileRecord Id)
  /-- The versions kept, newest first, each with the number of its push. -/
  kept : List (Nat × VersionEntry Id)
  /-- The version a name was given to last, unless that version has been renamed since. -/
  named : String → Option Nat

namespace Trail

/-- The newest `depth` versions and everything pinned. -/
def keep (depth : Nat) (kept : List (Nat × VersionEntry Id)) : List (Nat × VersionEntry Id) :=
  kept.take depth ++ (kept.drop depth).filter fun x => x.2.pinned

/-- The version with number `k` gets the name, which every other version loses. -/
def retag (k : Nat) (name : Option String) (x : Nat × VersionEntry Id) : Nat × VersionEntry Id :=
  if x.1 = k then (x.1, { x.2 with tag := name })
  else if x.2.tag = name then (x.1, { x.2 with tag := none })
  else x

def repin (k : Nat) (pinned : Bool) (x : Nat × VersionEntry Id) : Nat × VersionEntry Id :=
  if x.1 = k then (x.1, { x.2 with pinned }) else x

/-- The trail of one path. -/
def step (path : Path) (t : Trail Id) : VersionAct Id Path → Trail Id
  | .push p replaced =>
      if p = path ∧ replaced.deleted = false then
        { t with
          pushed := t.pushed ++ [replaced]
          kept := keep t.depth ((t.pushed.length, .ofRecord replaced) :: t.kept) }
      else t
  | .tag p n name =>
      match t.kept[n]? with
      | some (k, _) =>
          if p = path then
            { t with
              kept := t.kept.map (retag k name)
              named := fun other =>
                if name = some other then some k
                else if t.named other = some k then none
                else t.named other }
          else t
      | none => t
  | .setPinned p n pinned =>
      match t.kept[n]? with
      | some (k, _) =>
          if p = path then { t with kept := t.kept.map (repin k pinned) } else t
      | none => t
  | .configure historyDepth role => { t with depth := effectiveDepth historyDepth role }

def start (depth : Nat) : Trail Id :=
  { depth, pushed := [], kept := [], named := fun _ => none }

end Trail

/-! ## The functions on the list -/

/-- Pruning, as a statement about the list: the newest `depth` versions and what is pinned
beyond them. -/
theorem pruneFrom_eq (depth : Nat) (es : List (VersionEntry Id)) :
    ∀ idx, pruneFrom depth idx es =
      es.take (depth - idx) ++ (es.drop (depth - idx)).filter fun e => e.pinned := by
  induction es with
  | nil =>
      intro idx
      simp [pruneFrom]
  | cons e es ih =>
      intro idx
      rw [pruneFrom, ih (idx + 1)]
      by_cases hidx : idx < depth
      · have hnext : depth - idx = depth - (idx + 1) + 1 := by omega
        simp [hidx, hnext]
      · have hzero : depth - idx = 0 := by omega
        have hzero' : depth - (idx + 1) = 0 := by omega
        cases hp : e.pinned <;> simp [hidx, hzero, hzero', hp]

theorem pruneToDepth_eq (depth : Nat) (es : List (VersionEntry Id)) :
    pruneToDepth es depth = es.take depth ++ (es.drop depth).filter fun e => e.pinned := by
  rw [pruneToDepth, pruneFrom_eq, Nat.sub_zero]

namespace Versions

theorem entries_push (v : Versions Id Path) (p path : Path) (r : FileRecord Id) :
    (v.step (.push p r)).entries path =
      if p = path ∧ r.deleted = false then
        pruneToDepth (.ofRecord r :: v.entries path) v.depth
      else v.entries path := by
  simp only [step, entries, History.push]
  cases hdeleted : r.deleted with
  | true => simp
  | false =>
      by_cases hp : p = path
      · subst hp
        simp [VersionEntry.ofRecord]
      · simp [Map.get_insert, hp]

/-- Taking the name off the versions that have it. -/
def untag (name : Option String) (es : List (VersionEntry Id)) : List (VersionEntry Id) :=
  match name with
  | some _ => es.map fun e => if e.tag = name then { e with tag := none } else e
  | none => es

theorem entries_tag (v : Versions Id Path) (p path : Path) (n : Nat) (name : Option String) :
    (v.step (.tag p n name)).entries path =
      if p = path ∧ n < (v.entries path).length then
        (untag name (v.entries path)).modify n fun e => { e with tag := name }
      else v.entries path := by
  by_cases hp : p = path
  · subst hp
    simp only [step, entries, History.tag, true_and]
    cases hes : v.history[p]? with
    | none => simp [replace, hes]
    | some es =>
        simp only [Option.getD_some]
        by_cases hn : es.length ≤ n
        · rw [if_pos hn, if_neg (by omega)]
          simp [replace, hes]
        · rw [if_neg hn, if_pos (by omega)]
          simp only [replace, Map.get_insert_self, Option.getD_some]
          cases name <;> rfl
  · simp only [step, entries, History.tag, hp, false_and, if_false]
    cases hes : v.history[p]? with
    | none => rfl
    | some es =>
        by_cases hn : es.length ≤ n
        · simp [replace, hn]
        · simp [replace, hn, Map.get_insert, hp]

theorem entries_setPinned (v : Versions Id Path) (p path : Path) (n : Nat) (pinned : Bool) :
    (v.step (.setPinned p n pinned)).entries path =
      if p = path ∧ n < (v.entries path).length then
        (v.entries path).modify n fun e => { e with pinned }
      else v.entries path := by
  by_cases hp : p = path
  · subst hp
    simp only [step, entries, History.setPinned, true_and]
    cases hes : v.history[p]? with
    | none => simp [replace, hes]
    | some es =>
        simp only [Option.getD_some]
        by_cases hn : es.length ≤ n
        · rw [if_pos hn, if_neg (by omega)]
          simp [replace, hes]
        · rw [if_neg hn, if_pos (by omega)]
          simp [replace]
  · simp only [step, entries, History.setPinned, hp, false_and, if_false]
    cases hes : v.history[p]? with
    | none => rfl
    | some es =>
        by_cases hn : es.length ≤ n
        · simp [replace, hn]
        · simp [replace, hn, Map.get_insert, hp]

@[simp] theorem depth_replace (v : Versions Id Path) (history : Option (History Id Path)) :
    (v.replace history).depth = v.depth := by
  cases history <;> rfl

theorem indexOfTag_eq (v : Versions Id Path) (path : Path) (name : String) :
    v.indexOfTag path name = (v.entries path).findIdx? fun e => decide (e.tag = some name) := by
  cases h : v.history[path]? <;> simp [indexOfTag, entries, h]

end Versions

/-! ## The trail is the list -/

namespace Trail

@[simp] theorem retag_fst (k : Nat) (name : Option String) (x : Nat × VersionEntry Id) :
    (retag k name x).1 = x.1 := by
  unfold retag
  split_ifs <;> rfl

@[simp] theorem retag_bare (k : Nat) (name : Option String) (x : Nat × VersionEntry Id) :
    (retag k name x).2.bare = x.2.bare := by
  unfold retag
  split_ifs <;> rfl

@[simp] theorem repin_fst (k : Nat) (pinned : Bool) (x : Nat × VersionEntry Id) :
    (repin k pinned x).1 = x.1 := by
  unfold repin
  split_ifs <;> rfl

@[simp] theorem repin_bare (k : Nat) (pinned : Bool) (x : Nat × VersionEntry Id) :
    (repin k pinned x).2.bare = x.2.bare := by
  unfold repin
  split_ifs <;> rfl

@[simp] theorem repin_tag (k : Nat) (pinned : Bool) (x : Nat × VersionEntry Id) :
    (repin k pinned x).2.tag = x.2.tag := by
  unfold repin
  split_ifs <;> rfl

theorem keep_sublist (depth : Nat) (kept : List (Nat × VersionEntry Id)) :
    (keep depth kept).Sublist kept := by
  have h : (keep depth kept).Sublist (kept.take depth ++ kept.drop depth) :=
    (List.Sublist.refl _).append List.filter_sublist
  rwa [List.take_append_drop] at h

theorem keep_map_snd (depth : Nat) (kept : List (Nat × VersionEntry Id)) :
    (keep depth kept).map Prod.snd = pruneToDepth (kept.map Prod.snd) depth := by
  rw [pruneToDepth_eq, keep, List.map_append, List.map_take, ← List.map_drop, List.filter_map]
  rfl

/-- Which versions have the name after a version got one: given names belong to the version
with number `k`, the other versions keep theirs unless it is this name. -/
theorem retag_tag_iff {k : Nat} {name : Option String} {x : Nat × VersionEntry Id}
    {named : String → Option Nat} (other : String)
    (h : x.2.tag = some other ↔ named other = some x.1) :
    (retag k name x).2.tag = some other ↔
      (if name = some other then some k
        else if named other = some k then none else named other) = some x.1 := by
  unfold retag
  by_cases hk : x.1 = k
  · subst hk
    by_cases hname : name = some other
    · simp [hname]
    · by_cases hother : named other = some x.1 <;> simp [hname, hother]
  · have hk' : k ≠ x.1 := Ne.symm hk
    by_cases hname : name = some other
    · subst hname
      by_cases htag : x.2.tag = some other <;> simp [hk, hk', htag]
    · rw [if_neg hk, if_neg hname]
      have hcleared : (if x.2.tag = name then (x.1, { x.2 with tag := none }) else x).2.tag =
          some other ↔ x.2.tag = some other := by
        by_cases htag : x.2.tag = name
        · simp [htag, hname]
        · simp [htag]
      rw [hcleared, h]
      by_cases hother : named other = some k
      · simp [hother, hk']
      · simp [hother]

end Trail

/-- **The list of `path` is a picture of the trail.** -/
structure Pictures (path : Path) (v : Versions Id Path) (t : Trail Id) : Prop where
  depth : t.depth = v.depth
  entries : v.entries path = t.kept.map Prod.snd
  falling : (t.kept.map Prod.fst).Pairwise (· > ·)
  record : ∀ x ∈ t.kept, t.pushed[x.1]?.map VersionEntry.ofRecord = some x.2.bare
  tags : ∀ x ∈ t.kept, ∀ name, x.2.tag = some name ↔ t.named name = some x.1
  namedPushed : ∀ name k, t.named name = some k → k < t.pushed.length

namespace Pictures

variable {path : Path} {v : Versions Id Path} {t : Trail Id}

theorem start (path : Path) (historyDepth : Nat) (role : NodeRole) :
    Pictures path (.start historyDepth role : Versions Id Path)
      (.start (effectiveDepth historyDepth role)) := by
  refine ⟨rfl, ?_, List.Pairwise.nil, ?_, ?_, ?_⟩
  · simp [Versions.entries, Versions.start, Trail.start]
  · intro x hx
    exact absurd hx List.not_mem_nil
  · intro x hx
    exact absurd hx List.not_mem_nil
  · intro name k h
    cases h

/-- A version kept was pushed. -/
theorem kept_lt (h : Pictures path v t) {x : Nat × VersionEntry Id} (hx : x ∈ t.kept) :
    x.1 < t.pushed.length := by
  have hrecord := h.record x hx
  by_contra hlt
  rw [List.getElem?_eq_none (by omega)] at hrecord
  cases hrecord

/-- A number stands at one index only. -/
theorem index_unique (h : Pictures path v t) {i j : Nat} {x y : Nat × VersionEntry Id}
    (hx : t.kept[i]? = some x) (hy : t.kept[j]? = some y) (hxy : x.1 = y.1) : i = j := by
  have hnodup : (t.kept.map Prod.fst).Nodup := h.falling.imp fun hgt => by omega
  have hi : (t.kept.map Prod.fst)[i]? = some x.1 := by simp [hx]
  have hj : (t.kept.map Prod.fst)[j]? = some x.1 := by simp [hy, hxy]
  have hlt : i < (t.kept.map Prod.fst).length := (List.getElem?_eq_some_iff.mp hi).1
  exact (List.getElem?_inj hlt hnodup).mp (hi.trans hj.symm)

/-- A live record pushed onto the path. -/
theorem push (h : Pictures path v t) {r : FileRecord Id} (hr : r.deleted = false) :
    Pictures path (v.step (.push path r)) (t.step path (.push path r)) := by
  have hstep : t.step path (.push path r) = { t with
      pushed := t.pushed ++ [r]
      kept := Trail.keep t.depth ((t.pushed.length, .ofRecord r) :: t.kept) } := by
    simp [Trail.step, hr]
  have hkept {x : Nat × VersionEntry Id}
      (hx : x ∈ Trail.keep t.depth ((t.pushed.length, .ofRecord r) :: t.kept)) :
      x = (t.pushed.length, .ofRecord r) ∨ x ∈ t.kept :=
    List.mem_cons.mp ((Trail.keep_sublist _ _).subset hx)
  rw [hstep]
  refine ⟨h.depth, ?_, ?_, ?_, ?_, ?_⟩
  · rw [Versions.entries_push, if_pos ⟨rfl, hr⟩, Trail.keep_map_snd, h.depth, h.entries]
    rfl
  · have hcons : (((t.pushed.length, VersionEntry.ofRecord r) :: t.kept).map
        Prod.fst).Pairwise (· > ·) := by
      rw [List.map_cons, List.pairwise_cons]
      refine ⟨fun k hk => ?_, h.falling⟩
      obtain ⟨x, hx, rfl⟩ := List.mem_map.mp hk
      exact h.kept_lt hx
    exact hcons.sublist ((Trail.keep_sublist _ _).map Prod.fst)
  · intro x hx
    rcases hkept hx with rfl | hx
    · simp [VersionEntry.bare, VersionEntry.ofRecord]
    · show (t.pushed ++ [r])[x.1]?.map VersionEntry.ofRecord = _
      rw [List.getElem?_append_left (h.kept_lt hx)]
      exact h.record x hx
  · intro x hx name
    rcases hkept hx with rfl | hx
    · constructor
      · intro htag
        cases htag
      · intro hnamed
        exact absurd (h.namedPushed name _ hnamed) (lt_irrefl _)
    · exact h.tags x hx name
  · intro name k hk
    have hlt := h.namedPushed name k hk
    show k < (t.pushed ++ [r]).length
    rw [List.length_append]
    omega

/-- An act on the entry at an index that does not exist changes nothing. -/
theorem out_of_range (h : Pictures path v t) {n : Nat} (hn : t.kept[n]? = none) :
    ¬ n < (v.entries path).length := by
  have hle := List.getElem?_eq_none_iff.mp hn
  rw [h.entries, List.length_map]
  omega

theorem in_range (h : Pictures path v t) {n : Nat} {x : Nat × VersionEntry Id}
    (hn : t.kept[n]? = some x) : n < (v.entries path).length := by
  rw [h.entries, List.length_map]
  exact (List.getElem?_eq_some_iff.mp hn).1

/-- Changing the entry at an index is changing the version with its number. -/
theorem modify_eq (h : Pictures path v t) {n : Nat} {x : Nat × VersionEntry Id}
    (hn : t.kept[n]? = some x) (g f : VersionEntry Id → VersionEntry Id)
    (change : Nat × VersionEntry Id → Nat × VersionEntry Id)
    (hat : ∀ y ∈ t.kept, y.1 = x.1 → (change y).2 = f (g y.2))
    (hoff : ∀ y ∈ t.kept, y.1 ≠ x.1 → (change y).2 = g y.2) :
    ((v.entries path).map g).modify n f = (t.kept.map change).map Prod.snd := by
  apply List.ext_getElem?
  intro i
  rw [h.entries, List.getElem?_modify]
  simp only [List.getElem?_map]
  cases hi : t.kept[i]? with
  | none => simp
  | some y =>
      have hy : y ∈ t.kept := List.mem_of_getElem? hi
      by_cases hin : n = i
      · have hxy : y = x := by
          rw [hin, hi] at hn
          exact Option.some.inj hn
        simp [hin, hat y hy (by rw [hxy])]
      · have hne : y.1 ≠ x.1 := fun heq => hin (h.index_unique hn hi heq.symm)
        simp [hin, hoff y hy hne]

/-- A version got a name, or lost the one it had. -/
theorem tag (h : Pictures path v t) (n : Nat) (name : Option String) :
    Pictures path (v.step (.tag path n name)) (t.step path (.tag path n name)) := by
  have hdepth : (v.step (.tag path n name)).depth = v.depth := Versions.depth_replace v _
  cases hn : t.kept[n]? with
  | none =>
      have hsame : (v.step (.tag path n name)).entries path = v.entries path := by
        rw [Versions.entries_tag, if_neg fun hp => h.out_of_range hn hp.2]
      simp only [Trail.step, hn]
      exact ⟨h.depth.trans hdepth.symm, hsame.trans h.entries, h.falling, h.record, h.tags,
        h.namedPushed⟩
  | some x =>
      have hx : x ∈ t.kept := List.mem_of_getElem? hn
      simp only [Trail.step, hn, if_true]
      refine ⟨h.depth.trans hdepth.symm, ?_, ?_, ?_, ?_, ?_⟩
      · have huntag : Versions.untag name (v.entries path) =
            (v.entries path).map fun e =>
              if name.isSome ∧ e.tag = name then { e with tag := none } else e := by
          cases name <;> simp [Versions.untag]
        rw [Versions.entries_tag, if_pos ⟨rfl, h.in_range hn⟩, huntag]
        refine h.modify_eq hn _ _ _ ?_ ?_
        · intro y _ hy
          simp only [Trail.retag, hy, if_true]
          split_ifs <;> rfl
        · intro y _ hy
          cases name with
          | none =>
              by_cases htag : y.2.tag = none
              · simp [Trail.retag, hy, htag, VersionEntry.clear_of_none htag]
              · simp [Trail.retag, hy, htag]
          | some name =>
              by_cases htag : y.2.tag = some name <;> simp [Trail.retag, hy, htag]
      · simpa [List.map_map, Function.comp_def] using h.falling
      · intro y hy
        obtain ⟨z, hz, rfl⟩ := List.mem_map.mp hy
        rw [Trail.retag_fst, Trail.retag_bare]
        exact h.record z hz
      · intro y hy other
        obtain ⟨z, hz, rfl⟩ := List.mem_map.mp hy
        rw [Trail.retag_fst]
        exact Trail.retag_tag_iff other (h.tags z hz other)
      · intro other k hk
        dsimp only at hk
        split_ifs at hk
        · cases hk
          exact h.kept_lt hx
        · exact h.namedPushed other k hk

/-- A version was pinned or unpinned. -/
theorem setPinned (h : Pictures path v t) (n : Nat) (pinned : Bool) :
    Pictures path (v.step (.setPinned path n pinned)) (t.step path (.setPinned path n pinned)) := by
  have hdepth : (v.step (.setPinned path n pinned)).depth = v.depth := Versions.depth_replace v _
  cases hn : t.kept[n]? with
  | none =>
      have hsame : (v.step (.setPinned path n pinned)).entries path = v.entries path := by
        rw [Versions.entries_setPinned, if_neg fun hp => h.out_of_range hn hp.2]
      simp only [Trail.step, hn]
      exact ⟨h.depth.trans hdepth.symm, hsame.trans h.entries, h.falling, h.record, h.tags,
        h.namedPushed⟩
  | some x =>
      simp only [Trail.step, hn, if_true]
      refine ⟨h.depth.trans hdepth.symm, ?_, ?_, ?_, ?_, h.namedPushed⟩
      · rw [Versions.entries_setPinned, if_pos ⟨rfl, h.in_range hn⟩,
          ← List.map_id (v.entries path)]
        refine h.modify_eq hn id _ _ ?_ ?_
        · intro y _ hy
          simp [Trail.repin, hy]
        · intro y _ hy
          simp [Trail.repin, hy]
      · simpa [List.map_map, Function.comp_def] using h.falling
      · intro y hy
        obtain ⟨z, hz, rfl⟩ := List.mem_map.mp hy
        rw [Trail.repin_fst, Trail.repin_bare]
        exact h.record z hz
      · intro y hy other
        obtain ⟨z, hz, rfl⟩ := List.mem_map.mp hy
        rw [Trail.repin_fst, Trail.repin_tag]
        exact h.tags z hz other

/-- An act that leaves the list and the trail of this path alone. -/
theorem frame {v' : Versions Id Path} (h : Pictures path v t) (hdepth : v'.depth = v.depth)
    (hentries : v'.entries path = v.entries path) : Pictures path v' t :=
  ⟨h.depth.trans hdepth.symm, hentries.trans h.entries, h.falling, h.record, h.tags,
    h.namedPushed⟩

/-- **One act.** -/
theorem step (h : Pictures path v t) (act : VersionAct Id Path) :
    Pictures path (v.step act) (t.step path act) := by
  cases act with
  | push p r =>
      by_cases hp : p = path ∧ r.deleted = false
      · obtain ⟨rfl, hr⟩ := hp
        exact h.push hr
      · have htrail : t.step path (.push p r) = t := if_neg hp
        rw [htrail]
        exact h.frame rfl (by rw [Versions.entries_push, if_neg hp])
  | tag p n name =>
      by_cases hp : p = path
      · subst hp
        exact h.tag n name
      · have htrail : t.step path (.tag p n name) = t := by
          simp only [Trail.step, if_neg hp]
          split <;> rfl
        rw [htrail]
        exact h.frame (Versions.depth_replace v _)
          (by rw [Versions.entries_tag, if_neg fun hpn => hp hpn.1])
  | setPinned p n pinned =>
      by_cases hp : p = path
      · subst hp
        exact h.setPinned n pinned
      · have htrail : t.step path (.setPinned p n pinned) = t := by
          simp only [Trail.step, if_neg hp]
          split <;> rfl
        rw [htrail]
        exact h.frame (Versions.depth_replace v _)
          (by rw [Versions.entries_setPinned, if_neg fun hpn => hp hpn.1])
  | configure historyDepth role =>
      exact ⟨rfl, h.entries, h.falling, h.record, h.tags, h.namedPushed⟩

end Pictures

/-! ## Whole runs -/

namespace Versions

def run (v : Versions Id Path) (acts : List (VersionAct Id Path)) : Versions Id Path :=
  acts.foldl step v

end Versions

namespace Trail

def run (path : Path) (t : Trail Id) (acts : List (VersionAct Id Path)) : Trail Id :=
  acts.foldl (step path) t

end Trail

theorem Pictures.run {path : Path} {v : Versions Id Path} {t : Trail Id}
    (h : Pictures path v t) (acts : List (VersionAct Id Path)) :
    Pictures path (v.run acts) (t.run path acts) := by
  induction acts generalizing v t with
  | nil => exact h
  | cons act acts ih => exact ih (h.step act)

/-- The live records pushed onto a path, in their order. -/
def pushedOn (path : Path) (acts : List (VersionAct Id Path)) : List (FileRecord Id) :=
  acts.filterMap fun act =>
    match act with
    | .push p r => if p = path ∧ r.deleted = false then some r else none
    | _ => none

/-- The record an act pushes onto the path, if it does. -/
theorem Trail.step_pushed (path : Path) (t : Trail Id) (act : VersionAct Id Path) :
    (t.step path act).pushed = t.pushed ++ pushedOn path [act] := by
  cases act with
  | push p r =>
      by_cases hp : p = path ∧ r.deleted = false
      · simp [Trail.step, pushedOn, hp]
      · simp [Trail.step, pushedOn, hp]
  | tag p n name =>
      simp only [Trail.step, pushedOn, List.filterMap_cons_none, List.filterMap_nil,
        List.append_nil]
      split
      · split_ifs <;> rfl
      · rfl
  | setPinned p n pinned =>
      simp only [Trail.step, pushedOn, List.filterMap_cons_none, List.filterMap_nil,
        List.append_nil]
      split
      · split_ifs <;> rfl
      · rfl
  | configure historyDepth role => simp [Trail.step, pushedOn]

theorem pushedOn_append (path : Path) (as bs : List (VersionAct Id Path)) :
    pushedOn path (as ++ bs) = pushedOn path as ++ pushedOn path bs := by
  simp [pushedOn]

theorem Trail.run_pushed (path : Path) (t : Trail Id) (acts : List (VersionAct Id Path)) :
    (t.run path acts).pushed = t.pushed ++ pushedOn path acts := by
  induction acts generalizing t with
  | nil => simp [Trail.run, pushedOn]
  | cons act acts ih =>
      have hsplit := pushedOn_append path [act] acts
      show (Trail.run path (t.step path act) acts).pushed = _
      rw [ih, Trail.step_pushed, List.append_assoc, ← hsplit]
      rfl

/-- Entries under falling numbers, each the value at its number: a part of the values, last
one first. -/
theorem sublist_reverse_of_falling {α β : Type} (f : α → β) (xs : List (Nat × α)) :
    ∀ values : List β, (xs.map Prod.fst).Pairwise (· > ·) →
      (∀ x ∈ xs, values[x.1]? = some (f x.2)) →
        (xs.map fun x => f x.2).Sublist values.reverse := by
  induction xs with
  | nil =>
      intro values _ _
      exact List.nil_sublist _
  | cons x xs ih =>
      intro values hfalling hvalue
      rw [List.map_cons, List.pairwise_cons] at hfalling
      have hx := hvalue x List.mem_cons_self
      obtain ⟨hlt, hget⟩ := List.getElem?_eq_some_iff.mp hx
      -- everything after `x` lies among the values before it
      have hrest : (xs.map fun x => f x.2).Sublist (values.take x.1).reverse := by
        refine ih (values.take x.1) hfalling.2 ?_
        intro y hy
        have hylt : y.1 < x.1 := hfalling.1 y.1 (List.mem_map.mpr ⟨y, hy, rfl⟩)
        rw [List.getElem?_take_of_lt hylt]
        exact hvalue y (List.mem_cons_of_mem x hy)
      have hsplit : values.reverse =
          (values.drop (x.1 + 1)).reverse ++ f x.2 :: (values.take x.1).reverse := by
        conv_lhs => rw [← List.take_append_drop x.1 values, List.drop_eq_getElem_cons hlt, hget]
        simp
      rw [hsplit]
      exact (hrest.cons_cons (f x.2)).trans (List.sublist_append_right _ _)

theorem findIdx?_congr {α : Type} {p q : α → Bool} {l : List α} (h : ∀ x ∈ l, p x = q x) :
    l.findIdx? p = l.findIdx? q := by
  induction l with
  | nil => rfl
  | cons x l ih =>
      rw [List.findIdx?_cons, List.findIdx?_cons, h x List.mem_cons_self,
        ih fun y hy => h y (List.mem_cons_of_mem x hy)]

/-! ## What the history promises -/

/-- **What a user may rely on** about the history of `path` after `acts`. -/
structure Represented (path : Path) (historyDepth : Nat) (role : NodeRole)
    (acts : List (VersionAct Id Path)) : Prop where
  /-- What is kept was pushed, newest first. -/
  newestFirst :
    ((((Versions.start historyDepth role).run acts).entries path).map
      VersionEntry.bare).Sublist ((pushedOn path acts).reverse.map VersionEntry.ofRecord)
  /-- One push more keeps the `depth` newest and everything pinned, and nothing else. -/
  pruned : ∀ r : FileRecord Id, r.deleted = false →
    let v := (Versions.start historyDepth role).run acts
    let before := VersionEntry.ofRecord r :: v.entries path
    let after := (v.step (.push path r)).entries path
    after.take v.depth = before.take v.depth ∧
      after.filter (fun e => e.pinned) = before.filter (fun e => e.pinned) ∧
        ∀ e ∈ after.drop v.depth, e.pinned = true
  /-- While the depth stays at `d`, the `d` records pushed last are there. -/
  recent : ∀ d,
    (∀ as r bs, acts = as ++ .push path r :: bs → r.deleted = false →
      ((Versions.start historyDepth role).run as : Versions Id Path).depth = d) →
    ((((Versions.start historyDepth role).run acts).entries path).map
      VersionEntry.bare).take d = ((pushedOn path acts).reverse.map VersionEntry.ofRecord).take d
  /-- A name belongs to one version at most. -/
  tagUnique : ∀ (name : String) (i j : Nat) (e e' : VersionEntry Id),
    (((Versions.start historyDepth role).run acts).entries path)[i]? = some e →
    (((Versions.start historyDepth role).run acts).entries path)[j]? = some e' →
    e.tag = some name → e'.tag = some name → i = j
  /-- The trail follows the versions by the number of their push. -/
  trail : ((Versions.start historyDepth role).run acts).entries path =
    (((Trail.start (effectiveDepth historyDepth role)).run path acts).kept).map Prod.snd
  /-- A name stands for the version it was given to last, if that is kept and has not been
  renamed. -/
  tagged : ∀ name : String,
    ((Versions.start historyDepth role).run acts).indexOfTag path name =
      (((Trail.start (effectiveDepth historyDepth role)).run path acts).named name).bind fun k =>
        ((Trail.start (effectiveDepth historyDepth role)).run path acts).kept.findIdx? fun x =>
          decide (x.1 = k)

namespace Pictures

variable {path : Path} {v : Versions Id Path} {t : Trail Id}

theorem newestFirst (h : Pictures path v t) :
    ((v.entries path).map VersionEntry.bare).Sublist
      (t.pushed.reverse.map VersionEntry.ofRecord) := by
  have hsub := sublist_reverse_of_falling VersionEntry.bare t.kept
    (t.pushed.map VersionEntry.ofRecord) h.falling (fun x hx => by
      rw [List.getElem?_map]
      exact h.record x hx)
  rw [h.entries, List.map_map, List.map_reverse]
  exact hsub

theorem tagUnique (h : Pictures path v t) {name : String} {i j : Nat}
    {e e' : VersionEntry Id} (hi : (v.entries path)[i]? = some e)
    (hj : (v.entries path)[j]? = some e') (he : e.tag = some name)
    (he' : e'.tag = some name) : i = j := by
  rw [h.entries, List.getElem?_map, Option.map_eq_some_iff] at hi hj
  obtain ⟨x, hx, rfl⟩ := hi
  obtain ⟨y, hy, rfl⟩ := hj
  have hxk := (h.tags x (List.mem_of_getElem? hx) name).mp he
  have hyk := (h.tags y (List.mem_of_getElem? hy) name).mp he'
  exact h.index_unique hx hy (Option.some.inj (hxk.symm.trans hyk))

theorem tagged (h : Pictures path v t) (name : String) :
    v.indexOfTag path name =
      (t.named name).bind fun k => t.kept.findIdx? fun x => decide (x.1 = k) := by
  rw [Versions.indexOfTag_eq, h.entries, List.findIdx?_map]
  cases hnamed : t.named name with
  | none =>
      rw [Option.bind_none, List.findIdx?_eq_none_iff]
      intro x hx
      have htag : ¬ x.2.tag = some name := fun htag => by
        have hk := (h.tags x hx name).mp htag
        rw [hnamed] at hk
        cases hk
      simp [htag]
  | some k =>
      refine findIdx?_congr fun x hx => ?_
      have htag := h.tags x hx name
      rw [hnamed, Option.some.injEq] at htag
      simp only [Function.comp_apply, htag, eq_comm]

end Pictures

/-- Right after a push. -/
theorem push_pruned (v : Versions Id Path) (path : Path) {r : FileRecord Id}
    (hr : r.deleted = false) :
    ((v.step (.push path r)).entries path).take v.depth =
        (VersionEntry.ofRecord r :: v.entries path).take v.depth ∧
      ((v.step (.push path r)).entries path).filter (fun e => e.pinned) =
          (VersionEntry.ofRecord r :: v.entries path).filter (fun e => e.pinned) ∧
        ∀ e ∈ ((v.step (.push path r)).entries path).drop v.depth, e.pinned = true := by
  rw [Versions.entries_push, if_pos ⟨rfl, hr⟩, pruneToDepth_eq]
  generalize VersionEntry.ofRecord r :: v.entries path = before
  by_cases hlen : before.length ≤ v.depth
  · -- nothing lies beyond the depth
    simp [List.take_of_length_le hlen, List.drop_eq_nil_of_le hlen]
  · have htake : (before.take v.depth).length = v.depth := by
      rw [List.length_take]
      omega
    refine ⟨?_, ?_, ?_⟩
    · rw [List.take_append_of_le_length htake.ge, List.take_take, min_self]
    · conv_rhs => rw [← List.take_append_drop v.depth before, List.filter_append]
      rw [List.filter_append, List.filter_filter]
      simp
    · intro e he
      rw [List.drop_append_of_le_length htake.ge, List.drop_eq_nil_of_le htake.le,
        List.nil_append] at he
      exact (List.mem_filter.mp he).2

/-- Tags and pins do not touch what the versions are. -/
theorem Trail.step_bare (path : Path) (t : Trail Id) {act : VersionAct Id Path}
    (hact : pushedOn path [act] = []) :
    (t.step path act).kept.map (fun x => x.2.bare) = t.kept.map fun x => x.2.bare := by
  cases act with
  | push p r =>
      have hp : ¬ (p = path ∧ r.deleted = false) := fun hp => by simp [pushedOn, hp] at hact
      simp [Trail.step, hp]
  | tag p n name =>
      simp only [Trail.step]
      split
      · split_ifs
        · simp [Function.comp_def]
        · rfl
      · rfl
  | setPinned p n pinned =>
      simp only [Trail.step]
      split
      · split_ifs
        · simp [Function.comp_def]
        · rfl
      · rfl
  | configure historyDepth role => rfl

theorem take_cons_congr {α : Type} {l l' : List α} {d : Nat} (a : α)
    (h : l.take d = l'.take d) : (a :: l).take d = (a :: l').take d := by
  cases d with
  | zero => rfl
  | succ d =>
      have hshorter := congrArg (List.take d) h
      rw [List.take_take, List.take_take, Nat.min_eq_left (Nat.le_succ d)] at hshorter
      rw [List.take_succ_cons, List.take_succ_cons, hshorter]

/-- While the depth stays at `d`, the newest `d` versions are the `d` last records. -/
theorem recent_run (path : Path) (historyDepth : Nat) (role : NodeRole) (d : Nat)
    (acts : List (VersionAct Id Path))
    (hdepth : ∀ as r bs, acts = as ++ .push path r :: bs → r.deleted = false →
      ((Versions.start historyDepth role).run as : Versions Id Path).depth = d) :
    ((((Versions.start historyDepth role).run acts).entries path).map
      VersionEntry.bare).take d =
        ((pushedOn path acts).reverse.map VersionEntry.ofRecord).take d := by
  induction acts using List.reverseRecOn with
  | nil => simp [Versions.run, Versions.start, Versions.entries, pushedOn]
  | append_singleton acts act ih =>
      have hbefore := ih fun as r bs has hr => hdepth as r (bs ++ [act]) (by simp [has]) hr
      have hrun : (Versions.start historyDepth role).run (acts ++ [act]) =
          ((Versions.start historyDepth role).run acts : Versions Id Path).step act := by
        simp [Versions.run]
      have hpicture := (Pictures.start path historyDepth role).run acts
      rw [hrun, pushedOn_append]
      by_cases hact : pushedOn path [act] = []
      · have hsame := Trail.step_bare path
          ((Trail.start (effectiveDepth historyDepth role)).run path acts) hact
        rw [hact, List.append_nil, (hpicture.step act).entries, List.map_map,
          Function.comp_def, hsame, ← hbefore, hpicture.entries, List.map_map]
        rfl
      · -- a live record goes to the front of both lists
        obtain ⟨r, rfl, hr⟩ : ∃ r, act = .push path r ∧ r.deleted = false := by
          cases act with
          | push p r =>
              by_cases hp : p = path ∧ r.deleted = false
              · exact ⟨r, by rw [hp.1], hp.2⟩
              · simp [pushedOn, hp] at hact
          | tag p n name => simp [pushedOn] at hact
          | setPinned p n pinned => simp [pushedOn] at hact
          | configure historyDepth role => simp [pushedOn] at hact
        have hd := hdepth acts r [] rfl hr
        have htake := (push_pruned ((Versions.start historyDepth role).run acts) path hr).1
        rw [hd] at htake
        rw [← List.map_take, htake, List.map_take, List.map_cons]
        have hpushed : (pushedOn path acts ++ pushedOn path [.push path r]).reverse =
            r :: (pushedOn path acts).reverse := by
          simp [pushedOn, hr]
        rw [hpushed, List.map_cons]
        exact take_cons_congr _ hbefore

/-- **What the history promises, after every sequence of acts.** -/
theorem history_represented (path : Path) (historyDepth : Nat) (role : NodeRole)
    (acts : List (VersionAct Id Path)) : Represented path historyDepth role acts := by
  have h := (Pictures.start path historyDepth role : Pictures path (Versions.start historyDepth
    role : Versions Id Path) _).run acts
  have hpushed := Trail.run_pushed path (Trail.start (effectiveDepth historyDepth role)) acts
  refine ⟨?_, ?_, fun d => recent_run path historyDepth role d acts, ?_, h.entries, h.tagged⟩
  · have hnewest := h.newestFirst
    rwa [hpushed] at hnewest
  · intro r hr
    exact push_pruned _ path hr
  · intro name i j e e' hi hj he he'
    exact h.tagUnique hi hj he he'

end Tazamun
