import Tazamun.Conflicts.Listing
import Tazamun.Lib.Run

set_option autoImplicit false

/-! # The conflict center at work

Copies come into the quarantine whenever the daemon finds bytes that it must not lose, and they
leave it in two ways, both of which somebody has asked for: one copy is discarded, or all that are
older than some age are pruned (`conflicts.rs`). The command line prunes while the daemon
quarantines and discards. A removal goes name by name; then it reads the index, drops the lines
of what it removed, and puts the result in the place of the index. Lines that were added in
between are lost, and so is what else the index knew.

`Center` has the quarantine, the removals on their way, the calls of `quarantine` there were, and
the names that a removal was asked for. Whatever runs when: a file that nobody asked to remove is
what the calls made it (**`copies_kept`**), and the listing has every file once, with the path and
the reason of a call that made it, or without them, but never with those of another file
(**`listing_true`**).
-/

namespace Tazamun

open Lib

/-! ## Removing -/

def ConflictsDir.remove (dir : ConflictsDir) (name : Name) : ConflictsDir :=
  dir.filter fun file => file.1 ≠ name

/-- Older than the cutoff. -/
def selectPrunable (entries : List ConflictEntry) (now olderThan : U64) : List ConflictEntry :=
  entries.filter fun e => e.tsMs.val < now.val - olderThan.val

/-- A removal on its way (`discard`, `prune`): names to go and names done, or the new index. -/
inductive Sweep where
  | removing (todo removed : List Name)
  | rewriting (kept : List IndexLine)

structure Center where
  q : Quarantine
  sweeps : List Sweep
  calls : List Call
  doomed : List Name

inductive CenterAct where
  /-- A copy is made; its line in the index comes later. -/
  | quarantine (call : Call)
  | index (k : Nat) (tsMs : U64)
  | discard (name : Name)
  /-- The user has confirmed what the listing showed. -/
  | prune (mtime : Name → U64) (now olderThan : U64)
  | remove (i : Nat) (ok : Bool)
  | reread (i : Nat)
  | rewrite (i : Nat) (ok : Bool)

namespace Center

def init (q : Quarantine) : Center := { q, sweeps := [], calls := [], doomed := [] }

def sweep (c : Center) (names : List Name) : Center :=
  { c with sweeps := c.sweeps ++ [.removing names []], doomed := c.doomed ++ names }

/-- `rewrite_index_without`, as far as the new lines. -/
def indexWithout (index : List IndexLine) (names : List Name) : List IndexLine :=
  index.filter fun line => line.name ∉ names

variable (windows : Bool) (blake3 : List UInt8 → Digest)

def step (c : Center) : CenterAct → Option Center
  | .quarantine call =>
      some { c with
        q := (Tazamun.quarantine blake3 c.q { call with indexed := none }).1
        calls := c.calls ++ [call] }
  | .index k tsMs =>
      match c.calls[k]? with
      | none => none
      | some call =>
          match call.copy with
          | .copied bytes =>
              some { c with
                q.index := appendIndex blake3 c.q.index { call with indexed := some tsMs }
                  bytes.length }
          | _ => none
  | .discard name => some (c.sweep [name])
  | .prune mtime now olderThan =>
      some (c.sweep ((selectPrunable (c.q.list mtime) now olderThan).map ConflictEntry.name))
  | .remove i ok =>
      match c.sweeps[i]? with
      | some (.removing (name :: todo) removed) =>
          if (copyPath windows c.q.copies name).isOk && ok then
            some { c with
              q.copies := c.q.copies.remove name
              sweeps := c.sweeps.set i (.removing todo (removed ++ [name])) }
          else some { c with sweeps := c.sweeps.set i (.removing todo removed) }
      | _ => none
  | .reread i =>
      match c.sweeps[i]? with
      | some (.removing [] (name :: removed)) =>
          some { c with
            sweeps := c.sweeps.set i (.rewriting (indexWithout c.q.index (name :: removed))) }
      | _ => none
  | .rewrite i ok =>
      match c.sweeps[i]? with
      | some (.rewriting kept) =>
          some { c with
            q.index := if ok then kept else c.q.index
            sweeps := c.sweeps.set i (.removing [] []) }
      | _ => none

end Center

/-! ## The directory -/

namespace ConflictsDir

theorem read_remove (dir : ConflictsDir) (name other : Name) :
    (dir.remove name).read other = if name = other then none else dir.read other := by
  unfold read remove
  rw [List.find?_filter]
  by_cases h : name = other
  · subst h
    rw [if_pos rfl, Option.map_eq_none_iff, List.find?_eq_none]
    intro file _
    simp
  · rw [if_neg h]
    congr 2
    funext file
    by_cases hfile : file.1 = other
    · simp [hfile, Ne.symm h]
    · simp [hfile]

theorem names_remove (dir : ConflictsDir) (name : Name) :
    (dir.remove name).names = dir.names.filter fun other => other ≠ name := by
  unfold remove names
  rw [List.filter_map]
  rfl

theorem read_of_mem {dir : ConflictsDir} (hnodup : dir.names.Nodup) {file : Name × List UInt8}
    (h : file ∈ dir) : dir.read file.1 = some file.2 := by
  unfold read
  induction dir with
  | nil => cases h
  | cons first dir ih =>
      obtain ⟨hfirst, hrest⟩ := List.nodup_cons.mp hnodup
      rcases List.mem_cons.mp h with rfl | h
      · rw [List.find?_cons_of_pos (by simp)]
        rfl
      · have hne : first.1 ≠ file.1 := by
          intro heq
          exact hfirst (heq ▸ List.mem_map_of_mem h)
        rw [List.find?_cons_of_neg (by simpa using hne)]
        exact ih hrest h

end ConflictsDir

namespace Center

variable {windows : Bool} {blake3 : List UInt8 → Digest} {q₀ : Quarantine} {c c' : Center}

/-! ## What the steps do -/

/-- The line of a copy comes later. -/
theorem quarantine_index (q : Quarantine) (call : Call) :
    (Tazamun.quarantine blake3 q { call with indexed := none }).1.index = q.index := by
  unfold Tazamun.quarantine appendIndex
  cases call.copy <;> rfl

theorem step_index {k : Nat} {tsMs : U64} (h : c.step windows blake3 (.index k tsMs) = some c') :
    ∃ call bytes, c.calls[k]? = some call ∧ call.copy = .copied bytes ∧
      c' = { c with
        q.index := appendIndex blake3 c.q.index { call with indexed := some tsMs }
          bytes.length } := by
  unfold Center.step at h
  dsimp only at h
  cases hk : c.calls[k]? with
  | none => simp [hk] at h
  | some call =>
      cases hcopy : call.copy with
      | untouched => simp [hk, hcopy] at h
      | broken left => simp [hk, hcopy] at h
      | copied bytes =>
          simp only [hk, hcopy, Option.some.injEq] at h
          exact ⟨call, bytes, rfl, hcopy, h.symm⟩

theorem step_remove {i : Nat} {ok : Bool} (h : c.step windows blake3 (.remove i ok) = some c') :
    ∃ name todo removed, c.sweeps[i]? = some (.removing (name :: todo) removed) ∧
      (c' = { c with
          q.copies := c.q.copies.remove name
          sweeps := c.sweeps.set i (.removing todo (removed ++ [name])) } ∨
        c' = { c with sweeps := c.sweeps.set i (.removing todo removed) }) := by
  unfold Center.step at h
  dsimp only at h
  split at h
  · rename_i name todo removed hsweep
    refine ⟨name, todo, removed, hsweep, ?_⟩
    by_cases hok : ((copyPath windows c.q.copies name).isOk && ok) = true
    · rw [if_pos hok] at h
      exact .inl (Option.some.inj h).symm
    · rw [if_neg hok] at h
      exact .inr (Option.some.inj h).symm
  · cases h

theorem step_reread {i : Nat} (h : c.step windows blake3 (.reread i) = some c') :
    ∃ names, c' =
      { c with sweeps := c.sweeps.set i (.rewriting (indexWithout c.q.index names)) } := by
  unfold Center.step at h
  dsimp only at h
  split at h
  · exact ⟨_, (Option.some.inj h).symm⟩
  · cases h

theorem step_rewrite {i : Nat} {ok : Bool} (h : c.step windows blake3 (.rewrite i ok) = some c') :
    ∃ kept, c.sweeps[i]? = some (.rewriting kept) ∧
      c' = { c with
        q.index := if ok then kept else c.q.index
        sweeps := c.sweeps.set i (.removing [] []) } := by
  unfold Center.step at h
  dsimp only at h
  split at h
  · rename_i kept hsweep
    exact ⟨kept, hsweep, (Option.some.inj h).symm⟩
  · cases h

/-- The listing has an entry for every file. -/
theorem mem_list {q : Quarantine} {mtime : Name → U64} {e : ConflictEntry} :
    e ∈ q.list mtime ↔ ∃ file ∈ q.copies, conflictEntry q.index mtime file = e := by
  unfold Quarantine.list
  rw [List.mem_mergeSort, List.mem_map]

/-! ## The invariant -/

/-- A line that a call has written. -/
def FromCall (blake3 : List UInt8 → Digest) (calls : List Call) (line : IndexLine) : Prop :=
  ∃ call ∈ calls, call.dest blake3 = line.name ∧ call.rel = line.path ∧ call.reason = line.reason

/-- What a removal has in hand. -/
def SweepOk (blake3 : List UInt8 → Digest) (q₀ : Quarantine) (c : Center) : Sweep → Prop
  | .removing todo _ => ∀ name ∈ todo, name ∈ c.doomed
  | .rewriting kept => ∀ line ∈ kept, FromCall blake3 c.calls line ∨ line ∈ q₀.index

structure Inv (blake3 : List UInt8 → Digest) (q₀ : Quarantine) (c : Center) : Prop where
  read : ∀ name, c.q.copies.read name = (q₀.run blake3 c.calls).copies.read name ∨
    name ∈ c.doomed ∧ c.q.copies.read name = none
  sweeps : ∀ sweep ∈ c.sweeps, SweepOk blake3 q₀ c sweep
  lines : ∀ line ∈ c.q.index, FromCall blake3 c.calls line ∨ line ∈ q₀.index
  nodup : q₀.copies.names.Nodup → c.q.copies.names.Nodup

theorem FromCall.mono {calls : List Call} {line : IndexLine} (h : FromCall blake3 calls line)
    (later : List Call) : FromCall blake3 (calls ++ later) line := by
  obtain ⟨call, hcall, heq⟩ := h
  exact ⟨call, List.mem_append_left _ hcall, heq⟩

theorem inv_init : (init q₀).Inv blake3 q₀ where
  read := fun _ => .inl rfl
  sweeps := fun _ h => (by cases h)
  lines := fun _ h => .inr h
  nodup := id

/-- The removals only see that there are more calls and more names to go. -/
theorem SweepOk.mono {sweep : Sweep} (h : SweepOk blake3 q₀ c sweep)
    (hdoomed : c.doomed <+: c'.doomed) (hcalls : c.calls <+: c'.calls) :
    SweepOk blake3 q₀ c' sweep := by
  cases sweep with
  | removing todo removed => exact fun name hname => hdoomed.subset (h name hname)
  | rewriting kept =>
      intro line hline
      obtain ⟨later, hlater⟩ := hcalls
      rcases h line hline with hcall | hold
      · exact .inl (hlater ▸ hcall.mono later)
      · exact .inr hold

/-- One removal goes on. -/
theorem sweeps_set {i : Nat} {sweep : Sweep} (h : ∀ s ∈ c.sweeps, SweepOk blake3 q₀ c s)
    (hsweep : SweepOk blake3 q₀ c sweep) :
    ∀ s ∈ c.sweeps.set i sweep, SweepOk blake3 q₀ c s := by
  intro s hs
  rcases List.mem_or_eq_of_mem_set hs with hs | rfl
  · exact h s hs
  · exact hsweep

theorem Inv.quarantine (h : c.Inv blake3 q₀) (call : Call) :
    ({ c with
      q := (Tazamun.quarantine blake3 c.q { call with indexed := none }).1
      calls := c.calls ++ [call] } : Center).Inv blake3 q₀ where
  read := fun name => by
    have hnow : (Tazamun.quarantine blake3 c.q { call with indexed := none }).1.copies.read name =
        if call.dest blake3 = name then call.copy.left.or (c.q.copies.read name)
        else c.q.copies.read name := read_quarantine c.q { call with indexed := none } name
    dsimp only
    rw [run_append_singleton, hnow, read_quarantine]
    by_cases hname : call.dest blake3 = name
    · rw [if_pos hname, if_pos hname]
      cases call.copy.left with
      | some bytes => exact .inl rfl
      | none =>
          rw [Option.none_or, Option.none_or]
          exact h.read name
    · rw [if_neg hname, if_neg hname]
      exact h.read name
  sweeps := fun sweep hsweep =>
    (h.sweeps sweep hsweep).mono List.prefix_rfl (List.prefix_append _ _)
  lines := fun line hline => by
    rcases h.lines line (quarantine_index c.q call ▸ hline) with hcall | hold
    · exact .inl (hcall.mono [call])
    · exact .inr hold
  nodup := fun hq => by
    have hnodup := h.nodup hq
    unfold Tazamun.quarantine
    cases call.copy with
    | untouched => exact hnodup
    | broken left => exact ConflictsDir.nodup_write hnodup
    | copied bytes => exact ConflictsDir.nodup_write hnodup

theorem Inv.sweep (h : c.Inv blake3 q₀) (names : List Name) :
    (c.sweep names).Inv blake3 q₀ where
  read := fun name => (h.read name).imp id fun hdoomed =>
    ⟨List.mem_append_left _ hdoomed.1, hdoomed.2⟩
  sweeps := fun sweep hsweep => by
    rcases List.mem_append.mp hsweep with hsweep | hsweep
    · exact (h.sweeps sweep hsweep).mono (List.prefix_append _ _) List.prefix_rfl
    · rw [List.mem_singleton.mp hsweep]
      exact fun name hname => List.mem_append_right _ hname
  lines := h.lines
  nodup := h.nodup

theorem Inv.remove (h : c.Inv blake3 q₀) {i : Nat} {ok : Bool}
    (hstep : c.step windows blake3 (.remove i ok) = some c') : c'.Inv blake3 q₀ := by
  obtain ⟨name, todo, removed, hsweep, heq⟩ := step_remove hstep
  have htodo : ∀ other ∈ name :: todo, other ∈ c.doomed := h.sweeps _ (List.mem_of_getElem? hsweep)
  have hrest : ∀ other ∈ todo, other ∈ c.doomed :=
    fun other hother => htodo other (List.mem_cons_of_mem _ hother)
  rcases heq with rfl | rfl
  · refine ⟨fun other => ?_, sweeps_set h.sweeps hrest, h.lines, fun hq => ?_⟩
    · dsimp only
      rw [ConflictsDir.read_remove]
      by_cases hother : name = other
      · rw [if_pos hother]
        exact .inr ⟨hother ▸ htodo name List.mem_cons_self, rfl⟩
      · rw [if_neg hother]
        exact h.read other
    · dsimp only
      rw [ConflictsDir.names_remove]
      exact (h.nodup hq).filter _
  · exact ⟨h.read, sweeps_set h.sweeps hrest, h.lines, h.nodup⟩

theorem Inv.reread (h : c.Inv blake3 q₀) {i : Nat}
    (hstep : c.step windows blake3 (.reread i) = some c') : c'.Inv blake3 q₀ := by
  obtain ⟨names, rfl⟩ := step_reread hstep
  refine ⟨h.read, sweeps_set h.sweeps fun line hline => ?_, h.lines, h.nodup⟩
  exact h.lines line (List.mem_filter.mp hline).1

theorem Inv.rewrite (h : c.Inv blake3 q₀) {i : Nat} {ok : Bool}
    (hstep : c.step windows blake3 (.rewrite i ok) = some c') : c'.Inv blake3 q₀ := by
  obtain ⟨kept, hsweep, rfl⟩ := step_rewrite hstep
  have hkept := h.sweeps _ (List.mem_of_getElem? hsweep)
  refine ⟨h.read, sweeps_set h.sweeps (fun name hname => (by cases hname)), ?_, h.nodup⟩
  intro line hline
  cases ok with
  | true => exact hkept line hline
  | false => exact h.lines line hline

/-- **Every step keeps the invariant.** -/
theorem Inv.step (h : c.Inv blake3 q₀) {act : CenterAct}
    (hstep : c.step windows blake3 act = some c') : c'.Inv blake3 q₀ := by
  cases act with
  | quarantine call =>
      obtain rfl := Option.some.inj hstep
      exact h.quarantine call
  | index k tsMs =>
      obtain ⟨call, bytes, hk, -, rfl⟩ := step_index hstep
      refine ⟨h.read, h.sweeps, fun line hline => ?_, h.nodup⟩
      rcases List.mem_append.mp hline with hline | hline
      · exact h.lines line hline
      · rw [List.mem_singleton.mp hline]
        exact .inl ⟨call, List.mem_of_getElem? hk, rfl, rfl, rfl⟩
  | discard name =>
      obtain rfl := Option.some.inj hstep
      exact h.sweep [name]
  | prune mtime now olderThan =>
      obtain rfl := Option.some.inj hstep
      exact h.sweep _
  | remove i ok => exact h.remove hstep
  | reread i => exact h.reread hstep
  | rewrite i ok => exact h.rewrite hstep

theorem Inv.of_reaches (hrun : Reaches (Center.step windows blake3) anyStep (init q₀) c) :
    c.Inv blake3 q₀ :=
  hrun.invariant inv_init fun _ _ _ h _ hstep => h.step hstep

/-! ## Every run -/

/-- **Nothing goes unasked**: a file of the quarantine is what the calls made it, or somebody asked
to remove it and it is gone. -/
theorem copies_kept (hrun : Reaches (Center.step windows blake3) anyStep (init q₀) c)
    (name : Name) :
    c.q.copies.read name = (q₀.run blake3 c.calls).copies.read name ∨
      name ∈ c.doomed ∧ c.q.copies.read name = none :=
  (Inv.of_reaches hrun).read name

/-- What an entry of the listing says about its file. -/
structure Labelled (blake3 : List UInt8 → Digest) (c : Center) (e : ConflictEntry) : Prop where
  size : (c.q.copies.read e.name).map List.length = some e.size
  made : ∃ call ∈ c.calls, call.dest blake3 = e.name
  path : ∀ path ∈ e.path, ∃ call ∈ c.calls, call.dest blake3 = e.name ∧ call.rel = path
  reason : ∀ reason ∈ e.reason, ∃ call ∈ c.calls, call.dest blake3 = e.name ∧
    call.reason = reason ∧ e.path = some call.rel

/-- **The listing is true**: it has every file of the quarantine once, and what it tells of a file
is true of a call that made it. -/
theorem listing_true
    (hrun : Reaches (Center.step windows blake3) anyStep (init ⟨[], []⟩) c)
    (mtime : Name → U64) :
    ((c.q.list mtime).map ConflictEntry.name).Perm c.q.copies.names ∧
      c.q.copies.names.Nodup ∧ ∀ e ∈ c.q.list mtime, Labelled blake3 c e := by
  have hinv : c.Inv blake3 ⟨[], []⟩ := Inv.of_reaches hrun
  have hnodup : c.q.copies.names.Nodup := hinv.nodup List.nodup_nil
  refine ⟨?_, hnodup, fun e he => ?_⟩
  · have hperm := (List.mergeSort_perm (c.q.copies.map (conflictEntry c.q.index mtime))
      listedBefore).map ConflictEntry.name
    rw [List.map_map] at hperm
    have hnames : ConflictEntry.name ∘ conflictEntry c.q.index mtime = Prod.fst :=
      funext fun file => conflictEntry_name _ _ _
    rwa [hnames] at hperm
  · obtain ⟨file, hfile, rfl⟩ := mem_list.mp he
    have hmem : file.1 ∈ c.q.copies.names := List.mem_map_of_mem hfile
    -- what was not made by a call is not there
    have hmade : ∃ call ∈ c.calls, call.dest blake3 = file.1 := by
      have hsome := ConflictsDir.read_isSome.mpr hmem
      rcases hinv.read file.1 with hread | ⟨-, hnone⟩
      · rw [hread, ConflictsDir.read_isSome] at hsome
        obtain ⟨call, hcall, -, hdest⟩ := ((names_run blake3 [] c.calls).2 file.1).mp hsome
        exact ⟨call, hcall, hdest⟩
      · rw [hnone] at hsome
        cases hsome
    have hread : c.q.copies.read file.1 = some file.2 :=
      ConflictsDir.read_of_mem hnodup hfile
    unfold conflictEntry
    split
    · rename_i line hline
      -- the index has a line about the file, and a call has written it
      have hname : line.name = file.1 := by simpa using List.find?_some hline
      have hline' := List.mem_reverse.mp (List.mem_of_find?_eq_some hline)
      rcases hinv.lines line hline' with ⟨call, hcall, hdest, hrel, hreason⟩ | hold
      · refine ⟨by rw [hread]; rfl, hmade, ?_, ?_⟩
        · rintro _ ⟨⟩
          exact ⟨call, hcall, hdest.trans hname, hrel⟩
        · rintro _ ⟨⟩
          exact ⟨call, hcall, hdest.trans hname, hreason, congrArg some hrel.symm⟩
      · cases hold
    · refine ⟨by rw [hread]; rfl, hmade, ?_, fun _ h => (by cases h)⟩
      intro path hpath
      obtain ⟨call, hcall, hdest⟩ := hmade
      have hname : pathFromName (fileName blake3 call.rel call.now.val) = some path := by
        rw [show fileName blake3 call.rel call.now.val = file.1 from hdest]
        exact hpath
      exact ⟨call, hcall, hdest, (pathFromName_never_wrong blake3 hname).symm⟩

/-! ## What is young -/

/-- The file is not discarded, its age is told by times from `T` on, and what is pruned is older. -/
def Spares (blake3 : List UInt8 → Digest) (name : Name) (T : Nat) (c : Center) : CenterAct → Prop
  | .index k tsMs => ∀ call ∈ c.calls[k]?, call.dest blake3 = name → T ≤ tsMs.val
  | .discard other => other ≠ name
  | .prune mtime now olderThan => now.val - olderThan.val ≤ T ∧ T ≤ (mtime name).val
  | _ => True

/-- The lines about the file are from `T` on. -/
def LinesFrom (name : Name) (T : Nat) (index : List IndexLine) : Prop :=
  ∀ line ∈ index, line.name = name → T ≤ line.tsMs.val

structure Young (name : Name) (T : Nat) (c : Center) : Prop where
  spared : name ∉ c.doomed
  lines : LinesFrom name T c.q.index
  kept : ∀ kept, .rewriting kept ∈ c.sweeps → LinesFrom name T kept

variable {name : Name} {T : Nat}

theorem Young.set (h : c.Young name T) {i : Nat} {sweep : Sweep}
    (hsweep : ∀ kept, sweep = .rewriting kept → LinesFrom name T kept) :
    ∀ kept, .rewriting kept ∈ c.sweeps.set i sweep → LinesFrom name T kept := by
  intro kept hkept
  rcases List.mem_or_eq_of_mem_set hkept with hkept | heq
  · exact h.kept kept hkept
  · exact hsweep kept heq.symm

theorem Young.sweep (h : c.Young name T) {names : List Name} (hnames : name ∉ names) :
    (c.sweep names).Young name T where
  spared := fun hmem => (List.mem_append.mp hmem).elim h.spared hnames
  lines := h.lines
  kept := fun kept hkept => by
    rcases List.mem_append.mp hkept with hkept | hkept
    · exact h.kept kept hkept
    · cases List.mem_singleton.mp hkept

/-- **A young file is not selected.** -/
theorem Young.not_prunable (h : c.Young name T) {mtime : Name → U64} {now olderThan : U64}
    (hcutoff : now.val - olderThan.val ≤ T) (hmtime : T ≤ (mtime name).val) :
    name ∉ (selectPrunable (c.q.list mtime) now olderThan).map ConflictEntry.name := by
  intro hmem
  obtain ⟨e, he, hname⟩ := List.mem_map.mp hmem
  obtain ⟨hlist, hold⟩ := List.mem_filter.mp he
  have hold' : e.tsMs.val < now.val - olderThan.val := of_decide_eq_true hold
  obtain ⟨file, -, rfl⟩ := mem_list.mp hlist
  rw [conflictEntry_name] at hname
  unfold conflictEntry at hold'
  split at hold'
  · rename_i line hline
    have hline' := List.mem_reverse.mp (List.mem_of_find?_eq_some hline)
    have hof : line.name = file.1 := by simpa using List.find?_some hline
    have hyoung := h.lines line hline' (hof.trans hname)
    dsimp only at hold'
    omega
  · dsimp only at hold'
    rw [hname] at hold'
    omega

theorem Young.step (h : c.Young name T) {act : CenterAct} (hok : c.Spares blake3 name T act)
    (hstep : c.step windows blake3 act = some c') : c'.Young name T := by
  cases act with
  | quarantine call =>
      obtain rfl := Option.some.inj hstep
      refine ⟨h.spared, ?_, h.kept⟩
      dsimp only
      rw [quarantine_index]
      exact h.lines
  | index k tsMs =>
      obtain ⟨call, bytes, hk, -, rfl⟩ := step_index hstep
      refine ⟨h.spared, fun line hline hname => ?_, h.kept⟩
      rcases List.mem_append.mp hline with hline | hline
      · exact h.lines line hline hname
      · rw [List.mem_singleton.mp hline] at hname ⊢
        exact hok call hk hname
  | discard other =>
      obtain rfl := Option.some.inj hstep
      exact h.sweep fun hmem => hok (List.mem_singleton.mp hmem).symm
  | prune mtime now olderThan =>
      obtain rfl := Option.some.inj hstep
      exact h.sweep (h.not_prunable hok.1 hok.2)
  | remove i ok =>
      obtain ⟨name, todo, removed, -, rfl | rfl⟩ := step_remove hstep
      · exact ⟨h.spared, h.lines, h.set (fun _ heq => (by cases heq))⟩
      · exact ⟨h.spared, h.lines, h.set (fun _ heq => (by cases heq))⟩
  | reread i =>
      obtain ⟨names, rfl⟩ := step_reread hstep
      refine ⟨h.spared, h.lines, h.set fun kept heq line hline => ?_⟩
      cases heq
      exact h.lines line (List.mem_filter.mp hline).1
  | rewrite i ok =>
      obtain ⟨kept, hsweep, rfl⟩ := step_rewrite hstep
      have hkept := h.kept kept (List.mem_of_getElem? hsweep)
      refine ⟨h.spared, ?_, h.set (fun _ heq => (by cases heq))⟩
      cases ok with
      | true => exact hkept
      | false => exact h.lines

/-- **Pruning spares what is young**: a file that is not discarded, and whose age is told by times
from `T` on, is what the calls made it, if all that is ever pruned is older than `T`. -/
theorem young_kept (hstart : LinesFrom name T q₀.index)
    (hrun : Reaches (Center.step windows blake3) (Spares blake3 name T) (init q₀) c) :
    c.q.copies.read name = (q₀.run blake3 c.calls).copies.read name := by
  have hyoung : c.Young name T :=
    hrun.invariant ⟨List.not_mem_nil, hstart, fun _ h => (by cases h)⟩
      fun _ _ _ h hok hstep => h.step hok hstep
  have hinv : c.Inv blake3 q₀ := Inv.of_reaches (hrun.mono fun _ _ _ => trivial)
  exact (hinv.read name).resolve_right fun h => hyoung.spared h.1

/-! ## A prune beside a quarantine -/

def noDigest (_ : List UInt8) : Digest := List.Vector.replicate 32 0

/-- The file of the second copy. -/
def secondName : Name := fileName noDigest "a" 90

/-- An old copy is pruned. Meanwhile a second one is made, and its line in the index is lost. -/
def pruneBeside : List CenterAct :=
  [.quarantine (violationOfA [1]),
    .prune (fun name => if name = secondName then 90 else 5) 100 50,
    .quarantine { violationOfA [2] with now := 90 }, .remove 0 true, .reread 0, .index 1 90,
    .rewrite 0 true]

theorem copies_kept_pruneBeside : ∃ c : Center,
    c.q.copies.length = 1 ∧ c.q.index.length = 0 ∧ c.calls.length = 2 ∧
      ∀ name ∉ c.doomed, c.q.copies.read name =
        (Quarantine.run noDigest ⟨[], []⟩ c.calls).copies.read name := by
  have hrun : (execute (Center.step false noDigest) pruneBeside (init ⟨[], []⟩)).any (fun c =>
      c.q.copies.length == 1 && c.q.index.length == 0 && c.calls.length == 2) = true := by
    decide +kernel
  obtain ⟨c, hreach, hc⟩ := exists_reaches_of_execute anyStep (fun _ _ _ => trivial) hrun
  rw [Bool.and_eq_true, Bool.and_eq_true] at hc
  refine ⟨c, beq_iff_eq.mp hc.1.1, beq_iff_eq.mp hc.1.2, beq_iff_eq.mp hc.2, fun name hname => ?_⟩
  exact (copies_kept hreach name).resolve_right fun h => hname h.1

theorem listing_true_pruneBeside : ∃ c : Center, c.q.copies.length = 1 ∧
    ((c.q.list fun _ => 90).map ConflictEntry.name).Perm c.q.copies.names := by
  have hrun : (execute (Center.step false noDigest) pruneBeside (init ⟨[], []⟩)).any (fun c =>
      c.q.copies.length == 1) = true := by decide +kernel
  obtain ⟨c, hreach, hc⟩ := exists_reaches_of_execute anyStep (fun _ _ _ => trivial) hrun
  exact ⟨c, beq_iff_eq.mp hc, (listing_true hreach fun _ => 90).1⟩

/-- Times from 50 on. -/
def sparesSecond (_ : Center) : CenterAct → Bool
  | .index _ tsMs => Nat.ble 50 tsMs.val
  | .discard other => other != secondName
  | .prune mtime now olderThan =>
      Nat.ble (now.val - olderThan.val) 50 && Nat.ble 50 (mtime secondName).val
  | _ => true

theorem spares_of_sparesSecond {c : Center} {act : CenterAct} (h : sparesSecond c act = true) :
    Spares noDigest secondName 50 c act := by
  cases act with
  | index k tsMs => exact fun _ _ _ => Nat.le_of_ble_eq_true h
  | discard other => exact bne_iff_ne.mp h
  | prune mtime now olderThan =>
      obtain ⟨hcutoff, hmtime⟩ := Bool.and_eq_true_iff.mp h
      exact ⟨Nat.le_of_ble_eq_true hcutoff, Nat.le_of_ble_eq_true hmtime⟩
  | quarantine | remove | reread | rewrite => trivial

theorem young_kept_pruneBeside : ∃ c : Center, c.calls.length = 2 ∧
    c.q.copies.read secondName =
      (Quarantine.run noDigest ⟨[], []⟩ c.calls).copies.read secondName := by
  have hrun : (executeChecked (Center.step false noDigest) sparesSecond pruneBeside
      (init ⟨[], []⟩)).any (fun c => c.calls.length == 2) = true := by decide +kernel
  obtain ⟨c, hreach, hc⟩ := exists_reaches_of_executeChecked hrun
  have hspares : Reaches (Center.step false noDigest) (Spares noDigest secondName 50)
      (init ⟨[], []⟩) c := hreach.mono fun _ _ h => spares_of_sparesSecond h
  exact ⟨c, beq_iff_eq.mp hc, young_kept (fun _ h => (by cases h)) hspares⟩

end Center

end Tazamun
