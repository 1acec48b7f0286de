import Tazamun.Conflicts.Names
import Tazamun.Basic.Types

set_option autoImplicit false

/-! # Quarantine calls one after another

`quarantine` (`guard.rs`) copies the bytes of a path into `.tazamun/conflicts/`, under a name
made of the path and the wall clock in milliseconds, and then adds a line to the advisory
index. The copy replaces a file that is there. Callers run on several threads, but each copy
is one `fs::copy`; a run is the list of the calls with what came of each, with any clock
values in any order.

A later call of the same millisecond whose name is the same destroys what an earlier call
preserved. **`keepsCopies_iff`** is the exact condition: after every copy that was preserved,
the last call to touch its file left the same bytes in it.
-/

namespace Tazamun

/-! ## The directory -/

/-- The files of `.tazamun/conflicts/`, in the order the directory lists them. -/
abbrev ConflictsDir : Type := List (Name × List UInt8)

namespace ConflictsDir

def read (dir : ConflictsDir) (name : Name) : Option (List UInt8) :=
  (dir.find? fun file => file.1 = name).map Prod.snd

/-- Creates the file, or truncates it and writes. -/
def write : ConflictsDir → Name → List UInt8 → ConflictsDir
  | [], name, bytes => [(name, bytes)]
  | file :: dir, name, bytes =>
      if file.1 = name then (name, bytes) :: dir else file :: write dir name bytes

theorem read_write (dir : ConflictsDir) (name other : Name) (bytes : List UInt8) :
    (dir.write name bytes).read other = if name = other then some bytes else dir.read other := by
  unfold read
  induction dir with
  | nil => by_cases h : name = other <;> simp [write, h]
  | cons file dir ih =>
      by_cases hfile : file.1 = name
      · by_cases h : name = other
        · simp [write, hfile, h]
        · simp [write, hfile, h]
      · by_cases hother : file.1 = other
        · have h : name ≠ other := fun heq => hfile (hother.trans heq.symm)
          rw [write, if_neg hfile]
          simp [hother, h]
        · simp [write, hfile, hother, ih]

end ConflictsDir

/-! ## The calls -/

/-- A line of the advisory index. -/
structure IndexLine where
  name : Name
  path : String
  reason : String
  tsMs : U64
  size : Nat

/-- What became of the copy. -/
inductive Copy where
  /-- The directory, the source or the destination could not be opened. -/
  | untouched
  /-- Writing failed with these bytes in the destination. -/
  | broken (left : List UInt8)
  | copied (bytes : List UInt8)

/-- What a call left in the destination. -/
def Copy.left : Copy → Option (List UInt8)
  | .untouched => none
  | .broken left => some left
  | .copied bytes => some bytes

/-- One call of `quarantine`. -/
structure Call where
  rel : String
  reason : String
  now : U64
  copy : Copy
  /-- When the index line was written, if it was. -/
  indexed : Option U64

structure Quarantine where
  copies : ConflictsDir
  index : List IndexLine

variable (blake3 : List UInt8 → Digest)

/-- The file a call copies to. -/
def Call.dest (c : Call) : Name := fileName blake3 c.rel c.now.val

/-- `append_index`, which may fail. -/
def appendIndex (index : List IndexLine) (c : Call) (size : Nat) : List IndexLine :=
  match c.indexed with
  | none => index
  | some tsMs =>
      index ++ [{ name := c.dest blake3, path := c.rel, reason := c.reason, tsMs, size }]

/-- Copies the path, and returns the name of the copy unless it failed. -/
def quarantine (q : Quarantine) (c : Call) : Quarantine × Option Name :=
  match c.copy with
  | .untouched => (q, none)
  | .broken left => ({ q with copies := q.copies.write (c.dest blake3) left }, none)
  | .copied bytes =>
      ({ copies := q.copies.write (c.dest blake3) bytes
         index := appendIndex blake3 q.index c bytes.length }, some (c.dest blake3))

/-- The calls in their order. -/
def Quarantine.run (q : Quarantine) (calls : List Call) : Quarantine :=
  calls.foldl (fun q c => (quarantine blake3 q c).1) q

/-! ## What should hold -/

/-- **Every call that returns leaves the copies of the calls before it as they were.** -/
def KeepsCopies (q : Quarantine) (calls : List Call) : Prop :=
  ∀ before c after bytes, calls = before ++ c :: after → c.copy = .copied bytes →
    ∀ early ∈ before, ∀ preserved, early.copy = .copied preserved →
      (q.run blake3 (before ++ [c])).copies.read (early.dest blake3) = some preserved

/-- A call that copies to the same file: the millisecond and the name are the same. -/
def SameSlot (c d : Call) : Prop := c.now = d.now ∧ SameName blake3 c.rel d.rel

/-- The last of `later` to touch the file of `c` left `bytes` in it. -/
def Undisturbed (c : Call) (bytes : List UInt8) (later : List Call) : Prop :=
  ∀ l d r, later = l ++ d :: r → SameSlot blake3 c d →
    (∀ e ∈ r, SameSlot blake3 c e → e.copy.left = none) →
      d.copy.left = none ∨ d.copy.left = some bytes

/-! ## The file of one copy -/

variable {blake3 : List UInt8 → Digest}

theorem dest_eq_iff {c d : Call} : c.dest blake3 = d.dest blake3 ↔ SameSlot blake3 c d := by
  unfold Call.dest SameSlot
  rw [fileName_eq_iff, Fin.val_inj]

/-- A call writes its own file and no other. -/
theorem read_quarantine (q : Quarantine) (d : Call) (name : Name) :
    (quarantine blake3 q d).1.copies.read name =
      if d.dest blake3 = name then d.copy.left.or (q.copies.read name)
      else q.copies.read name := by
  unfold quarantine
  cases d.copy with
  | untouched => simp [Copy.left]
  | broken left =>
      rw [ConflictsDir.read_write]
      simp [Copy.left]
  | copied bytes =>
      rw [ConflictsDir.read_write]
      simp [Copy.left]

theorem run_append_singleton (q : Quarantine) (calls : List Call) (d : Call) :
    q.run blake3 (calls ++ [d]) = (quarantine blake3 (q.run blake3 calls) d).1 := by
  simp [Quarantine.run]

theorem run_append (q : Quarantine) (calls later : List Call) :
    q.run blake3 (calls ++ later) = (q.run blake3 calls).run blake3 later := by
  simp [Quarantine.run]

/-- Where an element stands in a list that got one more. -/
theorem append_singleton_eq {α : Type} {later l r : List α} {d e : α}
    (h : later ++ [d] = l ++ e :: r) :
    (r = [] ∧ e = d) ∨ ∃ r', r = r' ++ [d] ∧ later = l ++ e :: r' := by
  rcases List.eq_nil_or_concat r with rfl | ⟨r', x, rfl⟩
  · have hlast := List.append_inj' h rfl
    simp only [List.cons.injEq, and_true] at hlast
    exact .inl ⟨rfl, hlast.2.symm⟩
  · rw [List.concat_eq_append, ← List.cons_append, ← List.append_assoc] at h
    have hlast := List.append_inj' h rfl
    simp only [List.cons.injEq, and_true] at hlast
    refine .inr ⟨r', ?_, hlast.1⟩
    rw [List.concat_eq_append, hlast.2]

/-- A call that leaves the file alone does not matter. -/
theorem undisturbed_append_of_untouched {c d : Call} {bytes : List UInt8} {later : List Call}
    (hd : SameSlot blake3 c d → d.copy.left = none) :
    Undisturbed blake3 c bytes (later ++ [d]) ↔ Undisturbed blake3 c bytes later := by
  constructor
  · intro h l e r hlater hslot hrest
    refine h l e (r ++ [d]) (by rw [hlater, List.append_assoc, List.cons_append]) hslot ?_
    intro x hx hxslot
    rcases List.mem_append.mp hx with hx | hx
    · exact hrest x hx hxslot
    · rw [List.mem_singleton.mp hx] at hxslot ⊢
      exact hd hxslot
  · intro h l e r hlater hslot hrest
    rcases append_singleton_eq hlater with ⟨-, rfl⟩ | ⟨r', rfl, hlater'⟩
    · exact .inl (hd hslot)
    · exact h l e r' hlater' hslot fun x hx => hrest x (List.mem_append_left _ hx)

/-- A call that writes the file decides. -/
theorem undisturbed_append_of_touched {c d : Call} {bytes left : List UInt8}
    {later : List Call} (hslot : SameSlot blake3 c d) (hleft : d.copy.left = some left) :
    Undisturbed blake3 c bytes (later ++ [d]) ↔ left = bytes := by
  constructor
  · intro h
    rcases h later d [] rfl hslot (fun x hx => absurd hx List.not_mem_nil) with hnone | hsome
    · rw [hleft] at hnone
      cases hnone
    · rw [hleft] at hsome
      exact Option.some.inj hsome
  · rintro rfl l e r hlater heslot hrest
    rcases append_singleton_eq hlater with ⟨-, rfl⟩ | ⟨r', rfl, -⟩
    · exact .inr hleft
    · have hnone := hrest d (List.mem_append_right _ List.mem_cons_self) hslot
      rw [hleft] at hnone
      cases hnone

/-- **A copy is still there exactly when it was not disturbed.** -/
theorem read_run_iff {q : Quarantine} {c : Call} {bytes : List UInt8}
    (hq : q.copies.read (c.dest blake3) = some bytes) (later : List Call) :
    (q.run blake3 later).copies.read (c.dest blake3) = some bytes ↔
      Undisturbed blake3 c bytes later := by
  induction later using List.reverseRecOn with
  | nil =>
      refine ⟨fun _ l d r hnil => ?_, fun _ => hq⟩
      simp at hnil
  | append_singleton later d ih =>
      rw [run_append_singleton, read_quarantine]
      by_cases hslot : SameSlot blake3 c d
      · have hdest : d.dest blake3 = c.dest blake3 := (dest_eq_iff.mpr hslot).symm
        rw [if_pos hdest]
        cases hleft : d.copy.left with
        | none =>
            rw [Option.none_or, ih, undisturbed_append_of_untouched fun _ => hleft]
        | some left =>
            rw [Option.some_or, Option.some.injEq, undisturbed_append_of_touched hslot hleft]
      · have hdest : d.dest blake3 ≠ c.dest blake3 := fun heq =>
          hslot (dest_eq_iff.mp heq.symm)
        rw [if_neg hdest, ih, undisturbed_append_of_untouched fun h => absurd h hslot]

/-- Right after a copy its bytes are in its file. -/
theorem read_run_copied (q : Quarantine) (calls : List Call) {c : Call} {bytes : List UInt8}
    (hc : c.copy = .copied bytes) :
    (q.run blake3 (calls ++ [c])).copies.read (c.dest blake3) = some bytes := by
  rw [run_append_singleton, read_quarantine, if_pos rfl, hc]
  rfl

/-- **When quarantine does not overwrite quarantine**: between a copy and any later one that
succeeds, the last call to touch the first one's file, if there is one, left the same bytes
in it. It touches that file when it copies the same path in the same millisecond, or one whose
truncated name is the same. -/
theorem keepsCopies_iff (blake3 : List UInt8 → Digest) (q : Quarantine) (calls : List Call) :
    KeepsCopies blake3 q calls ↔
      ∀ first early between c after preserved bytes,
        calls = first ++ early :: (between ++ c :: after) → early.copy = .copied preserved →
          c.copy = .copied bytes → Undisturbed blake3 early preserved (between ++ [c]) := by
  constructor
  · intro h first early between c after preserved bytes hcalls hearly hc
    have hkept := h (first ++ early :: between) c after bytes (by simp [hcalls]) hc early
      (by simp) preserved hearly
    have hsplit : first ++ early :: between ++ [c] = (first ++ [early]) ++ (between ++ [c]) := by
      simp
    rw [hsplit, run_append, read_run_iff (read_run_copied q first hearly)] at hkept
    exact hkept
  · intro h before c after bytes hcalls hc early hearly preserved hpreserved
    obtain ⟨first, between, rfl⟩ := List.append_of_mem hearly
    have hundisturbed := h first early between c after preserved bytes (by simp [hcalls])
      hpreserved hc
    have hsplit : first ++ early :: between ++ [c] = (first ++ [early]) ++ (between ++ [c]) := by
      simp
    rw [hsplit, run_append, read_run_iff (read_run_copied q first hpreserved)]
    exact hundisturbed

/-- A forced write to `a` at the epoch, with these bytes in the file. -/
def violationOfA (bytes : List UInt8) : Call :=
  { rel := "a", reason := "forced-write", now := 0, copy := .copied bytes, indexed := some 0 }

/-- Two violations of one path in the same millisecond: the second copy replaces the first. -/
theorem quarantine_overwrites :
    ¬ ∃ blake3, ∀ (q : Quarantine) (calls : List Call),
      (∀ c ∈ calls, sanitizeRelPath c.rel = .ok c.rel) → KeepsCopies blake3 q calls := by
  rintro ⟨blake3, h⟩
  have ha : sanitizeRelPath "a" = .ok "a" := by decide +kernel
  have hcalls : ∀ c ∈ [violationOfA [1], violationOfA [2]],
      sanitizeRelPath c.rel = .ok c.rel := by
    intro c hc
    simp only [List.mem_cons, List.not_mem_nil, or_false] at hc
    rcases hc with rfl | rfl
    · exact ha
    · exact ha
  have hkeeps := (keepsCopies_iff blake3 ⟨[], []⟩ _).mp (h ⟨[], []⟩ _ hcalls)
  have hundisturbed := hkeeps [] (violationOfA [1]) [] (violationOfA [2]) [] [1] [2] rfl rfl rfl
  rcases hundisturbed [] (violationOfA [2]) [] rfl ⟨rfl, .inl rfl⟩ (by simp) with hnone | hsome
  · cases hnone
  · exact absurd hsome (by decide)

end Tazamun
