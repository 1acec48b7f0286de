import Tazamun.Conflicts.Quarantine

set_option autoImplicit false

/-! # Finding a quarantined copy again

The conflict center (`conflicts.rs`) lists the files of the quarantine directory and takes a
full file name, or a prefix that fits one copy only, as the id of a copy. `valid_id` admits an
id, `resolve_id` looks it up in the listing, `copy_path` turns it into a path.

The names come from another module than the checks, and two kinds of copy fall between them.
`valid_id` refuses two dots in a row, which a path may have (`a..b`); and an id that is a
prefix of another copy's name is ambiguous even when it is a full name, so of two paths of
which one begins the other, quarantined in one millisecond, the shorter cannot be addressed.
**`addressable_iff`**: there is no third kind.
-/

namespace Tazamun

/-! ## The listing -/

structure ConflictEntry where
  name : Name
  path : Option String
  reason : Option String
  tsMs : U64
  size : Nat

/-- The listing joined with the index, in which the last line about a file counts. -/
def conflictEntry (index : List IndexLine) (mtime : Name → U64) (file : Name × List UInt8) :
    ConflictEntry :=
  match index.reverse.find? fun line => line.name = file.1 with
  | some line =>
      { name := file.1, path := some line.path, reason := some line.reason, tsMs := line.tsMs,
        size := file.2.length }
  | none =>
      { name := file.1, path := pathFromName file.1, reason := none, tsMs := mtime file.1,
        size := file.2.length }

/-- Newest first, then by name downwards. -/
def listedBefore (a b : ConflictEntry) : Bool :=
  decide (b.tsMs < a.tsMs) ||
    (decide (a.tsMs = b.tsMs) && decide (b.name.map UInt8.toNat ≤ a.name.map UInt8.toNat))

/-- Every quarantined copy (`list`). -/
def Quarantine.list (q : Quarantine) (mtime : Name → U64) : List ConflictEntry :=
  (q.copies.map (conflictEntry q.index mtime)).mergeSort listedBefore

/-! ## Ids -/

def slash : UInt8 := '/'.toUInt8
def backslash : UInt8 := '\\'.toUInt8
def colon : UInt8 := ':'.toUInt8

def maxIdLen : Nat := 255

def validId (id : Name) : Bool :=
  !id.isEmpty && decide (id.length ≤ maxIdLen) && decide (id.head? ≠ some dot) &&
    !id.any (fun b => b == slash || b == backslash || b == colon) &&
    decide (¬ List.replicate 2 dot <:+: id) && !id.contains 0

inductive IdError where
  | invalid (id : Name)
  | unknown (id : Name)
  | ambiguous (id : Name) (copies : Nat)
  | escapes (id : Name)
  | missing (id : Name)

/-- The message, with the id in the quotes of `{:?}`. -/
def IdError.text (quoted : Name → String) : IdError → String
  | .invalid id => "invalid conflict id " ++ quoted id
  | .unknown id => "no quarantined copy matches " ++ quoted id
  | .ambiguous id n =>
      quoted id ++ " is ambiguous (" ++ toString n ++ " copies match — use more characters)"
  | .escapes id => "conflict id " ++ quoted id ++ " escapes the quarantine dir"
  | .missing id => "no quarantined copy named " ++ quoted id

def resolveId (entries : List ConflictEntry) (id : Name) : Except IdError ConflictEntry :=
  if !validId id then .error (.invalid id)
  else
    match entries.filter fun e => decide (e.name = id) || decide (id <+: e.name) with
    | [e] => .ok e
    | [] => .error (.unknown id)
    | copies => .error (.ambiguous id copies.length)

def isSeparator (windows : Bool) (b : UInt8) : Bool := b == slash || (windows && b == backslash)

/-- A drive letter and a colon, which Windows takes for a path of its own. -/
def hasDrive : Name → Bool
  | letter :: second :: _ =>
      ((decide ('A'.toUInt8 ≤ letter) && decide (letter ≤ 'Z'.toUInt8)) ||
        (decide ('a'.toUInt8 ≤ letter) && decide (letter ≤ 'z'.toUInt8))) && second == colon
  | _ => false

/-- Whether `cdir.join(name)` lies directly in `cdir`: the name is neither absolute nor drive
relative, and has one component. -/
def joinsDirectly (windows : Bool) (name : Name) : Bool :=
  !name.head?.any (isSeparator windows) && !(windows && hasDrive name) &&
    (((name.splitOnP (isSeparator windows)).filter fun part =>
      !part.isEmpty && decide (part ≠ [dot])).length == 1)

/-- The path of a copy, as the name of a file in the quarantine directory. -/
def copyPath (windows : Bool) (copies : ConflictsDir) (name : Name) : Except IdError Name :=
  if !validId name then .error (.invalid name)
  else if !joinsDirectly windows name then .error (.escapes name)
  else if (copies.read name).isNone then .error (.missing name)
  else .ok name

/-- **The copy can be shown, applied and discarded.** -/
structure Addressable (windows : Bool) (q : Quarantine) (mtime : Name → U64) (name : Name) :
    Prop where
  valid : validId name = true
  path : copyPath windows q.copies name = .ok name
  resolved : ∃ e, resolveId (q.list mtime) name = .ok e ∧ e.name = name

/-! ## The directory -/

namespace ConflictsDir

/-- The files there are. -/
def names (dir : ConflictsDir) : List Name := dir.map Prod.fst

theorem mem_names_write {dir : ConflictsDir} {name other : Name} {bytes : List UInt8} :
    other ∈ (dir.write name bytes).names ↔ other = name ∨ other ∈ dir.names := by
  induction dir with
  | nil => simp [write, names]
  | cons file dir ih =>
      by_cases hfile : file.1 = name
      · simp [write, hfile, names]
      · simp only [write, if_neg hfile, names, List.map_cons, List.mem_cons] at ih ⊢
        rw [ih]
        tauto

theorem nodup_write {dir : ConflictsDir} {name : Name} {bytes : List UInt8}
    (h : dir.names.Nodup) : (dir.write name bytes).names.Nodup := by
  induction dir with
  | nil => simp [write, names]
  | cons file dir ih =>
      have hcons : file.1 ∉ names dir ∧ (names dir).Nodup := List.nodup_cons.mp h
      by_cases hfile : file.1 = name
      · rw [write, if_pos hfile, names, List.map_cons, List.nodup_cons, ← hfile]
        exact hcons
      · rw [write, if_neg hfile, names, List.map_cons, List.nodup_cons]
        refine ⟨fun hmem => ?_, ih hcons.2⟩
        rcases mem_names_write.mp hmem with heq | hmem
        · exact hfile heq
        · exact hcons.1 hmem

theorem read_isSome {dir : ConflictsDir} {name : Name} :
    (dir.read name).isSome = true ↔ name ∈ dir.names := by
  simp only [read, Option.isSome_map, List.find?_isSome, decide_eq_true_eq, names, List.mem_map]

end ConflictsDir

/-- The files of a run: one for every destination that a call opened. -/
theorem names_run (blake3 : List UInt8 → Digest) (index : List IndexLine) (calls : List Call) :
    (Quarantine.run blake3 ⟨[], index⟩ calls).copies.names.Nodup ∧
      ∀ name, name ∈ (Quarantine.run blake3 ⟨[], index⟩ calls).copies.names ↔
        ∃ d ∈ calls, d.copy.left ≠ none ∧ d.dest blake3 = name := by
  induction calls using List.reverseRecOn with
  | nil => exact ⟨List.nodup_nil, by simp [Quarantine.run, ConflictsDir.names]⟩
  | append_singleton calls d ih =>
      obtain ⟨hnodup, hmem⟩ := ih
      rw [run_append_singleton]
      have hstep : ∀ name,
          name ∈ (quarantine blake3 (Quarantine.run blake3 ⟨[], index⟩ calls) d).1.copies.names ↔
            (d.copy.left ≠ none ∧ d.dest blake3 = name) ∨
              name ∈ (Quarantine.run blake3 ⟨[], index⟩ calls).copies.names := by
        intro name
        unfold quarantine
        cases d.copy with
        | untouched => simp [Copy.left]
        | broken left => simp [Copy.left, ConflictsDir.mem_names_write, eq_comm]
        | copied bytes => simp [Copy.left, ConflictsDir.mem_names_write, eq_comm]
      constructor
      · unfold quarantine
        cases d.copy with
        | untouched => exact hnodup
        | broken left => exact ConflictsDir.nodup_write hnodup
        | copied bytes => exact ConflictsDir.nodup_write hnodup
      · intro name
        rw [hstep, hmem]
        constructor
        · rintro (hd | ⟨e, he, hname⟩)
          · exact ⟨d, by simp, hd⟩
          · exact ⟨e, by simp [he], hname⟩
        · rintro ⟨e, he, hname⟩
          rcases List.mem_append.mp he with he | he
          · exact .inr ⟨e, he, hname⟩
          · rw [List.mem_singleton.mp he] at hname
            exact .inl hname

/-! ## Looking an id up -/

@[simp] theorem conflictEntry_name (index : List IndexLine) (mtime : Name → U64)
    (file : Name × List UInt8) : (conflictEntry index mtime file).name = file.1 := by
  unfold conflictEntry
  split <;> rfl

/-- The names that match an id, in whatever order the listing has them. -/
theorem matches_perm (q : Quarantine) (mtime : Name → U64) (id : Name) :
    (((q.list mtime).filter fun e => decide (e.name = id) || decide (id <+: e.name)).map
      ConflictEntry.name).Perm (q.copies.names.filter fun name => decide (id <+: name)) := by
  have hsorted : (q.list mtime).Perm (q.copies.map (conflictEntry q.index mtime)) :=
    List.mergeSort_perm _ _
  have hfilter := (hsorted.filter
    fun e => decide (e.name = id) || decide (id <+: e.name)).map ConflictEntry.name
  refine hfilter.trans (List.Perm.of_eq ?_)
  rw [List.filter_map, List.map_map, ConflictsDir.names, List.filter_map]
  have hname : ConflictEntry.name ∘ conflictEntry q.index mtime = Prod.fst := by
    funext file
    simp
  rw [hname]
  congr 1
  apply List.filter_congr
  intro file _
  simp only [Function.comp_apply, conflictEntry_name]
  by_cases hid : file.1 = id
  · simp [hid]
  · simp [hid]

theorem eq_singleton_of_nodup {α : Type} {l : List α} {a : α} (hnodup : l.Nodup) (ha : a ∈ l)
    (hall : ∀ b ∈ l, b = a) : l = [a] := by
  cases l with
  | nil => exact absurd ha List.not_mem_nil
  | cons b l =>
      obtain rfl := hall b List.mem_cons_self
      cases l with
      | nil => rfl
      | cons c l =>
          obtain rfl := hall c (by simp)
          simp at hnodup

/-- An id finds the copy of that name exactly when the name exists and begins no other one. -/
theorem resolveId_iff {q : Quarantine} (mtime : Name → U64) {id : Name}
    (hnodup : q.copies.names.Nodup) (hvalid : validId id = true) :
    (∃ e, resolveId (q.list mtime) id = .ok e ∧ e.name = id) ↔
      id ∈ q.copies.names ∧ ∀ other ∈ q.copies.names, id <+: other → other = id := by
  have hperm := matches_perm q mtime id
  have hvalid' : ¬ (!validId id) = true := by simp [hvalid]
  have hmem {name : Name} : name ∈ q.copies.names.filter (fun name => decide (id <+: name)) ↔
      name ∈ q.copies.names ∧ id <+: name := by
    simp
  constructor
  · rintro ⟨e, hok, hname⟩
    rw [resolveId, if_neg hvalid'] at hok
    split at hok
    · rename_i e' hmatch
      cases hok
      rw [hmatch, List.map_singleton, hname] at hperm
      have hall := List.singleton_perm.mp hperm
      refine ⟨(hmem.mp (hall ▸ List.mem_singleton.mpr rfl)).1, ?_⟩
      intro other hother hprefix
      have hin := hmem.mpr ⟨hother, hprefix⟩
      rw [← hall] at hin
      exact List.mem_singleton.mp hin
    · cases hok
    · cases hok
  · rintro ⟨hin, hunique⟩
    have hsingle : q.copies.names.filter (fun name => decide (id <+: name)) = [id] :=
      eq_singleton_of_nodup (hnodup.filter _) (hmem.mpr ⟨hin, List.prefix_rfl⟩)
        fun other hother => hunique other (hmem.mp hother).1 (hmem.mp hother).2
    rw [hsingle] at hperm
    obtain ⟨e, hmatch, hname⟩ := List.map_eq_singleton_iff.mp (List.perm_singleton.mp hperm)
    refine ⟨e, ?_, hname⟩
    rw [resolveId, if_neg hvalid', hmatch]

/-! ## The names of copies -/

/-- Nothing but unreserved bytes and `%`. -/
def plainByte (b : UInt8) : Bool := unreserved b || b == percentSign

theorem plainByte_hex {n : Nat} (hn : n < 16) :
    plainByte (hexUpper n) = true ∧ plainByte (hexLower n) = true := by
  interval_cases n <;> decide

theorem plainByte_stamp {now : Nat} {b : UInt8} (hb : b ∈ utcTimestamp now) :
    plainByte b = true := by
  rcases stampOf_bytes hb with h | rfl | rfl
  · have hlow : '0'.toUInt8 ≤ b := UInt8.le_iff_toNat_le.mpr h.1
    have hhigh : b ≤ '9'.toUInt8 := UInt8.le_iff_toNat_le.mpr h.2
    simp [plainByte, unreserved, hlow, hhigh]
  · decide
  · decide

theorem plainByte_percentEncode {rel : String} {b : UInt8} (hb : b ∈ percentEncode rel) :
    plainByte b = true := by
  obtain ⟨c, _, hb⟩ := List.mem_flatMap.mp hb
  obtain ⟨hhi, hlo, -⟩ := byte_parts c
  unfold percentByte at hb
  split at hb
  · rename_i hc
    rw [List.mem_singleton.mp hb]
    simp [plainByte, hc]
  · simp only [List.mem_cons, List.not_mem_nil, or_false] at hb
    rcases hb with rfl | rfl | rfl
    · decide
    · exact (plainByte_hex hhi).1
    · exact (plainByte_hex hlo).1

theorem plainByte_elision {blake3 : List UInt8 → Digest} {rel : String} {b : UInt8}
    (hb : b ∈ elision blake3 rel) : plainByte b = true ∧ b ≠ dot := by
  rcases List.mem_append.mp hb with hb | hb
  · rw [List.eq_of_mem_replicate hb]
    decide
  · obtain ⟨c, _, hb⟩ := List.mem_flatMap.mp hb
    obtain ⟨hhi, hlo, -⟩ := byte_parts c
    have hdot {n : Nat} (hn : n < 16) : hexLower n ≠ dot := by
      interval_cases n <;> decide
    simp only [List.mem_cons, List.not_mem_nil, or_false] at hb
    rcases hb with rfl | rfl
    · exact ⟨(plainByte_hex hhi).2, hdot hhi⟩
    · exact ⟨(plainByte_hex hlo).2, hdot hlo⟩

theorem plainByte_fileName {blake3 : List UInt8 → Digest} {rel : String} {now : Nat} {b : UInt8}
    (hb : b ∈ fileName blake3 rel now) : plainByte b = true := by
  rcases List.mem_append.mp hb with hb | hb
  · exact plainByte_stamp hb
  · rcases List.mem_append.mp hb with hb | hb
    · simp only [List.mem_cons, List.not_mem_nil, or_false, or_self] at hb
      rw [hb]
      decide
    · unfold quarantineName at hb
      split at hb
      · exact plainByte_percentEncode hb
      · rcases List.mem_append.mp hb with hb | hb
        · exact plainByte_percentEncode (List.mem_of_mem_take hb)
        · exact (plainByte_elision hb).1

theorem plainByte_special {b : UInt8} (h : plainByte b = true) :
    b ≠ slash ∧ b ≠ backslash ∧ b ≠ colon ∧ b ≠ 0 := by
  refine ⟨?_, ?_, ?_, ?_⟩ <;> rintro rfl <;> exact absurd h (by decide)

/-- What the name shows of the path has two dots in a row. -/
def DotsShown (rel : String) : Prop :=
  List.replicate 2 dot <:+: (percentEncode rel).take maxEncoded

instance (rel : String) : Decidable (DotsShown rel) :=
  inferInstanceAs (Decidable (List.replicate 2 dot <:+: (percentEncode rel).take maxEncoded))

theorem dots_quarantineName (blake3 : List UInt8 → Digest) (rel : String) :
    List.replicate 2 dot <:+: quarantineName blake3 rel ↔ DotsShown rel := by
  unfold quarantineName DotsShown
  split_ifs with hlen
  · rw [List.take_of_length_le hlen]
  · exact Lib.replicate_infix_append_iff_left fun hdot => (plainByte_elision hdot).2 rfl

theorem dots_fileName (blake3 : List UInt8 → Digest) (rel : String) (now : Nat) :
    List.replicate 2 dot <:+: fileName blake3 rel now ↔ DotsShown rel := by
  have hstamp : dot ∉ utcTimestamp now := by
    intro hmem
    rcases stampOf_bytes hmem with h | h | h <;> exact absurd h (by decide)
  have hsep : dot ∉ [underscore, underscore] := by decide
  rw [fileName, Lib.replicate_infix_append_iff hstamp, Lib.replicate_infix_append_iff hsep,
    dots_quarantineName]

/-- The name of a copy begins with a digit. -/
theorem fileName_head (blake3 : List UInt8 → Digest) (rel : String) (now : Nat) :
    ∃ b rest, fileName blake3 rel now = b :: rest ∧ 48 ≤ b.toNat ∧ b.toNat ≤ 57 := by
  obtain ⟨b, rest, hstamp, hdigit⟩ : ∃ b rest, utcTimestamp now = b :: rest ∧ 48 ≤ b.toNat ∧
      b.toNat ≤ 57 := stampOf_head _ _ _ _ _ _ _
  refine ⟨b, rest ++ ([underscore, underscore] ++ quarantineName blake3 rel), ?_, hdigit⟩
  rw [fileName, hstamp, List.cons_append]

theorem length_fileName (blake3 : List UInt8 → Digest) (rel : String) (now : U64) :
    (fileName blake3 rel now.val).length ≤ maxIdLen := by
  have hstamp := utcTimestamp_length now.isLt
  have hname := length_quarantineName blake3 rel
  have hmax : maxEncoded = 180 := rfl
  have hid : maxIdLen = 255 := rfl
  rw [fileName, List.length_append, List.length_append, List.length_cons, List.length_cons,
    List.length_nil]
  split_ifs at hname <;> omega

/-- **The name of a copy is a valid id unless it shows two dots in a row.** -/
theorem validId_fileName (blake3 : List UInt8 → Digest) (rel : String) (now : U64) :
    validId (fileName blake3 rel now.val) = true ↔ ¬ DotsShown rel := by
  obtain ⟨b, rest, hname, hdigit⟩ := fileName_head blake3 rel now.val
  have hne : (fileName blake3 rel now.val).isEmpty = false := by rw [hname]; rfl
  have hhead : (fileName blake3 rel now.val).head? ≠ some dot := by
    rw [hname, List.head?_cons, ne_eq, Option.some.injEq]
    rintro rfl
    exact absurd hdigit (by decide)
  have hspecial : ((fileName blake3 rel now.val).any fun b =>
      b == slash || b == backslash || b == colon) = false := by
    rw [List.any_eq_false]
    intro b hb
    obtain ⟨h1, h2, h3, -⟩ := plainByte_special (plainByte_fileName hb)
    simp [h1, h2, h3]
  have hnul : (fileName blake3 rel now.val).contains 0 = false := by
    rw [List.contains_eq_any_beq, List.any_eq_false]
    intro b hb
    have h4 := (plainByte_special (plainByte_fileName hb)).2.2.2
    simp [h4.symm]
  rw [← dots_fileName blake3 rel now.val]
  simp only [validId, hne, length_fileName blake3 rel now, hhead, hspecial, hnul,
    Bool.not_false, decide_true, ne_eq, not_false_eq_true, Bool.true_and, Bool.and_true,
    decide_eq_true_eq]

/-- The path of a copy lies in the quarantine directory on every platform. -/
theorem joinsDirectly_fileName (windows : Bool) (blake3 : List UInt8 → Digest) (rel : String)
    (now : Nat) : joinsDirectly windows (fileName blake3 rel now) = true := by
  obtain ⟨b, rest, hname, hdigit⟩ := fileName_head blake3 rel now
  have hsep : ∀ b ∈ fileName blake3 rel now, isSeparator windows b = false := by
    intro b hb
    obtain ⟨h1, h2, -⟩ := plainByte_special (plainByte_fileName hb)
    simp [isSeparator, h1, h2]
  have hdrive : hasDrive (fileName blake3 rel now) = false := by
    rw [hname]
    cases rest with
    | nil => rfl
    | cons c rest =>
        have hc : c ∈ fileName blake3 rel now := by rw [hname]; simp
        have hcolon := (plainByte_special (plainByte_fileName hc)).2.2.1
        simp [hasDrive, hcolon]
  have hhead : (fileName blake3 rel now).head?.any (isSeparator windows) = false := by
    have hb : b ∈ fileName blake3 rel now := by rw [hname]; simp
    rw [hname, List.head?_cons, Option.any_some]
    exact hsep b hb
  have hdot : fileName blake3 rel now ≠ [dot] := by
    rw [hname]
    intro heq
    rw [(List.cons.inj heq).1] at hdigit
    exact absurd hdigit (by decide)
  have hne : (fileName blake3 rel now).isEmpty = false := by rw [hname]; rfl
  simp [joinsDirectly, hhead, hdrive, List.splitOnP_eq_singleton hsep, hne, hdot]

/-! ## Addressable copies -/

/-- `d` was quarantined in the millisecond of `c`, its path begins with the path of `c` and
goes on, and the name of `c` shows its whole path. -/
def Overshadows (d c : Call) : Prop :=
  d.copy.left ≠ none ∧ d.now = c.now ∧ (percentEncode c.rel).length ≤ maxEncoded ∧
    utf8 c.rel <+: utf8 d.rel ∧ d.rel ≠ c.rel

/-- **When a copy is addressable**: what its name shows of the path has no two dots in a row,
and no path quarantined in the same millisecond begins with this one. -/
theorem addressable_iff (blake3 : List UInt8 → Digest) (windows : Bool) (index : List IndexLine)
    (mtime : Name → U64) {calls : List Call} {c : Call} {bytes : List UInt8} (hc : c ∈ calls)
    (hcopied : c.copy = .copied bytes) :
    Addressable windows (Quarantine.run blake3 ⟨[], index⟩ calls) mtime (c.dest blake3) ↔
      ¬ DotsShown c.rel ∧ ∀ d ∈ calls, ¬ Overshadows d c := by
  obtain ⟨hnodup, hnames⟩ := names_run blake3 index calls
  have hvalid := validId_fileName blake3 c.rel c.now
  have hexists : c.dest blake3 ∈ (Quarantine.run blake3 ⟨[], index⟩ calls).copies.names :=
    (hnames _).mpr ⟨c, hc, by simp [hcopied, Copy.left], rfl⟩
  have hunique : (∀ other ∈ (Quarantine.run blake3 ⟨[], index⟩ calls).copies.names,
      c.dest blake3 <+: other → other = c.dest blake3) ↔ ∀ d ∈ calls, ¬ Overshadows d c := by
    constructor
    · rintro h d hd ⟨htouched, hnow, hshort, hpre, hne⟩
      have hprefix : c.dest blake3 <+: d.dest blake3 := fileName_prefix_iff.mpr
        ⟨by rw [hnow], quarantineName_prefix_iff.mpr (.inr ⟨hshort, hpre⟩)⟩
      have heq := h _ ((hnames _).mpr ⟨d, hd, htouched, rfl⟩) hprefix
      rcases (fileName_eq_iff.mp heq).2 with hsame | ⟨-, hlong, -⟩
      · exact hne hsame
      · omega
    · intro h other hother hprefix
      obtain ⟨d, hd, htouched, rfl⟩ := (hnames other).mp hother
      obtain ⟨hnow, hname⟩ := fileName_prefix_iff.mp hprefix
      rcases quarantineName_prefix_iff.mp hname with hsame | ⟨hshort, hpre⟩
      · exact (fileName_eq_iff.mpr ⟨hnow, hsame⟩).symm
      · by_cases hrel : d.rel = c.rel
        · exact fileName_eq_iff.mpr ⟨hnow.symm, .inl hrel⟩
        · exact absurd ⟨htouched, Fin.ext hnow.symm, hshort, hpre, hrel⟩ (h d hd)
  constructor
  · intro h
    have hresolved := (resolveId_iff mtime hnodup h.valid).mp h.resolved
    exact ⟨hvalid.mp h.valid, hunique.mp hresolved.2⟩
  · rintro ⟨hdots, hshadow⟩
    have hid : validId (c.dest blake3) = true := hvalid.mpr hdots
    refine ⟨hid, ?_, (resolveId_iff mtime hnodup hid).mpr ⟨hexists, hunique.mpr hshadow⟩⟩
    have hread := ConflictsDir.read_isSome.mpr hexists
    have hjoin := joinsDirectly_fileName windows blake3 c.rel c.now.val
    have hread' : ((Quarantine.run blake3 ⟨[], index⟩ calls).copies.read
        (c.dest blake3)).isNone = false := by
      rw [Option.isNone_eq_false_iff]
      exact hread
    have hjoin' : joinsDirectly windows (c.dest blake3) = true := hjoin
    simp [copyPath, hid, hjoin', hread']

/-- A copy of `a`, alone: the digest is not looked at for a short path. -/
theorem addressable_a :
    Addressable false (Quarantine.run (fun _ => List.Vector.replicate 32 0) ⟨[], []⟩
      [violationOfA [1]]) (fun _ => 0)
        ((violationOfA [1]).dest fun _ => List.Vector.replicate 32 0) := by
  refine (addressable_iff (fun _ => List.Vector.replicate 32 0) false [] (fun _ => 0)
    List.mem_cons_self rfl).mpr ⟨by decide +kernel, ?_⟩
  intro d hd hshadow
  rw [List.mem_singleton.mp hd] at hshadow
  exact hshadow.2.2.2.2 rfl

/-- A file named `a..b`: its copy has an id that the tool refuses. -/
def violationOfDots : Call :=
  { rel := "a..b", reason := "forced-write", now := 0, copy := .copied [1], indexed := some 0 }

/-- The copy of a lone file that cannot be addressed. -/
theorem copy_unreachable :
    ¬ ∃ blake3, ∀ windows index mtime (calls : List Call),
      (∀ c ∈ calls, sanitizeRelPath c.rel = .ok c.rel) →
        ∀ c ∈ calls, ∀ bytes, c.copy = .copied bytes →
          Addressable windows (Quarantine.run blake3 ⟨[], index⟩ calls) mtime
            (c.dest blake3) := by
  rintro ⟨blake3, h⟩
  have hrel : sanitizeRelPath violationOfDots.rel = .ok violationOfDots.rel := by decide +kernel
  have hcalls : ∀ c ∈ [violationOfDots], sanitizeRelPath c.rel = .ok c.rel := by
    intro c hc
    rw [List.mem_singleton.mp hc]
    exact hrel
  have haddr := h false [] (fun _ => 0) [violationOfDots] hcalls violationOfDots
    List.mem_cons_self [1] rfl
  have hdots := ((addressable_iff blake3 false [] (fun _ => 0) List.mem_cons_self rfl).mp haddr).1
  exact hdots (by decide +kernel)

end Tazamun
