import Tazamun.Lib.Run
import Tazamun.Audit.Text
import Tazamun.Basic.Types

set_option autoImplicit false

/-! # Following the audit ledger

`tazamun log --follow` reads the ledger again and again, each time from the offset that the
last reading returned (`read_since_offset`). The writer appends meanwhile, and a reading may
see any part of what it writes. A line whose newline is not there yet is left for the next
reading.

The reading decodes everything from its offset on, the unfinished line included. If that is not
UTF-8, as when the writer is in the middle of a character, the reading returns nothing and an
offset at the end of the file: the lines before it are lost, and the rest of the unfinished one
will not parse. `follow_exactly_once`: as long as no reading fails this way, every event
is delivered once, in order.

The parser of a line is a parameter.
-/

namespace Tazamun

open Lib (splitInclusive splitInclusive_eq complete complete_append complete_prefix
  complete_flatten_complete atLine_flatten_complete isEnded isEnded_of_notMem AtLine)

/-! ## Events -/

/-- One record of the ledger. -/
structure AuditEvent where
  tsMs : U64
  kind : String
  path : Option String
  peer : Option String
  detail : Option String
deriving DecidableEq

structure AuditFilter where
  path : Option String
  peer : Option String
  sinceMs : Option U64
  kinds : List String

def AuditFilter.matchesEvent (f : AuditFilter) (e : AuditEvent) : Bool :=
  (match f.path with
    | some p => decide (e.path = some p)
    | none => true) &&
  (match f.peer with
    | some peer => e.peer.any fun x => peer.toList.isPrefixOf x.toList
    | none => true) &&
  (match f.sinceMs with
    | some since => decide (since ≤ e.tsMs)
    | none => true) &&
  (f.kinds.isEmpty || f.kinds.any (· == e.kind))

/-- `str::trim_end`. -/
def trimEnd (s : List Char) : List Char := s.rdropWhile isWhitespace

section Reading

variable (parse : List Char → Option AuditEvent) (filter : AuditFilter)

/-! ## A reading -/

/-- What goes wrong when the file is accessed. -/
inductive Access where
  | ok
  | noOpen
  | noRead
deriving DecidableEq

/-- The loop over the lines, up to one without a newline. -/
def readLoop : List (List Char) → Nat → List AuditEvent → List AuditEvent × Nat
  | [], consumed, out => (out, consumed)
  | line :: lines, consumed, out =>
      if !isEnded '\n' line then (out, consumed)
      else
        let consumed := consumed + (bytes line).length
        match parse (trimEnd line) with
        | none => readLoop lines consumed out
        | some e =>
            if filter.matchesEvent e then readLoop lines consumed (out ++ [e])
            else readLoop lines consumed out

/-- The events after `offset`, and the offset for the next reading. -/
def readSinceOffset (file : Option (List UInt8)) (access : Access) (offset : Nat) :
    List AuditEvent × Nat :=
  match file, access with
  | none, _ => ([], 0)
  | some _, .noOpen => ([], 0)
  | some content, .noRead => ([], content.length)
  | some content, .ok =>
      let len := content.length
      let start := if len < offset then len else offset
      match readToString (content.drop start) with
      | none => ([], len)
      | some buf => readLoop parse filter (splitInclusive '\n' buf) start []

/-! ## Following -/

/-- The ledger, and the follower with what it has delivered. -/
structure Follow where
  file : Option (List UInt8)
  offset : Nat
  delivered : List AuditEvent

def Follow.content (f : Follow) : List UInt8 := f.file.getD []

/-- The writer appends some bytes, or the follower reads. -/
inductive FollowStep where
  | append (chunk : List UInt8)
  | poll (access : Access)

def Follow.step (f : Follow) : FollowStep → Follow
  | .append chunk => { f with file := some (f.content ++ chunk) }
  | .poll access =>
      let (events, offset) := readSinceOffset parse filter f.file access f.offset
      { f with offset, delivered := f.delivered ++ events }

def Follow.run (f : Follow) (steps : List FollowStep) : Follow :=
  steps.foldl (Follow.step parse filter) f

/-- The follower begins at `offset`. -/
def Follow.begin (file : Option (List UInt8)) (offset : Nat) : Follow :=
  { file, offset, delivered := [] }

/-- The reading gets at the file, and finds UTF-8 from its offset on. -/
def Legible (f : Follow) : FollowStep → Prop
  | .append _ => True
  | .poll access =>
      access = .ok ∧ f.offset ≤ f.content.length ∧ (readToString (f.content.drop f.offset)).isSome

/-! ## What should be delivered -/

/-- The event of a line that parses and matches. -/
def lineEvent (line : List UInt8) : Option AuditEvent :=
  ((readToString line).bind fun text => parse (trimEnd text)).filter filter.matchesEvent

/-- The events of the complete lines. -/
def eventsOf (ledger : List UInt8) : List AuditEvent :=
  (complete newline ledger).filterMap (lineEvent parse filter)

theorem eventsOf_nil : eventsOf parse filter [] = [] := rfl

theorem eventsOf_append {a : List UInt8} (h : AtLine newline a) (b : List UInt8) :
    eventsOf parse filter (a ++ b) = eventsOf parse filter a ++ eventsOf parse filter b := by
  rw [eventsOf, complete_append h, List.filterMap_append, eventsOf, eventsOf]

theorem eventsOf_prefix (a b : List UInt8) :
    eventsOf parse filter a <+: eventsOf parse filter (a ++ b) := by
  obtain ⟨rest, hrest⟩ := complete_prefix newline a b
  rw [eventsOf, eventsOf, ← hrest, List.filterMap_append]
  exact List.prefix_append _ _

theorem lineEvent_bytes (line : List Char) :
    lineEvent parse filter (bytes line) =
      (parse (trimEnd line)).filter filter.matchesEvent := by
  rw [lineEvent, readToString_eq_some.mpr rfl, Option.bind_some]

/-! ## One reading -/

/-- The loop takes the complete lines, one after the other. -/
theorem readLoop_lines (lines : List (List Char))
    (hlines : ∀ line ∈ lines, isEnded '\n' line = true)
    {torn : List (List Char)} (htorn : torn = [] ∨ ∃ t, torn = [t] ∧ isEnded '\n' t = false)
    (consumed : Nat) (out : List AuditEvent) :
    readLoop parse filter (lines ++ torn) consumed out =
      (out ++ lines.filterMap fun line => lineEvent parse filter (bytes line),
        consumed + (lines.map bytes).flatten.length) := by
  induction lines generalizing consumed out with
  | nil =>
      rcases htorn with rfl | ⟨t, rfl, ht⟩
      · simp [readLoop]
      · simp [readLoop, ht]
  | cons line lines ih =>
      have hline := hlines line List.mem_cons_self
      have hrest := ih fun l hl => hlines l (List.mem_cons_of_mem line hl)
      have hevent := lineEvent_bytes parse filter line
      rw [List.cons_append, readLoop, hline, List.filterMap_cons, hevent, List.map_cons,
        List.flatten_cons, List.length_append, ← Nat.add_assoc]
      dsimp only
      rw [Bool.not_true, if_neg Bool.false_ne_true]
      cases hparse : parse (trimEnd line) with
      | none => simp only [hrest, Option.filter_none]
      | some e =>
          by_cases hmatch : filter.matchesEvent e = true
          · simp only [hmatch, if_true, hrest, Option.filter_some, List.append_assoc,
              List.singleton_append]
          · simp only [hmatch, Bool.false_eq_true, if_false, hrest, Option.filter_some]

/-- **A reading that finds UTF-8** delivers the complete lines from its offset on, and goes on
behind them. -/
theorem readSinceOffset_ok {content : List UInt8} {offset : Nat} (hoffset : offset ≤ content.length)
    (htext : (readToString (content.drop offset)).isSome) :
    readSinceOffset parse filter (some content) .ok offset =
      (eventsOf parse filter (content.drop offset),
        offset + (complete newline (content.drop offset)).flatten.length) := by
  obtain ⟨buf, hbuf⟩ := Option.isSome_iff_exists.mp htext
  have hbytes := readToString_eq_some.mp hbuf
  obtain ⟨torn, htorn, -, hpieces⟩ := splitInclusive_eq '\n' buf
  rw [readSinceOffset, if_neg (not_lt.mpr hoffset), hbuf]
  dsimp only
  rw [hpieces, readLoop_lines, ← hbytes, eventsOf, complete_bytes, List.filterMap_map,
    List.nil_append]
  · rfl
  · intro line hline
    exact (List.mem_filter.mp hline).2
  · by_cases hnil : torn = []
    · exact .inl (if_pos hnil)
    · exact .inr ⟨torn, if_neg hnil, isEnded_of_notMem htorn⟩

/-! ## Runs -/

/-- Where the follower stands: at the beginning, or behind a complete line, with everything up
to there delivered. -/
structure Behind (start : Nat) (f : Follow) : Prop where
  within : start ≤ f.offset ∧ f.offset ≤ f.content.length
  atLine : AtLine newline ((f.content.take f.offset).drop start)
  delivered : f.delivered = eventsOf parse filter ((f.content.take f.offset).drop start)

def Follow.Inv (start : Nat) (f : Follow) : Prop :=
  f.offset = start ∧ f.delivered = [] ∨ Behind parse filter start f

variable {parse filter}

/-- What lies behind the offset and what lies before it. -/
theorem drop_take_append {content : List UInt8} {start offset : Nat} (hle : start ≤ offset)
    (hlen : offset ≤ content.length) :
    (content.take offset).drop start ++ content.drop offset = content.drop start := by
  conv_rhs => rw [← List.take_append_drop offset content]
  rw [List.drop_append_of_le_length]
  rw [List.length_take]
  omega

theorem Follow.Inv.behind {start : Nat} {f : Follow} (h : f.Inv parse filter start)
    (hoffset : f.offset ≤ f.content.length) : Behind parse filter start f := by
  rcases h with ⟨hstart, hnil⟩ | h
  · have hempty : (f.content.take f.offset).drop start = [] := by
      refine List.drop_eq_nil_of_le ?_
      rw [List.length_take]
      omega
    refine ⟨⟨hstart.ge, hoffset⟩, ?_, ?_⟩
    · exact .inl hempty
    · rw [hempty, hnil, eventsOf_nil]
  · exact h

/-- What is delivered are the first events, whatever was appended since. -/
theorem Follow.Inv.delivered_first {start : Nat} {f : Follow} (h : f.Inv parse filter start) :
    f.delivered <+: eventsOf parse filter (f.content.drop start) := by
  rcases h with ⟨-, hnil⟩ | h
  · rw [hnil]
    exact List.nil_prefix
  · rw [h.delivered, ← drop_take_append h.within.1 h.within.2]
    exact eventsOf_prefix parse filter _ _

theorem inv_append {start : Nat} {f : Follow} (h : f.Inv parse filter start) (chunk : List UInt8) :
    (f.step parse filter (.append chunk)).Inv parse filter start := by
  rcases h with h | h
  · exact .inl h
  · have htake : (f.content ++ chunk).take f.offset = f.content.take f.offset :=
      List.take_append_of_le_length h.within.2
    refine .inr ⟨⟨h.within.1, ?_⟩, ?_, ?_⟩
    · show f.offset ≤ (f.content ++ chunk).length
      rw [List.length_append]
      exact h.within.2.trans (Nat.le_add_right _ _)
    · show AtLine newline (((f.content ++ chunk).take f.offset).drop start)
      rw [htake]
      exact h.atLine
    · show f.delivered = eventsOf parse filter (((f.content ++ chunk).take f.offset).drop start)
      rw [htake]
      exact h.delivered

/-- **A reading delivers what is there to deliver**, and nothing twice. -/
theorem inv_poll {start : Nat} {f : Follow} (h : f.Inv parse filter start) {access : Access}
    (hok : Legible f (.poll access)) :
    (f.step parse filter (.poll access)).Inv parse filter start ∧
      (f.step parse filter (.poll access)).delivered =
        eventsOf parse filter (f.content.drop start) := by
  obtain ⟨rfl, hoffset, htext⟩ := hok
  have hb := h.behind hoffset
  have hsplit := drop_take_append hb.within.1 hb.within.2
  cases hfile : f.file with
  | none =>
      have hcontent : f.content = [] := by rw [Follow.content, hfile, Option.getD_none]
      have hzero : f.offset = 0 := by
        rw [hcontent] at hoffset
        exact Nat.le_zero.mp hoffset
      have hstep : f.step parse filter (.poll .ok) = f := by
        rw [Follow.step, hfile, readSinceOffset]
        cases f
        simp only [List.append_nil] at hzero hfile ⊢
        rw [hzero, hfile]
      rw [hstep]
      refine ⟨.inr hb, ?_⟩
      rw [hb.delivered, hcontent, List.take_nil, List.drop_nil]
  | some content =>
      have hcontent : f.content = content := by rw [Follow.content, hfile, Option.getD_some]
      have hread := readSinceOffset_ok parse filter hoffset htext
      have hstep : f.step parse filter (.poll .ok) =
          { f with
            offset := f.offset + (complete newline (f.content.drop f.offset)).flatten.length
            delivered := f.delivered ++ eventsOf parse filter (f.content.drop f.offset) } := by
        rw [Follow.step, hfile, ← hcontent, hread]
      have hall : f.delivered ++ eventsOf parse filter (f.content.drop f.offset) =
          eventsOf parse filter (f.content.drop start) := by
        rw [hb.delivered, ← eventsOf_append parse filter hb.atLine, hsplit]
      rw [hstep]
      refine ⟨.inr ?_, hall⟩
      obtain ⟨torn, htorn⟩ := Lib.flatten_complete_prefix newline (f.content.drop f.offset)
      obtain ⟨lines, hlines⟩ : ∃ l, l = complete newline (f.content.drop f.offset) := ⟨_, rfl⟩
      -- the new offset is behind the lines just read
      have htake : (f.content.take (f.offset + lines.flatten.length)).drop start =
          (f.content.take f.offset).drop start ++ lines.flatten := by
        rw [← hlines] at htorn
        rw [List.take_add, ← htorn, List.take_left, List.drop_append_of_le_length]
        rw [List.length_take]
        have hle := hb.within.1
        omega
      have hlen : f.offset + lines.flatten.length ≤ f.content.length := by
        have h := congrArg List.length htorn
        rw [← hlines, List.length_append, List.length_drop] at h
        omega
      refine ⟨⟨?_, ?_⟩, ?_, ?_⟩
      · exact hb.within.1.trans (Nat.le_add_right _ _)
      · show f.offset + (complete newline (f.content.drop f.offset)).flatten.length ≤
          f.content.length
        rw [← hlines]
        exact hlen
      · show AtLine newline ((f.content.take
          (f.offset + (complete newline (f.content.drop f.offset)).flatten.length)).drop start)
        rw [← hlines, htake, hlines]
        exact hb.atLine.append (atLine_flatten_complete _ _)
      · show f.delivered ++ eventsOf parse filter (f.content.drop f.offset) =
          eventsOf parse filter ((f.content.take
            (f.offset + (complete newline (f.content.drop f.offset)).flatten.length)).drop start)
        rw [← hlines, htake, eventsOf_append parse filter hb.atLine, hb.delivered, hlines,
          eventsOf, eventsOf, eventsOf, complete_flatten_complete]

variable (parse filter)

theorem inv_run {file : Option (List UInt8)} {start : Nat} {steps : List FollowStep}
    (hok : ∀ before s, before ++ [s] <+: steps →
      Legible ((Follow.begin file start).run parse filter before) s) :
    ((Follow.begin file start).run parse filter steps).Inv parse filter start := by
  induction steps using List.reverseRecOn with
  | nil => exact .inl ⟨rfl, rfl⟩
  | append_singleton steps s ih =>
      have hbefore := ih fun before s' hpre => hok before s' (hpre.trans (List.prefix_append _ _))
      have hlast := hok steps s (List.prefix_refl _)
      rw [Follow.run, List.foldl_append]
      cases s with
      | append chunk => exact inv_append hbefore chunk
      | poll access => exact (inv_poll hbefore hlast).1

/-- **Every event is delivered once**: in a run whose readings are legible, what is
delivered are always the first events after the starting offset, and all of them after a
reading. -/
theorem follow_exactly_once (file : Option (List UInt8)) (start : Nat) (steps : List FollowStep)
    (hok : ∀ before s, before ++ [s] <+: steps →
      Legible ((Follow.begin file start).run parse filter before) s) :
    (∀ before, before <+: steps →
      let f := (Follow.begin file start).run parse filter before
      f.delivered <+: eventsOf parse filter (f.content.drop start)) ∧
    ∀ before access, before ++ [.poll access] <+: steps →
      let f := (Follow.begin file start).run parse filter (before ++ [.poll access])
      f.delivered = eventsOf parse filter (f.content.drop start) := by
  have hinv : ∀ before, before <+: steps →
      ((Follow.begin file start).run parse filter before).Inv parse filter start :=
    fun before hpre => inv_run parse filter fun b s hb => hok b s (hb.trans hpre)
  constructor
  · intro before hpre
    exact (hinv before hpre).delivered_first
  · intro before access hpre
    have hbefore := hinv before ((List.prefix_append _ _).trans hpre)
    dsimp only
    rw [Follow.run, List.foldl_append]
    exact (inv_poll hbefore (hok before _ hpre)).2

end Reading

/-! ## A reading in the middle of a character -/

/-- A line of the ledger. -/
def lockLine : List Char := "\x7b\"ts_ms\":1,\"kind\":\"lock\",\"path\":\"é\"\x7d".toList

def lockEvent : AuditEvent where
  tsMs := 1
  kind := "lock"
  path := some "é"
  peer := none
  detail := none

/-- A parser that knows this line. -/
def parseLock (text : List Char) : Option AuditEvent :=
  if text = lockLine then some lockEvent else none

def everything : AuditFilter := { path := none, peer := none, sinceMs := none, kinds := [] }

def lockBytes : List UInt8 := bytes (lockLine ++ ['\n'])

/-- The follower reads when the first byte of the `é` has been written, and again at the end. -/
def cutRun : List FollowStep :=
  [.append (lockBytes.take 34), .poll .ok, .append (lockBytes.drop 34), .poll .ok]

/-- **The event is lost**, although its line is complete and parses. -/
theorem follow_loses_event :
    ((Follow.begin (some []) 0).run parseLock everything cutRun).delivered = [] ∧
      eventsOf parseLock everything
        (((Follow.begin (some []) 0).run parseLock everything cutRun).content.drop 0) =
        [lockEvent] := by
  decide +kernel

/-- Cut before the `é`, the line is left for the next reading. -/
theorem follow_exactly_once_cut :
    let steps := [.append (lockBytes.take 33), .poll .ok]
    let f := (Follow.begin none 0).run parseLock everything steps
    f.delivered = eventsOf parseLock everything (f.content.drop 0) := by
  refine (follow_exactly_once parseLock everything none 0
    [.append (lockBytes.take 33), .poll .ok] ?_).2 [.append (lockBytes.take 33)] .ok
    (List.prefix_refl _)
  intro before s hpre
  rcases Lib.prefix_of_two hpre with ⟨rfl, rfl⟩ | ⟨rfl, rfl⟩
  · trivial
  · exact ⟨rfl, Nat.zero_le _, rfl⟩

end Tazamun
