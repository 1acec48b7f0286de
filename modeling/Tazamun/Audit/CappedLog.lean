import Tazamun.Lib.Run
import Tazamun.Audit.Text

set_option autoImplicit false

/-! # The line-capped log

`LineCappedLog` (`service.rs`) appends to a file and keeps its last `max_lines` lines. It counts
newlines as it writes; when the count exceeds the cap by a fifth, the file is read as text, and
its last lines are written to a new file that takes its place (`trim`).

The text is what this depends on. If the file is not UTF-8 it is read as nothing, and the new
file is empty. A rest without a newline counts as a line, and gets one; a carriage return before
a newline is dropped. `cappedLog_keeps_tail`: apart from that, the file is always the end of
everything written to it, within its bound, and holds the last `max_lines` lines.
-/

namespace Tazamun

open Lib (splitInclusive complete AtLine isEnded length_complete complete_append
  length_splitInclusive complete_flatten exists_of_mem_complete atLine_flatten)

/-! ## Reading and writing -/

/-- A line without its newline, or its carriage return and newline. -/
def stripLine (line : List Char) : List Char :=
  if isEnded '\n' line then
    if isEnded '\r' line.dropLast then line.dropLast.dropLast else line.dropLast
  else line

/-- `str::lines`. -/
def textLines (text : List Char) : List (List Char) := (splitInclusive '\n' text).map stripLine

structure CappedLog where
  content : List UInt8
  maxLines : Nat
  lines : Nat

namespace CappedLog

/-- Opens the log, counting the lines of a file that is text. -/
def openAt (content : List UInt8) (maxLines : Nat) : CappedLog where
  content := content
  maxLines := max maxLines 1
  lines := ((readToString content).map fun text => (textLines text).length).getD 0

def trim (log : CappedLog) : CappedLog :=
  let text := (readToString log.content).getD []
  let all := textLines text
  let kept := all.drop (all.length - log.maxLines)
  { log with content := bytes (kept.flatMap fun line => line ++ ['\n']), lines := kept.length }

/-- The number of lines beyond which the log is trimmed. -/
def ceiling (maxLines : Nat) : Nat := maxLines + maxLines / 5

def write (log : CappedLog) (buf : List UInt8) : CappedLog :=
  let log := { log with content := log.content ++ buf, lines := log.lines + buf.count newline }
  if ceiling log.maxLines < log.lines then log.trim else log

def writeAll (log : CappedLog) (bufs : List (List UInt8)) : CappedLog := bufs.foldl write log

/-! ## What the log should keep -/

/-- The content is the end of the stream, within its bound, with the last `maxLines` lines. -/
structure KeepsTail (maxLines : Nat) (stream content : List UInt8) : Prop where
  bound : (complete newline content).length ≤ ceiling maxLines
  suffix : content <:+ stream
  lastLines :
    (complete newline stream).drop ((complete newline stream).length - maxLines) <:+
      complete newline content

/-- The file is opened as text, or the whole stream stays within the bound. -/
def OpensWell (maxLines : Nat) (initial : List UInt8) (bufs : List (List UInt8)) : Prop :=
  (readToString initial).isSome ∨ (initial ++ bufs.flatten).count newline ≤ ceiling maxLines

/-- If the write trims the file, then that is text, it ends with a newline, and none of its last
lines has a carriage return before the newline. -/
def TrimsWell (log : CappedLog) (buf : List UInt8) : Prop :=
  ceiling log.maxLines < log.lines + buf.count newline →
    AtLine newline (log.content ++ buf) ∧
      ∃ text, readToString (log.content ++ buf) = some text ∧
        ∀ line ∈ (splitInclusive '\n' text).drop
            ((splitInclusive '\n' text).length - log.maxLines),
          isEnded '\r' line.dropLast = false

/-! ## Trimming -/

theorem stripLine_newline {line : List Char} (h : isEnded '\n' line = true)
    (hcr : isEnded '\r' line.dropLast = false) : stripLine line ++ ['\n'] = line := by
  obtain ⟨body, rfl⟩ := Lib.isEnded_iff.mp h
  rw [stripLine, if_pos h, if_neg (by rw [hcr]; decide), List.dropLast_concat]

/-- **A trim that goes well** keeps the last lines as they are. -/
theorem trim_eq {log : CappedLog} {text : List Char} (hat : AtLine newline log.content)
    (htext : readToString log.content = some text)
    (hcr : ∀ line ∈ (splitInclusive '\n' text).drop
      ((splitInclusive '\n' text).length - log.maxLines), isEnded '\r' line.dropLast = false) :
    log.trim = { log with
      content := ((complete newline log.content).drop
        ((complete newline log.content).length - log.maxLines)).flatten
      lines := ((complete newline log.content).drop
        ((complete newline log.content).length - log.maxLines)).length } := by
  have hbytes := readToString_eq_some.mp htext
  have hpieces : complete newline log.content = (splitInclusive '\n' text).map bytes := by
    rw [Lib.complete_of_atLine hat, ← hbytes, splitInclusive_bytes]
  have hended : ∀ line ∈ splitInclusive '\n' text, isEnded '\n' line = true := by
    intro line hline
    have hmem : bytes line ∈ complete newline log.content := by
      rw [hpieces]
      exact List.mem_map_of_mem hline
    rw [← isEnded_bytes]
    exact (List.mem_filter.mp hmem).2
  obtain ⟨k, hk⟩ : ∃ k, k = (splitInclusive '\n' text).length - log.maxLines := ⟨_, rfl⟩
  rw [← hk] at hcr
  have hkept : (((splitInclusive '\n' text).drop k).map stripLine).flatMap
      (fun line => line ++ ['\n']) = ((splitInclusive '\n' text).drop k).flatten := by
    rw [List.flatMap_map, List.flatten_eq_flatMap]
    refine List.flatMap_congr fun line hline => ?_
    exact stripLine_newline (hended line (List.mem_of_mem_drop hline)) (hcr line hline)
  rw [trim, htext, Option.getD_some, textLines, List.length_map, ← hk, ← List.map_drop, hkept,
    bytes_flatten, hpieces, List.length_map, List.length_map, ← hk, ← List.map_drop,
    List.length_map]

/-! ## The invariant -/

/-- What was dropped from the stream are whole lines, and only when enough were left; the
counter exceeds the newlines by one at most. -/
structure Inv (maxLines : Nat) (stream : List UInt8) (log : CappedLog) : Prop where
  maxLines_eq : log.maxLines = maxLines
  split : ∃ dropped, stream = dropped ++ log.content ∧ AtLine newline dropped ∧
    (dropped = [] ∨ maxLines ≤ (complete newline log.content).length)
  lines_le : log.lines ≤ log.content.count newline + 1

/-- The counter does not miss a newline. -/
def Counted (log : CappedLog) : Prop := log.content.count newline ≤ log.lines

variable {cap : Nat} {stream : List UInt8} {log : CappedLog}

theorem Inv.suffix (h : Inv cap stream log) : log.content <:+ stream := by
  obtain ⟨dropped, hstream, -⟩ := h.split
  exact ⟨dropped, hstream.symm⟩

theorem Inv.lastLines (h : Inv cap stream log) :
    (complete newline stream).drop ((complete newline stream).length - cap) <:+
      complete newline log.content := by
  obtain ⟨dropped, hstream, hat, henough⟩ := h.split
  rw [hstream, complete_append hat]
  rcases henough with rfl | henough
  · exact List.drop_suffix _ _
  · have hdrop : (complete newline dropped ++ complete newline log.content).drop
        ((complete newline dropped ++ complete newline log.content).length - cap) =
        (complete newline log.content).drop ((complete newline log.content).length - cap) := by
      rw [List.length_append, Nat.add_sub_assoc henough, List.drop_append,
        List.drop_of_length_le (Nat.le_add_right _ _), Nat.add_sub_cancel_left, List.nil_append]
    rw [hdrop]
    exact List.drop_suffix _ _

/-- **Opening** a file, with an empty stream before it. -/
theorem inv_openAt (initial : List UInt8) {cap : Nat} (hcap : 1 ≤ cap) :
    Inv cap initial (openAt initial cap) where
  maxLines_eq := max_eq_left hcap
  split := ⟨[], rfl, .inl rfl, .inl rfl⟩
  lines_le := by
    show ((readToString initial).map fun text => (textLines text).length).getD 0 ≤ _
    cases htext : readToString initial with
    | none => exact Nat.zero_le _
    | some text =>
        rw [Option.map_some, Option.getD_some, textLines, List.length_map]
        show _ ≤ initial.count newline + 1
        rw [← readToString_eq_some.mp htext, count_bytes]
        exact (length_splitInclusive '\n' text).2

theorem counted_openAt {initial : List UInt8} (htext : (readToString initial).isSome) (cap : Nat) :
    Counted (openAt initial cap) := by
  obtain ⟨text, htext⟩ := Option.isSome_iff_exists.mp htext
  show initial.count newline ≤ ((readToString initial).map fun text => (textLines text).length).getD 0
  rw [htext, Option.map_some, Option.getD_some, textLines, List.length_map,
    ← readToString_eq_some.mp htext, count_bytes]
  exact (length_splitInclusive '\n' text).1

/-- The log with a buffer appended. -/
def appended (log : CappedLog) (buf : List UInt8) : CappedLog :=
  { log with content := log.content ++ buf, lines := log.lines + buf.count newline }

theorem inv_appended (h : Inv cap stream log) (buf : List UInt8) :
    Inv cap (stream ++ buf) (log.appended buf) := by
  obtain ⟨dropped, hstream, hat, henough⟩ := h.split
  refine ⟨h.maxLines_eq, ⟨dropped, ?_, hat, ?_⟩, ?_⟩
  · rw [hstream, List.append_assoc]
    rfl
  · refine henough.imp_right fun henough => henough.trans ?_
    exact (Lib.complete_prefix newline log.content buf).length_le
  · have hle := h.lines_le
    show log.lines + buf.count newline ≤ (log.content ++ buf).count newline + 1
    rw [List.count_append]
    omega

theorem counted_appended (h : Counted log) (buf : List UInt8) : Counted (log.appended buf) := by
  show (log.content ++ buf).count newline ≤ log.lines + buf.count newline
  rw [List.count_append]
  exact Nat.add_le_add_right h _

/-- **Trimming** keeps the invariant, and leaves a right count. -/
theorem inv_trim (h : Inv cap stream log) (hover : ceiling cap < log.lines) {text : List Char}
    (hat : AtLine newline log.content) (htext : readToString log.content = some text)
    (hcr : ∀ line ∈ (splitInclusive '\n' text).drop
      ((splitInclusive '\n' text).length - log.maxLines), isEnded '\r' line.dropLast = false) :
    Inv cap stream log.trim ∧ Counted log.trim ∧ log.trim.lines ≤ cap := by
  obtain ⟨dropped, hstream, hdropped, -⟩ := h.split
  obtain ⟨all, hall⟩ : ∃ all, all = complete newline log.content := ⟨_, rfl⟩
  have hcontent : all.flatten = log.content := by rw [hall, Lib.flatten_complete hat]
  have hlines : ∀ k, complete newline (all.drop k).flatten = all.drop k := by
    intro k
    refine complete_flatten fun line hline => ?_
    rw [hall] at hline
    exact exists_of_mem_complete (List.mem_of_mem_drop hline)
  have hmany : cap ≤ all.length := by
    have hle := h.lines_le
    rw [hall, length_complete]
    unfold ceiling at hover
    omega
  rw [trim_eq hat htext hcr, h.maxLines_eq, ← hall]
  refine ⟨⟨rfl, ⟨dropped ++ (all.take (all.length - cap)).flatten, ?_, ?_, .inr ?_⟩, ?_⟩, ?_, ?_⟩
  · show stream = dropped ++ (all.take _).flatten ++ (all.drop _).flatten
    rw [List.append_assoc, ← List.flatten_append, List.take_append_drop, hcontent]
    exact hstream
  · refine hdropped.append (atLine_flatten fun line hline => ?_)
    rw [hall] at hline
    exact (List.mem_filter.mp (List.mem_of_mem_take hline)).2
  · show cap ≤ (complete newline (all.drop _).flatten).length
    rw [hlines, List.length_drop]
    omega
  · show (all.drop _).length ≤ (all.drop _).flatten.count newline + 1
    rw [← length_complete, hlines]
    exact Nat.le_succ _
  · show (all.drop _).flatten.count newline ≤ (all.drop _).length
    rw [← length_complete, hlines]
  · show (all.drop _).length ≤ cap
    rw [List.length_drop]
    omega

/-- **One write**: the invariant is kept, and the counter ends below the ceiling. -/
theorem inv_write (h : Inv cap stream log) {buf : List UInt8} (hok : TrimsWell log buf) :
    Inv cap (stream ++ buf) (log.write buf) ∧ (Counted log → Counted (log.write buf)) ∧
      (log.write buf).lines ≤ ceiling cap := by
  have hwrite : log.write buf = if ceiling log.maxLines < (log.appended buf).lines then
      (log.appended buf).trim else log.appended buf := rfl
  have happended := inv_appended h buf
  rw [hwrite]
  by_cases hover : ceiling log.maxLines < (log.appended buf).lines
  · rw [if_pos hover]
    obtain ⟨hat, text, htext, hcr⟩ := hok hover
    rw [h.maxLines_eq] at hover
    obtain ⟨hinv, hcounted, hlines⟩ := inv_trim happended hover hat htext hcr
    exact ⟨hinv, fun _ => hcounted, hlines.trans (Nat.le_add_right _ _)⟩
  · rw [if_neg hover]
    rw [h.maxLines_eq] at hover
    exact ⟨happended, fun hc => counted_appended hc buf, not_lt.mp hover⟩

/-! ## Runs -/

theorem writeAll_append_one (log : CappedLog) (bufs : List (List UInt8)) (buf : List UInt8) :
    log.writeAll (bufs ++ [buf]) = (log.writeAll bufs).write buf := by
  rw [writeAll, List.foldl_append]
  rfl

theorem inv_writeAll {initial : List UInt8} {cap : Nat} (hcap : 1 ≤ cap)
    {bufs : List (List UInt8)}
    (hok : ∀ before buf, before ++ [buf] <+: bufs →
      TrimsWell ((openAt initial cap).writeAll before) buf) :
    Inv cap (initial ++ bufs.flatten) ((openAt initial cap).writeAll bufs) ∧
      ((readToString initial).isSome → Counted ((openAt initial cap).writeAll bufs)) := by
  induction bufs using List.reverseRecOn with
  | nil =>
      rw [List.flatten_nil, List.append_nil]
      exact ⟨inv_openAt initial hcap, fun htext => counted_openAt htext cap⟩
  | append_singleton bufs buf ih =>
      obtain ⟨hinv, hcounted⟩ := ih fun before buf' hpre =>
        hok before buf' (hpre.trans (List.prefix_append _ _))
      obtain ⟨hinv', hcounted', -⟩ := inv_write hinv (hok bufs buf (List.prefix_refl _))
      rw [writeAll_append_one, List.flatten_append, List.flatten_singleton, ← List.append_assoc]
      exact ⟨hinv', fun htext => hcounted' (hcounted htext)⟩

/-- **The log keeps its tail**: after every write of a run in which the file is opened as text
and trimmed well, its content is the end of the stream, within the bound, and holds the last
lines. -/
theorem cappedLog_keeps_tail (initial : List UInt8) {cap : Nat} (hcap : 1 ≤ cap)
    (bufs : List (List UInt8)) (hopen : OpensWell cap initial bufs)
    (hok : ∀ before buf, before ++ [buf] <+: bufs →
      TrimsWell ((openAt initial cap).writeAll before) buf) :
    ∀ before buf, before ++ [buf] <+: bufs →
      KeepsTail cap (initial ++ (before ++ [buf]).flatten)
        ((openAt initial cap).writeAll (before ++ [buf])).content := by
  intro before buf hpre
  have hbefore : ∀ b w, b ++ [w] <+: before → TrimsWell ((openAt initial cap).writeAll b) w :=
    fun b w hb => hok b w (hb.trans ((List.prefix_append _ _).trans hpre))
  obtain ⟨hinv, hcounted⟩ := inv_writeAll hcap hbefore
  obtain ⟨hinv', hcounted', hlines⟩ := inv_write hinv (hok before buf hpre)
  rw [writeAll_append_one, List.flatten_append, List.flatten_singleton, ← List.append_assoc]
  refine ⟨?_, hinv'.suffix, hinv'.lastLines⟩
  rw [length_complete]
  rcases hopen with htext | hsmall
  · exact (hcounted' (hcounted htext)).trans hlines
  · -- the whole stream has no more lines than the bound
    obtain ⟨rest, hrest⟩ := hpre
    have hstream := hinv'.suffix.sublist.count_le newline
    rw [← hrest, List.flatten_append, List.flatten_append, List.flatten_singleton,
      ← List.append_assoc, ← List.append_assoc, List.count_append] at hsmall
    omega

/-! ## A log erased -/

/-- A byte that is not UTF-8 in the first line, and a second line. -/
def tornBufs : List (List UInt8) := [[0xC3, 0x28, 10], [0x78, 10]]

/-- **The second line is lost**: a log of one line is trimmed to nothing. -/
theorem cappedLog_erased :
    ((openAt [] 1).writeAll tornBufs).content = [] ∧
      ¬ KeepsTail 1 ([] ++ tornBufs.flatten) ((openAt [] 1).writeAll tornBufs).content := by
  have hcontent : ((openAt [] 1).writeAll tornBufs).content = [] := by decide +kernel
  refine ⟨hcontent, fun h => ?_⟩
  have hlast := h.lastLines
  rw [hcontent] at hlast
  exact absurd hlast (by decide +kernel)

def firstLine : List UInt8 := [97, 10]
def secondLine : List UInt8 := [98, 10]

/-- Two lines of text: the second write trims, and the second line stays. -/
theorem cappedLog_keeps_tail_two :
    KeepsTail 1 ([] ++ ([firstLine] ++ [secondLine]).flatten)
      ((openAt [] 1).writeAll ([firstLine] ++ [secondLine])).content := by
  refine cappedLog_keeps_tail [] le_rfl [firstLine, secondLine] (.inl rfl) ?_ [firstLine]
    secondLine (List.prefix_refl _)
  intro before buf hpre
  rcases Lib.prefix_of_two hpre with ⟨rfl, rfl⟩ | ⟨rfl, rfl⟩
  · exact fun hover => absurd hover (by decide)
  · exact fun _ => ⟨.inr rfl, "a\nb\n".toList, rfl, by decide⟩

end CappedLog

end Tazamun
