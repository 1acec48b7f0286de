import Tazamun.Audit.Text
import Tazamun.Query.Snapshot

set_option autoImplicit false

/-! # The lines of the local protocol

On the local socket a request is a line, and so is a reply. `read_line_capped` reads one: as far as
the newline, or the end of the stream, and not further than a byte beyond `IPC_LINE_MAX`. A line
that is longer is an error, and the connection is given up.

How the bytes come in does not matter: what is read from a part of a stream is read from the whole
of it too (`readLineCapped_append`). And a client reads what the daemon wrote, line by line, as the
daemon never writes a line that is too long for it (**`readLines_replies`**).
-/

namespace Tazamun.Ipc

open Lib (Json firstLine firstLine_initial firstLine_ne_nil firstLine_append firstLine_of_not_ended
  firstLine_line isEnded isEnded_append_newline)

/-! ## Text -/

/-- A continuation byte of UTF-8. -/
def isCont (b : UInt8) : Bool := 0x80 ≤ b && b ≤ 0xBF

/-- The first two bytes of a sequence of three or four. -/
def beginsLong (b c : UInt8) : Bool :=
  (b == 0xE0 && 0xA0 ≤ c && c ≤ 0xBF) || (0xE1 ≤ b && b ≤ 0xEC && isCont c) ||
    (b == 0xED && 0x80 ≤ c && c ≤ 0x9F) || (0xEE ≤ b && b ≤ 0xEF && isCont c) ||
    (b == 0xF0 && 0x90 ≤ c && c ≤ 0xBF) || (0xF1 ≤ b && b ≤ 0xF3 && isCont c) ||
    (b == 0xF4 && 0x80 ≤ c && c ≤ 0x8F)

/-- How many bytes one replacement character stands for. -/
def malformedLength : Bytes → Nat
  | b :: c :: rest =>
      if beginsLong b c then
        if 0xF0 ≤ b && (rest.head?.any isCont) then 3 else 2
      else 1
  | _ => 1

/-- The characters, with a replacement for what is none. -/
def lossyChars : Nat → Bytes → List Char
  | 0, _ => []
  | _, [] => []
  | fuel + 1, b :: rest =>
      match ByteArray.utf8DecodeChar? ⟨(b :: rest).toArray⟩ 0 with
      | some c => c :: lossyChars fuel ((b :: rest).drop c.utf8Size)
      | none => Char.ofNat 0xFFFD :: lossyChars fuel ((b :: rest).drop (malformedLength (b :: rest)))

/-- `String::from_utf8_lossy`. -/
def fromUtf8Lossy (buf : Bytes) : List Char :=
  (readToString buf).getD (lossyChars buf.length buf)

theorem fromUtf8Lossy_bytes (text : List Char) : fromUtf8Lossy (bytes text) = text := by
  rw [fromUtf8Lossy, readToString_eq_some.mpr rfl, Option.getD_some]

/-! ## One line -/

/-- What a read of a line gives: its text and what follows it, the error, or the end. -/
inductive LineRead where
  | line (text : List Char) (rest : Bytes)
  | tooLong
  | done
deriving DecidableEq

/-- `read_line_capped` on what has come in so far; `eof` is the end of the stream. Without a result
it waits for more. -/
def readLineCapped (input : Bytes) (eof : Bool) : Option LineRead :=
  let taken := input.take (ipcLineMax + 1)
  let buf := firstLine newline taken
  if isEnded newline buf ∨ taken.length = ipcLineMax + 1 ∨ eof then
    if buf = [] then some .done
    else if ipcLineMax < buf.length then some .tooLong
    else some (.line (trim (fromUtf8Lossy buf)) (input.drop buf.length))
  else none

/-- More bytes behind what was read. -/
def LineRead.append (more : Bytes) : LineRead → LineRead
  | .line text rest => .line text (rest ++ more)
  | .tooLong => .tooLong
  | .done => .done

theorem length_lt_of_line {input rest : Bytes} {eof : Bool} {text : List Char}
    (h : readLineCapped input eof = some (.line text rest)) : rest.length < input.length := by
  unfold readLineCapped at h
  dsimp only at h
  by_cases hready : isEnded newline (firstLine newline (input.take (ipcLineMax + 1))) ∨
      (input.take (ipcLineMax + 1)).length = ipcLineMax + 1 ∨ eof
  · rw [if_pos hready] at h
    by_cases hnil : firstLine newline (input.take (ipcLineMax + 1)) = []
    · rw [if_pos hnil] at h
      cases h
    · rw [if_neg hnil] at h
      by_cases hlong : ipcLineMax < (firstLine newline (input.take (ipcLineMax + 1))).length
      · rw [if_pos hlong] at h
        cases h
      · rw [if_neg hlong] at h
        simp only [Option.some.injEq, LineRead.line.injEq] at h
        have hpos := List.length_pos_iff.mpr hnil
        have hle := (firstLine_initial newline (input.take (ipcLineMax + 1))).length_le
        rw [List.length_take] at hle
        rw [← h.2, List.length_drop]
        omega
  · rw [if_neg hready] at h
    cases h

/-- **A line that was read stays the same line**, whatever follows it. -/
theorem readLineCapped_append {input : Bytes} {read : LineRead}
    (h : readLineCapped input false = some read) (more : Bytes) (eof : Bool) :
    readLineCapped (input ++ more) eof = some (read.append more) := by
  unfold readLineCapped at h ⊢
  dsimp only at h ⊢
  set taken := input.take (ipcLineMax + 1) with htaken
  have hready : isEnded newline (firstLine newline taken) = true ∨
      taken.length = ipcLineMax + 1 := by
    by_contra hnot
    rw [not_or] at hnot
    rw [if_neg (by simpa using hnot)] at h
    cases h
  rw [if_pos (by simpa using hready)] at h
  obtain ⟨tail, htail⟩ : ∃ tail, (input ++ more).take (ipcLineMax + 1) = taken ++ tail :=
    ⟨more.take (ipcLineMax + 1 - input.length), List.take_append⟩
  -- the first line is the same one, as it is complete or the limit is reached
  have hfirst : firstLine newline ((input ++ more).take (ipcLineMax + 1)) =
      firstLine newline taken := by
    rw [htail]
    rcases hready with hended | hfull
    · exact firstLine_append hended tail
    · have hnil : tail = [] := by
        have hlen := congrArg List.length htail
        rw [List.length_append, List.length_take, hfull] at hlen
        exact List.eq_nil_of_length_eq_zero (by omega)
      rw [hnil, List.append_nil]
  have hready' : isEnded newline (firstLine newline taken) = true ∨
      ((input ++ more).take (ipcLineMax + 1)).length = ipcLineMax + 1 ∨ eof = true := by
    rcases hready with hended | hfull
    · exact .inl hended
    · refine .inr (.inl ?_)
      rw [htail, List.length_append, hfull]
      have hle := List.length_take_le (ipcLineMax + 1) (input ++ more)
      rw [htail, List.length_append, hfull] at hle
      omega
  rw [hfirst, if_pos hready']
  by_cases hnil : firstLine newline taken = []
  · rw [if_pos hnil] at h ⊢
    obtain rfl := Option.some.inj h
    rfl
  · rw [if_neg hnil] at h ⊢
    by_cases hlong : ipcLineMax < (firstLine newline taken).length
    · rw [if_pos hlong] at h ⊢
      obtain rfl := Option.some.inj h
      rfl
    · rw [if_neg hlong] at h ⊢
      obtain rfl := Option.some.inj h
      have hle : (firstLine newline taken).length ≤ input.length :=
        (firstLine_initial newline taken).length_le.trans (List.length_take_le' _ _)
      rw [LineRead.append, List.drop_append_of_le_length hle]

theorem length_bytes (text : List Char) : (bytes text).length = Json.size text := by
  rw [bytes, List.length_flatMap, Json.size]
  congr 1
  exact List.map_congr_left fun c _ => String.length_utf8EncodeChar c

theorem newline_notMem_bytes {text : List Char} (h : '\n' ∉ text) : newline ∉ bytes text := by
  intro hmem
  obtain ⟨c, hc, hnl⟩ := List.mem_flatMap.mp hmem
  rw [newline_mem_utf8] at hnl
  exact h (hnl ▸ hc)

theorem bytes_newline (text : List Char) : bytes (text ++ ['\n']) = bytes text ++ [newline] := by
  rw [bytes, List.flatMap_append]
  rfl

theorem trim_newline (text : List Char) : trim (text ++ ['\n']) = trim text := by
  unfold trim
  have hnl : isWhitespace '\n' = true := by decide
  by_cases hall : ∀ c ∈ text, isWhitespace c = true
  · have hboth : ∀ c ∈ text ++ ['\n'], isWhitespace c = true := by
      intro c hc
      rcases List.mem_append.mp hc with hc | hc
      · exact hall c hc
      · rw [List.mem_singleton.mp hc]
        exact hnl
    rw [List.dropWhile_eq_nil_iff.mpr hboth, List.dropWhile_eq_nil_iff.mpr hall]
  · have hne : ¬ (text.dropWhile isWhitespace).isEmpty = true := by
      rw [List.isEmpty_iff, List.dropWhile_eq_nil_iff]
      exact hall
    rw [List.dropWhile_append, if_neg hne, List.rdropWhile_concat_pos _ _ _ hnl]

/-- A line that is not too long is read. -/
theorem readLineCapped_line {line : List Char} (hnl : '\n' ∉ line)
    (hlen : Json.size line < ipcLineMax) (rest : Bytes) (eof : Bool) :
    readLineCapped (bytes (line ++ ['\n']) ++ rest) eof = some (.line (trim line) rest) := by
  rw [bytes_newline]
  have hlength : (bytes line ++ [newline]).length = Json.size line + 1 := by
    rw [List.length_append, length_bytes, List.length_singleton]
  have htake : (bytes line ++ [newline] ++ rest).take (ipcLineMax + 1) =
      bytes line ++ newline :: rest.take (ipcLineMax + 1 - (Json.size line + 1)) := by
    rw [List.take_append, List.take_of_length_le (by omega), hlength, List.append_assoc,
      List.singleton_append]
  unfold readLineCapped
  dsimp only
  rw [htake, firstLine_line (newline_notMem_bytes hnl), if_pos (.inl (isEnded_append_newline _)),
    if_neg (List.append_ne_nil_of_right_ne_nil _ (List.cons_ne_nil _ _)), if_neg (by omega),
    ← bytes_newline, fromUtf8Lossy_bytes, trim_newline, bytes_newline,
    List.drop_left]

/-! ## All lines -/

/-- Why there is no further line. -/
inductive Stop where
  | waiting
  | done
  | tooLong
deriving DecidableEq

/-- The lines that are read in a loop. -/
def readLines (input : Bytes) (eof : Bool) : List (List Char) × Stop :=
  match h : readLineCapped input eof with
  | none => ([], .waiting)
  | some .done => ([], .done)
  | some .tooLong => ([], .tooLong)
  | some (.line text rest) =>
      have : rest.length < input.length := length_lt_of_line h
      (text :: (readLines rest eof).1, (readLines rest eof).2)
termination_by input.length

theorem readLines_line {input rest : Bytes} {eof : Bool} {text : List Char}
    (h : readLineCapped input eof = some (.line text rest)) :
    readLines input eof = (text :: (readLines rest eof).1, (readLines rest eof).2) := by
  rw [readLines]
  split <;> simp_all

theorem readLines_waiting {input : Bytes} {eof : Bool} (h : readLineCapped input eof = none) :
    readLines input eof = ([], .waiting) := by
  rw [readLines]
  split <;> simp_all

theorem readLines_done {input : Bytes} {eof : Bool} (h : readLineCapped input eof = some .done) :
    readLines input eof = ([], .done) := by
  rw [readLines]
  split <;> simp_all

theorem readLines_tooLong {input : Bytes} {eof : Bool}
    (h : readLineCapped input eof = some .tooLong) : readLines input eof = ([], .tooLong) := by
  rw [readLines]
  split <;> simp_all

/-- The requests that come in: blank lines are passed over. -/
def requests (input : Bytes) (eof : Bool) : List (List Char) :=
  (readLines input eof).1.filter fun text => text ≠ []

theorem requests_line {input rest : Bytes} {eof : Bool} {text : List Char}
    (h : readLineCapped input eof = some (.line text rest)) :
    requests input eof = (if text = [] then [] else [text]) ++ requests rest eof := by
  unfold requests
  rw [readLines_line h, List.filter_cons]
  by_cases hblank : text = []
  · rw [if_pos hblank, if_neg (by simpa using hblank), List.nil_append]
  · rw [if_neg hblank, if_pos (by simpa using hblank), List.singleton_append]

/-! ## Replies -/

/-- The text that a reply is sent as. -/
def replyText (r : Response) : List Char :=
  if ipcLineMax ≤ Json.size r.json.render then tooLarge.json.render else r.json.render

theorem line_eq (r : Response) : line r = replyText r ++ ['\n'] := rfl

/-- An object is written between braces. -/
theorem exists_braces (r : Response) : ∃ inner, r.json.render = '{' :: inner ++ ['}'] :=
  ⟨_, rfl⟩

theorem trim_render (r : Response) : trim r.json.render = r.json.render := by
  obtain ⟨inner, h⟩ := exists_braces r
  have hopen : isWhitespace '{' = false := by decide
  have hclose : isWhitespace '}' = false := by decide
  rw [h, trim, List.cons_append, List.dropWhile_cons_of_neg (by simp [hopen]), ← List.cons_append,
    List.rdropWhile_concat_neg _ _ _ (by simp [hclose])]

/-- A reply without other data than texts and printed numbers. -/
def Response.Plain (r : Response) : Prop := ∀ data ∈ r.data, data.plain = true

theorem plain_json {r : Response} (h : r.Plain) : r.json.plain = true := by
  obtain ⟨ok, data, error⟩ := r
  cases data with
  | none => cases error <;> simp [Response.json, Json.plain, Json.plainMembers]
  | some data =>
      have hdata : data.plain = true := h data rfl
      cases error <;> simp [Response.json, Json.plain, Json.plainMembers, hdata]

theorem readLineCapped_reply {r : Response} (h : r.Plain) (rest : Bytes) (eof : Bool) :
    readLineCapped (bytes (line r) ++ rest) eof = some (.line (replyText r) rest) := by
  have hlarge : tooLarge.Plain := fun _ hdata => by cases hdata
  rw [line_eq]
  unfold replyText
  by_cases hsize : ipcLineMax ≤ Json.size r.json.render
  · have hsmall : Json.size tooLarge.json.render < ipcLineMax := by decide +kernel
    rw [if_pos hsize, readLineCapped_line (Json.newline_notMem_render _ (plain_json hlarge)) hsmall,
      trim_render]
  · rw [if_neg hsize, readLineCapped_line (Json.newline_notMem_render _ (plain_json h)) (by omega),
      trim_render]

/-- **A client reads what was replied**, reply by reply. -/
theorem readLines_replies {replies : List Response} (h : ∀ r ∈ replies, r.Plain) :
    readLines (replies.flatMap fun r => bytes (line r)) false = (replies.map replyText, .waiting) := by
  induction replies with
  | nil =>
      exact readLines_waiting (by decide +kernel)
  | cons r replies ih =>
      rw [List.flatMap_cons, readLines_line (readLineCapped_reply (h r List.mem_cons_self) _ _),
        ih fun r' hr' => h r' (List.mem_cons_of_mem _ hr'), List.map_cons]

end Tazamun.Ipc
