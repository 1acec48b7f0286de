import Tazamun.Config.Values
import Tazamun.Daemon.Actor
import Tazamun.Lib.Text

set_option autoImplicit false

/-! # A request of the dashboard

The dashboard answers one HTTP request on a connection (`dashboard.rs`). `read_request` reads from
the socket, as much as there is at a time, until it has seen the blank line after the head; then it
parses the head, and reads on until the body is as long as the head says. What it keeps is bounded:
it stops reading where the limit of a megabyte is passed.

`Request.parse` is what the whole of the bytes means, without reads and limits. However the bytes
come in, a request that is read is the one that they mean, and its body keeps to the limit; and
bytes that keep to the limit are read to the end (**`readRequest_eq_parse`**).
-/

namespace Tazamun.Dashboard

open Lib Config

def maxRequest : Nat := 1024 * 1024

/-- The blank line after the head. -/
def blankLine : Bytes := [13, 10, 13, 10]

/-- `find_subslice`. -/
def findSubslice (needle : Bytes) : Bytes → Option Nat
  | [] => none
  | b :: rest =>
      if needle.isPrefixOf (b :: rest) then some 0 else (findSubslice needle rest).map (· + 1)

/-- `split("\r\n")`. -/
def splitLines : List Char → List (List Char)
  | [] => [[]]
  | '\r' :: '\n' :: rest => [] :: splitLines rest
  | c :: rest => (splitLines rest).modifyHead (c :: ·)

/-- The map of the headers, in the order of insertion: a later entry counts. -/
abbrev Headers : Type := List (List Char × List Char)

def Headers.get (headers : Headers) (key : String) : Option (List Char) :=
  (List.find? (fun h => h.1 == key.toList) headers.reverse).map Prod.snd

structure Head where
  method : List Char
  target : List Char
  headers : Headers

structure Request where
  method : List Char
  path : List Char
  query : List Char
  headers : Headers
  body : Bytes
deriving DecidableEq

/-- The lines of the head, as text. -/
def Head.parse (raw : Bytes) : Option Head :=
  match String.fromUTF8? ⟨raw.toArray⟩ with
  | none => none
  | some text =>
      match splitLines text.toList with
      | [] => none
      | requestLine :: lines =>
          match requestLine.splitOn ' ' with
          | method :: target :: _ =>
              some { method, target
                     headers := lines.filterMap fun line => (splitOnce [':'] line).map fun kv =>
                      ((trim kv.1).map Char.toLower, trim kv.2) }
          | _ => none

/-- `content-length`; what is no number is 0. -/
def Head.contentLength (head : Head) : Nat :=
  match head.headers.get "content-length" with
  | none => 0
  | some v =>
      match parseUint 64 v with
      | none => 0
      | some n => n.val

def Head.request (head : Head) (body : Bytes) : Request :=
  let (path, query) := (splitOnce ['?'] head.target).getD (head.target, [])
  { method := head.method, path, query, headers := head.headers
    body := body.take head.contentLength }

/-! ## Reading -/

/-- The loop over the head. The reads are what `read` returns, one after the other; at the end it
returns nothing. -/
def readHead (buf : Bytes) (reads : List Bytes) : Option (Nat × Bytes × List Bytes) :=
  match findSubslice blankLine buf with
  | some pos => some (pos, buf, reads)
  | none =>
      if maxRequest < buf.length then none
      else
        match reads with
        | [] => none
        | chunk :: rest => if chunk = [] then none else readHead (buf ++ chunk) rest

/-- The loop over the body. -/
def readBody (len : Nat) (body : Bytes) : List Bytes → Option Bytes
  | [] => some body
  | chunk :: rest =>
      if len ≤ body.length then some body
      else if chunk = [] then some body
      else if maxRequest < (body ++ chunk).length then none
      else readBody len (body ++ chunk) rest

def readRequest (reads : List Bytes) : Option Request :=
  match readHead [] reads with
  | none => none
  | some (pos, buf, rest) =>
      match Head.parse (buf.take pos) with
      | none => none
      | some head =>
          if maxRequest < head.contentLength then none
          else (readBody head.contentLength (buf.drop (pos + 4)) rest).map head.request

/-- What the bytes of a connection mean. -/
def Request.parse (stream : Bytes) : Option Request :=
  match findSubslice blankLine stream with
  | none => none
  | some pos =>
      match Head.parse (stream.take pos) with
      | none => none
      | some head =>
          if maxRequest < head.contentLength then none
          else some (head.request (stream.drop (pos + 4)))

/-! ## The blank line -/

theorem findSubslice_eq_none_iff {needle s : Bytes} (hne : needle ≠ []) :
    findSubslice needle s = none ↔ ∀ q, ¬ needle <+: s.drop q := by
  induction s with
  | nil => simpa [findSubslice] using hne
  | cons b s ih =>
      rw [findSubslice]
      by_cases hpre : needle.isPrefixOf (b :: s) = true
      · rw [if_pos hpre]
        constructor
        · intro h
          cases h
        · intro h
          exact absurd (List.isPrefixOf_iff_prefix.mp hpre) (h 0)
      · rw [if_neg hpre, Option.map_eq_none_iff, ih]
        rw [List.isPrefixOf_iff_prefix] at hpre
        constructor
        · intro h q
          cases q with
          | zero => exact hpre
          | succ q => exact h q
        · intro h q
          exact h (q + 1)

/-- The first place where it is. -/
theorem findSubslice_eq_some_iff {needle s : Bytes} (hne : needle ≠ []) {pos : Nat} :
    findSubslice needle s = some pos ↔
      needle <+: s.drop pos ∧ ∀ q < pos, ¬ needle <+: s.drop q := by
  induction s generalizing pos with
  | nil => simp [findSubslice, hne]
  | cons b s ih =>
      rw [findSubslice]
      by_cases hpre : needle.isPrefixOf (b :: s) = true
      · rw [if_pos hpre]
        rw [List.isPrefixOf_iff_prefix] at hpre
        constructor
        · rintro ⟨⟩
          exact ⟨hpre, fun q hq => absurd hq (Nat.not_lt_zero q)⟩
        · rintro ⟨-, hfirst⟩
          cases pos with
          | zero => rfl
          | succ pos => exact absurd hpre (hfirst 0 (Nat.succ_pos pos))
      · rw [if_neg hpre]
        rw [List.isPrefixOf_iff_prefix] at hpre
        cases pos with
        | zero =>
            constructor
            · intro h
              obtain ⟨q, -, hq⟩ := Option.map_eq_some_iff.mp h
              cases hq
            · rintro ⟨h, -⟩
              exact absurd h hpre
        | succ pos =>
            rw [Option.map_eq_some_iff]
            constructor
            · rintro ⟨q, hq, hpos⟩
              obtain rfl := Nat.succ.inj hpos
              obtain ⟨hat, hfirst⟩ := ih.mp hq
              refine ⟨hat, fun r hr => ?_⟩
              cases r with
              | zero => exact hpre
              | succ r => exact hfirst r (Nat.lt_of_succ_lt_succ hr)
            · rintro ⟨hat, hfirst⟩
              refine ⟨pos, ih.mpr ⟨hat, fun r hr => ?_⟩, rfl⟩
              exact hfirst (r + 1) (Nat.succ_lt_succ hr)

theorem le_of_findSubslice {needle s : Bytes} (hne : needle ≠ []) {pos : Nat}
    (h : findSubslice needle s = some pos) : pos + needle.length ≤ s.length := by
  have hlen := ((findSubslice_eq_some_iff hne).mp h).1.length_le
  have hpos := List.length_pos_iff.mpr hne
  rw [List.length_drop] at hlen
  omega

/-- What comes later does not change where it is. -/
theorem findSubslice_append {needle s : Bytes} (hne : needle ≠ []) {pos : Nat}
    (h : findSubslice needle s = some pos) (t : Bytes) :
    findSubslice needle (s ++ t) = some pos := by
  have hle := le_of_findSubslice hne h
  obtain ⟨hat, hfirst⟩ := (findSubslice_eq_some_iff hne).mp h
  refine (findSubslice_eq_some_iff hne).mpr ⟨?_, fun q hq hmore => hfirst q hq ?_⟩
  · rw [List.drop_append_of_le_length (by omega)]
    exact hat.trans (List.prefix_append _ _)
  · rw [List.drop_append_of_le_length (by omega)] at hmore
    refine List.prefix_of_prefix_length_le hmore (List.prefix_append _ t) ?_
    rw [List.length_drop]
    omega

theorem blankLine_ne_nil : blankLine ≠ [] := by decide

/-! ## The loops -/

/-- **The head**: what was read is as it came, and the blank line is the first one. -/
theorem readHead_some {buf buf' : Bytes} {reads rest : List Bytes} {pos : Nat}
    (h : readHead buf reads = some (pos, buf', rest)) :
    findSubslice blankLine buf' = some pos ∧ buf' ++ rest.flatten = buf ++ reads.flatten ∧
      rest <:+ reads := by
  induction reads generalizing buf with
  | nil =>
      unfold readHead at h
      cases hfind : findSubslice blankLine buf with
      | some pos' =>
          simp only [hfind, Option.some.injEq, Prod.mk.injEq] at h
          obtain ⟨rfl, rfl, rfl⟩ := h
          exact ⟨hfind, rfl, List.suffix_rfl⟩
      | none =>
          simp only [hfind] at h
          split at h <;> cases h
  | cons chunk reads ih =>
      unfold readHead at h
      cases hfind : findSubslice blankLine buf with
      | some pos' =>
          simp only [hfind, Option.some.injEq, Prod.mk.injEq] at h
          obtain ⟨rfl, rfl, rfl⟩ := h
          exact ⟨hfind, rfl, List.suffix_rfl⟩
      | none =>
          simp only [hfind] at h
          split at h
          · cases h
          · split at h
            · cases h
            · obtain ⟨hfound, hsame, hrest⟩ := ih h
              refine ⟨hfound, ?_, hrest.trans (List.suffix_cons _ _)⟩
              rw [hsame, List.flatten_cons, List.append_assoc]

/-- Within the limit, the head is missed only if there is none. -/
theorem readHead_none {buf : Bytes} {reads : List Bytes} (hreads : ∀ chunk ∈ reads, chunk ≠ [])
    (hlen : (buf ++ reads.flatten).length ≤ maxRequest) (h : readHead buf reads = none) :
    findSubslice blankLine (buf ++ reads.flatten) = none := by
  induction reads generalizing buf with
  | nil =>
      unfold readHead at h
      cases hfind : findSubslice blankLine buf with
      | some pos => simp [hfind] at h
      | none =>
          rw [List.flatten_nil, List.append_nil]
          exact hfind
  | cons chunk reads ih =>
      have hassoc : buf ++ (chunk :: reads).flatten = buf ++ chunk ++ reads.flatten := by
        rw [List.flatten_cons, List.append_assoc]
      unfold readHead at h
      cases hfind : findSubslice blankLine buf with
      | some pos => simp [hfind] at h
      | none =>
          have hsmall : ¬ maxRequest < buf.length := by
            rw [List.length_append] at hlen
            omega
          simp only [hfind] at h
          rw [if_neg hsmall, if_neg (hreads chunk List.mem_cons_self)] at h
          rw [hassoc] at hlen ⊢
          exact ih (fun c hc => hreads c (List.mem_cons_of_mem _ hc)) hlen h

/-- **The body** that is read begins with what the head asks for, as far as it came. -/
theorem readBody_some {len : Nat} {body body' : Bytes} {reads : List Bytes}
    (hreads : ∀ chunk ∈ reads, chunk ≠ []) (h : readBody len body reads = some body') :
    body'.take len = (body ++ reads.flatten).take len := by
  induction reads generalizing body with
  | nil =>
      obtain rfl := Option.some.inj h
      rw [List.flatten_nil, List.append_nil]
  | cons chunk reads ih =>
      unfold readBody at h
      by_cases hdone : len ≤ body.length
      · rw [if_pos hdone] at h
        obtain rfl := Option.some.inj h
        rw [List.take_append_of_le_length hdone]
      · rw [if_neg hdone, if_neg (hreads chunk List.mem_cons_self),
          Option.ite_none_left_eq_some] at h
        rw [ih (fun c hc => hreads c (List.mem_cons_of_mem _ hc)) h.2, List.flatten_cons,
          List.append_assoc]

theorem readBody_isSome {len : Nat} {body : Bytes} {reads : List Bytes}
    (hlen : (body ++ reads.flatten).length ≤ maxRequest) :
    ∃ body', readBody len body reads = some body' := by
  induction reads generalizing body with
  | nil => exact ⟨body, rfl⟩
  | cons chunk reads ih =>
      have hassoc : body ++ (chunk :: reads).flatten = body ++ chunk ++ reads.flatten := by
        rw [List.flatten_cons, List.append_assoc]
      rw [hassoc] at hlen
      unfold readBody
      by_cases hdone : len ≤ body.length
      · exact ⟨body, if_pos hdone⟩
      · rw [if_neg hdone]
        by_cases hempty : chunk = []
        · exact ⟨body, if_pos hempty⟩
        · have hsmall : ¬ maxRequest < (body ++ chunk).length := by
            rw [List.length_append] at hlen
            omega
          rw [if_neg hempty, if_neg hsmall]
          exact ih hlen

/-! ## Requests -/

/-- A head that was read, and what comes behind it. -/
theorem parse_of_readHead {buf : Bytes} {reads rest : List Bytes} {pos : Nat}
    (h : readHead [] reads = some (pos, buf, rest)) :
    findSubslice blankLine reads.flatten = some pos ∧ reads.flatten.take pos = buf.take pos ∧
      reads.flatten.drop (pos + 4) = buf.drop (pos + 4) ++ rest.flatten := by
  obtain ⟨hfind, hsame, -⟩ := readHead_some h
  rw [List.nil_append] at hsame
  have hle : pos + 4 ≤ buf.length := le_of_findSubslice blankLine_ne_nil hfind
  rw [← hsame]
  refine ⟨findSubslice_append blankLine_ne_nil hfind _, ?_, ?_⟩
  · exact List.take_append_of_le_length (by omega)
  · exact List.drop_append_of_le_length hle

theorem Head.request_take (head : Head) {a b : Bytes}
    (h : a.take head.contentLength = b.take head.contentLength) :
    head.request a = head.request b := by
  unfold Head.request
  rw [h]

/-- **A request that is read** is the one that the bytes mean, however they came in, and its body
is not above the limit. -/
theorem readRequest_sound {reads : List Bytes} {req : Request}
    (hreads : ∀ chunk ∈ reads, chunk ≠ []) (h : readRequest reads = some req) :
    Request.parse reads.flatten = some req ∧ req.body.length ≤ maxRequest := by
  unfold readRequest at h
  cases hhead : readHead [] reads with
  | none => simp [hhead] at h
  | some found =>
      obtain ⟨pos, buf, rest⟩ := found
      simp only [hhead] at h
      obtain ⟨hfind, htake, hdrop⟩ := parse_of_readHead hhead
      cases hparse : Head.parse (buf.take pos) with
      | none => simp [hparse] at h
      | some head =>
          simp only [hparse] at h
          rw [Option.ite_none_left_eq_some] at h
          obtain ⟨hlimit, h⟩ := h
          obtain ⟨body, hbody, rfl⟩ := Option.map_eq_some_iff.mp h
          have hrest : ∀ chunk ∈ rest, chunk ≠ [] := fun chunk hchunk =>
            hreads chunk ((readHead_some hhead).2.2.subset hchunk)
          have hsame := readBody_some hrest hbody
          constructor
          · unfold Request.parse
            simp only [hfind, htake, hparse]
            rw [if_neg hlimit, hdrop, head.request_take hsame]
          · have hlen : (head.request body).body.length ≤ head.contentLength :=
              List.length_take_le _ _
            omega

/-- Within the limit every request is read. -/
theorem readRequest_complete {reads : List Bytes} (hreads : ∀ chunk ∈ reads, chunk ≠ [])
    (hlen : reads.flatten.length ≤ maxRequest) :
    readRequest reads = Request.parse reads.flatten := by
  cases hreq : readRequest reads with
  | some req => exact (readRequest_sound hreads hreq).1.symm
  | none =>
      unfold readRequest at hreq
      unfold Request.parse
      cases hhead : readHead [] reads with
      | none =>
          have hnone := readHead_none hreads hlen hhead
          rw [List.nil_append] at hnone
          rw [hnone]
      | some found =>
          obtain ⟨pos, buf, rest⟩ := found
          simp only [hhead] at hreq
          obtain ⟨hfind, htake, hdrop⟩ := parse_of_readHead hhead
          simp only [hfind, htake]
          cases hparse : Head.parse (buf.take pos) with
          | none => rfl
          | some head =>
              simp only [hparse] at hreq
              dsimp only
              by_cases hlimit : maxRequest < head.contentLength
              · rw [if_pos hlimit]
              · rw [if_neg hlimit, Option.map_eq_none_iff] at hreq
                have hshort : (buf.drop (pos + 4) ++ rest.flatten).length ≤ maxRequest := by
                  rw [← hdrop, List.length_drop]
                  omega
                obtain ⟨body, hbody⟩ : ∃ body, readBody head.contentLength (buf.drop (pos + 4)) rest =
                    some body := readBody_isSome hshort
                rw [hbody] at hreq
                cases hreq

/-- **The reads do not matter**: a request that is read is the one that the bytes mean, and keeps
to the limit; and bytes that keep to the limit are read as what they mean. -/
theorem readRequest_eq_parse {reads : List Bytes} (hreads : ∀ chunk ∈ reads, chunk ≠ []) :
    (∀ req, readRequest reads = some req →
      Request.parse reads.flatten = some req ∧ req.body.length ≤ maxRequest) ∧
    (reads.flatten.length ≤ maxRequest → readRequest reads = Request.parse reads.flatten) :=
  ⟨fun _ h => readRequest_sound hreads h, fun hlen => readRequest_complete hreads hlen⟩

def utf8 (s : String) : Bytes := s.toUTF8.data.toList

/-- A request that comes in three pieces, cut in the blank line and in the body. -/
def lockInPieces : List Bytes :=
  [utf8 "POST /api/lock?x=1 HTTP/1.1\r\nHost: localhost\r\nContent-Length: 4\r\n\r",
    utf8 "\nab", utf8 "cdef"]

theorem readRequest_eq_parse_lockInPieces :
    readRequest lockInPieces = Request.parse lockInPieces.flatten ∧
      (readRequest lockInPieces).map Request.body = some (utf8 "abcd") := by
  have hreads : ∀ chunk ∈ lockInPieces, chunk ≠ [] := by decide +kernel
  have hlen : lockInPieces.flatten.length ≤ maxRequest := by decide +kernel
  exact ⟨(readRequest_eq_parse hreads).2 hlen, by decide +kernel⟩

end Tazamun.Dashboard
