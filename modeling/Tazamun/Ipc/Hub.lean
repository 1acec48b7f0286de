import Tazamun.Ipc.Line
import Tazamun.Lib.Run

set_option autoImplicit false

/-! # The server of the local socket

The daemon serves any number of connections, a task each (`serve_conn`). A task reads a line, parses
the request in it, hands it over in a bounded queue with a one-shot channel for the reply, waits
for the reply, and writes it. The daemon takes the requests from the queue and replies when it has
an answer, in any order; it may drop a request, and it may shut down. The supervisor serves its
control socket in the same way.

`Hub` has the connections, the queue and the one-shot channels. Whatever is sent, taken, answered,
lost and shut down when, each connection gets the replies to its own requests, in their order, one
for each, and no request is taken twice (**`answered_in_turn`**). Where nothing is left to do, every
request has its reply (**`answered_all`**). And the client can read the replies
(**`client_reads`**).
-/

namespace Tazamun.Ipc

open Lib

/-! ## The state -/

/-- The channel for the reply to a request: the connection, and how many replies it had before. -/
abbrev Ticket : Type := Nat × Nat

/-- A one-shot channel. -/
inductive Slot where
  | pending
  | sent (r : Response)
  | dropped

/-- Where the task of a connection is. -/
inductive Phase (Req : Type) where
  | reading
  /-- It waits for room in the queue. -/
  | offering (req : Req)
  /-- It waits for the reply. -/
  | waiting
  | ended
  | failed

/-- A connection. `sent` is all that the client has written; `asked` and `answers` are the requests
that were read and their replies. -/
structure Conn (Req : Type) where
  input : Bytes
  eof : Bool
  phase : Phase Req
  output : Bytes
  sent : Bytes
  asked : List (List Char)
  answers : List Response

def Conn.new {Req : Type} : Conn Req :=
  { input := [], eof := false, phase := .reading, output := [], sent := [], asked := [],
    answers := [] }

/-- A server: the daemon's or the supervisor's. `parse` is the parser of the JSON requests, and
`guarded` says that a reply that is too long is replaced. -/
structure Service (Req : Type) where
  parse : List Char → Except String Req
  who : String
  capacity : Nat
  capacity_pos : 0 < capacity
  guarded : Bool

/-- The requests, the channels of their replies, and what was `taken` by the daemon. -/
structure Hub (Req : Type) where
  conns : Nat → Conn Req
  queue : List (Ticket × Req)
  slots : Ticket → Option (Req × Slot)
  isOpen : Bool
  taken : List (Ticket × Req)

variable {Req : Type}

def Hub.init : Hub Req :=
  { conns := fun _ => .new, queue := [], slots := fun _ => none, isOpen := true, taken := [] }

namespace Service

/-- `serve_conn`. -/
def daemon (parse : List Char → Except String Req) : Service Req :=
  { parse, who := "daemon", capacity := 64, capacity_pos := by decide, guarded := true }

/-- `serve_control_conn`. -/
def control (parse : List Char → Except String Req) : Service Req :=
  { parse, who := "supervisor", capacity := 32, capacity_pos := by decide, guarded := false }

variable (s : Service Req)

def line (r : Response) : List Char :=
  if s.guarded then Ipc.line r else r.json.render ++ ['\n']

def shuttingDown : Response := .err "shutting_down" (s.who ++ " is shutting down")
def lost : Response := .err "internal" (s.who ++ " dropped the request")

end Service

def badRequest (e : String) : Response := .err "bad_request" ("unparseable request: " ++ e)

/-! ## The steps -/

/-- The reply is written, and the task reads on. -/
def Conn.answer (s : Service Req) (c : Conn Req) (r : Response) : Conn Req :=
  { c with
    phase := .reading
    output := c.output ++ bytes (s.line r)
    answers := c.answers ++ [r] }

/-- A line was read. -/
def Conn.hear (s : Service Req) (c : Conn Req) (text : List Char) (rest : Bytes) : Conn Req :=
  if text = [] then { c with input := rest }
  else
    let c := { c with input := rest, asked := c.asked ++ [text] }
    match s.parse text with
    | .ok req => { c with phase := .offering req }
    | .error e => c.answer s (badRequest e)

namespace Hub

def set (h : Hub Req) (i : Nat) (c : Conn Req) : Hub Req :=
  { h with conns := Function.update h.conns i c }

/-- The channel of the request that the connection waits for, or will. -/
def ticket (h : Hub Req) (i : Nat) : Ticket := (i, (h.conns i).answers.length)

/-- The next step of the connection's task, if it has not to wait. -/
def run (s : Service Req) (h : Hub Req) (i : Nat) : Option (Hub Req) :=
  let c := h.conns i
  match c.phase with
  | .reading =>
      match readLineCapped c.input c.eof with
      | none => none
      | some (.line text rest) => some (h.set i (c.hear s text rest))
      | some _ => some (h.set i { c with phase := .ended })
  | .offering req =>
      if h.isOpen = false then some (h.set i (c.answer s s.shuttingDown))
      else if h.queue.length < s.capacity then
        some { h.set i { c with phase := .waiting } with
          queue := h.queue ++ [(h.ticket i, req)]
          slots := Function.update h.slots (h.ticket i) (some (req, .pending)) }
      else none
  | .waiting =>
      match h.slots (h.ticket i) with
      | some (_, .sent r) => some (h.set i (c.answer s r))
      | some (_, .dropped) => some (h.set i (c.answer s s.lost))
      | _ => none
  | .ended | .failed => none

/-- The daemon is done with a request that it took. -/
def settle (h : Hub Req) (t : Ticket) (slot : Slot) : Option (Hub Req) :=
  match h.slots t with
  | some (req, .pending) =>
      if t ∈ h.taken.map Prod.fst then
        some { h with slots := Function.update h.slots t (some (req, slot)) }
      else none
  | _ => none

/-- The channels of what is still in the queue are dropped with it. -/
def shutdown (h : Hub Req) : Hub Req :=
  { h with
    isOpen := false
    queue := []
    slots := fun t =>
      if t ∈ h.queue.map Prod.fst then (h.slots t).map fun e => (e.1, .dropped) else h.slots t }

end Hub

/-- What happens next: the client writes, or closes; the task of a connection goes on, or meets an
I/O error; the daemon takes a request, replies, drops a request, or shuts down. -/
inductive Act where
  | send (i : Nat) (more : Bytes)
  | close (i : Nat)
  | run (i : Nat)
  | fail (i : Nat)
  | take
  | reply (t : Ticket) (r : Response)
  | drop (t : Ticket)
  | shutdown

def Hub.step (s : Service Req) (h : Hub Req) : Act → Option (Hub Req)
  | .send i more =>
      let c := h.conns i
      if c.eof then none
      else some (h.set i { c with input := c.input ++ more, sent := c.sent ++ more })
  | .close i => some (h.set i { h.conns i with eof := true })
  | .run i => h.run s i
  | .fail i => some (h.set i { h.conns i with phase := .failed })
  | .take =>
      match h.queue with
      | [] => none
      | e :: rest => some { h with queue := rest, taken := h.taken ++ [e] }
  | .reply t r => h.settle t (.sent r)
  | .drop t => h.settle t .dropped
  | .shutdown => some h.shutdown

/-! ## What is kept -/

/-- How a request is replied to: by an error, if it cannot be parsed; as the daemon replied to it; as
lost, if the daemon dropped it; or as refused, if it was never handed over. -/
inductive AnswerTo (s : Service Req) (slot : Option (Req × Slot)) (text : List Char) :
    Response → Prop
  | unparseable {e : String} : s.parse text = .error e → slot = none →
      AnswerTo s slot text (badRequest e)
  | given {req : Req} {r : Response} : s.parse text = .ok req → slot = some (req, .sent r) →
      AnswerTo s slot text r
  | lost {req : Req} : s.parse text = .ok req → slot = some (req, .dropped) →
      AnswerTo s slot text s.lost
  | refused {req : Req} : s.parse text = .ok req → slot = none → AnswerTo s slot text s.shuttingDown

/-- What may still come in on a connection. -/
def Conn.More (c : Conn Req) (more : Bytes) (eof : Bool) : Prop :=
  c.eof = true → more = [] ∧ eof = true

/-- The request that is not answered yet, if there is one. -/
def Conn.Open (s : Service Req) (slots : Ticket → Option (Req × Slot)) (i : Nat) (c : Conn Req) :
    Prop :=
  match c.phase with
  | .reading | .ended => c.asked.length = c.answers.length
  | .offering req => c.asked.length = c.answers.length + 1 ∧
      slots (i, c.answers.length) = none ∧
      ∃ text, c.asked[c.answers.length]? = some text ∧ s.parse text = .ok req
  | .waiting => c.asked.length = c.answers.length + 1 ∧
      ∃ e, slots (i, c.answers.length) = some e
  | .failed => c.answers.length ≤ c.asked.length ∧ c.asked.length ≤ c.answers.length + 1

structure Conn.Inv (s : Service Req) (slots : Ticket → Option (Req × Slot)) (i : Nat)
    (c : Conn Req) : Prop where
  stream : ∀ more eof, c.More more eof →
    requests (c.sent ++ more) eof = c.asked ++ requests (c.input ++ more) eof
  output : c.output = c.answers.flatMap fun r => bytes (s.line r)
  isOpen : c.Open s slots i
  ended : c.phase = .ended → ∀ more eof, c.More more eof → requests (c.input ++ more) eof = []
  issued : ∀ k req slot, slots (i, k) = some (req, slot) →
    ∃ text, c.asked[k]? = some text ∧ s.parse text = .ok req
  answered : ∀ k r, c.answers[k]? = some r →
    ∃ text, c.asked[k]? = some text ∧ AnswerTo s (slots (i, k)) text r

structure Hub.Inv (s : Service Req) (h : Hub Req) : Prop where
  conn : ∀ i, (h.conns i).Inv s h.slots i
  fresh : ((h.taken ++ h.queue).map Prod.fst).Nodup
  known : ∀ e ∈ h.taken, ∃ slot, h.slots e.1 = some (e.2, slot)
  queued : ∀ e ∈ h.queue, h.slots e.1 = some (e.2, .pending)
  awaited : ∀ t req, h.slots t = some (req, .pending) → t ∈ (h.taken ++ h.queue).map Prod.fst

variable {s : Service Req} {slots slots' : Ticket → Option (Req × Slot)} {i : Nat} {c : Conn Req}
  {h h' : Hub Req}

/-! ## A connection -/

theorem Conn.inv_new : (Conn.new : Conn Req).Inv s (fun _ => none) i where
  stream := fun more eof _ => by rfl
  output := rfl
  isOpen := rfl
  ended := fun h => (by cases h)
  issued := fun _ _ _ h => (by cases h)
  answered := fun _ _ h => (by cases h)

/-- A channel that is not empty any more stays as it is. -/
def Settles (slots slots' : Ticket → Option (Req × Slot)) : Prop :=
  ∀ t, slots' t = slots t ∨
    ∃ req slot, slots t = some (req, .pending) ∧ slots' t = some (req, slot)

theorem AnswerTo.settles (hset : Settles slots slots') {t : Ticket} {text : List Char}
    {r : Response} (h : AnswerTo s (slots t) text r) : AnswerTo s (slots' t) text r := by
  rcases hset t with hsame | ⟨req, slot, hpending, -⟩
  · rw [hsame]
    exact h
  · rw [hpending] at h
    cases h with
    | unparseable _ hslot => cases hslot
    | given _ hslot => cases hslot
    | lost _ hslot => cases hslot
    | refused _ hslot => cases hslot

theorem Settles.eq_none (hset : Settles slots slots') {t : Ticket} (h : slots t = none) :
    slots' t = none := by
  rcases hset t with hsame | ⟨req, slot, hpending, -⟩
  · rw [hsame, h]
  · rw [h] at hpending
    cases hpending

theorem Settles.exists_some (hset : Settles slots slots') {t : Ticket} {e : Req × Slot}
    (h : slots t = some e) : ∃ slot, slots' t = some (e.1, slot) := by
  rcases hset t with hsame | ⟨req, slot, hpending, hslot⟩
  · exact ⟨e.2, hsame.trans h⟩
  · obtain rfl := Option.some.inj (h.symm.trans hpending)
    exact ⟨slot, hslot⟩

theorem Settles.of_some (hset : Settles slots slots') {t : Ticket} {e : Req × Slot}
    (h : slots' t = some e) : ∃ slot, slots t = some (e.1, slot) := by
  rcases hset t with hsame | ⟨req, slot, hpending, hslot⟩
  · exact ⟨e.2, hsame.symm.trans h⟩
  · obtain rfl := Option.some.inj (h.symm.trans hslot)
    exact ⟨_, hpending⟩

/-- A connection does not notice that channels are settled. -/
theorem Conn.Inv.settles (hc : c.Inv s slots i) (hset : Settles slots slots') :
    c.Inv s slots' i where
  stream := hc.stream
  output := hc.output
  isOpen := by
    have hopen := hc.isOpen
    unfold Conn.Open at hopen ⊢
    cases hphase : c.phase with
    | offering req =>
        simp only [hphase] at hopen ⊢
        exact ⟨hopen.1, hset.eq_none hopen.2.1, hopen.2.2⟩
    | waiting =>
        simp only [hphase] at hopen ⊢
        obtain ⟨hlen, e, he⟩ := hopen
        obtain ⟨slot, hslot⟩ := hset.exists_some he
        exact ⟨hlen, _, hslot⟩
    | _ =>
        simp only [hphase] at hopen ⊢
        exact hopen
  ended := hc.ended
  issued := fun k req slot hslot => by
    obtain ⟨slot', hslot'⟩ := hset.of_some hslot
    exact hc.issued k req slot' hslot'
  answered := fun k r hk => by
    obtain ⟨text, htext, hanswer⟩ := hc.answered k r hk
    exact ⟨text, htext, hanswer.settles hset⟩

/-- Nor what is put into the channels of others. -/
theorem Conn.Inv.congr (hc : c.Inv s slots i) (heq : ∀ k, slots' (i, k) = slots (i, k)) :
    c.Inv s slots' i where
  stream := hc.stream
  output := hc.output
  isOpen := by
    have hopen := hc.isOpen
    unfold Conn.Open at hopen ⊢
    rw [heq]
    exact hopen
  ended := hc.ended
  issued := fun k req slot hslot => hc.issued k req slot (by rw [← heq]; exact hslot)
  answered := fun k r hk => by
    obtain ⟨text, htext, hanswer⟩ := hc.answered k r hk
    exact ⟨text, htext, by rw [heq]; exact hanswer⟩

/-- More comes in. -/
theorem Conn.Inv.send (hc : c.Inv s slots i) (heof : c.eof = false) (more : Bytes) :
    ({ c with input := c.input ++ more, sent := c.sent ++ more } : Conn Req).Inv s slots i where
  stream := fun more' eof _ => by
    have hmore : c.More (more ++ more') eof := fun h => by
      rw [heof] at h
      cases h
    rw [List.append_assoc, List.append_assoc]
    exact hc.stream _ _ hmore
  output := hc.output
  isOpen := hc.isOpen
  ended := fun hphase more' eof _ => by
    have hmore : c.More (more ++ more') eof := fun h => by
      rw [heof] at h
      cases h
    rw [List.append_assoc]
    exact hc.ended hphase _ _ hmore
  issued := hc.issued
  answered := hc.answered

theorem Conn.Inv.close (hc : c.Inv s slots i) :
    ({ c with eof := true } : Conn Req).Inv s slots i where
  stream := fun more eof hmore => hc.stream more eof fun _ => hmore rfl
  output := hc.output
  isOpen := hc.isOpen
  ended := fun hphase more eof hmore => hc.ended hphase more eof fun _ => hmore rfl
  issued := hc.issued
  answered := hc.answered

/-- The task goes over to something else. -/
theorem Conn.Inv.withPhase (hc : c.Inv s slots i) {phase : Phase Req}
    (hopen : ({ c with phase } : Conn Req).Open s slots i) (hended : phase ≠ .ended) :
    ({ c with phase } : Conn Req).Inv s slots i where
  stream := hc.stream
  output := hc.output
  isOpen := hopen
  ended := fun h => absurd h hended
  issued := hc.issued
  answered := hc.answered

theorem Conn.Inv.fail (hc : c.Inv s slots i) :
    ({ c with phase := .failed } : Conn Req).Inv s slots i := by
  refine hc.withPhase ?_ (fun h => (by cases h))
  have hopen := hc.isOpen
  show c.answers.length ≤ c.asked.length ∧ c.asked.length ≤ c.answers.length + 1
  unfold Conn.Open at hopen
  cases hphase : c.phase <;> simp only [hphase] at hopen <;> omega

/-- **The reply to the request that is open.** -/
theorem Conn.Inv.answer (hc : c.Inv s slots i) (hlen : c.asked.length = c.answers.length + 1)
    {text : List Char} (htext : c.asked[c.answers.length]? = some text) {r : Response}
    (hr : AnswerTo s (slots (i, c.answers.length)) text r) : (c.answer s r).Inv s slots i where
  stream := hc.stream
  output := by
    show c.output ++ bytes (s.line r) = (c.answers ++ [r]).flatMap fun r => bytes (s.line r)
    rw [hc.output, List.flatMap_append, List.flatMap_singleton]
  isOpen := by
    show c.asked.length = (c.answers ++ [r]).length
    rw [hlen, List.length_append, List.length_singleton]
  ended := fun h => (by cases h)
  issued := hc.issued
  answered := fun k r' hk => by
    have hk' : (c.answers ++ [r])[k]? = some r' := hk
    rcases lt_trichotomy k c.answers.length with hlt | rfl | hgt
    · rw [List.getElem?_append_left hlt] at hk'
      exact hc.answered k r' hk'
    · rw [List.getElem?_concat_length] at hk'
      obtain rfl := Option.some.inj hk'
      exact ⟨text, htext, hr⟩
    · rw [List.getElem?_eq_none (by rw [List.length_append, List.length_singleton]; omega)] at hk'
      cases hk'

/-- No more than is asked is in the channels. -/
theorem Conn.Inv.slot_eq_none (hc : c.Inv s slots i) {k : Nat} (hk : c.asked.length ≤ k) :
    slots (i, k) = none := by
  cases hslot : slots (i, k) with
  | none => rfl
  | some e =>
      obtain ⟨text, htext, -⟩ := hc.issued k e.1 e.2 hslot
      rw [List.getElem?_eq_none hk] at htext
      cases htext

/-- What was read of what has come in is read of all that will. -/
theorem Conn.More.read {read : LineRead} (hread : readLineCapped c.input c.eof = some read)
    {more : Bytes} {eof : Bool} (hmore : c.More more eof) :
    readLineCapped (c.input ++ more) eof = some (read.append more) := by
  cases heof : c.eof with
  | false =>
      rw [heof] at hread
      exact readLineCapped_append hread more eof
  | true =>
      obtain ⟨rfl, rfl⟩ := hmore heof
      rw [heof] at hread
      rw [List.append_nil, hread]
      cases read with
      | line text rest => rw [LineRead.append, List.append_nil]
      | tooLong => rfl
      | done => rfl

theorem Conn.Inv.stop (hc : c.Inv s slots i) (hphase : c.phase = .reading) {read : LineRead}
    (hread : readLineCapped c.input c.eof = some read) (hstop : ∀ text rest, read ≠ .line text rest) :
    ({ c with phase := .ended } : Conn Req).Inv s slots i where
  stream := hc.stream
  output := hc.output
  isOpen := by
    have hopen := hc.isOpen
    unfold Conn.Open at hopen
    simp only [hphase] at hopen
    exact hopen
  ended := fun _ more eof hmore => by
    have hall := Conn.More.read hread (show c.More more eof from hmore)
    cases read with
    | line text rest => exact absurd rfl (hstop text rest)
    | tooLong =>
        unfold requests
        rw [readLines_tooLong hall]
        rfl
    | done =>
        unfold requests
        rw [readLines_done hall]
        rfl
  issued := hc.issued
  answered := hc.answered

/-- What holds once a request was read, before it is clear what becomes of it. -/
theorem Conn.Inv.read (hc : c.Inv s slots i) (hphase : c.phase = .reading) {text : List Char}
    {rest : Bytes} (hread : readLineCapped c.input c.eof = some (.line text rest))
    (hne : text ≠ []) :
    ({ c with input := rest, asked := c.asked ++ [text], phase := .failed } : Conn Req).Inv
      s slots i where
  stream := fun more eof hmore => by
    have hall := Conn.More.read hread (show c.More more eof from hmore)
    rw [hc.stream more eof hmore, requests_line hall, if_neg hne, List.append_assoc]
  output := hc.output
  isOpen := by
    have hopen := hc.isOpen
    unfold Conn.Open at hopen
    simp only [hphase] at hopen
    show c.answers.length ≤ (c.asked ++ [text]).length ∧
      (c.asked ++ [text]).length ≤ c.answers.length + 1
    rw [List.length_append, List.length_singleton]
    omega
  ended := fun h => (by cases h)
  issued := fun k req slot hslot => by
    obtain ⟨text', htext', hparse⟩ := hc.issued k req slot hslot
    have hk := (List.getElem?_eq_some_iff.mp htext').1
    exact ⟨text', by rw [List.getElem?_append_left hk]; exact htext', hparse⟩
  answered := fun k r hk => by
    obtain ⟨text', htext', hanswer⟩ := hc.answered k r hk
    have hk' := (List.getElem?_eq_some_iff.mp htext').1
    exact ⟨text', by rw [List.getElem?_append_left hk']; exact htext', hanswer⟩

theorem Conn.Inv.hear (hc : c.Inv s slots i) (hphase : c.phase = .reading) {text : List Char}
    {rest : Bytes} (hread : readLineCapped c.input c.eof = some (.line text rest)) :
    (c.hear s text rest).Inv s slots i := by
  have hlen : c.asked.length = c.answers.length := by
    have hopen := hc.isOpen
    unfold Conn.Open at hopen
    simp only [hphase] at hopen
    exact hopen
  unfold Conn.hear
  by_cases hblank : text = []
  · rw [if_pos hblank]
    exact {
      stream := fun more eof hmore => by
        have hall := Conn.More.read hread (show c.More more eof from hmore)
        rw [hc.stream more eof hmore, requests_line hall, if_pos hblank, List.nil_append]
      output := hc.output
      isOpen := hc.isOpen
      ended := fun h => by
        rw [hphase] at h
        cases h
      issued := hc.issued
      answered := hc.answered }
  · rw [if_neg hblank]
    have hnext := hc.read hphase hread hblank
    have hslot : slots (i, c.answers.length) = none := hc.slot_eq_none hlen.le
    have htext : (c.asked ++ [text])[c.answers.length]? = some text := by
      rw [← hlen, List.getElem?_concat_length]
    have hlen' : (c.asked ++ [text]).length = c.answers.length + 1 := by
      rw [List.length_append, List.length_singleton, hlen]
    cases hparse : s.parse text with
    | ok req =>
        dsimp only
        exact hnext.withPhase ⟨hlen', hslot, text, htext, hparse⟩ (fun h => (by cases h))
    | error e =>
        dsimp only
        exact hnext.answer hlen' htext (.unparseable hparse hslot)

/-- A request is put into the queue. -/
theorem Conn.Inv.issue (hc : c.Inv s slots i) {req : Req} (hphase : c.phase = .offering req) :
    ({ c with phase := .waiting } : Conn Req).Inv s
      (Function.update slots (i, c.answers.length) (some (req, .pending))) i := by
  have hopen := hc.isOpen
  unfold Conn.Open at hopen
  simp only [hphase] at hopen
  obtain ⟨hlen, hslot, text, htext, hparse⟩ := hopen
  refine ⟨hc.stream, hc.output, ⟨hlen, _, Function.update_self _ _ _⟩, fun h => (by cases h), ?_, ?_⟩
  · intro k req' slot hk
    by_cases hlast : k = c.answers.length
    · subst hlast
      rw [Function.update_self] at hk
      obtain ⟨rfl, -⟩ := Prod.mk.inj (Option.some.inj hk)
      exact ⟨text, htext, hparse⟩
    · rw [Function.update_of_ne fun h => hlast (Prod.mk.inj h).2] at hk
      exact hc.issued k req' slot hk
  · intro k r hk
    have hne : (i, k) ≠ (i, c.answers.length) := by
      intro h
      have hlt := (List.getElem?_eq_some_iff.mp hk).1
      exact absurd (Prod.mk.inj h).2 (Nat.ne_of_lt hlt)
    rw [Function.update_of_ne hne]
    exact hc.answered k r hk

/-! ## The hub -/

namespace Hub

theorem Inv.set (hinv : h.Inv s) (hc : c.Inv s h.slots i) : (h.set i c).Inv s where
  conn := fun j => by
    by_cases hj : j = i
    · subst hj
      show (Function.update h.conns j c j).Inv s h.slots j
      rw [Function.update_self]
      exact hc
    · show (Function.update h.conns i c j).Inv s h.slots j
      rw [Function.update_of_ne hj]
      exact hinv.conn j
  fresh := hinv.fresh
  known := hinv.known
  queued := hinv.queued
  awaited := hinv.awaited

theorem inv_init : (init : Hub Req).Inv s where
  conn := fun _ => Conn.inv_new
  fresh := List.nodup_nil
  known := fun e he => (by cases he)
  queued := fun e he => (by cases he)
  awaited := fun t req h => (by cases h)

theorem Inv.exists_slot (hinv : h.Inv s) {t : Ticket}
    (ht : t ∈ (h.taken ++ h.queue).map Prod.fst) : ∃ e, h.slots t = some e := by
  obtain ⟨e, he, rfl⟩ := List.mem_map.mp ht
  rcases List.mem_append.mp he with he | he
  · obtain ⟨slot, hslot⟩ := hinv.known e he
    exact ⟨_, hslot⟩
  · exact ⟨_, hinv.queued e he⟩

/-- The reply to the request that a connection waits for. -/
theorem Inv.answer (hinv : h.Inv s) (hphase : (h.conns i).phase = .waiting) {req : Req}
    {slot : Slot} (hslot : h.slots (h.ticket i) = some (req, slot)) {r : Response}
    (hr : ∀ text, s.parse text = .ok req → AnswerTo s (some (req, slot)) text r) :
    (h.set i ((h.conns i).answer s r)).Inv s := by
  have hopen := (hinv.conn i).isOpen
  unfold Conn.Open at hopen
  simp only [hphase] at hopen
  obtain ⟨text, htext, hparse⟩ := (hinv.conn i).issued _ req slot hslot
  have hanswer : AnswerTo s (h.slots (i, (h.conns i).answers.length)) text r := by
    rw [show h.slots (i, (h.conns i).answers.length) = some (req, slot) from hslot]
    exact hr text hparse
  exact hinv.set ((hinv.conn i).answer hopen.1 htext hanswer)

theorem Inv.issue (hinv : h.Inv s) {req : Req} (hphase : (h.conns i).phase = .offering req) :
    ({ h.set i { h.conns i with phase := .waiting } with
      queue := h.queue ++ [(h.ticket i, req)]
      slots := Function.update h.slots (h.ticket i) (some (req, .pending)) } : Hub Req).Inv s := by
  have hnone : h.slots (h.ticket i) = none := by
    have hopen := (hinv.conn i).isOpen
    unfold Conn.Open at hopen
    simp only [hphase] at hopen
    exact hopen.2.1
  have hnew : h.ticket i ∉ (h.taken ++ h.queue).map Prod.fst := by
    intro hmem
    obtain ⟨e, he⟩ := hinv.exists_slot hmem
    rw [hnone] at he
    cases he
  have hne : ∀ e ∈ h.taken ++ h.queue, e.1 ≠ h.ticket i := by
    rintro e he heq
    exact hnew (heq ▸ List.mem_map_of_mem he)
  refine ⟨fun j => ?_, ?_, fun e he => ?_, fun e he => ?_, fun t req' ht => ?_⟩
  · dsimp only [Hub.set]
    by_cases hj : j = i
    · subst hj
      rw [Function.update_self]
      exact (hinv.conn j).issue hphase
    · rw [Function.update_of_ne hj]
      refine (hinv.conn j).congr fun k => Function.update_of_ne (fun h => hj ?_) _ _
      exact (Prod.mk.inj h).1
  · show ((h.taken ++ (h.queue ++ [(h.ticket i, req)])).map Prod.fst).Nodup
    rw [← List.append_assoc, List.map_append, List.nodup_append_comm]
    exact List.nodup_cons.mpr ⟨hnew, hinv.fresh⟩
  · obtain ⟨slot, hslot⟩ := hinv.known e he
    refine ⟨slot, ?_⟩
    rw [← hslot]
    exact Function.update_of_ne (hne e (List.mem_append_left _ he)) _ _
  · rcases List.mem_append.mp he with he | he
    · rw [← hinv.queued e he]
      exact Function.update_of_ne (hne e (List.mem_append_right _ he)) _ _
    · rw [List.mem_singleton.mp he]
      exact Function.update_self _ _ _
  · show t ∈ (h.taken ++ (h.queue ++ [(h.ticket i, req)])).map Prod.fst
    rw [← List.append_assoc, List.map_append, List.mem_append]
    by_cases heq : t = h.ticket i
    · exact .inr (List.mem_singleton.mpr heq)
    · have ht' : Function.update h.slots (h.ticket i) (some (req, .pending)) t =
          some (req', .pending) := ht
      rw [Function.update_of_ne heq] at ht'
      exact .inl (hinv.awaited t req' ht')

theorem Inv.run (hinv : h.Inv s) (hstep : h.run s i = some h') : h'.Inv s := by
  unfold Hub.run at hstep
  dsimp only at hstep
  cases hphase : (h.conns i).phase with
  | reading =>
      simp only [hphase] at hstep
      cases hread : readLineCapped (h.conns i).input (h.conns i).eof with
      | none => simp [hread] at hstep
      | some read =>
          cases read with
          | line text rest =>
              simp only [hread, Option.some.injEq] at hstep
              subst hstep
              exact hinv.set ((hinv.conn i).hear hphase hread)
          | tooLong =>
              simp only [hread, Option.some.injEq] at hstep
              subst hstep
              exact hinv.set ((hinv.conn i).stop hphase hread (fun _ _ h => (by cases h)))
          | done =>
              simp only [hread, Option.some.injEq] at hstep
              subst hstep
              exact hinv.set ((hinv.conn i).stop hphase hread (fun _ _ h => (by cases h)))
  | offering req =>
      simp only [hphase] at hstep
      by_cases hclosed : h.isOpen = false
      · rw [if_pos hclosed] at hstep
        obtain rfl := Option.some.inj hstep
        have hopen := (hinv.conn i).isOpen
        unfold Conn.Open at hopen
        simp only [hphase] at hopen
        obtain ⟨hlen, hslot, text, htext, hparse⟩ := hopen
        exact hinv.set ((hinv.conn i).answer hlen htext (.refused hparse hslot))
      · rw [if_neg hclosed] at hstep
        by_cases hroom : h.queue.length < s.capacity
        · rw [if_pos hroom] at hstep
          obtain rfl := Option.some.inj hstep
          exact hinv.issue hphase
        · rw [if_neg hroom] at hstep
          cases hstep
  | waiting =>
      simp only [hphase] at hstep
      cases hslot : h.slots (h.ticket i) with
      | none => simp [hslot] at hstep
      | some e =>
          obtain ⟨req, slot⟩ := e
          cases slot with
          | pending => simp [hslot] at hstep
          | sent r =>
              simp only [hslot, Option.some.injEq] at hstep
              subst hstep
              exact hinv.answer hphase hslot fun text hparse => .given hparse rfl
          | dropped =>
              simp only [hslot, Option.some.injEq] at hstep
              subst hstep
              exact hinv.answer hphase hslot fun text hparse => .lost hparse rfl
  | ended => simp [hphase] at hstep
  | failed => simp [hphase] at hstep

theorem Inv.settle (hinv : h.Inv s) {t : Ticket} {slot : Slot} (hslot : slot ≠ .pending)
    (hstep : h.settle t slot = some h') : h'.Inv s := by
  unfold Hub.settle at hstep
  cases ht : h.slots t with
  | none => simp [ht] at hstep
  | some e =>
      obtain ⟨req, old⟩ := e
      cases old with
      | pending =>
          simp only [ht] at hstep
          by_cases htaken : t ∈ h.taken.map Prod.fst
          · rw [if_pos htaken] at hstep
            obtain rfl := Option.some.inj hstep
            have hset : Settles h.slots (Function.update h.slots t (some (req, slot))) := by
              intro t'
              by_cases heq : t' = t
              · subst heq
                exact .inr ⟨req, slot, ht, Function.update_self _ _ _⟩
              · exact .inl (Function.update_of_ne heq _ _)
            refine ⟨fun j => (hinv.conn j).settles hset, hinv.fresh, fun e he => ?_,
              fun e he => ?_, fun t' req' ht' => ?_⟩
            · obtain ⟨slot', hslot'⟩ := hinv.known e he
              exact hset.exists_some hslot'
            · -- no request that was taken is still in the queue
              have hne : e.1 ≠ t := by
                intro heq
                have hfresh := hinv.fresh
                rw [List.map_append, List.nodup_append] at hfresh
                exact hfresh.2.2 t htaken e.1 (List.mem_map_of_mem he) heq.symm
              rw [← hinv.queued e he]
              exact Function.update_of_ne hne _ _
            · have hupdate : Function.update h.slots t (some (req, slot)) t' =
                  some (req', .pending) := ht'
              by_cases heq : t' = t
              · subst heq
                rw [Function.update_self] at hupdate
                exact absurd (Prod.mk.inj (Option.some.inj hupdate)).2 hslot
              · rw [Function.update_of_ne heq] at hupdate
                exact hinv.awaited t' req' hupdate
          · rw [if_neg htaken] at hstep
            cases hstep
      | sent r => simp [ht] at hstep
      | dropped => simp [ht] at hstep

theorem Inv.shutdown (hinv : h.Inv s) : h.shutdown.Inv s := by
  have hset : Settles h.slots h.shutdown.slots := by
    intro t
    by_cases hmem : t ∈ h.queue.map Prod.fst
    · obtain ⟨e, he, rfl⟩ := List.mem_map.mp hmem
      have hslot := hinv.queued e he
      refine .inr ⟨e.2, .dropped, hslot, ?_⟩
      show (if e.1 ∈ h.queue.map Prod.fst then _ else _) = _
      rw [if_pos hmem, hslot]
      rfl
    · exact .inl (if_neg hmem)
  refine ⟨fun j => (hinv.conn j).settles hset, ?_, fun e he => ?_, fun e he => (by cases he),
    fun t req ht => ?_⟩
  · show ((h.taken ++ []).map Prod.fst).Nodup
    have hfresh := hinv.fresh
    rw [List.map_append, List.nodup_append] at hfresh
    rw [List.append_nil]
    exact hfresh.1
  · obtain ⟨slot, hslot⟩ := hinv.known e he
    exact hset.exists_some hslot
  · show t ∈ (h.taken ++ []).map Prod.fst
    rw [List.append_nil]
    have ht' : (if t ∈ h.queue.map Prod.fst then (h.slots t).map fun e => (e.1, Slot.dropped)
        else h.slots t) = some (req, .pending) := ht
    by_cases hmem : t ∈ h.queue.map Prod.fst
    · rw [if_pos hmem] at ht'
      obtain ⟨e, -, he⟩ := Option.map_eq_some_iff.mp ht'
      cases he
    · rw [if_neg hmem] at ht'
      have hall := hinv.awaited t req ht'
      rw [List.map_append, List.mem_append] at hall
      exact hall.resolve_right hmem

/-- **Every step keeps the invariant.** -/
theorem Inv.step (hinv : h.Inv s) {act : Act} (hstep : h.step s act = some h') : h'.Inv s := by
  cases act with
  | send i more =>
      unfold Hub.step at hstep
      dsimp only at hstep
      by_cases heof : (h.conns i).eof = true
      · rw [if_pos heof] at hstep
        cases hstep
      · rw [if_neg heof] at hstep
        obtain rfl := Option.some.inj hstep
        exact hinv.set ((hinv.conn i).send (Bool.not_eq_true _ ▸ heof) more)
  | close i =>
      obtain rfl := Option.some.inj hstep
      exact hinv.set (hinv.conn i).close
  | run i => exact hinv.run hstep
  | fail i =>
      obtain rfl := Option.some.inj hstep
      exact hinv.set (hinv.conn i).fail
  | take =>
      unfold Hub.step at hstep
      cases hqueue : h.queue with
      | nil => simp [hqueue] at hstep
      | cons e rest =>
          simp only [hqueue, Option.some.injEq] at hstep
          subst hstep
          have hall : h.taken ++ [e] ++ rest = h.taken ++ h.queue := by
            rw [hqueue, List.append_assoc, List.singleton_append]
          refine ⟨hinv.conn, ?_, fun e' he' => ?_, fun e' he' => hinv.queued e' ?_,
            fun t req ht => ?_⟩
          · show ((h.taken ++ [e] ++ rest).map Prod.fst).Nodup
            rw [hall]
            exact hinv.fresh
          · rcases List.mem_append.mp he' with he' | he'
            · exact hinv.known e' he'
            · rw [List.mem_singleton.mp he']
              exact ⟨_, hinv.queued e (hqueue ▸ List.mem_cons_self)⟩
          · rw [hqueue]
            exact List.mem_cons_of_mem _ he'
          · show t ∈ (h.taken ++ [e] ++ rest).map Prod.fst
            rw [hall]
            exact hinv.awaited t req ht
  | reply t r => exact hinv.settle (fun h => (by cases h)) hstep
  | drop t => exact hinv.settle (fun h => (by cases h)) hstep
  | shutdown =>
      obtain rfl := Option.some.inj hstep
      exact hinv.shutdown

theorem Inv.of_reaches (hrun : Reaches (Hub.step s) anyStep Hub.init h) : h.Inv s :=
  hrun.invariant inv_init fun _ _ _ hinv _ hstep => hinv.step hstep

/-! ## Every run -/

/-- **Replies in turn**: what is written to a connection are the replies to the first of the
requests that came in on it, one for each and in their order, and at most one more was read. And
the daemon takes a request at most once, and only as it was asked. -/
theorem answered_in_turn (hrun : Reaches (step s) anyStep init h) :
    (∀ i, (h.conns i).output = (h.conns i).answers.flatMap (fun r => bytes (s.line r)) ∧
      (h.conns i).asked <+: requests (h.conns i).sent (h.conns i).eof ∧
      (h.conns i).asked.length ≤ (h.conns i).answers.length + 1 ∧
      ∀ k r, (h.conns i).answers[k]? = some r →
        ∃ text, (h.conns i).asked[k]? = some text ∧ AnswerTo s (h.slots (i, k)) text r) ∧
    (h.taken.map Prod.fst).Nodup ∧
    ∀ i k req, ((i, k), req) ∈ h.taken →
      ∃ text, (h.conns i).asked[k]? = some text ∧ s.parse text = .ok req := by
  have hinv : h.Inv s := .of_reaches hrun
  refine ⟨fun i => ⟨(hinv.conn i).output, ?_, ?_, (hinv.conn i).answered⟩, ?_, ?_⟩
  · have hstream := (hinv.conn i).stream [] (h.conns i).eof fun heof => ⟨rfl, heof⟩
    rw [List.append_nil] at hstream
    rw [hstream]
    exact List.prefix_append _ _
  · have hopen := (hinv.conn i).isOpen
    unfold Conn.Open at hopen
    cases hphase : (h.conns i).phase <;> simp only [hphase] at hopen <;> omega
  · have hfresh := hinv.fresh
    rw [List.map_append, List.nodup_append] at hfresh
    exact hfresh.1
  · intro i k req htaken
    obtain ⟨slot, hslot⟩ := hinv.known _ htaken
    exact (hinv.conn i).issued k req slot hslot

/-- **Nobody is forgotten**: if the task of a connection waits, with nothing in the queue and no
reply outstanding, then all the requests that came in on it are answered. -/
theorem answered_all (hrun : Reaches (step s) anyStep init h) {i : Nat} (hwait : h.run s i = none)
    (hqueue : h.queue = []) (hslot : ∀ req, h.slots (h.ticket i) ≠ some (req, .pending))
    (hok : (h.conns i).phase ≠ .failed) :
    (h.conns i).asked = requests (h.conns i).sent (h.conns i).eof ∧
      (h.conns i).answers.length = (h.conns i).asked.length := by
  have hinv : h.Inv s := .of_reaches hrun
  have hstream := (hinv.conn i).stream [] (h.conns i).eof fun heof => ⟨rfl, heof⟩
  have hopen := (hinv.conn i).isOpen
  rw [List.append_nil, List.append_nil] at hstream
  unfold Conn.Open at hopen
  unfold Hub.run at hwait
  dsimp only at hwait
  cases hphase : (h.conns i).phase with
  | reading =>
      simp only [hphase] at hopen hwait
      cases hread : readLineCapped (h.conns i).input (h.conns i).eof with
      | none =>
          have hnone : requests (h.conns i).input (h.conns i).eof = [] := by
            unfold requests
            rw [readLines_waiting hread]
            rfl
          rw [hnone, List.append_nil] at hstream
          exact ⟨hstream.symm, hopen.symm⟩
      | some read => cases read <;> simp [hread] at hwait
  | offering req =>
      simp only [hphase] at hwait
      by_cases hclosed : h.isOpen = false
      · rw [if_pos hclosed] at hwait
        cases hwait
      · have hroom : h.queue.length < s.capacity := by
          rw [hqueue]
          exact s.capacity_pos
        rw [if_neg hclosed, if_pos hroom] at hwait
        cases hwait
  | waiting =>
      simp only [hphase] at hopen hwait
      obtain ⟨-, ⟨req, slot⟩, hsome⟩ := hopen
      have hsome' : h.slots (h.ticket i) = some (req, slot) := hsome
      cases slot with
      | pending => exact absurd hsome' (hslot req)
      | sent r => simp [hsome'] at hwait
      | dropped => simp [hsome'] at hwait
  | ended =>
      simp only [hphase] at hopen
      have hnone := (hinv.conn i).ended hphase [] (h.conns i).eof fun heof => ⟨rfl, heof⟩
      rw [List.append_nil] at hnone
      rw [hnone, List.append_nil] at hstream
      exact ⟨hstream.symm, hopen.symm⟩
  | failed => exact absurd hphase hok

/-- **The client reads the replies**, however long they are. -/
theorem client_reads (hrun : Reaches (step s) anyStep init h) (hguarded : s.guarded = true)
    {i : Nat} (hplain : ∀ k req r, h.slots (i, k) = some (req, .sent r) → r.Plain) :
    readLines (h.conns i).output false = ((h.conns i).answers.map replyText, .waiting) := by
  have hinv : h.Inv s := .of_reaches hrun
  have hall : ∀ r ∈ (h.conns i).answers, r.Plain := by
    intro r hr
    obtain ⟨k, hk⟩ := List.mem_iff_getElem?.mp hr
    obtain ⟨text, -, hanswer⟩ := (hinv.conn i).answered k r hk
    cases hanswer with
    | unparseable => exact fun _ h => (by cases h)
    | given _ hslot => exact hplain k _ r hslot
    | lost => exact fun _ h => (by cases h)
    | refused => exact fun _ h => (by cases h)
  have hline : ∀ r, s.line r = line r := fun r => if_pos hguarded
  have houtput := (hinv.conn i).output
  simp only [hline] at houtput
  rw [houtput, readLines_replies hall]

/-! ## Two clients -/

/-- The only request is `a`. -/
def parseA (text : List Char) : Except String Unit :=
  if text = ['a'] then .ok () else .error "expected value"

/-- Two clients ask at the same time, and the later one is answered first; then it sends a blank
line and something that is no request. -/
def twoClients : List Act :=
  [.send 0 (bytes ['a', '\n']), .run 0, .run 0, .send 1 (bytes ['a', '\n', '\n', 'b', '\n']),
    .run 1, .run 1, .take, .take, .reply (1, 0) (.success .null), .run 1, .run 1, .run 1,
    .reply (0, 0) (.err "busy" "locked"), .run 0]

theorem answered_in_turn_twoClients : ∃ h : Hub Unit,
    (h.conns 1).answers.map Response.ok = [true, false] ∧
      (h.conns 1).asked <+: requests (h.conns 1).sent (h.conns 1).eof := by
  have hrun : (execute (step (.daemon parseA)) twoClients init).any
      (fun h => (h.conns 1).answers.map Response.ok == [true, false]) = true := by decide +kernel
  obtain ⟨h, hreach, hh⟩ := exists_reaches_of_execute anyStep (fun _ _ _ => trivial) hrun
  exact ⟨h, beq_iff_eq.mp hh, ((answered_in_turn hreach).1 1).2.1⟩

def isFailed : Phase Unit → Bool
  | .failed => true
  | _ => false

/-- The second client has nothing to wait for. -/
def rests (h : Hub Unit) : Bool :=
  (h.run (.daemon parseA) 1).isNone && h.queue.isEmpty && (h.slots (h.ticket 1)).isNone &&
    !isFailed (h.conns 1).phase

theorem answered_all_twoClients : ∃ h : Hub Unit,
    (h.conns 1).asked = requests (h.conns 1).sent (h.conns 1).eof ∧
      (h.conns 1).answers.length = 2 := by
  have hrun : (execute (step (.daemon parseA)) twoClients init).any
      (fun h => rests h && (h.conns 1).answers.length == 2) = true := by decide +kernel
  obtain ⟨h, hreach, hh⟩ := exists_reaches_of_execute anyStep (fun _ _ _ => trivial) hrun
  rw [Bool.and_eq_true, rests, Bool.and_eq_true, Bool.and_eq_true, Bool.and_eq_true] at hh
  obtain ⟨⟨⟨⟨hwait, hqueue⟩, hslot⟩, hok⟩, hlen⟩ := hh
  have hnone : h.slots (h.ticket 1) = none := Option.isNone_iff_eq_none.mp hslot
  have hslot' : ∀ req, h.slots (h.ticket 1) ≠ some (req, .pending) := by
    intro req hpending
    rw [hnone] at hpending
    cases hpending
  have hok' : (h.conns 1).phase ≠ .failed := by
    intro hphase
    rw [hphase] at hok
    cases hok
  have hall := answered_all hreach (Option.isNone_iff_eq_none.mp hwait)
    (List.isEmpty_iff.mp hqueue) hslot' hok'
  exact ⟨h, hall.1, beq_iff_eq.mp hlen⟩

/-- The reply in a channel, if there is one, can be read. -/
def isPlain : Option (Unit × Slot) → Bool
  | some (_, .sent r) => r.data.all Json.plain
  | _ => true

theorem client_reads_twoClients : ∃ h : Hub Unit, (h.conns 1).answers.length = 2 ∧
    readLines (h.conns 1).output false = ((h.conns 1).answers.map replyText, .waiting) := by
  have hrun : (execute (step (.daemon parseA)) twoClients init).any
      (fun h => (h.conns 1).answers.length == 2 && (h.conns 1).asked.length == 2 &&
        isPlain (h.slots (1, 0)) && isPlain (h.slots (1, 1))) = true := by decide +kernel
  obtain ⟨h, hreach, hh⟩ := exists_reaches_of_execute anyStep (fun _ _ _ => trivial) hrun
  rw [Bool.and_eq_true, Bool.and_eq_true, Bool.and_eq_true] at hh
  obtain ⟨⟨⟨hlen, hasked⟩, hfirst⟩, hsecond⟩ := hh
  refine ⟨h, beq_iff_eq.mp hlen, client_reads hreach rfl fun k req r hslot => ?_⟩
  -- only its two requests have channels
  obtain ⟨text, htext, -⟩ := ((Inv.of_reaches hreach).conn 1).issued k req _ hslot
  have hk : k < 2 := by
    have hlt := (List.getElem?_eq_some_iff.mp htext).1
    rwa [beq_iff_eq.mp hasked] at hlt
  have hplain : r.data.all Json.plain = true := by
    obtain rfl | rfl : k = 0 ∨ k = 1 := by omega
    · rw [hslot] at hfirst
      exact hfirst
    · rw [hslot] at hsecond
      exact hsecond
  intro data hdata
  rw [hdata] at hplain
  exact hplain

end Hub

end Tazamun.Ipc
