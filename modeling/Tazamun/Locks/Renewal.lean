import Tazamun.Locks.Plane
import Tazamun.Daemon.Actor

set_option autoImplicit false

/-! # Keeping a lease alive

A holder renews its leases on a timer, and a lease that is not renewed in time expires: on
the holder, and on every peer that has a copy of it. The timer task takes its period when the
daemon is started, as a third of the TTL configured then. The TTL itself can be changed while
the daemon runs, and the next lease or renewal runs for the new one. The period stays.

`Renewal` is a holder with its timer, its peers, and what is under way from the one to the
others, in order. Time passes up to the next tick and not beyond. As long as the TTL in force
exceeds the period, a self-held lease outlasts the next tick, and so does the copy on a peer,
unless the peer has not yet received what the holder said last: this is `live_lease_kept`.
-/

namespace Tazamun

open Lib LockTable LockNode

variable {Id Path : Type} [LinearOrder Id] [LinearOrder Path]

/-- A holder, its timer and its peers. `sent` has what is under way to each peer, oldest
first, with the time it was sent. `asked` observes until when the TTL of a round reaches that
was asked for at its start. -/
structure Renewal (Id Path : Type) [LinearOrder Id] [LinearOrder Path] where
  config : SessionConfig
  period : Nat
  nextTick : Nat
  now : Nat
  holder : LockNode Id Path
  peer : Id → LockNode Id Path
  sent : Id → List (Nat × LockMsg Id Path)
  asked : Map Path Nat

/-- One step. -/
inductive RenewalAct (Id Path : Type) where
  | wait (ms : Nat)
  | tick
  | setTtl (ms : Nat)
  | own (op : PlaneOp Id Path)
  | peer (q : Id) (op : PlaneOp Id Path)
  | deliver (q : Id)

namespace Renewal

/-- The operation is left to the timer and to the settings. -/
def isTimed : PlaneOp Id Path → Bool
  | .renew | .retime _ => true
  | _ => false

/-- The holder's handler is done, and its messages are under way. -/
def commit (r : Renewal Id Path) (res : LockNode.Result Id Path) : Renewal Id Path :=
  { r with
    holder := res.1
    sent := fun q => r.sent q ++ (Mesh.outTo q res.2).map fun msg => (r.now, msg) }

/-- The rounds that are started by `op`, with the end of the TTL asked for. -/
def ask (r : Renewal Id Path) (op : PlaneOp Id Path) : Map Path Nat :=
  match op with
  | .lock _ rel =>
      if starts r.holder r.now rel op then
        r.asked.insert rel (r.now + r.holder.locks.timings.ttl)
      else r.asked
  | _ => r.asked

/-- The step function; `none` when time would pass a tick, when it is not time for one, and for
messages of the holder itself. -/
def step (r : Renewal Id Path) : RenewalAct Id Path → Option (Renewal Id Path)
  | .wait ms => if r.now + ms ≤ r.nextTick then some { r with now := r.now + ms } else none
  | .tick =>
      if r.now = r.nextTick then
        some { r.commit (r.holder.perform r.now .renew) with nextTick := r.now + r.period }
      else none
  | .setTtl ms =>
      let config := { r.config with leaseTtlMs := ms }
      some { r.commit (r.holder.perform r.now (.retime config.timings)) with config }
  | .own op =>
      if isTimed op || hears r.holder.locks.me op then none
      else some { r.commit (r.holder.perform r.now op) with asked := r.ask op }
  | .peer q op =>
      if hears r.holder.locks.me op then none
      else some { r with peer := Function.update r.peer q ((r.peer q).perform r.now op).1 }
  | .deliver q =>
      match r.sent q with
      | [] => none
      | (_, msg) :: rest =>
          some { r with
            peer := Function.update r.peer q
              ((r.peer q).onCtl true r.holder.locks.me r.now msg).1
            sent := Function.update r.sent q rest }

/-- The daemon is started: the period of the timer is that of the configuration, and the first
tick is due at once. -/
def spawn (me : Id) (config : SessionConfig) (now : Nat) (peer : Id → LockNode Id Path) :
    Renewal Id Path where
  config := config
  period := config.timings.renew
  nextTick := now
  now := now
  holder := ⟨.new me config.timings, 0, ∅⟩
  peer := peer
  sent _ := []
  asked := ∅

/-- A TTL that is set exceeds the period of the timer, and a round is won while the next tick is
within the TTL that was asked for. -/
def Ample (r : Renewal Id Path) : RenewalAct Id Path → Prop
  | .setTtl ms => r.period < ({ r.config with leaseTtlMs := ms } : SessionConfig).timings.ttl
  | .own (.receive _ sender (.lockGrant rel)) =>
      (r.holder.locks.onGrant rel sender r.now).2 = true →
        ∀ limit ∈ r.asked[rel]?, r.nextTick < limit
  | _ => True

instance (r : Renewal Id Path) (act : RenewalAct Id Path) : Decidable (r.Ample act) := by
  unfold Ample
  split <;> infer_instance

/-! ## What a peer has been told -/

/-- The words about `p` among messages under way, with the times they were sent. -/
def wordsSent (p : Path) (l : List (Nat × LockMsg Id Path)) : List (Nat × Word) :=
  l.filterMap fun m => (word p m.2).map fun w => (m.1, w)

/-- What is under way to `q` about `p` last, and when it was sent. -/
def lastWord (r : Renewal Id Path) (q : Id) (p : Path) : Option (Nat × Word) :=
  (wordsSent p (r.sent q)).getLast?

omit [LinearOrder Id] in
theorem wordsSent_cons_getLast? (p : Path) (t : Nat) (msg : LockMsg Id Path)
    (rest : List (Nat × LockMsg Id Path)) : (wordsSent p ((t, msg) :: rest)).getLast? =
      (wordsSent p rest).getLast?.or ((word p msg).map fun w => (t, w)) := by
  unfold wordsSent
  cases hw : word p msg with
  | none => simp [hw]
  | some w =>
      rw [List.filterMap_cons, hw, Option.map_some]
      simp only [List.getLast?_cons]
      cases (rest.filterMap fun m => (word p m.2).map fun w => (m.1, w)).getLast? <;> rfl

/-- A lease on `p` that ends at `e` outlasts the next tick, if it is held, and the TTL asked
for, if there is a round. -/
structure Outlasts (r : Renewal Id Path) (p : Path) (e : Nat) : Prop where
  held : r.holder.locks.isHeldByMe p = true → r.nextTick < e
  round : InRound r.holder.locks p → ∀ limit, r.asked[p]? = some limit → limit ≤ e

/-- The copy of a lease on a peer lasts, or will last with what is under way. -/
def CopyLasts (r : Renewal Id Path) (q : Id) (p : Path) : Prop :=
  match r.lastWord q p with
  | some (t, .claim ttlMs) => r.Outlasts p (t + ttlFromMs ttlMs)
  | some (_, .free) => True
  | none => ∀ l e s, (r.peer q).locks.states[p]? =
      some (LockState.held r.holder.locks.me l e s) → r.Outlasts p e

/-- What holds of every state, as long as TTLs are ample. -/
structure Alive (r : Renewal Id Path) : Prop where
  clock : r.now ≤ r.nextTick
  soon : r.nextTick ≤ r.now + r.period
  past : ∀ q, ∀ m ∈ r.sent q, m.1 ≤ r.now
  ttl : r.period < r.holder.locks.timings.ttl
  band : minLeaseTtl ≤ r.holder.locks.timings.ttl ∧ r.holder.locks.timings.ttl ≤ maxLeaseTtl
  ids : ∀ q, q ≠ r.holder.locks.me → (r.peer q).locks.me = q
  self : ∀ (p : Path) l e s, r.holder.locks.states[p]? =
    some (LockState.held r.holder.locks.me l e s) → r.nextTick < e
  asked : ∀ p, InRound r.holder.locks p → r.asked.contains p = true
  copies : ∀ q, q ≠ r.holder.locks.me → ∀ p, r.CopyLasts q p

variable {r r' : Renewal Id Path}

theorem Outlasts.mono {p : Path} {e e' : Nat} (h : r.Outlasts p e) (hle : e ≤ e') :
    r.Outlasts p e' :=
  ⟨fun hheld => lt_of_lt_of_le (h.held hheld) hle,
    fun hround limit hlimit => (h.round hround limit hlimit).trans hle⟩

/-- Nothing is said of the path, and the peer learns nothing from elsewhere. -/
theorem CopyLasts.of_same {q : Id} {p : Path} (h : r.CopyLasts q p)
    (hword : r'.lastWord q p = r.lastWord q p)
    (hme : r'.holder.locks.me = r.holder.locks.me)
    (hpeer : NoNewLease r.holder.locks.me (r.peer q).locks (r'.peer q).locks)
    (hout : ∀ e, r.Outlasts p e → r'.Outlasts p e) : r'.CopyLasts q p := by
  unfold CopyLasts at h ⊢
  rw [hword, hme]
  cases hlast : r.lastWord q p with
  | none =>
      rw [hlast] at h
      exact fun l e s hget => hout e (h l e s (hpeer p l e s hget))
  | some x =>
      obtain ⟨t, w⟩ := x
      rw [hlast] at h
      cases w with
      | claim ttlMs => exact hout _ h
      | free => trivial

theorem isHeldByMe_iff {t : LockTable Id Path} {p : Path} :
    t.isHeldByMe p = true ↔ ∃ l e s, t.states[p]? = some (.held t.me l e s) := by
  unfold isHeldByMe
  constructor
  · intro h
    split at h
    · rename_i holder l e s hget
      obtain rfl := of_decide_eq_true h
      exact ⟨l, e, s, hget⟩
    · cases h
  · rintro ⟨l, e, s, hget⟩
    rw [hget]
    exact decide_eq_true rfl

/-- A TTL in the band is the same on the wire. -/
theorem ttlFromMs_ttlMs {n : LockNode Id Path}
    (hband : minLeaseTtl ≤ n.locks.timings.ttl ∧ n.locks.timings.ttl ≤ maxLeaseTtl) :
    ttlFromMs n.ttlMs = n.locks.timings.ttl := by
  have hsmall : n.locks.timings.ttl < 2 ^ 64 := lt_of_le_of_lt hband.2 (by decide)
  have hval : n.ttlMs.val = n.locks.timings.ttl := Nat.mod_eq_of_lt hsmall
  rw [ttlFromMs, hval, min_eq_left hband.2, max_eq_right hband.1]

theorem timings_band (c : SessionConfig) :
    minLeaseTtl ≤ c.timings.ttl ∧ c.timings.ttl ≤ maxLeaseTtl :=
  ⟨le_max_left _ _, max_le (by decide) (min_le_right _ _)⟩

/-- What a peer's table has of the holder's leases once it has heard `msg`. -/
theorem onCtl_word {n : LockNode Id Path} {k : Id} (hk : k ≠ n.locks.me) {now : Nat}
    {msg : LockMsg Id Path} {p : Path} {l : U64} {e s : Nat}
    (h : (n.onCtl true k now msg).1.locks.states[p]? = some (.held k l e s)) :
    match word p msg with
    | none => n.locks.states[p]? = some (.held k l e s)
    | some (.claim ttlMs) => e = now + ttlFromMs ttlMs
    | some .free => False := by
  have hother : ∀ {rel : Path} {t : LockTable Id Path}, OnlyAt rel n.locks t → rel ≠ p →
      t.states[p]? = some (.held k l e s) → n.locks.states[p]? = some (.held k l e s) := by
    intro rel t ht hne hget
    rw [ht.get p hne] at hget
    exact hget
  cases msg with
  | lockReq rel lamport ttlMs =>
      rw [onCtl, onLockReq_locks, if_pos rfl] at h
      by_cases hp : rel = p
      · subst hp
        rw [word, if_pos rfl]
        unfold onRemoteRequest at h
        dsimp only at h
        split at h
        · rename_i hcap
          -- a path for which there is no room has no entry
          have hin := Map.contains_of_get h
          simp [atCapacityForNew, hin] at hcap
        · split at h
          · split at h
            · rw [put_get_self] at h
              cases h
              rfl
            · rename_i hraw hne
              rw [hraw] at h
              cases h
              exact absurd rfl hne
          · rename_i hraw
            split at h
            · rw [put_get_self] at h
              cases h
              rfl
            · rw [hraw] at h
              cases h
          · rw [put_get_self] at h
            cases h
            rfl
      · rw [word, if_neg hp]
        exact hother (onRemoteRequest_onlyAt _ rel k lamport ttlMs now) hp h
  | lockGrant rel =>
      rw [onCtl, onLockGrant_locks] at h
      exact onGrant_noNewLease hk rel k now p l e s h
  | lockDeny rel reason =>
      rw [onCtl, onLockDeny_locks] at h
      exact onDeny_noNewLease rel p l e s h
  | lockRelease rel =>
      rw [onCtl] at h
      by_cases hp : rel = p
      · subst hp
        rw [word, if_pos rfl]
        unfold onRelease at h
        split at h
        · split at h
          · rw [drop_get_self] at h
            cases h
          · rename_i hraw hne
            rw [hraw] at h
            cases h
            exact hne rfl
        · rename_i hno
          exact hno _ _ _ _ h
      · rw [word, if_neg hp]
        exact hother (onRelease_onlyAt _ rel k) hp h
  | lockRenew rel lamport ttlMs =>
      rw [onCtl] at h
      by_cases hp : rel = p
      · subst hp
        rw [word, if_pos rfl]
        unfold onRenew at h
        split at h
        · split at h
          · rw [put_get_self] at h
            cases h
            rfl
          · rename_i hraw hne
            rw [hraw] at h
            cases h
            exact absurd rfl hne
        · rename_i hno
          exact absurd h (hno _ _ _ _)
      · rw [word, if_neg hp]
        exact hother (onRenew_onlyAt _ rel k ttlMs now) hp h

/-! ## The steps -/

theorem commit_lastWord (r : Renewal Id Path) (res : LockNode.Result Id Path) (q : Id)
    (p : Path) : (r.commit res).lastWord q p =
      match (words p q res.2).getLast? with
      | some w => some (r.now, w)
      | none => r.lastWord q p := by
  have hnew : wordsSent p ((Mesh.outTo q res.2).map fun msg => (r.now, msg)) =
      (words p q res.2).map fun w => (r.now, w) := by
    unfold words wordsSent
    induction Mesh.outTo q res.2 with
    | nil => rfl
    | cons msg msgs ih =>
        cases hw : word p msg with
        | none => simp [hw, ih]
        | some w => simp [hw, ih]
  show (wordsSent p (r.sent q ++ (Mesh.outTo q res.2).map fun msg => (r.now, msg))).getLast? = _
  rw [wordsSent, List.filterMap_append, ← wordsSent, ← wordsSent, hnew, List.getLast?_append,
    List.getLast?_map]
  cases (words p q res.2).getLast? with
  | none => rfl
  | some w => rfl

/-- What a handler of the holder has to see to. -/
structure Keeps (r : Renewal Id Path) (res : LockNode.Result Id Path) (r' : Renewal Id Path) :
    Prop where
  eq : r'.holder = res.1 ∧ r'.sent = (r.commit res).sent ∧ r'.peer = r.peer ∧
    r'.now = r.now ∧ r'.period = r.period
  me : res.1.locks.me = r.holder.locks.me
  clock : r.now ≤ r'.nextTick
  soon : r'.nextTick ≤ r.now + r.period
  ttl : r.period < res.1.locks.timings.ttl
  band : minLeaseTtl ≤ res.1.locks.timings.ttl ∧ res.1.locks.timings.ttl ≤ maxLeaseTtl
  self : ∀ (p : Path) l e s, res.1.locks.states[p]? =
    some (LockState.held r.holder.locks.me l e s) → r'.nextTick < e
  asked : ∀ p, InRound res.1.locks p → r'.asked.contains p = true
  claims : ∀ q p ttlMs, (words p q res.2).getLast? = some (.claim ttlMs) →
    r'.Outlasts p (r.now + ttlFromMs ttlMs)
  rest : ∀ q p, (words p q res.2).getLast? = none → ∀ e, r.Outlasts p e → r'.Outlasts p e

theorem Alive.of_keeps (h : Alive r) {res : LockNode.Result Id Path} (hk : Keeps r res r') :
    Alive r' := by
  obtain ⟨hholder, hsent, hpeer, hnow, hperiod⟩ := hk.eq
  have hword : ∀ q p, r'.lastWord q p = (r.commit res).lastWord q p := by
    intro q p
    unfold lastWord
    rw [hsent]
  refine ⟨?_, ?_, ?_, ?_, ?_, ?_, ?_, ?_, ?_⟩
  · rw [hnow]
    exact hk.clock
  · rw [hnow, hperiod]
    exact hk.soon
  · intro q m hm
    rw [hsent] at hm
    rw [hnow]
    rcases List.mem_append.mp hm with hm | hm
    · exact h.past q m hm
    · obtain ⟨msg, _, rfl⟩ := List.mem_map.mp hm
      exact le_refl _
  · rw [hperiod, hholder]
    exact hk.ttl
  · rw [hholder]
    exact hk.band
  · rw [hholder, hpeer, hk.me]
    exact h.ids
  · rw [hholder, hk.me]
    exact hk.self
  · rw [hholder]
    exact hk.asked
  · intro q hq p
    rw [hholder, hk.me] at hq
    have hlastWord := (hword q p).trans (commit_lastWord r res q p)
    cases hlast : (words p q res.2).getLast? with
    | some w =>
        rw [hlast] at hlastWord
        unfold CopyLasts
        rw [hlastWord]
        cases w with
        | claim ttlMs => exact hk.claims q p ttlMs hlast
        | free => trivial
    | none =>
        -- nothing new is said of the path
        rw [hlast] at hlastWord
        refine (h.copies q hq p).of_same hlastWord (by rw [hholder, hk.me]) ?_ (hk.rest q p hlast)
        rw [hpeer]
        exact .refl

theorem Alive.tick (h : Alive r) :
    Alive { r.commit (r.holder.perform r.now .renew) with nextTick := r.now + r.period } := by
  obtain ⟨hme, htimings⟩ := r.holder.perform_me r.now .renew
  have htimings := htimings fun _ hop => by cases hop
  have hbefore : ∀ p, InRound (r.holder.perform r.now .renew).1.locks p →
      InRound r.holder.locks p := fun p hround =>
    (perform_inRound hround).resolve_right (by simp [starts])
  refine h.of_keeps ⟨⟨rfl, rfl, rfl, rfl, rfl⟩, hme, Nat.le_add_right _ _, le_refl _, ?_, ?_, ?_,
    fun p hround => h.asked p (hbefore p hround), ?_, ?_⟩
  · rw [htimings]
    exact h.ttl
  · rw [htimings]
    exact h.band
  · intro p l e s hget
    obtain ⟨rfl, _⟩ := onRenewTick_own hget
    have hlong := h.ttl
    show r.now + r.period < r.now + r.holder.locks.timings.ttl
    omega
  · intro q p ttlMs hlast
    have hin : p ∈ r.holder.locks.selfHeldPaths := by
      by_contra hno
      rw [perform, (onRenewTick_words _ _ _ q).2 hno] at hlast
      cases hlast
    have hlast' := (onRenewTick_words r.holder r.now p q).1 hin
    rw [perform] at hlast
    rw [hlast] at hlast'
    cases hlast'
    rw [ttlFromMs_ttlMs h.band]
    refine ⟨fun _ => ?_, fun hround => ?_⟩
    · have hlong := h.ttl
      show r.now + r.period < r.now + r.holder.locks.timings.ttl
      omega
    · -- a path that is self-held is in no round
      obtain ⟨l, needed, granted, d, hpend⟩ := hbefore p hround
      obtain ⟨⟨p', st⟩, hmem, rfl⟩ := List.mem_map.mp hin
      rw [List.mem_filter] at hmem
      rw [Map.mem_toList.mp hmem.1] at hpend
      cases hpend
      cases hmem.2
  · intro q p hlast e hold
    have hnot : p ∉ r.holder.locks.selfHeldPaths := by
      intro hin
      rw [perform, (onRenewTick_words _ _ _ q).1 hin] at hlast
      cases hlast
    refine ⟨fun hheld => ?_, fun hround => hold.round (hbefore p hround)⟩
    obtain ⟨l, e', s, hget⟩ := isHeldByMe_iff.mp hheld
    have hme' : (r.holder.perform r.now .renew).1.locks.me = r.holder.locks.me := hme
    rw [show ({ r.commit (r.holder.perform r.now .renew) with
      nextTick := r.now + r.period } : Renewal Id Path).holder.locks =
        (r.holder.perform r.now .renew).1.locks from rfl, hme'] at hget
    obtain ⟨_, e₀, hraw⟩ := onRenewTick_own hget
    exact absurd (mem_selfHeldPaths hraw) hnot

theorem Alive.setTtl (h : Alive r) {ms : Nat} (hample : Ample r (.setTtl ms)) :
    Alive { r.commit (r.holder.perform r.now
        (.retime ({ r.config with leaseTtlMs := ms } : SessionConfig).timings)) with
      config := { r.config with leaseTtlMs := ms } } := by
  refine h.of_keeps ⟨⟨rfl, rfl, rfl, rfl, rfl⟩, rfl, h.clock, h.soon, hample, timings_band _, h.self,
    h.asked, ?_, ?_⟩
  · intro q p ttlMs hlast
    cases hlast
  · intro q p _ e hold
    exact ⟨hold.held, hold.round⟩

theorem Ample.of_wins {op : PlaneOp Id Path} (h : Ample r (.own op)) {p : Path}
    (hwins : wins r.holder r.now p op = true) {limit : Nat} (hlimit : r.asked[p]? = some limit) :
    r.nextTick < limit := by
  unfold wins at hwins
  split at hwins
  · rename_i sender rel
    rw [Bool.and_eq_true] at hwins
    obtain ⟨hrel, hwon⟩ := hwins
    obtain rfl := of_decide_eq_true hrel
    exact h hwon limit hlimit
  · cases hwins

theorem ask_of_not_starts {op : PlaneOp Id Path} {p : Path}
    (h : starts r.holder r.now p op = false) : (r.ask op)[p]? = r.asked[p]? := by
  unfold ask
  split
  · rename_i voters rel
    split
    · rename_i hstart
      refine Map.get_insert_ne _ _ ?_
      rintro rfl
      rw [h] at hstart
      cases hstart
    · rfl
  · rfl

theorem ask_of_starts {op : PlaneOp Id Path} {p : Path}
    (h : starts r.holder r.now p op = true) :
    (r.ask op)[p]? = some (r.now + r.holder.locks.timings.ttl) := by
  cases op with
  | lock voters rel =>
      have hrel : rel = p := by
        rw [starts, Bool.and_eq_true] at h
        exact of_decide_eq_true h.1
      subst hrel
      rw [ask, if_pos h, Map.get_insert_self]
  | _ => cases h

theorem Alive.own (h : Alive r) {op : PlaneOp Id Path} (htimed : isTimed op = false)
    (hop : hears r.holder.locks.me op = false) (hample : Ample r (.own op)) :
    Alive { r.commit (r.holder.perform r.now op) with asked := r.ask op } := by
  obtain ⟨hme, htimings⟩ := r.holder.perform_me r.now op
  have hrenew : op ≠ .renew := by
    rintro rfl
    cases htimed
  have htimings := htimings fun t ht => by
    rw [ht] at htimed
    cases htimed
  have hlong : r.nextTick < r.now + r.holder.locks.timings.ttl := by
    have := h.soon
    have := h.ttl
    omega
  refine h.of_keeps ⟨⟨rfl, rfl, rfl, rfl, rfl⟩, hme, h.clock, h.soon, ?_, ?_, ?_, ?_, ?_, ?_⟩
  · rw [htimings]
    exact h.ttl
  · rw [htimings]
    exact h.band
  · intro p l e s hget
    rcases perform_own hop hrenew hget with hsame | ⟨_, rfl, _⟩
    · exact h.self p l e s hsame
    · exact hlong
  · intro p hround
    rw [Map.contains_eq]
    by_cases hstart : starts r.holder r.now p op = true
    · rw [ask_of_starts hstart]
      rfl
    · rw [ask_of_not_starts (Bool.eq_false_iff.mpr hstart), ← Map.contains_eq]
      exact h.asked p ((perform_inRound hround).resolve_right hstart)
  · intro q p ttlMs hlast
    have hstart : starts r.holder r.now p op = true := by
      by_contra hno
      rcases perform_modest hrenew (Bool.eq_false_iff.mpr hno) q with hnone | hfree
      · rw [hnone] at hlast
        cases hlast
      · rw [hfree] at hlast
        cases hlast
    rw [perform_starts hstart] at hlast
    cases hlast
    rw [ttlFromMs_ttlMs h.band]
    refine ⟨fun _ => hlong, fun _ limit hlimit => ?_⟩
    have heq := ask_of_starts hstart
    rw [hlimit] at heq
    cases heq
    exact le_refl _
  · intro q p hlast e hold
    have hstart : starts r.holder r.now p op = false := by
      by_contra hno
      rw [perform_starts (Bool.of_not_eq_false hno)] at hlast
      cases hlast
    refine ⟨fun hheld => ?_, fun hround limit hlimit => ?_⟩
    · obtain ⟨l, e', s, hget⟩ := isHeldByMe_iff.mp hheld
      rw [show ({ r.commit (r.holder.perform r.now op) with asked := r.ask op } :
        Renewal Id Path).holder.locks = (r.holder.perform r.now op).1.locks from rfl, hme] at hget
      rcases perform_own hop hrenew hget with hsame | ⟨hwins, _, hpend⟩
      · exact hold.held (isHeldByMe_iff.mpr ⟨l, e', s, hsame⟩)
      · -- the round is won while the next tick is within the TTL asked for
        have hin := h.asked p hpend
        rw [Map.contains_eq] at hin
        obtain ⟨limit, hlimit⟩ := Option.isSome_iff_exists.mp hin
        exact lt_of_lt_of_le (hample.of_wins hwins hlimit) (hold.round hpend limit hlimit)
    · have hround' := (perform_inRound hround).resolve_right (by rw [hstart]; exact Bool.false_ne_true)
      rw [show ({ r.commit (r.holder.perform r.now op) with asked := r.ask op } :
        Renewal Id Path).asked = r.ask op from rfl, ask_of_not_starts hstart] at hlimit
      exact hold.round hround' limit hlimit

theorem Alive.wait (h : Alive r) {ms : Nat} (hms : r.now + ms ≤ r.nextTick) :
    Alive { r with now := r.now + ms } := by
  have hsoon := h.soon
  refine ⟨hms, ?_, fun q m hm => (h.past q m hm).trans (Nat.le_add_right _ _), h.ttl, h.band, h.ids,
    h.self, h.asked, fun q hq p => ?_⟩
  · show r.nextTick ≤ r.now + ms + r.period
    omega
  · exact (h.copies q hq p).of_same rfl rfl .refl fun e ho => ⟨ho.held, ho.round⟩

theorem Alive.peer (h : Alive r) {q : Id} {op : PlaneOp Id Path}
    (hop : hears r.holder.locks.me op = false) :
    Alive { r with peer := Function.update r.peer q ((r.peer q).perform r.now op).1 } := by
  refine ⟨h.clock, h.soon, h.past, h.ttl, h.band, fun j hj => ?_, h.self, h.asked,
    fun j hj p => ?_⟩
  · show (Function.update r.peer q ((r.peer q).perform r.now op).1 j).locks.me = j
    by_cases hjq : j = q
    · subst hjq
      rw [Function.update_self]
      exact ((r.peer j).perform_me r.now op).1.trans (h.ids j hj)
    · rw [Function.update_of_ne hjq]
      exact h.ids j hj
  · refine (h.copies j hj p).of_same rfl rfl ?_ fun e ho => ⟨ho.held, ho.round⟩
    show NoNewLease r.holder.locks.me (r.peer j).locks
      (Function.update r.peer q ((r.peer q).perform r.now op).1 j).locks
    by_cases hjq : j = q
    · subst hjq
      rw [Function.update_self]
      refine perform_foreign ?_ hop
      rw [h.ids j hj]
      exact fun heq => hj heq.symm
    · rw [Function.update_of_ne hjq]
      exact .refl

theorem Alive.deliver (h : Alive r) {q : Id} {t : Nat} {msg : LockMsg Id Path}
    {rest : List (Nat × LockMsg Id Path)} (hsent : r.sent q = (t, msg) :: rest) :
    Alive { r with
      peer := Function.update r.peer q ((r.peer q).onCtl true r.holder.locks.me r.now msg).1
      sent := Function.update r.sent q rest } := by
  have htime : t ≤ r.now := h.past q (t, msg) (by rw [hsent]; exact List.mem_cons_self)
  refine ⟨h.clock, h.soon, fun j m hm => ?_, h.ttl, h.band, fun j hj => ?_, h.self, h.asked,
    fun j hj p => ?_⟩
  · have hm : m ∈ Function.update r.sent q rest j := hm
    by_cases hjq : j = q
    · subst hjq
      rw [Function.update_self] at hm
      exact h.past j m (by rw [hsent]; exact List.mem_cons_of_mem _ hm)
    · rw [Function.update_of_ne hjq] at hm
      exact h.past j m hm
  · show (Function.update r.peer q
      ((r.peer q).onCtl true r.holder.locks.me r.now msg).1 j).locks.me = j
    by_cases hjq : j = q
    · subst hjq
      rw [Function.update_self]
      exact (onCtl_me (r.peer j) true _ r.now msg).1.trans (h.ids j hj)
    · rw [Function.update_of_ne hjq]
      exact h.ids j hj
  · by_cases hjq : j = q
    · subst hjq
      have hold := h.copies j hj p
      have hk : r.holder.locks.me ≠ (r.peer j).locks.me := by
        rw [h.ids j hj]
        exact fun heq => hj heq.symm
      have hheard := fun l e s => @onCtl_word _ _ _ _ (r.peer j) r.holder.locks.me hk r.now msg p
        l e s
      unfold CopyLasts lastWord at hold ⊢
      dsimp only
      rw [hsent, wordsSent_cons_getLast?] at hold
      rw [Function.update_self, Function.update_self]
      cases hrest : (wordsSent p rest).getLast? with
      | some x =>
          -- what comes later counts
          rw [hrest, Option.some_or] at hold
          obtain ⟨t', w⟩ := x
          cases w with
          | claim ttlMs => exact ⟨hold.held, hold.round⟩
          | free => trivial
      | none =>
          rw [hrest, Option.none_or] at hold
          intro l e s hget
          have hget := hheard l e s hget
          cases hw : word p msg with
          | none =>
              rw [hw] at hold hget
              have hlong := hold l e s hget
              exact ⟨hlong.held, hlong.round⟩
          | some w =>
              rw [hw] at hold hget
              cases w with
              | claim ttlMs =>
                  obtain rfl : e = r.now + ttlFromMs ttlMs := hget
                  have hlong : r.Outlasts p (t + ttlFromMs ttlMs) := hold
                  have hlater := hlong.mono (Nat.add_le_add_right htime _)
                  exact ⟨hlater.held, hlater.round⟩
              | free => exact absurd hget id
    · refine (h.copies j hj p).of_same ?_ rfl ?_ fun e ho => ⟨ho.held, ho.round⟩
      · unfold lastWord
        dsimp only
        rw [Function.update_of_ne hjq]
      · dsimp only
        rw [Function.update_of_ne hjq]
        exact .refl

/-- **One step keeps the leases alive.** -/
theorem Alive.step (h : Alive r) {act : RenewalAct Id Path} (hample : Ample r act)
    (hs : r.step act = some r') : Alive r' := by
  cases act with
  | wait ms =>
      rw [Renewal.step] at hs
      split at hs
      · rename_i hms
        cases hs
        exact h.wait hms
      · cases hs
  | tick =>
      rw [Renewal.step] at hs
      split at hs
      · cases hs
        exact h.tick
      · cases hs
  | setTtl ms =>
      cases hs
      exact h.setTtl hample
  | own op =>
      rw [Renewal.step] at hs
      split at hs
      · cases hs
      · rename_i hop
        cases hs
        rw [Bool.or_eq_true, not_or] at hop
        exact h.own (Bool.eq_false_iff.mpr hop.1) (Bool.eq_false_iff.mpr hop.2) hample
  | peer q op =>
      rw [Renewal.step] at hs
      split at hs
      · cases hs
      · rename_i hop
        cases hs
        exact h.peer (Bool.eq_false_iff.mpr hop)
  | deliver q =>
      rw [Renewal.step] at hs
      split at hs
      · cases hs
      · rename_i hsent
        cases hs
        exact h.deliver hsent

theorem spawn_alive {me : Id} {config : SessionConfig} {now : Nat} {peer : Id → LockNode Id Path}
    (hids : ∀ q, q ≠ me → (peer q).locks.me = q) : Alive (spawn me config now peer) := by
  have hband := timings_band config
  have hnone : ∀ (p : Path) (st : LockState Id),
      (spawn me config now peer).holder.locks.states[p]? ≠ some st := fun p st hget => by
    simp [spawn, LockTable.new] at hget
  refine ⟨le_refl _, Nat.le_add_right _ _, fun q m hm => ?_, ?_, hband, hids,
    fun p l e s hget => absurd hget (hnone p _), fun p hround => ?_, fun q hq p => ?_⟩
  · cases hm
  · show config.timings.ttl / 3 < config.timings.ttl
    have hpos : 0 < minLeaseTtl := by decide
    omega
  · obtain ⟨_, _, _, _, hget⟩ := hround
    exact absurd hget (hnone p _)
  · refine fun l e s _ => ⟨fun hheld => ?_, fun hround => ?_⟩
    · obtain ⟨_, _, _, hget⟩ := isHeldByMe_iff.mp hheld
      exact absurd hget (hnone p _)
    · obtain ⟨_, _, _, _, hget⟩ := hround
      exact absurd hget (hnone p _)

/-- **A live holder keeps its leases.** In every run in which the TTLs that are set exceed the
period of the timer, and rounds are won in time, neither a sweep nor the inspection of a path
drops a self-held lease, and the copy of it on a peer has not expired, unless there is still
something under way to that peer about the path. -/
theorem live_lease_kept {me : Id} {config : SessionConfig} {now : Nat}
    {peer : Id → LockNode Id Path} (hids : ∀ q, q ≠ me → (peer q).locks.me = q)
    (hrun : Reaches step Ample (spawn me config now peer) r) :
    r.period < r.holder.locks.timings.ttl ∧
    ∀ p, r.holder.locks.isHeldByMe p = true →
      (r.holder.locks.sweep r.now).1.isHeldByMe p = true ∧
      (r.holder.locks.pruneExpired p r.now).isHeldByMe p = true ∧
      ∀ q, q ≠ r.holder.locks.me → ∀ l e s,
        (r.peer q).locks.states[p]? = some (.held r.holder.locks.me l e s) →
          r.now < e ∨ (r.lastWord q p).isSome = true := by
  have halive : Alive r := hrun.invariant (spawn_alive hids) fun _ _ _ hi hok hs => hi.step hok hs
  refine ⟨halive.ttl, fun p hheld => ?_⟩
  obtain ⟨l, e, s, hget⟩ := isHeldByMe_iff.mp hheld
  have hlive : r.now < e := lt_of_le_of_lt halive.clock (halive.self p l e s hget)
  refine ⟨?_, ?_, fun q hq l' e' s' hcopy => ?_⟩
  · refine isHeldByMe_iff.mpr ⟨l, e, s, ?_⟩
    show (r.holder.locks.states.filter fun _ st => !LockState.due r.now st)[p]? =
      some (.held r.holder.locks.me l e s)
    rw [Std.ExtTreeMap.getElem?_filter', hget]
    simp [LockState.due, hlive]
  · rw [pruneExpired_of_live (by rw [hget]; exact hlive)]
    exact hheld
  · have hlasts := halive.copies q hq p
    unfold CopyLasts at hlasts
    cases hword : r.lastWord q p with
    | some x => exact .inr rfl
    | none =>
        rw [hword] at hlasts
        exact .inl (lt_of_le_of_lt halive.clock ((hlasts l' e' s' hcopy).held hheld))

/-! ## A TTL shortened while the daemon runs -/

/-- The daemon is started with a TTL of `ms`. -/
def configOf (ms : Nat) : SessionConfig where
  role := .editor
  strict := true
  autolock := true
  historyDepth := 8
  leaseTtlMs := ms
  acquireTimeoutMs := 5000
  waitTimeoutMs := 60000
  junkFilter := true
  syncOnly := ""
  syncSkip := ""
  maxFileSize := 0

/-- Node 0, started with a TTL of 90 seconds, and so a period of 30. -/
def started : Renewal Nat Nat :=
  spawn 0 (configOf 90000) 0 fun q => ⟨.new q (configOf 90000).timings, 0, ∅⟩

/-- Node 0 acquires the lease on path 7, with the vote of node 1. -/
def acquire : List (RenewalAct Nat Nat) :=
  [.tick, .own (.lock {1} 7), .deliver 1, .own (.receive true 1 (.lockGrant 7))]

/-- The TTL is set to 40 seconds, and 15 seconds after the next tick the lease is there. -/
theorem live_lease_kept_shorter : ∃ r : Renewal Nat Nat, Reaches step Ample started r ∧
    r.now = 45000 ∧ (r.holder.locks.sweep r.now).1.isHeldByMe 7 = true := by
  have hexec : (executeChecked step (fun r act => decide (Ample r act))
      (acquire ++ [.setTtl 40000, .wait 30000, .tick, .deliver 1, .wait 15000]) started).any
        (fun r => decide (r.now = 45000) && r.holder.locks.isHeldByMe 7) = true := by
    decide +kernel
  obtain ⟨r, hrun, htest⟩ := exists_reaches_of_executeChecked hexec
  rw [Bool.and_eq_true] at htest
  have hample := hrun.mono fun _ _ h => of_decide_eq_true h
  have hkept := live_lease_kept (fun q _ => rfl) hample
  exact ⟨r, hample, of_decide_eq_true htest.1, (hkept.2 7 htest.2).1⟩

/-- The TTL is set to 10 seconds. Ten seconds after the next tick the lease is gone, twenty
seconds before the one after it. -/
theorem live_lease_lost : ∃ r : Renewal Nat Nat, Reaches step anyStep started r ∧
    r.holder.locks.timings.ttl < r.period ∧ r.holder.locks.isHeldByMe 7 = true ∧
    (r.holder.locks.sweep r.now).1.isHeldByMe 7 = false ∧ r.nextTick = r.now + 20000 := by
  have hexec : (execute step
      (acquire ++ [.setTtl 10000, .wait 30000, .tick, .deliver 1, .wait 10000]) started).any
        (fun r => decide (r.holder.locks.timings.ttl < r.period ∧
          r.holder.locks.isHeldByMe 7 = true ∧
          (r.holder.locks.sweep r.now).1.isHeldByMe 7 = false ∧
          r.nextTick = r.now + 20000)) = true := by
    decide +kernel
  obtain ⟨r, hrun, htest⟩ := exists_reaches_of_execute anyStep (fun _ _ _ => trivial) hexec
  exact ⟨r, hrun, of_decide_eq_true htest⟩

end Renewal

end Tazamun
