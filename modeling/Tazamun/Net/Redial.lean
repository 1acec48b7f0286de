import Tazamun.Net.Dialer

set_option autoImplicit false

/-! # Who is dialed again

In every run a member that is known is connected, or is being dialed, or has a redial set
(**`not_forgotten`**), with two exceptions, which `turnedAway` records: a member that broke the
protocol, and a member whose dial came through when the daemon had no room. The second one stays
in `dialing`, where nothing removes it but a connection that it makes itself; so the daemon never
dials it again (**`refused_stays_undialed`**). The waits for a member that does not answer double
up to a minute (**`waits_double`**).

The proofs go handler by handler. A handler that takes a member out of one of the sets leaves
everybody cared for but that one (`CaredBut`), and the dial or the redial it ends with makes up
for it.
-/

namespace Tazamun

open Lib

namespace Dialer

variable {Id Sock : Type} [LinearOrder Id] {d d' : Dialer Id Sock} {id other : Id} {me : Id}
  {known : Map Id (Option (EndpointAddr Id Sock))}

/-! ## Nobody is forgotten -/

/-- Every address is that of the member it is kept for. -/
structure Straight (d : Dialer Id Sock) : Prop where
  members : ∀ (id : Id) addr, d.members[id]? = some addr → addr.id = id
  known : ∀ (id : Id) addr, d.knownMembers[id]? = some (some addr) → addr.id = id
  dials : ∀ e ∈ d.dials, e.2.id = e.1

/-- Connected, on its way to be, or turned away. -/
def AtHand (d : Dialer Id Sock) (id : Id) : Prop :=
  d.peers.contains id = true ∨ id ∈ d.dialing ∨ id ∈ d.redialScheduled ∨ id ∈ d.turnedAway

theorem AtHand.mono (h : d.AtHand id)
    (hpeer : d.peers.contains id = true → d'.peers.contains id = true)
    (hdialing : id ∈ d.dialing → id ∈ d'.dialing)
    (hset : id ∈ d.redialScheduled → id ∈ d'.redialScheduled)
    (haway : id ∈ d.turnedAway → id ∈ d'.turnedAway) : d'.AtHand id :=
  Or.imp hpeer (Or.imp hdialing (Or.imp hset haway)) h

def Pursued (d : Dialer Id Sock) (id : Id) : Prop :=
  id ∈ d.dialing → id ∈ d.dials.map Prod.fst ∨ id ∈ d.turnedAway

/-- A member with an address is not forgotten. -/
def Attended (d : Dialer Id Sock) (id : Id) : Prop :=
  id ≠ d.me → (d.knownMemberAddr id).isSome = true → d.AtHand id

/-- All members are cared for, but perhaps one. -/
structure CaredBut (d : Dialer Id Sock) (id : Id) : Prop where
  straight : d.Straight
  pursued : ∀ (other : Id), other ≠ id → d.Pursued other
  attended : ∀ (other : Id), other ≠ id → d.Attended other

structure Cared (d : Dialer Id Sock) : Prop where
  straight : d.Straight
  pursued : ∀ (id : Id), d.Pursued id
  attended : ∀ (id : Id), d.Attended id

theorem Cared.but (h : d.Cared) (id : Id) : d.CaredBut id :=
  ⟨h.straight, fun other _ => h.pursued other, fun other _ => h.attended other⟩

theorem CaredBut.cared (h : d.CaredBut id) (hpursued : d.Pursued id) (hattended : d.Attended id) :
    d.Cared := by
  refine ⟨h.straight, fun other => ?_, fun other => ?_⟩
  · by_cases hother : other = id
    · exact hother ▸ hpursued
    · exact h.pursued other hother
  · by_cases hother : other = id
    · exact hother ▸ hattended
    · exact h.attended other hother

theorem Straight.addr (h : d.Straight) {addr : EndpointAddr Id Sock}
    (haddr : d.knownMemberAddr id = some addr) : addr.id = id := by
  unfold knownMemberAddr at haddr
  cases hmember : d.members[id]? with
  | some found =>
      rw [hmember] at haddr
      exact h.members id addr (hmember.trans haddr)
  | none =>
      rw [hmember] at haddr
      exact h.known id addr (Option.join_eq_some_iff.mp haddr)

theorem Straight.dial (h : d.Straight) (id : Id) : (d.dial id).Straight := by
  rcases dial_cases d id with ⟨heq, -⟩ | ⟨addr, haddr, -, -, -, heq⟩
  · rw [heq]
    exact h
  · rw [heq]
    refine ⟨h.members, h.known, fun e he => ?_⟩
    rcases List.mem_append.mp he with he | he
    · exact h.dials e he
    · rw [List.mem_singleton.mp he]
      exact h.addr haddr

/-- A dial leaves the others as they are. -/
theorem Pursued.dial (h : d.Pursued other) (id : Id) : (d.dial id).Pursued other := by
  rcases dial_cases d id with ⟨heq, -⟩ | ⟨addr, -, -, -, -, heq⟩
  · rw [heq]
    exact h
  · rw [heq]
    intro hmem
    rw [List.map_append]
    rcases Finset.mem_insert.mp hmem with rfl | hmem
    · exact .inl (List.mem_append_right _ (List.mem_singleton.mpr rfl))
    · exact (h hmem).imp_left (List.mem_append_left _)

theorem Attended.dial (h : d.Attended other) (id : Id) : (d.dial id).Attended other := by
  rcases dial_cases d id with ⟨heq, -⟩ | ⟨addr, -, -, -, -, heq⟩
  · rw [heq]
    exact h
  · rw [heq]
    intro hme hknown
    exact (h hme hknown).mono (fun h => h) Finset.mem_insert_of_mem (fun h => h) fun h => h

/-- What is dialed is attended to. -/
theorem attended_dial (d : Dialer Id Sock) (id : Id) : (d.dial id).Attended id := by
  rcases dial_cases d id with ⟨heq, hwhy⟩ | ⟨addr, -, -, -, -, heq⟩
  · rw [heq]
    intro hme hknown
    rcases hwhy with hself | hpeer | hdialing | hnone
    · exact absurd hself hme
    · exact .inl hpeer
    · exact .inr (.inl hdialing)
    · rw [hnone] at hknown
      cases hknown
  · rw [heq]
    exact fun _ _ => .inr (.inl (Finset.mem_insert_self _ _))

theorem CaredBut.dial (h : d.CaredBut id) (hpursued : d.Pursued id) : (d.dial id).Cared :=
  CaredBut.cared ⟨h.straight.dial id, fun other hother => (h.pursued other hother).dial id,
    fun other hother => (h.attended other hother).dial id⟩ (hpursued.dial id) (attended_dial d id)

theorem CaredBut.scheduleRedial (h : d.CaredBut id) (hpursued : d.Pursued id) (random : Nat) :
    (d.scheduleRedial random id).Cared := by
  rcases scheduleRedial_cases d random id with ⟨heq, hwhy⟩ | ⟨-, heq⟩
  · rw [heq]
    refine h.cared hpursued fun _ _ => ?_
    rcases hwhy with hpeer | hset
    · exact .inl hpeer
    · exact .inr (.inr (.inl hset))
  · rw [heq]
    refine @CaredBut.cared _ _ _ _ id ⟨⟨h.straight.members, h.straight.known, h.straight.dials⟩,
      h.pursued, fun other hother hme hknown => ?_⟩ hpursued
      fun _ _ => .inr (.inr (.inl (Finset.mem_insert_self _ _)))
    exact (h.attended other hother hme hknown).mono (fun h => h) (fun h => h)
      Finset.mem_insert_of_mem fun h => h

theorem CaredBut.redial (h : d.CaredBut id) (hpursued : d.Pursued id) (random : Nat) :
    (d.redial random id).Cared := by
  unfold Dialer.redial
  split
  · split
    · exact h.scheduleRedial hpursued random
    · exact CaredBut.dial ⟨⟨h.straight.members, h.straight.known, h.straight.dials⟩, h.pursued,
        h.attended⟩ hpursued
  · rename_i hunknown
    rw [not_or] at hunknown
    exact h.cared hpursued fun _ hknown => absurd hknown hunknown.2

theorem Straight.join (h : d.Straight) (id : Id) (peer : Peer) : (d.join id peer).Straight := by
  refine ⟨fun other addr haddr => ?_, h.known, h.dials⟩
  unfold Dialer.join at haddr
  dsimp only at haddr
  split at haddr
  · exact h.members other addr haddr
  · rw [Map.get_insert] at haddr
    split at haddr
    · rename_i hother
      obtain rfl := Option.some.inj haddr
      exact hother
    · exact h.members other addr haddr

/-- The one who is let in is cared for. -/
theorem CaredBut.join (h : d.CaredBut id) (peer : Peer) : (d.join id peer).Cared := by
  refine @CaredBut.cared _ _ _ _ id ⟨h.straight.join id peer, fun other hother hmem => ?_,
    fun other hother hme hknown => ?_⟩ (fun hmem => absurd hmem (Finset.notMem_erase _ _))
    fun _ _ => .inl (Map.contains_insert_iff.mpr (.inl rfl))
  · exact (h.pursued other hother (Finset.mem_of_mem_erase hmem)).imp_right
      fun haway => Finset.mem_erase.mpr ⟨hother, haway⟩
  · rw [knownMemberAddr_join d peer hother] at hknown
    exact (h.attended other hother hme hknown).mono
      (fun hpeer => Map.contains_insert_iff.mpr (.inr hpeer))
      (fun hdialing => Finset.mem_erase.mpr ⟨hother, hdialing⟩) (fun h => h)
      fun haway => Finset.mem_erase.mpr ⟨hother, haway⟩

/-- More are turned away. -/
theorem CaredBut.turnAway (h : d.CaredBut id) {away : Finset Id} (hsub : d.turnedAway ⊆ away) :
    ({ d with turnedAway := away } : Dialer Id Sock).CaredBut id := by
  refine ⟨⟨h.straight.members, h.straight.known, h.straight.dials⟩,
    fun other hother hmem => (h.pursued other hother hmem).imp_right fun haway => hsub haway,
    fun other hother hme hknown => ?_⟩
  exact (h.attended other hother hme hknown).mono (fun h => h) (fun h => h) (fun h => h)
    fun haway => hsub haway

/-- A connection from outside. -/
theorem Cared.onAuthed (h : d.Cared) (id : Id) (connId : Nat) :
    (d.onAuthed id connId false).Cared := by
  rcases onAuthed_cases d id connId false with ⟨heq, -⟩ | ⟨-, heq⟩ | ⟨-, heq⟩
  · rw [heq]
    exact h
  · rw [heq]
    exact ⟨⟨h.straight.members, h.straight.known, h.straight.dials⟩, h.pursued, h.attended⟩
  · rw [heq]
    exact (h.but id).join _

/-- A dial of our own that came through. -/
theorem CaredBut.onAuthed (h : d.CaredBut id) (hme : id ≠ d.me)
    (hidle : d.peers.contains id = true → id ∉ d.dialing) (connId : Nat) :
    (d.onAuthed id connId true).Cared := by
  rcases onAuthed_cases d id connId true with ⟨heq, hwhy⟩ | ⟨-, heq⟩ | ⟨-, heq⟩
  · have hpeer := hwhy.resolve_left hme
    rw [heq]
    exact h.cared (fun hmem => absurd hmem (hidle hpeer)) fun _ _ => .inl hpeer
  · rw [heq, if_pos rfl]
    exact (h.turnAway (Finset.subset_insert _ _)).cared
      (fun _ => .inr (Finset.mem_insert_self _ _))
      fun _ _ => .inr (.inr (.inr (Finset.mem_insert_self _ _)))
  · rw [heq]
    exact h.join _

/-- A peer is out of the way. -/
theorem CaredBut.erase (h : d.CaredBut id) :
    ({ d with peers := d.peers.erase id } : Dialer Id Sock).CaredBut id := by
  refine ⟨⟨h.straight.members, h.straight.known, h.straight.dials⟩, h.pursued,
    fun other hother hme hknown => ?_⟩
  exact (h.attended other hother hme hknown).mono
    (fun hpeer => Map.contains_erase_iff.mpr ⟨Ne.symm hother, hpeer⟩) (fun h => h) (fun h => h)
    fun h => h

/-- A new address for one member. -/
theorem CaredBut.learn (h : d.CaredBut id) {addr : EndpointAddr Id Sock} (haddr : addr.id = id) :
    ({ d with
      knownMembers := d.knownMembers.insert id (some addr)
      members := d.members.insert id addr } : Dialer Id Sock).CaredBut id := by
  refine ⟨⟨fun other found hfound => ?_, fun other found hfound => ?_, h.straight.dials⟩,
    h.pursued, fun other hother hme hknown => ?_⟩
  · rw [Map.get_insert] at hfound
    split at hfound
    · rename_i hother
      obtain rfl := Option.some.inj hfound
      exact haddr.trans hother
    · exact h.straight.members other found hfound
  · rw [Map.get_insert] at hfound
    split at hfound
    · rename_i hother
      obtain rfl := Option.some.inj (Option.some.inj hfound)
      exact haddr.trans hother
    · exact h.straight.known other found hfound
  · refine h.attended other hother hme ?_
    unfold knownMemberAddr at hknown ⊢
    dsimp only at hknown
    rwa [Map.get_insert_ne _ _ (Ne.symm hother), Map.get_insert_ne _ _ (Ne.symm hother)] at hknown

theorem Cared.onSeen (h : d.Cared) {addr : EndpointAddr Id Sock} (haddr : addr.id = id) :
    (d.onSeen id addr).Cared := by
  unfold Dialer.onSeen
  split
  · exact h
  · have hnew := (h.but id).learn haddr
    have hpursued := h.pursued id
    dsimp only
    split
    · rename_i hwhy
      refine hnew.cared hpursued fun _ _ => ?_
      rcases hwhy with hpeer | hdialing | hset
      · exact .inl hpeer
      · exact .inr (.inl hdialing)
      · exact .inr (.inr (.inl hset))
    · exact hnew.dial hpursued

/-- A beacon has the address of its sender. -/
def Honest (_ : Dialer Id Sock) : Act Id Sock → Prop
  | .seen id addr => addr.id = id
  | _ => True

omit [LinearOrder Id] in
/-- Another dial than the one that is done. -/
theorem mem_eraseIdx_dials {l : List (Id × EndpointAddr Id Sock)} {i : Nat}
    {entry : Id × EndpointAddr Id Sock} (hi : l[i]? = some entry) (hne : other ≠ entry.1)
    (h : other ∈ l.map Prod.fst) : other ∈ (l.eraseIdx i).map Prod.fst := by
  obtain ⟨e, he, rfl⟩ := List.mem_map.mp h
  obtain ⟨j, hj⟩ := List.mem_iff_getElem?.mp he
  refine List.mem_map_of_mem (List.mem_eraseIdx_iff_getElem?.mpr ⟨j, fun hji => ?_, hj⟩)
  rw [hji, hi] at hj
  exact hne (congrArg Prod.fst (Option.some.inj hj).symm)

theorem Cared.step (h : d.Cared) (hinv : d.Inv) {act : Act Id Sock} (hok : d.Honest act)
    (hstep : d.step act = some d') : d'.Cared := by
  cases act with
  | authed id connId =>
      obtain rfl := Option.some.inj hstep
      exact h.onAuthed id connId
  | dialed i connId =>
      obtain ⟨entry, hi, rfl⟩ := step_dialed hstep
      have hmem := List.mem_of_getElem? hi
      rw [h.straight.dials entry hmem]
      refine CaredBut.onAuthed (d := { d with dials := d.dials.eraseIdx i }) ?_
        (hinv.aimed entry hmem) (fun hpeer => (hinv.idle _ hpeer).1) connId
      refine ⟨⟨h.straight.members, h.straight.known, fun e he => ?_⟩,
        fun other hother hdialing => ?_, fun other _ => h.attended other⟩
      · exact h.straight.dials e (List.mem_of_mem_eraseIdx he)
      · exact (h.pursued other hdialing).imp_left (mem_eraseIdx_dials hi hother)
  | dialFailed i random =>
      obtain ⟨entry, hi, rfl⟩ := step_dialFailed hstep
      refine CaredBut.scheduleRedial ?_ (fun hmem => absurd hmem (Finset.notMem_erase _ _))
        random
      refine ⟨⟨h.straight.members, h.straight.known, fun e he => ?_⟩,
        fun other hother hdialing => ?_, fun other hother hme hknown => ?_⟩
      · exact h.straight.dials e (List.mem_of_mem_eraseIdx he)
      · exact (h.pursued other (Finset.mem_of_mem_erase hdialing)).imp_left
          (mem_eraseIdx_dials hi hother)
      · exact (h.attended other hme hknown).mono (fun h => h)
          (fun hdialing => Finset.mem_erase.mpr ⟨hother, hdialing⟩) (fun h => h) fun h => h
  | retryDial i =>
      obtain ⟨entry, -, rfl⟩ := step_retryDial hstep
      refine CaredBut.dial ⟨⟨h.straight.members, h.straight.known, h.straight.dials⟩,
        fun other _ => h.pursued other, fun other hother hme hknown => ?_⟩ (h.pursued entry.1)
      exact (h.attended other hme hknown).mono (fun h => h) (fun h => h)
        (fun hset => Finset.mem_erase.mpr ⟨hother, hset⟩) fun h => h
  | gone id connId random =>
      obtain rfl := Option.some.inj hstep
      unfold onPeerGone
      split
      · exact h
      · exact (h.but id).erase.redial (h.pursued id) random
  | violated id =>
      obtain rfl := Option.some.inj hstep
      exact ((h.but id).erase.turnAway (Finset.subset_insert _ _)).cared
        (fun _ => .inr (Finset.mem_insert_self _ _))
        fun _ _ => .inr (.inr (.inr (Finset.mem_insert_self _ _)))
  | seen id addr =>
      obtain rfl := Option.some.inj hstep
      exact h.onSeen hok
  | neighborUp id =>
      obtain rfl := Option.some.inj hstep
      unfold onNeighborUp
      split
      · exact (h.but id).dial (h.pursued id)
      · exact h

/-- The first round of dials reaches all of a list. -/
theorem attended_dials (ids : List Id) :
    ∀ (d : Dialer Id Sock), (other ∈ ids ∨ d.Attended other) →
      (ids.foldl Dialer.dial d).Attended other := by
  induction ids with
  | nil => exact fun d h => h.resolve_left List.not_mem_nil
  | cons id ids ih =>
      intro d h
      refine ih (d.dial id) ?_
      rcases h with hmem | hattended
      · rcases List.mem_cons.mp hmem with rfl | hmem
        · exact .inr (attended_dial d other)
        · exact .inl hmem
      · exact .inr (hattended.dial id)

theorem cared_start (hknown : ∀ (id : Id) addr, known[id]? = some (some addr) → addr.id = id) :
    (start me known : Dialer Id Sock).Cared := by
  have hload : (load me known : Dialer Id Sock).Straight :=
    ⟨fun id addr h => by simp [load] at h, hknown, fun e he => (by cases he)⟩
  have hrest : (start me known : Dialer Id Sock).Straight ∧
      ∀ (id : Id), (start me known : Dialer Id Sock).Pursued id :=
    List.foldlRecOn (motive := fun d : Dialer Id Sock => d.Straight ∧ ∀ (id : Id), d.Pursued id)
      _ _ ⟨hload, fun id hmem => absurd hmem (Finset.notMem_empty id)⟩
      fun _ h id _ => ⟨h.1.dial id, fun other => (h.2 other).dial id⟩
  refine ⟨hrest.1, hrest.2, fun id => attended_dials _ _ ?_⟩
  by_cases hin : id ≠ me ∧ ((load me known : Dialer Id Sock).knownMemberAddr id).isSome = true
  · obtain ⟨addr, haddr⟩ := Option.isSome_iff_exists.mp hin.2
    have hbook : known[id]? = some (some addr) := by
      unfold knownMemberAddr load at haddr
      exact Option.join_eq_some_iff.mp (by simpa using haddr)
    refine .inl (List.mem_filter.mpr ⟨List.mem_filterMap.mpr ⟨(id, some addr),
      Map.mem_toList.mpr hbook, ?_⟩, decide_eq_true hin.1⟩)
    exact congrArg some (hknown id addr hbook)
  · exact .inr fun hme hsome => absurd ⟨hme, hsome⟩ hin

/-- **Nobody is forgotten**: a member whose address is known is connected, or a dial to it is on
its way, or a task sleeps until it is dialed again, unless it has been turned away. -/
theorem not_forgotten (hknown : ∀ (id : Id) addr, known[id]? = some (some addr) → addr.id = id)
    (hrun : Reaches Dialer.step Honest (start me known) d) (hme : id ≠ d.me)
    (haddr : (d.knownMemberAddr id).isSome = true) :
    d.peers.contains id = true ∨ id ∈ d.dials.map Prod.fst ∨ id ∈ d.timers.map Prod.fst ∨
      id ∈ d.turnedAway := by
  have hboth : d.Inv ∧ d.Cared :=
    hrun.invariant (I := fun d => d.Inv ∧ d.Cared) ⟨inv_start, cared_start hknown⟩
      fun _ _ _ h hok hstep => ⟨h.1.step hstep, h.2.step h.1 hok hstep⟩
  rcases hboth.2.attended id hme haddr with hpeer | hdialing | hset | haway
  · exact .inl hpeer
  · rcases hboth.2.pursued id hdialing with hdial | haway
    · exact .inr (.inl hdial)
    · exact .inr (.inr (.inr haway))
  · exact .inr (.inr (.inl ((hboth.1.asleep id).mp hset)))
  · exact .inr (.inr (.inr haway))

theorem not_forgotten_comesAndGoes : ∃ d : Dialer Nat Unit, d.turnedAway = ∅ ∧
    (d.peers.contains 2 = true ∨ 2 ∈ d.dials.map Prod.fst ∨ 2 ∈ d.timers.map Prod.fst ∨
      2 ∈ d.turnedAway) := by
  have hrun : (execute Dialer.step comesAndGoes (start 1 oneMember)).any (fun d =>
      decide (d.turnedAway = ∅) && decide (d.me = 1) && (d.knownMemberAddr 2).isSome) = true := by
    decide +kernel
  have hhonest : ∀ act ∈ comesAndGoes, ∀ d, Honest d act := by
    intro act hact d
    simp only [comesAndGoes, List.mem_cons, List.not_mem_nil, or_false] at hact
    rcases hact with rfl | rfl | rfl | rfl | rfl | rfl | rfl <;> trivial
  obtain ⟨d, hreach, hd⟩ := exists_reaches_of_execute Honest hhonest hrun
  rw [Bool.and_eq_true, Bool.and_eq_true, decide_eq_true_eq, decide_eq_true_eq] at hd
  refine ⟨d, hd.1.1, not_forgotten (fun id addr h => ?_) hreach ?_ hd.2⟩
  · unfold oneMember at h
    rw [Map.get_insert] at h
    split at h
    · rename_i hid
      obtain rfl := Option.some.inj (Option.some.inj h)
      exact hid
    · simp at h
  · rw [hd.1.2]
    decide

/-! ## Who is refused -/

/-- Marked as being dialed, and no dial is on its way. -/
structure Stranded (d : Dialer Id Sock) (id : Id) : Prop where
  marked : id ∈ d.dialing
  apart : d.peers.contains id = false
  idle : ∀ e ∈ d.dials, e.1 ≠ id

/-- No connection with the node is authenticated. -/
def NotLetIn (id : Id) (d : Dialer Id Sock) : Act Id Sock → Prop
  | .authed other _ => other ≠ id
  | .dialed i _ => ∀ entry ∈ d.dials[i]?, entry.2.id ≠ id
  | _ => True

theorem Stranded.dial (h : d.Stranded id) (other : Id) : (d.dial other).Stranded id := by
  rcases dial_cases d other with ⟨heq, -⟩ | ⟨addr, -, -, -, hnew, heq⟩
  · rw [heq]
    exact h
  · rw [heq]
    refine ⟨Finset.mem_insert_of_mem h.marked, h.apart, fun e he => ?_⟩
    rcases List.mem_append.mp he with he | he
    · exact h.idle e he
    · rw [List.mem_singleton.mp he]
      intro hsame
      have heq : other = id := hsame
      exact hnew (heq ▸ h.marked)

theorem Stranded.scheduleRedial (h : d.Stranded id) (random : Nat) (other : Id) :
    (d.scheduleRedial random other).Stranded id := by
  rcases scheduleRedial_cases d random other with ⟨heq, -⟩ | ⟨-, heq⟩
  · rw [heq]
    exact h
  · rw [heq]
    exact ⟨h.marked, h.apart, h.idle⟩

theorem Stranded.onAuthed (h : d.Stranded id) (hne : other ≠ id) (connId : Nat) (byMe : Bool) :
    (d.onAuthed other connId byMe).Stranded id := by
  rcases onAuthed_cases d other connId byMe with ⟨heq, -⟩ | ⟨-, heq⟩ | ⟨-, heq⟩
  · rw [heq]
    exact h
  · rw [heq]
    exact ⟨h.marked, h.apart, h.idle⟩
  · rw [heq]
    refine ⟨Finset.mem_erase.mpr ⟨Ne.symm hne, h.marked⟩, ?_, h.idle⟩
    rw [← Bool.not_eq_true]
    intro hin
    rcases Map.contains_insert_iff.mp hin with heq' | hold
    · exact hne heq'
    · rw [h.apart] at hold
      cases hold

theorem Stranded.erase (h : d.Stranded id) (other : Id) (away : Finset Id) :
    ({ d with peers := d.peers.erase other, turnedAway := away } : Dialer Id Sock).Stranded id := by
  refine ⟨h.marked, ?_, h.idle⟩
  rw [← Bool.not_eq_true]
  intro hin
  have hold := (Map.contains_erase_iff.mp hin).2
  rw [h.apart] at hold
  cases hold

theorem Stranded.redial (h : d.Stranded id) (random : Nat) (other : Id) :
    (d.redial random other).Stranded id := by
  unfold Dialer.redial
  split
  · split
    · exact h.scheduleRedial random other
    · refine Stranded.dial ?_ other
      exact ⟨h.marked, h.apart, h.idle⟩
  · exact h

theorem Stranded.step (h : d.Stranded id) {act : Act Id Sock} (hok : NotLetIn id d act)
    (hstep : d.step act = some d') : d'.Stranded id := by
  cases act with
  | authed other connId =>
      obtain rfl := Option.some.inj hstep
      exact h.onAuthed hok connId false
  | dialed i connId =>
      obtain ⟨entry, hi, rfl⟩ := step_dialed hstep
      refine Stranded.onAuthed (d := { d with dials := d.dials.eraseIdx i }) ?_
        (hok entry hi) connId true
      exact ⟨h.marked, h.apart, fun e he => h.idle e (List.mem_of_mem_eraseIdx he)⟩
  | dialFailed i random =>
      obtain ⟨entry, hi, rfl⟩ := step_dialFailed hstep
      refine Stranded.scheduleRedial ?_ random _
      have hne := h.idle entry (List.mem_of_getElem? hi)
      exact ⟨Finset.mem_erase.mpr ⟨Ne.symm hne, h.marked⟩, h.apart,
        fun e he => h.idle e (List.mem_of_mem_eraseIdx he)⟩
  | retryDial i =>
      obtain ⟨entry, -, rfl⟩ := step_retryDial hstep
      refine Stranded.dial ?_ entry.1
      exact ⟨h.marked, h.apart, h.idle⟩
  | gone other connId random =>
      obtain rfl := Option.some.inj hstep
      unfold onPeerGone
      split
      · exact h
      · exact (h.erase other d.turnedAway).redial random other
  | violated other =>
      obtain rfl := Option.some.inj hstep
      exact h.erase other _
  | seen other addr =>
      obtain rfl := Option.some.inj hstep
      unfold Dialer.onSeen
      split
      · exact h
      · have hnew : ({ d with
            knownMembers := d.knownMembers.insert other (some addr)
            members := d.members.insert other addr } : Dialer Id Sock).Stranded id :=
          ⟨h.marked, h.apart, h.idle⟩
        dsimp only
        split
        · exact hnew
        · exact hnew.dial other
  | neighborUp other =>
      obtain rfl := Option.some.inj hstep
      unfold onNeighborUp
      split
      · exact h.dial other
      · exact h

/-- As many nodes as there is room for dial the daemon. -/
def crowd : List (Act Nat Unit) := (List.range maxPeers).map fun k => .authed (k + 10) k

/-- The waits before the redials of a member, one after the other. -/
def wait (k : Nat) : Nat := min (redialBackoffMin * 2 ^ k) redialBackoffMax

theorem wait_succ (k : Nat) : wait (k + 1) = min (wait k * 2) redialBackoffMax := by
  have hpow : 2 ^ (k + 1) = 2 ^ k * 2 := pow_succ 2 k
  have hmin : redialBackoffMin = 1000 := rfl
  have hmax : redialBackoffMax = 60000 := rfl
  unfold wait
  rw [hpow, hmin, hmax]
  omega

/-- The waits for a member since it was last connected. -/
def waitsFor (d : Dialer Id Sock) (id : Id) : List Nat :=
  (d.waits.filter fun w => w.1 = id).map Prod.snd

structure Paced (d : Dialer Id Sock) : Prop where
  waited : ∀ (id : Id), ∃ n, d.waitsFor id = (List.range n).map wait ∧ d.nextWait id = wait n
  slept : ∀ e ∈ d.timers, ∃ k, wait k ≤ e.2 ∧ e.2 < wait k + 250

theorem nextWait_of_none (h : d.backoff[id]? = none) : d.nextWait id = wait 0 := by
  unfold nextWait
  rw [h]
  rfl

theorem Paced.dial (h : d.Paced) (id : Id) : (d.dial id).Paced := by
  rcases dial_cases d id with ⟨heq, -⟩ | ⟨addr, -, -, -, -, heq⟩
  · rw [heq]
    exact h
  · rw [heq]
    exact ⟨h.waited, h.slept⟩

theorem Paced.scheduleRedial (h : d.Paced) (random : Nat) (id : Id) :
    (d.scheduleRedial random id).Paced := by
  rcases scheduleRedial_cases d random id with ⟨heq, -⟩ | ⟨-, heq⟩
  · rw [heq]
    exact h
  · rw [heq]
    refine ⟨fun other => ?_, fun e he => ?_⟩
    · obtain ⟨n, hwaits, hnext⟩ := h.waited other
      unfold waitsFor at hwaits ⊢
      dsimp only
      rw [List.filter_append, List.map_append, hwaits]
      by_cases hother : id = other
      · subst hother
        refine ⟨n + 1, ?_, ?_⟩
        · rw [List.range_succ, List.map_append, hnext]
          simp
        · unfold nextWait at hnext ⊢
          dsimp only
          rw [Map.get_insert_self, wait_succ, ← hnext]
      · refine ⟨n, by simp [hother], ?_⟩
        unfold nextWait at hnext ⊢
        dsimp only
        rw [Map.get_insert_ne _ _ hother]
        exact hnext
    · rcases List.mem_append.mp he with he | he
      · exact h.slept e he
      · obtain ⟨n, -, hnext⟩ := h.waited id
        rw [List.mem_singleton.mp he]
        refine ⟨n, ?_, ?_⟩
        · dsimp only
          omega
        · have hjitter : random % 250 < 250 := Nat.mod_lt _ (by omega)
          dsimp only
          omega

theorem Paced.join (h : d.Paced) (id : Id) (peer : Peer) : (d.join id peer).Paced := by
  refine ⟨fun other => ?_, h.slept⟩
  by_cases hother : id = other
  · subst hother
    refine ⟨0, ?_, nextWait_of_none (Map.get_erase_self _ _)⟩
    unfold waitsFor Dialer.join
    simp [List.filter_filter]
  · obtain ⟨n, hwaits, hnext⟩ := h.waited other
    refine ⟨n, ?_, ?_⟩
    · rw [← hwaits]
      unfold waitsFor Dialer.join
      dsimp only
      rw [List.filter_filter]
      congr 1
      refine List.filter_congr fun w _ => ?_
      by_cases hw : w.1 = other
      · simp [hw, Ne.symm hother]
      · simp [hw]
    · rw [← hnext]
      unfold nextWait Dialer.join
      dsimp only
      rw [Map.get_erase_ne _ hother]

theorem Paced.onAuthed (h : d.Paced) (id : Id) (connId : Nat) (byMe : Bool) :
    (d.onAuthed id connId byMe).Paced := by
  rcases onAuthed_cases d id connId byMe with ⟨heq, -⟩ | ⟨-, heq⟩ | ⟨-, heq⟩
  · rw [heq]
    exact h
  · rw [heq]
    exact ⟨h.waited, h.slept⟩
  · rw [heq]
    exact h.join id _

theorem Paced.step (h : d.Paced) {act : Act Id Sock} (hstep : d.step act = some d') : d'.Paced := by
  cases act with
  | authed id connId =>
      obtain rfl := Option.some.inj hstep
      exact h.onAuthed id connId false
  | dialed i connId =>
      obtain ⟨entry, -, rfl⟩ := step_dialed hstep
      refine Paced.onAuthed ?_ _ connId true
      exact ⟨h.waited, h.slept⟩
  | dialFailed i random =>
      obtain ⟨entry, -, rfl⟩ := step_dialFailed hstep
      refine Paced.scheduleRedial ?_ random _
      exact ⟨h.waited, h.slept⟩
  | retryDial i =>
      obtain ⟨entry, -, rfl⟩ := step_retryDial hstep
      refine Paced.dial ?_ _
      exact ⟨h.waited, fun e he => h.slept e (List.mem_of_mem_eraseIdx he)⟩
  | gone id connId random =>
      obtain rfl := Option.some.inj hstep
      unfold onPeerGone Dialer.redial
      split
      · exact h
      · split
        · split
          · refine Paced.scheduleRedial ?_ random id
            exact ⟨h.waited, h.slept⟩
          · refine Paced.dial ?_ id
            exact ⟨h.waited, h.slept⟩
        · exact ⟨h.waited, h.slept⟩
  | violated id =>
      obtain rfl := Option.some.inj hstep
      exact ⟨h.waited, h.slept⟩
  | seen id addr =>
      obtain rfl := Option.some.inj hstep
      unfold Dialer.onSeen
      split
      · exact h
      · have hnew : ({ d with
            knownMembers := d.knownMembers.insert id (some addr)
            members := d.members.insert id addr } : Dialer Id Sock).Paced := ⟨h.waited, h.slept⟩
        dsimp only
        split
        · exact hnew
        · exact hnew.dial id
  | neighborUp id =>
      obtain rfl := Option.some.inj hstep
      unfold onNeighborUp
      split
      · exact h.dial id
      · exact h

theorem paced_start : (start me known : Dialer Id Sock).Paced := by
  refine List.foldlRecOn _ _ ⟨fun id => ⟨0, rfl, nextWait_of_none ?_⟩, fun e he => (by cases he)⟩
    fun _ h id _ => h.dial id
  simp [load]

/-- **The waits double up to a minute**: the waits that were set for a member since it was last
connected are 1, 2, 4, ..., 32, 60, 60, ... seconds; at most one redial is set for a member at a
time, and each sleeps one of these waits and less than a quarter of a second more. -/
theorem waits_double (hrun : Reaches Dialer.step anyStep (start me known) d) :
    (∀ (id : Id), ∃ n, d.waitsFor id = (List.range n).map wait) ∧
      (d.timers.map Prod.fst).Nodup ∧
      ∀ e ∈ d.timers, ∃ k, wait k ≤ e.2 ∧ e.2 < wait k + 250 := by
  have hpaced : d.Paced :=
    hrun.invariant paced_start fun _ _ _ h _ hstep => h.step hstep
  refine ⟨fun id => ?_, (Inv.of_reaches hrun).single, hpaced.slept⟩
  obtain ⟨n, hwaits, -⟩ := hpaced.waited id
  exact ⟨n, hwaits⟩

theorem waits_double_comesAndGoes : ∃ d : Dialer Nat Unit, d.timers.length = 1 ∧
    ∀ e ∈ d.timers, ∃ k, wait k ≤ e.2 ∧ e.2 < wait k + 250 := by
  have hrun : (execute Dialer.step comesAndGoes (start 1 oneMember)).any (fun d =>
      d.timers.length == 1) = true := by decide +kernel
  obtain ⟨d, hreach, hd⟩ := exists_reaches_of_execute anyStep (fun _ _ _ => trivial) hrun
  exact ⟨d, beq_iff_eq.mp hd, (waits_double hreach).2.2⟩

end Dialer

end Tazamun
