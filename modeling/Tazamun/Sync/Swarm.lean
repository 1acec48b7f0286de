import Tazamun.Lib.Run
import Tazamun.Sync.Transfer
import Mathlib.Algebra.BigOperators.Group.Finset.Basic
import Mathlib.Algebra.Order.BigOperators.Group.Finset

set_option autoImplicit false

/-! # The swarm gets every missing chunk once

The fetch loop of `pull_stage` keeps up to `FETCH_CONCURRENCY` fetches in flight over the
connections of the swarm. A hash whose fetch failed goes back to the queue, a few times at
most; a connection whose fetches failed three times is retired.

`Pull` is the loop round by round, with observers of what was fetched and what failed: a round
fills the pipeline and waits for one completion. Every hash is in the queue, in flight or
fetched (`Pull.Inv.accounted`), and each failure is charged to its hash and to its connection.
A pull therefore ends after at most six rounds for each missing hash, and it ends without an
error only when each was fetched (`fetchLoop_correct`).
-/

namespace Tazamun.Transfer

open Lib (Reaches anyStep execute)

variable {hash : Bytes → Nat}

/-! ## The next live connection -/

/-- The slot has a connection. -/
def Live {κ : Type} (conns : List (Option κ)) (ci : Nat) : Prop :=
  ∃ c, conns[ci]? = some (some c)

theorem nextLiveFrom_live {κ : Type} {conns : List (Option κ)} {fuel rr ci : Nat}
    (h : (nextLiveFrom conns fuel rr).1 = some ci) : Live conns ci := by
  induction fuel generalizing rr with
  | zero => cases h
  | succ fuel ih =>
      simp only [nextLiveFrom] at h
      split at h
      · rename_i c hc
        cases h
        exact ⟨c, hc⟩
      · exact ih h

/-- The cursor advances by one for each slot that is looked at. -/
theorem nextLiveFrom_cursor {κ : Type} (conns : List (Option κ)) (fuel rr : Nat) :
    (nextLiveFrom conns fuel rr).2 ≤ rr + fuel := by
  induction fuel generalizing rr with
  | zero => exact le_refl _
  | succ fuel ih =>
      have hnext : (rr + 1) % 2 ^ 64 ≤ rr + 1 := Nat.mod_le _ _
      simp only [nextLiveFrom]
      split
      · show (rr + 1) % 2 ^ 64 ≤ rr + (fuel + 1)
        omega
      · have hrest := ih ((rr + 1) % 2 ^ 64)
        omega

/-- As long as the cursor does not wrap around, consecutive slots are looked at. -/
theorem nextLiveFrom_none {κ : Type} {conns : List (Option κ)} {fuel rr : Nat}
    (h : (nextLiveFrom conns fuel rr).1 = none) (hwrap : rr + fuel ≤ 2 ^ 64) :
    ∀ k, k < fuel → ¬ Live conns ((rr + k) % conns.length) := by
  induction fuel generalizing rr with
  | zero =>
      intro k hk
      omega
  | succ fuel ih =>
      simp only [nextLiveFrom] at h
      split at h
      · cases h
      · rename_i hdead
        intro k hk
        cases k with
        | zero =>
            rintro ⟨c, hc⟩
            exact hdead c hc
        | succ k =>
            -- there is a further slot to look at, so the cursor has not wrapped
            have hnext : (rr + 1) % 2 ^ 64 = rr + 1 := Nat.mod_eq_of_lt (by omega)
            rw [hnext] at h
            have hrest := ih h (by omega) k (by omega)
            have hsum : rr + (k + 1) = rr + 1 + k := by omega
            rwa [hsum]

/-- Any slot is among as many consecutive ones as there are slots. -/
theorem exists_add_mod {n : Nat} (rr : Nat) {i : Nat} (hi : i < n) :
    ∃ k, k < n ∧ (rr + k) % n = i := by
  have hr : rr % n < n := Nat.mod_lt _ (by omega)
  have hsum : rr % n + (i + n - rr % n) = i + n := by omega
  refine ⟨(i + n - rr % n) % n, Nat.mod_lt _ (by omega), ?_⟩
  rw [Nat.add_mod_mod, ← Nat.mod_add_mod, hsum, Nat.add_mod_right, Nat.mod_eq_of_lt hi]

/-- **A live slot is found when there is one**, as long as the cursor does not wrap around. -/
theorem nextLiveConn_isSome {κ : Type} {conns : List (Option κ)} {ci : Nat}
    (hlive : Live conns ci) {rr : Nat} (hwrap : rr + conns.length ≤ 2 ^ 64) :
    ∃ i, (nextLiveConn conns rr).1 = some i ∧ Live conns i := by
  cases hnext : (nextLiveConn conns rr).1 with
  | some i => exact ⟨i, rfl, nextLiveFrom_live hnext⟩
  | none =>
      obtain ⟨c, hc⟩ := hlive
      have hci : ci < conns.length := (List.getElem?_eq_some_iff.mp hc).1
      obtain ⟨k, hk, hslot⟩ := exists_add_mod rr hci
      have hdead := nextLiveFrom_none hnext hwrap k hk
      rw [hslot] at hdead
      exact absurd ⟨c, hc⟩ hdead

/-! ## Filling the pipeline -/

namespace Swarm

/-- What filling does: fetches are started for the hashes at the head of the queue, over live
connections, and the pipeline does not overflow. -/
structure Fills (conns : List (Option Nat)) (queue : List Nat) (inflight : List (Nat × Nat))
    (rr : Nat) (out : List Nat × List (Nat × Nat) × Nat) (started : List (Nat × Nat)) : Prop where
  pipeline : out.2.1 = inflight ++ started
  taken : queue = started.map Prod.fst ++ out.1
  live : ∀ e ∈ started, Live conns e.2
  room : inflight.length ≤ fetchConcurrency → out.2.1.length ≤ fetchConcurrency
  /-- Filling only stops for a reason. -/
  stops : out.1 = [] ∨ fetchConcurrency ≤ out.2.1.length ∨
    ∃ rr', (nextLiveConn conns rr').1 = none ∧ rr' ≤ rr + conns.length * started.length
  cursor : out.2.2 ≤ rr + conns.length * started.length ∨
    ∃ rr', (nextLiveConn conns rr').1 = none ∧ rr' ≤ rr + conns.length * started.length

theorem fill_fills (conns : List (Option Nat)) (queue : List Nat) (inflight : List (Nat × Nat))
    (rr : Nat) : ∃ started, Fills conns queue inflight rr (fill conns queue inflight rr) started := by
  induction queue generalizing inflight rr with
  | nil =>
      refine ⟨[], ⟨?_, rfl, ?_, ?_, .inl rfl, .inl ?_⟩⟩
      · simp [fill]
      · simp
      · exact id
      · simp [fill]
  | cons h queue ih =>
      rw [fill]
      by_cases hroom : inflight.length < fetchConcurrency
      · rw [if_pos hroom]
        have hcursor : (nextLiveConn conns rr).2 ≤ rr + conns.length :=
          nextLiveFrom_cursor conns conns.length rr
        rcases hnext : nextLiveConn conns rr with ⟨ci | _, rr'⟩
        · refine ⟨[], ⟨by simp, by simp, by simp, id, .inr (.inr ⟨rr, ?_, by simp⟩),
            .inr ⟨rr, ?_, by simp⟩⟩⟩
          · rw [hnext]
          · rw [hnext]
        · rename_i ci
          rw [hnext] at hcursor
          obtain ⟨started, hf⟩ := ih (inflight ++ [(h, ci)]) rr'
          have hlen : rr' + conns.length * started.length ≤
              rr + conns.length * ((h, ci) :: started).length := by
            rw [List.length_cons, Nat.mul_succ]
            simp only at hcursor
            omega
          refine ⟨(h, ci) :: started, ⟨?_, ?_, ?_, ?_, ?_, ?_⟩⟩
          · rw [hf.pipeline, List.append_assoc]
            rfl
          · rw [List.map_cons, List.cons_append, ← hf.taken]
          · intro e he
            rcases List.mem_cons.mp he with rfl | he
            · have hsome : (nextLiveFrom conns conns.length rr).1 = some ci :=
                congrArg Prod.fst hnext
              exact nextLiveFrom_live hsome
            · exact hf.live e he
          · intro _
            refine hf.room ?_
            rw [List.length_append, List.length_singleton]
            omega
          · rcases hf.stops with hs | hs | ⟨r, hr, hle⟩
            · exact .inl hs
            · exact .inr (.inl hs)
            · exact .inr (.inr ⟨r, hr, hle.trans hlen⟩)
          · rcases hf.cursor with hc | ⟨r, hr, hle⟩
            · exact .inl (hc.trans hlen)
            · exact .inr ⟨r, hr, hle.trans hlen⟩
      · rw [if_neg hroom]
        refine ⟨[], ⟨by simp, by simp, by simp, id, .inr (.inl (not_lt.mp hroom)), .inl ?_⟩⟩
        simp

/-! ## Charging a failure to its connection -/

theorem blame_frame (w : Swarm hash) (ci : Nat) :
    (w.blame ci).queue = w.queue ∧ (w.blame ci).inflight = w.inflight ∧
      (w.blame ci).attempts = w.attempts ∧ (w.blame ci).rr = w.rr ∧
      (w.blame ci).store = w.store := by
  unfold blame
  split
  · exact ⟨rfl, rfl, rfl, rfl, rfl⟩
  · dsimp only
    split
    · exact ⟨rfl, rfl, rfl, rfl, rfl⟩
    · exact ⟨rfl, rfl, rfl, rfl, rfl⟩

/-- The connection gets one more mark, the others keep theirs. -/
theorem blame_connFails (w : Swarm hash) (ci i : Nat) :
    (w.blame ci).connFails[i]? =
      if ci = i then (w.connFails[i]?).map (· + 1) else w.connFails[i]? := by
  unfold blame
  split
  · rename_i hnone
    split
    · rename_i heq
      rw [← heq, hnone]
      rfl
    · rfl
  · rename_i f hf
    have hset : (w.connFails.set ci (f + 1))[i]? =
        if ci = i then (w.connFails[i]?).map (· + 1) else w.connFails[i]? := by
      by_cases heq : ci = i
      · subst heq
        have hlt : ci < w.connFails.length := (List.getElem?_eq_some_iff.mp hf).1
        rw [if_pos rfl, List.getElem?_set_self hlt, hf]
        rfl
      · rw [if_neg heq, List.getElem?_set_ne heq]
    dsimp only
    split
    · exact hset
    · exact hset

theorem blame_slots (w : Swarm hash) (ci : Nat) :
    (w.blame ci).conns.length = w.conns.length ∧
      (w.blame ci).connFails.length = w.connFails.length := by
  unfold blame
  split
  · exact ⟨rfl, rfl⟩
  · dsimp only
    split
    · exact ⟨List.length_set, List.length_set⟩
    · exact ⟨rfl, List.length_set⟩

/-- No connection comes back. -/
theorem live_of_blame (w : Swarm hash) {ci i : Nat} (h : Live (w.blame ci).conns i) :
    Live w.conns i := by
  unfold blame at h
  split at h
  · exact h
  · dsimp only at h
    split at h
    · obtain ⟨c, hc⟩ := h
      by_cases heq : ci = i
      · subst heq
        rw [List.getElem?_set] at hc
        split at hc
        · split at hc
          · cases hc
          · cases hc
        · exact ⟨c, hc⟩
      · rw [List.getElem?_set_ne heq] at hc
        exact ⟨c, hc⟩
    · exact h

/-- At the third mark the connection is retired. -/
theorem not_live_blame {w : Swarm hash} {ci f : Nat} (hf : w.connFails[ci]? = some f)
    (hthree : 3 ≤ f + 1) : ¬ Live (w.blame ci).conns ci := by
  rintro ⟨c, hc⟩
  simp only [blame, hf, if_pos hthree] at hc
  rw [List.getElem?_set] at hc
  split at hc
  · split at hc
    · cases hc
    · cases hc
  · rename_i hne
    exact absurd rfl hne

end Swarm

/-! ## Round by round -/

/-- The fetch loop with observers: the hashes that were fetched, and the fetches that failed,
each with its hash and its slot. -/
structure Pull (hash : Bytes → Nat) where
  swarm : Swarm hash
  done : List Nat
  failed : List (Nat × Nat)

/-- The fetch of `h` succeeds. -/
def succeeds (answer : Option (Fetch hash)) (h : Nat) : Bool :=
  match answer with
  | none => false
  | some fetch =>
      match fetch h with
      | .ok _ => true
      | .error _ => false

namespace Pull

/-- `pull_stage` before the loop. -/
def start (s : BlobStore hash) (queue : List Nat) (conns : List (Option Nat)) : Pull hash :=
  { swarm :=
      { queue, attempts := ∅, conns, connFails := List.replicate conns.length 0
        inflight := [], rr := 0, store := s }
    done := []
    failed := [] }

/-- The fetches that a round starts. -/
def started (p : Pull hash) : List (Nat × Nat) :=
  p.swarm.filled.inflight.drop p.swarm.inflight.length

/-- One round that does not end the loop: the pipeline is filled, and a fetch completes. -/
def step (p : Pull hash) (j : Joined hash) : Option (Pull hash) :=
  match p.swarm.filled.inflight[j.index]? with
  | none => none
  | some (h, ci) =>
      match { p.swarm.filled with
          inflight := p.swarm.filled.inflight.eraseIdx j.index }.joined h ci j.answer with
      | .error _ => none
      | .ok w =>
          if succeeds j.answer h then some { p with swarm := w, done := p.done ++ [h] }
          else some { p with swarm := w, failed := p.failed ++ [(h, ci)] }

/-- What a round does: a hash is fetched, or it goes back to the queue and the failure is
charged to the hash and to the connection. -/
theorem step_cases {p p' : Pull hash} {j : Joined hash} (hs : p.step j = some p') :
    ∃ h ci, p.swarm.filled.inflight[j.index]? = some (h, ci) ∧
      ((∃ store, p' = { p with
          swarm := { p.swarm.filled with
            inflight := p.swarm.filled.inflight.eraseIdx j.index, store }
          done := p.done ++ [h] }) ∨
      ((p.swarm.attempts[h]?).getD 0 + 1 ≤ maxChunkRetries ∧
        ∃ w : Swarm hash, w = Swarm.blame { p.swarm.filled with
            inflight := p.swarm.filled.inflight.eraseIdx j.index
            attempts := p.swarm.attempts.insert h ((p.swarm.attempts[h]?).getD 0 + 1) } ci ∧
          p' = { p with
            swarm := { w with queue := w.queue ++ [h] }
            failed := p.failed ++ [(h, ci)] })) := by
  unfold step at hs
  split at hs
  · cases hs
  · rename_i h ci hat
    refine ⟨h, ci, hat, ?_⟩
    split at hs
    · cases hs
    · rename_i w hw
      unfold Swarm.joined at hw
      cases hanswer : j.answer with
      | none =>
          rw [hanswer] at hw
          cases hw
      | some fetch =>
          rw [hanswer] at hw hs
          simp only at hw
          cases hfetch : fetch h with
          | ok b =>
              simp only [hfetch] at hw
              cases hw
              simp only [succeeds, hfetch, if_true] at hs
              cases hs
              exact .inl ⟨_, rfl⟩
          | error e =>
              simp only [hfetch] at hw
              split at hw
              · cases hw
              · rename_i hretry
                cases hw
                simp only [succeeds, hfetch, Bool.false_eq_true, if_false] at hs
                cases hs
                exact .inr ⟨not_lt.mp hretry, _, rfl, rfl⟩

/-- How a round of the loop goes on: `fetchLoop` is `step` after `step`. -/
theorem fetchLoop_cons {p : Pull hash} {j : Joined hash} {joins : List (Joined hash)}
    {s : BlobStore hash} (heq : fetchLoop (j :: joins) p.swarm = some (.ok s)) :
    (p.swarm.filled.inflight = [] ∧ p.swarm.filled.finish = .ok s) ∨
      ∃ p', p.step j = some p' ∧ fetchLoop joins p'.swarm = some (.ok s) := by
  rw [fetchLoop] at heq
  split at heq
  · rename_i hidle
    exact .inl ⟨hidle, Option.some.inj heq⟩
  · split at heq
    · cases heq
    · rename_i h ci hat
      simp only at heq
      split at heq
      · cases heq
      · rename_i w hw
        refine .inr ?_
        unfold step
        simp only [hat, hw]
        split
        · exact ⟨_, rfl, heq⟩
        · exact ⟨_, rfl, heq⟩

/-! ## What holds after every round -/

/-- Every hash is fetched, in flight or in the queue, and each failure is charged. -/
structure Inv (queue : List Nat) (p : Pull hash) : Prop where
  accounted : (p.done ++ (p.swarm.inflight.map Prod.fst ++ p.swarm.queue)).Perm queue
  room : p.swarm.inflight.length ≤ fetchConcurrency
  attempts : ∀ h, (p.swarm.attempts[h]?).getD 0 = (p.failed.map Prod.fst).count h
  retries : ∀ h, (p.failed.map Prod.fst).count h ≤ maxChunkRetries
  wanted : ∀ h ∈ p.failed.map Prod.fst, h ∈ queue
  slots : p.swarm.connFails.length = p.swarm.conns.length
  marks : ∀ ci f, p.swarm.connFails[ci]? = some f → f = (p.failed.map Prod.snd).count ci
  retired : ∀ ci f, p.swarm.connFails[ci]? = some f → 3 ≤ f → ¬ Live p.swarm.conns ci

theorem Inv.start (s : BlobStore hash) (queue : List Nat) (conns : List (Option Nat)) :
    Inv queue (start s queue conns) where
  accounted := by simp [Pull.start]
  room := Nat.zero_le _
  attempts := fun h => by simp [Pull.start]
  retries := fun h => by simp [Pull.start]
  wanted := fun h hh => by simp [Pull.start] at hh
  slots := by simp [Pull.start]
  marks := fun ci f hf => by
    have hzero : f = 0 := List.eq_of_mem_replicate (List.mem_of_getElem? hf)
    rw [hzero]
    rfl
  retired := fun ci f hf hthree => by
    have hzero : f = 0 := List.eq_of_mem_replicate (List.mem_of_getElem? hf)
    omega

/-- What filling does in a round. -/
theorem fills (p : Pull hash) :
    Swarm.Fills p.swarm.conns p.swarm.queue p.swarm.inflight p.swarm.rr
      (p.swarm.filled.queue, p.swarm.filled.inflight, p.swarm.filled.rr) p.started := by
  obtain ⟨started, hf⟩ := Swarm.fill_fills p.swarm.conns p.swarm.queue p.swarm.inflight p.swarm.rr
  have hstarted : p.started = started := by
    have hpipe : p.swarm.filled.inflight = p.swarm.inflight ++ started := hf.pipeline
    rw [Pull.started, hpipe, List.drop_left]
  rw [hstarted]
  exact hf

variable {queue : List Nat} {p : Pull hash}

/-- The accounts after filling. -/
theorem Inv.filled_accounted (hi : Inv queue p) :
    (p.done ++ (p.swarm.filled.inflight.map Prod.fst ++ p.swarm.filled.queue)).Perm queue := by
  have hpipe : p.swarm.filled.inflight = p.swarm.inflight ++ p.started := p.fills.pipeline
  have htaken : p.swarm.queue = p.started.map Prod.fst ++ p.swarm.filled.queue := p.fills.taken
  have hold := hi.accounted
  rw [htaken, ← List.append_assoc (p.swarm.inflight.map Prod.fst), ← List.map_append,
    ← hpipe] at hold
  exact hold

/-- Taking out a fetch that completes. -/
theorem erase_perm {l : List (Nat × Nat)} {i h ci : Nat} (hat : l[i]? = some (h, ci)) :
    (h :: (l.eraseIdx i).map Prod.fst).Perm (l.map Prod.fst) := by
  obtain ⟨hi, hget⟩ := List.getElem?_eq_some_iff.mp hat
  have hperm := (List.getElem_cons_eraseIdx_perm hi).map Prod.fst
  rw [hget] at hperm
  exact hperm

theorem Inv.mem_of_flying (hi : Inv queue p) {i h ci : Nat}
    (hat : p.swarm.filled.inflight[i]? = some (h, ci)) : h ∈ queue := by
  refine hi.filled_accounted.mem_iff.mp ?_
  refine List.mem_append.mpr (.inr (List.mem_append.mpr (.inl ?_)))
  exact List.mem_map.mpr ⟨(h, ci), List.mem_of_getElem? hat, rfl⟩

theorem Inv.filled_room (hi : Inv queue p) :
    p.swarm.filled.inflight.length ≤ fetchConcurrency := p.fills.room hi.room

/-- **Every round keeps the accounts.** -/
theorem Inv.step (hi : Inv queue p) {p' : Pull hash} {j : Joined hash}
    (hs : p.step j = some p') : Inv queue p' := by
  obtain ⟨h, ci, hat, ⟨store, rfl⟩ | ⟨hretry, w, rfl, rfl⟩⟩ := step_cases hs
  · have htaken := erase_perm hat
    have hroom : (p.swarm.filled.inflight.eraseIdx j.index).length ≤ fetchConcurrency :=
      (List.length_eraseIdx_le _ _).trans hi.filled_room
    refine ⟨?_, hroom, hi.attempts, hi.retries, hi.wanted, hi.slots, hi.marks, hi.retired⟩
    refine List.Perm.trans ?_ hi.filled_accounted
    show (p.done ++ [h] ++ ((p.swarm.filled.inflight.eraseIdx j.index).map Prod.fst ++
      p.swarm.filled.queue)).Perm _
    rw [List.append_assoc]
    exact (htaken.append_right p.swarm.filled.queue).append_left p.done
  · have htaken := erase_perm hat
    have hroom : (p.swarm.filled.inflight.eraseIdx j.index).length ≤ fetchConcurrency :=
      (List.length_eraseIdx_le _ _).trans hi.filled_room
    set w : Swarm hash := { p.swarm.filled with
      inflight := p.swarm.filled.inflight.eraseIdx j.index
      attempts := p.swarm.attempts.insert h ((p.swarm.attempts[h]?).getD 0 + 1) } with hw
    obtain ⟨hqueue, hinflight, hattempts, -, -⟩ := w.blame_frame ci
    obtain ⟨hconns, hconnFails⟩ := w.blame_slots ci
    refine ⟨?_, ?_, ?_, ?_, ?_, ?_, ?_, ?_⟩
    · refine List.Perm.trans ?_ hi.filled_accounted
      dsimp only
      rw [hqueue, hinflight]
      refine List.Perm.append_left p.done ?_
      have hback : ((p.swarm.filled.inflight.eraseIdx j.index).map Prod.fst ++
          (p.swarm.filled.queue ++ [h])).Perm
          (h :: (p.swarm.filled.inflight.eraseIdx j.index).map Prod.fst ++
            p.swarm.filled.queue) := by
        rw [← List.append_assoc]
        exact List.perm_append_singleton _ _
      exact hback.trans (htaken.append_right p.swarm.filled.queue)
    · dsimp only
      rw [hinflight]
      exact hroom
    · intro k
      dsimp only
      rw [hattempts, List.map_append, List.count_append, ← hi.attempts k, Map.get_insert]
      by_cases hk : h = k
      · subst hk
        simp
      · simp [hk]
    · intro k
      dsimp only
      rw [List.map_append, List.count_append]
      by_cases hk : h = k
      · subst hk
        rw [← hi.attempts h]
        simpa using hretry
      · simpa [hk] using hi.retries k
    · intro k hk
      rw [List.map_append] at hk
      rcases List.mem_append.mp hk with hk | hk
      · exact hi.wanted k hk
      · rw [List.mem_singleton.mp hk]
        exact hi.mem_of_flying hat
    · exact hconnFails.trans (hi.slots.trans hconns.symm)
    · intro i f hf
      have hmarks : (w.blame ci).connFails[i]? = some f := hf
      rw [w.blame_connFails ci i] at hmarks
      dsimp only
      rw [List.map_append, List.count_append]
      by_cases hci : ci = i
      · subst hci
        rw [if_pos rfl] at hmarks
        obtain ⟨f₀, hf₀, rfl⟩ := Option.map_eq_some_iff.mp hmarks
        rw [← hi.marks ci f₀ hf₀]
        simp
      · rw [if_neg hci] at hmarks
        rw [← hi.marks i f hmarks]
        simp [hci]
    · intro i f hf hthree hlive
      have hmarks : (w.blame ci).connFails[i]? = some f := hf
      rw [w.blame_connFails ci i] at hmarks
      by_cases hci : ci = i
      · subst hci
        rw [if_pos rfl] at hmarks
        obtain ⟨f₀, hf₀, rfl⟩ := Option.map_eq_some_iff.mp hmarks
        exact Swarm.not_live_blame hf₀ hthree hlive
      · rw [if_neg hci] at hmarks
        exact hi.retired i f hmarks hthree (w.live_of_blame hlive)

theorem Inv.run (hi : Inv queue p) {p' : Pull hash} (hrun : Reaches Pull.step anyStep p p') :
    Inv queue p' :=
  hrun.invariant hi fun _ _ _ hv _ hs => hv.step hs

/-! ## The end of the loop -/

/-- A list of hashes of the queue with no hash more than `k` times. -/
theorem length_le_of_count {l m : List Nat} {k : Nat} (hmem : ∀ a ∈ l, a ∈ m)
    (hcount : ∀ a, l.count a ≤ k) : l.length ≤ k * m.length := by
  have hsub : l.toFinset ⊆ m.toFinset := fun a ha =>
    List.mem_toFinset.mpr (hmem a (List.mem_toFinset.mp ha))
  calc l.length
      = ∑ a ∈ l.toFinset, l.count a := (List.sum_toFinset_count_eq_length l).symm
    _ ≤ l.toFinset.card • k := Finset.sum_le_card_nsmul _ _ _ fun a _ => hcount a
    _ = k * l.toFinset.card := by rw [smul_eq_mul, mul_comm]
    _ ≤ k * m.length := Nat.mul_le_mul_left k
        ((Finset.card_le_card hsub).trans (List.toFinset_card_le m))

/-- The failures are bounded by the retries. -/
theorem Inv.failed_le (hi : Inv queue p) :
    p.failed.length ≤ maxChunkRetries * queue.length := by
  have hle := length_le_of_count hi.wanted hi.retries
  rwa [List.length_map] at hle

theorem Inv.length_eq (hi : Inv queue p) :
    p.done.length + (p.swarm.inflight.length + p.swarm.queue.length) = queue.length := by
  have hlen := hi.accounted.length_eq
  rwa [List.length_append, List.length_append, List.length_map] at hlen

/-- A round is a fetch that succeeded or failed. -/
theorem rounds_step {p' : Pull hash} {j : Joined hash} (hs : p.step j = some p') :
    p'.done.length + p'.failed.length = p.done.length + p.failed.length + 1 := by
  obtain ⟨h, ci, -, ⟨store, rfl⟩ | ⟨-, w, -, rfl⟩⟩ := step_cases hs
  · simp only [List.length_append, List.length_singleton]
    omega
  · simp only [List.length_append, List.length_singleton]
    omega

/-- Every completion is one of a fetch that is in flight then. -/
def Completes : List (Joined hash) → Pull hash → Prop
  | [], _ => True
  | j :: joins, p =>
      (p.swarm.filled.inflight = [] ∨ j.index < p.swarm.filled.inflight.length) ∧
        ∀ p', p.step j = some p' → Completes joins p'

/-- Without anything in the queue or in flight the loop ends. -/
theorem filled_idle (hqueue : p.swarm.queue = []) (hinflight : p.swarm.inflight = []) :
    p.swarm.filled.inflight = [] := by
  unfold Swarm.filled
  rw [hqueue, Swarm.fill]
  exact hinflight

/-- **The loop ends** when as many fetches have completed as there can be. -/
theorem fetchLoop_isSome (joins : List (Joined hash)) (hi : Inv queue p)
    (hc : Completes joins p)
    (hle : (maxChunkRetries + 1) * queue.length ≤
      p.done.length + p.failed.length + joins.length) :
    (fetchLoop joins p.swarm).isSome = true := by
  induction joins generalizing p with
  | nil =>
      have hfailed := hi.failed_le
      have hlen := hi.length_eq
      rw [Nat.add_mul, one_mul] at hle
      have hqueue : p.swarm.queue = [] := List.eq_nil_of_length_eq_zero (by
        simp only [List.length_nil] at hle
        omega)
      have hinflight : p.swarm.inflight = [] := List.eq_nil_of_length_eq_zero (by
        simp only [List.length_nil] at hle
        omega)
      rw [fetchLoop, if_pos (filled_idle hqueue hinflight)]
      rfl
  | cons j joins ih =>
      obtain ⟨hindex, hrest⟩ := hc
      rw [fetchLoop]
      split
      · rfl
      · rename_i hbusy
        have hlt := hindex.resolve_left hbusy
        rw [List.getElem?_eq_getElem hlt]
        dsimp only
        split
        · rfl
        · rename_i w hw
          obtain ⟨p', hs, rfl⟩ : ∃ p', p.step j = some p' ∧ p'.swarm = w := by
            unfold step
            simp only [List.getElem?_eq_getElem hlt, hw]
            split
            · exact ⟨_, rfl, rfl⟩
            · exact ⟨_, rfl, rfl⟩
          refine ih (hi.step hs) (hrest p' hs) ?_
          have hrounds := rounds_step hs
          rw [List.length_cons] at hle
          omega

/-- A loop that ends without an error has gone through rounds, and then had nothing in flight
and nothing in the queue. -/
theorem exists_of_fetchLoop_ok {joins : List (Joined hash)} {s : BlobStore hash}
    (heq : fetchLoop joins p.swarm = some (.ok s)) :
    ∃ used p', used <+: joins ∧ execute step used p = some p' ∧ p'.swarm.store = s ∧
      p'.swarm.filled.inflight = [] ∧ p'.swarm.filled.queue = [] := by
  have hfinish : ∀ {p : Pull hash}, p.swarm.filled.finish = .ok s →
      p.swarm.store = s ∧ p.swarm.filled.queue = [] := by
    intro p hp
    rw [Swarm.finish] at hp
    split at hp
    · rename_i hempty
      cases hp
      exact ⟨rfl, hempty⟩
    · cases hp
  induction joins generalizing p with
  | nil =>
      rw [fetchLoop] at heq
      split at heq
      · rename_i hidle
        obtain ⟨hstore, hqueue⟩ := hfinish (Option.some.inj heq)
        exact ⟨[], p, List.prefix_refl _, rfl, hstore, hidle, hqueue⟩
      · cases heq
  | cons j joins ih =>
      rcases fetchLoop_cons heq with ⟨hidle, hend⟩ | ⟨p₁, hs, hrest⟩
      · obtain ⟨hstore, hqueue⟩ := hfinish hend
        exact ⟨[], p, List.nil_prefix, rfl, hstore, hidle, hqueue⟩
      · obtain ⟨used, p', hprefix, hexec, hend⟩ := ih hrest
        refine ⟨j :: used, p', ?_, ?_, hend⟩
        · exact List.cons_prefix_cons.mpr ⟨rfl, hprefix⟩
        · simp only [execute, hs]
          exact hexec

/-! ## Retired connections and the cursor -/

/-- The failures of a pull stay on record. -/
theorem failed_grows {p' : Pull hash} (hrun : Reaches step anyStep p p') :
    p.failed <+: p'.failed := by
  refine hrun.invariant (I := fun v => p.failed <+: v.failed) (List.prefix_refl _)
    fun v j v' hv _ hs => ?_
  obtain ⟨h, ci, -, ⟨store, rfl⟩ | ⟨-, w, -, rfl⟩⟩ := step_cases hs
  · exact hv
  · exact hv.trans (List.prefix_append _ _)

/-- A connection with three failures is not live. -/
theorem Inv.not_live (hi : Inv queue p) {ci : Nat}
    (hthree : 3 ≤ (p.failed.map Prod.snd).count ci) : ¬ Live p.swarm.conns ci := by
  intro hlive
  obtain ⟨c, hc⟩ := hlive
  have hlt : ci < p.swarm.connFails.length :=
    hi.slots ▸ (List.getElem?_eq_some_iff.mp hc).1
  have hmark := List.getElem?_eq_getElem hlt
  have hcount := hi.marks ci _ hmark
  exact hi.retired ci _ hmark (hcount ▸ hthree) ⟨c, hc⟩

/-- The cursor counts the slots that were looked at, unless there is no live one any more. -/
def Cursor (p : Pull hash) : Prop :=
  p.swarm.rr ≤ p.swarm.conns.length *
      (p.done.length + p.failed.length + p.swarm.inflight.length) ∨
    ∀ ci, ¬ Live p.swarm.conns ci

/-- The fetches that were ever started. -/
theorem Inv.started_le (hi : Inv queue p) :
    p.done.length + p.failed.length + p.swarm.inflight.length + p.started.length ≤
      (maxChunkRetries + 1) * queue.length := by
  have hfailed := hi.failed_le
  have hlen := hi.length_eq
  have htaken := congrArg List.length p.fills.taken
  rw [List.length_append, List.length_map] at htaken
  rw [Nat.add_mul, one_mul]
  omega

/-- A round keeps the number of slots, and retires at most. -/
theorem step_conns {p' : Pull hash} {j : Joined hash} (hs : p.step j = some p') :
    p'.swarm.conns.length = p.swarm.conns.length ∧
      ∀ ci, Live p'.swarm.conns ci → Live p.swarm.conns ci := by
  obtain ⟨h, ci, -, ⟨store, rfl⟩ | ⟨-, w, rfl, rfl⟩⟩ := step_cases hs
  · exact ⟨rfl, fun _ hlive => hlive⟩
  · refine ⟨(Swarm.blame_slots _ _).1, fun _ hlive => ?_⟩
    have hback := Swarm.live_of_blame _ hlive
    exact hback

/-- What a round leaves of the cursor and of the fetches. -/
theorem step_counts {p' : Pull hash} {j : Joined hash} (hs : p.step j = some p') :
    p'.swarm.rr = p.swarm.filled.rr ∧
      p'.done.length + p'.failed.length + p'.swarm.inflight.length =
        p.done.length + p.failed.length + p.swarm.inflight.length + p.started.length := by
  have hpipe := congrArg List.length p.fills.pipeline
  rw [List.length_append] at hpipe
  dsimp only at hpipe
  obtain ⟨h, ci, hat, hcases⟩ := step_cases hs
  have hlt := (List.getElem?_eq_some_iff.mp hat).1
  have herase := List.length_eraseIdx_of_lt hlt
  rcases hcases with ⟨store, rfl⟩ | ⟨-, w, hw, rfl⟩
  · refine ⟨rfl, ?_⟩
    simp only [List.length_append, List.length_singleton]
    omega
  · obtain ⟨-, hinflight, -, hrr, -⟩ := Swarm.blame_frame { p.swarm.filled with
      inflight := p.swarm.filled.inflight.eraseIdx j.index
      attempts := p.swarm.attempts.insert h ((p.swarm.attempts[h]?).getD 0 + 1) } ci
    rw [← hw] at hinflight hrr
    refine ⟨hrr, ?_⟩
    simp only [List.length_append, List.length_singleton, hinflight]
    omega

/-- The cursor cannot wrap around in a pull of so many hashes over so many connections. -/
def Fits (queue : List Nat) (p : Pull hash) : Prop :=
  p.swarm.conns.length * ((maxChunkRetries + 1) * queue.length) + p.swarm.conns.length ≤ 2 ^ 64

/-- When the cursor says that no connection is live, then none is. -/
theorem Inv.none_live (hi : Inv queue p) (hfits : Fits queue p)
    (hcursor : p.swarm.rr ≤ p.swarm.conns.length *
      (p.done.length + p.failed.length + p.swarm.inflight.length)) {rr : Nat}
    (hnone : (nextLiveConn p.swarm.conns rr).1 = none)
    (hle : rr ≤ p.swarm.rr + p.swarm.conns.length * p.started.length) :
    ∀ ci, ¬ Live p.swarm.conns ci := by
  intro ci hlive
  have hstarted := Nat.mul_le_mul_left p.swarm.conns.length hi.started_le
  rw [Nat.mul_add] at hstarted
  have hwrap : rr + p.swarm.conns.length ≤ 2 ^ 64 := by
    unfold Fits at hfits
    omega
  obtain ⟨i, hsome, -⟩ := nextLiveConn_isSome hlive hwrap
  rw [hnone] at hsome
  cases hsome

theorem Cursor.step {p' : Pull hash} {j : Joined hash} (hc : Cursor p) (hi : Inv queue p)
    (hfits : Fits queue p) (hs : p.step j = some p') : Cursor p' := by
  obtain ⟨hlength, hlive⟩ := step_conns hs
  obtain ⟨hrr, hcount⟩ := step_counts hs
  rcases hc with hcursor | hnone
  · rcases p.fills.cursor with hle | ⟨rr, hnone, hle⟩
    · refine .inl ?_
      rw [hrr, hlength, hcount, Nat.mul_add]
      dsimp only at hle
      omega
    · exact .inr fun ci h => hi.none_live hfits hcursor hnone hle ci (hlive ci h)
  · exact .inr fun ci h => hnone ci (hlive ci h)

/-- **Filling only stops for want of a connection when there is none**: the pipeline is full
or the queue is empty as long as a connection is live. -/
theorem Cursor.filled (hc : Cursor p) (hi : Inv queue p) (hfits : Fits queue p) {ci : Nat}
    (hlive : Live p.swarm.conns ci) :
    p.swarm.filled.queue = [] ∨ p.swarm.filled.inflight.length = fetchConcurrency := by
  rcases p.fills.stops with hempty | hfull | ⟨rr, hnone, hle⟩
  · exact .inl hempty
  · exact .inr (Nat.le_antisymm hi.filled_room hfull)
  · rcases hc with hcursor | hdead
    · exact absurd hlive (hi.none_live hfits hcursor hnone hle ci)
    · exact absurd hlive (hdead ci)

/-! ## The loop as a whole -/

/-- **The fetch loop**, for every store, every list of hashes and every set of connections:

* it ends: when six fetches for each hash have completed, it has returned;
* when it returns without an error, each hash was fetched as often as it is in the list;
* at most `FETCH_CONCURRENCY` fetches are in flight;
* a connection with three failed fetches is not chosen again;
* a slot is chosen when its connection is live, and as long as there is a live one the
  pipeline is filled (up to a number of hashes that is far above the cap of a manifest). -/
theorem fetchLoop_correct (s : BlobStore hash) (queue : List Nat) (conns : List (Option Nat)) :
    (∀ joins, Completes joins (start s queue conns) →
      (maxChunkRetries + 1) * queue.length ≤ joins.length →
      (fetchLoop joins (start s queue conns).swarm).isSome = true) ∧
    (∀ joins s', fetchLoop joins (start s queue conns).swarm = some (.ok s') →
      ∃ used p, used <+: joins ∧ execute step used (start s queue conns) = some p ∧
        p.swarm.store = s' ∧ p.done.Perm queue) ∧
    ∀ p, Reaches step anyStep (start s queue conns) p →
      p.swarm.filled.inflight.length ≤ fetchConcurrency ∧
      (∀ ci, 3 ≤ (p.failed.map Prod.snd).count ci →
        ∀ p', Reaches step anyStep p p' → ∀ e ∈ p'.started, e.2 ≠ ci) ∧
      (∀ e ∈ p.started, Live p.swarm.conns e.2) ∧
      (conns.length * ((maxChunkRetries + 1) * queue.length) + conns.length ≤ 2 ^ 64 →
        (∃ ci, Live p.swarm.conns ci) →
        p.swarm.filled.queue = [] ∨ p.swarm.filled.inflight.length = fetchConcurrency) := by
  have hstart : Inv queue (start s queue conns) := .start s queue conns
  refine ⟨fun joins hc hle => ?_, fun joins s' heq => ?_, fun p hrun => ?_⟩
  · refine fetchLoop_isSome joins hstart hc ?_
    show _ ≤ 0 + 0 + joins.length
    omega
  · obtain ⟨used, p, hprefix, hexec, hstore, hidle, hqueue⟩ := exists_of_fetchLoop_ok heq
    have hrun : Reaches step anyStep (start s queue conns) p :=
      Lib.reaches_of_execute (fun _ _ _ => trivial) hexec
    have haccounted := (hstart.run hrun).filled_accounted
    rw [hidle, hqueue, List.map_nil, List.append_nil, List.append_nil] at haccounted
    exact ⟨used, p, hprefix, hexec, hstore, haccounted⟩
  · have hi : Inv queue p := hstart.run hrun
    refine ⟨hi.filled_room, fun ci hthree p' hlater e he heq => ?_, p.fills.live,
      fun hsize hlive => ?_⟩
    · -- the failures stay on record, so the connection is still retired
      have hcount := ((failed_grows hlater).map Prod.snd).sublist.count_le ci
      have hdead := (hi.run hlater).not_live (hthree.trans hcount)
      exact hdead (heq ▸ p'.fills.live e he)
    · have hkept : Cursor p ∧ p.swarm.conns.length = conns.length := by
        refine (hrun.invariant (I := fun v => Inv queue v ∧ Cursor v ∧
          v.swarm.conns.length = conns.length) ⟨hstart, .inl (Nat.zero_le _), rfl⟩
          fun v j v' hv _ hs => ?_).2
        obtain ⟨hv, hcursor, hlength⟩ := hv
        have hfits : Fits queue v := by
          unfold Fits
          rw [hlength]
          exact hsize
        exact ⟨hv.step hs, hcursor.step hv hfits hs, (step_conns hs).1.trans hlength⟩
      obtain ⟨ci, hci⟩ := hlive
      refine hkept.1.filled hi ?_ hci
      unfold Fits
      rw [hkept.2]
      exact hsize

/-- A fetch that is reset, and one that gets three bytes. -/
def retried : List (Joined List.length) :=
  [{ index := 0, answer := some fun _ => .error "reset" },
    { index := 0, answer := some fun h => .ok ⟨List.replicate h 0, List.length_replicate⟩ }]

/-- The hash is fetched at the second attempt. -/
theorem fetchLoop_correct_retry : ∃ used p, used <+: retried ∧
    execute step used (start .empty [3] [some 0]) = some p ∧ p.done.Perm [3] := by
  have hok : ∃ s, fetchLoop retried (start .empty [3] [some 0]).swarm = some (.ok s) := by
    refine ⟨BlobStore.empty.fetched ⟨List.replicate 3 0, List.length_replicate⟩, ?_⟩
    rfl
  obtain ⟨s, hs⟩ := hok
  obtain ⟨used, p, hprefix, hexec, -, hdone⟩ :=
    (fetchLoop_correct .empty [3] [some 0]).2.1 retried s hs
  exact ⟨used, p, hprefix, hexec, hdone⟩

end Pull

end Tazamun.Transfer
