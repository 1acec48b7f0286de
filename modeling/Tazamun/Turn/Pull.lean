import Tazamun.Turn.Basic

set_option autoImplicit false

/-! # The pull pipeline is made of small changes

Every function of reconciliation and pulls is a chain of small changes. The functions that
are given a record start with it in the hand and end without it: it has been put into a slot,
or applied, or there is an excuse for letting it go. The cycle through the ignore file is
handled as in the model: the functions of the cycle take the re-reading as a parameter, and
need of it that it is a chain of small changes itself.
-/

namespace Tazamun.Actor

variable {Id Path : Type} [LinearOrder Id] [LinearOrder Path]
variable {c : Ctx Id Path} {hand : List (Advert Id Path)}

/-! ## Replies, messages and files -/

theorem reply_steps (a : Actor Id Path) (r : Nat) (resp : IpcResponse) :
    Steps c (hand, a) (hand, a.reply r resp) :=
  .single (.misc ..)

theorem replyTo_steps (a : Actor Id Path) (r : Option Nat) (resp : IpcResponse) :
    Steps c (hand, a) (hand, a.replyTo r resp) := by
  cases r with
  | none => exact .refl
  | some r => exact reply_steps a r resp

theorem send_steps (a : Actor Id Path) (dst : Id) {msg : Msg Id Path}
    (hm : msg.isPlain = true) : Steps c (hand, a) (hand, a.send dst msg) := by
  unfold send
  split
  · exact .single (.send _ (by simpa using hm))
  · exact .refl

theorem broadcast_steps (a : Actor Id Path) {msg : Msg Id Path} (hm : msg.isPlain = true) :
    Steps c (hand, a) (hand, a.broadcast msg) :=
  .single (.send _ (by simp [hm]))

theorem mute_steps (a : Actor Id Path) (rel : Path) :
    Steps c (hand, a) (hand, a.mute c.env rel) :=
  .single (.misc ..)

theorem noteMode_steps (a : Actor Id Path) (rel : Path) (readonly : Bool) :
    Steps c (hand, a) (hand, a.noteMode rel readonly) := by
  unfold noteMode
  split
  · refine .single (.opened _ fun p hp => .inl ?_)
    rw [Std.ExtTreeMap.contains_erase] at hp
    exact (Bool.and_eq_true_iff.mp hp).2
  · exact .refl

theorem setMode_steps (a : Actor Id Path) (rel : Path) (readonly : Bool) :
    Steps c (hand, a) (hand, (a.setMode c.env rel readonly).1) := by
  unfold setMode
  split
  · exact noteMode_steps a rel readonly
  · rename_i f _
    split
    · have hdisk : Steps c (hand, a)
          (hand, { a with disk := a.disk.insert rel { f with readonly } }) := .single (.misc ..)
      exact hdisk.trans (noteMode_steps _ rel readonly)
    · exact .refl

/-- A path that is self-held is opened. -/
theorem openFor_steps {a : Actor Id Path} {rel : Path} (hheld : a.locks.isHeldByMe rel = true) :
    Steps c (hand, a) (hand, a.openFor rel) := by
  refine .single (.opened _ fun p hp => ?_)
  rw [Std.ExtTreeMap.contains_insert] at hp
  rcases Bool.or_eq_true_iff.mp hp with hp | hp
  · rw [compare_eq_iff_eq.mp (beq_iff_eq.mp hp)] at hheld
    exact .inr hheld
  · exact .inl hp

theorem settleMode_steps (a : Actor Id Path) (rel : Path) :
    Steps c (hand, a) (hand, a.settleMode c.env rel) :=
  setMode_steps a rel _

theorem noteReplaced_steps (a : Actor Id Path) (rel : Path) :
    Steps c (hand, a) (hand, a.noteReplaced c.host rel) :=
  .single (.replaced rel)

theorem forget_steps (a : Actor Id Path) (rel : Path) :
    Steps c (hand, a) (hand, a.forget rel) := by
  refine .single (.copies a.conflicts (a.known.erase rel) fun hk q bytes hq => ?_)
  rw [Map.get_erase] at hq
  split at hq
  · cases hq
  · exact hk q bytes hq

/-- What the index or a quarantine copy has may be known. -/
theorem know_steps (a : Actor Id Path) (rel : Path) (bytes : Bytes)
    (hb : (∃ name : CopyName Path, a.conflicts[name]? = some bytes) ∨
      ∃ record : FileRecord Id, a.files[rel]? = some record ∧
        c.Backs record.manifest bytes) :
    Steps c (hand, a) (hand, a.know rel bytes) := by
  refine .single (.copies a.conflicts (a.known.insert rel bytes) fun hk q b hq => ?_)
  rw [Map.get_insert] at hq
  split at hq
  · rename_i h
    cases hq
    rw [← h]
    exact hb
  · exact hk q b hq

/-- Losing a copy is safe: nothing stays known for its sake alone. -/
theorem loseCopy_steps (a : Actor Id Path) (name : CopyName Path) :
    Steps c (hand, a) (hand, a.loseCopy name) := by
  unfold loseCopy
  split
  · exact .refl
  · rename_i bytes hbytes
    refine .single (.copies _ _ fun hk q b hq => ?_)
    obtain ⟨hne, hold⟩ : b ≠ bytes ∧ a.known[q]? = some b := by
      simp only [Std.ExtTreeMap.getElem?_filter'] at hq
      cases hb : a.known[q]? with
      | none => simp [hb] at hq
      | some b' =>
          rw [hb] at hq
          simp only [Option.filter_some, decide_eq_true_eq] at hq
          split at hq
          · rename_i hne
            cases hq
            exact ⟨hne, rfl⟩
          · cases hq
    rcases hk q b hold with ⟨n, hn⟩ | hfile
    · have hnn : name ≠ n := by
        rintro rfl
        rw [hbytes] at hn
        cases hn
        exact hne rfl
      exact .inl ⟨n, by rw [Map.get_erase_ne _ hnn]; exact hn⟩
    · exact .inr hfile

theorem loseCopy_get (a : Actor Id Path) (name : CopyName Path) :
    (a.loseCopy name).conflicts[name]? = none := by
  unfold loseCopy
  split
  · rename_i h
    exact h
  · exact Map.get_erase_self _ _

theorem quarantine_steps (a : Actor Id Path) (rel : Path) :
    Steps c (hand, a) (hand, (a.quarantine c.env rel).1) := by
  unfold quarantine
  split
  · exact .refl
  · rename_i f _
    split
    · refine (loseCopy_steps a (toLex (c.env.nowMs, rel))).trans ?_
      have hget := loseCopy_get a (toLex (c.env.nowMs, rel))
      dsimp only [know]
      generalize a.loseCopy (toLex (c.env.nowMs, rel)) = b at hget ⊢
      refine .single (.copies (b.conflicts.insert (toLex (c.env.nowMs, rel)) f.bytes)
        (b.known.insert rel f.bytes) fun hk q bytes hq => ?_)
      rw [Map.get_insert] at hq
      split at hq
      · cases hq
        exact .inl ⟨_, Map.get_insert_self _ _ _⟩
      · rcases hk q bytes hq with ⟨n, hn⟩ | hfile
        · refine .inl ⟨n, ?_⟩
          rw [Map.get_insert_ne]
          · exact hn
          · rintro rfl
            rw [hget] at hn
            cases hn
        · exact .inr hfile
    · exact .refl

theorem persistTemp_steps (a : Actor Id Path) (rel : Path) (bytes : Bytes) :
    Steps c (hand, a) (hand, (a.persistTemp c.host c.env rel bytes).1) := by
  unfold persistTemp
  split
  · dsimp only
    split
    · refine (setMode_steps a rel false).trans ((noteReplaced_steps _ rel).trans ?_)
      exact .single (.misc ..)
    · exact setMode_steps a rel false
  · exact .refl

theorem removeFile_steps (a : Actor Id Path) (rel : Path) :
    Steps c (hand, a) (hand, (a.removeFile c.host c.env rel).1) := by
  unfold removeFile
  dsimp only
  split
  · exact setMode_steps a rel false
  · split
    · refine (setMode_steps a rel false).trans ((noteReplaced_steps _ rel).trans ?_)
      exact .single (.misc ..)
    · exact setMode_steps a rel false

theorem pushHistory_steps (a : Actor Id Path) (rel : Path) (r : Option (FileRecord Id)) :
    Steps c (hand, a) (hand, a.pushHistory rel r) := by
  unfold pushHistory
  split
  · exact .refl
  · exact .single (.misc ..)

theorem spawn_steps (a : Actor Id Path) {t : Task Id Path} (ht : t.isPull = false) :
    Steps c (hand, a) (hand, a.spawn t) :=
  .single (.spawn t ht)

/-- A loop of chains is a chain. -/
theorem foldl_steps {α : Type} {f : Actor Id Path → α → Actor Id Path}
    (hf : ∀ a x, Steps c (hand, a) (hand, f a x)) (l : List α) (a : Actor Id Path) :
    Steps c (hand, a) (hand, l.foldl f a) := by
  induction l generalizing a with
  | nil => exact .refl
  | cons x l ih => exact (hf a x).trans (ih _)

/-! ## Excuses -/

theorem le_of_isCurrent {a : Actor Id Path} {rel : Path} {record : FileRecord Id}
    (h : a.isCurrent rel record = true) :
    ∃ mine, a.files[rel]? = some mine ∧ VClock.Le record.vv mine.vv := by
  unfold isCurrent at h
  split at h
  · cases h
  · rename_i mine hmine
    refine ⟨mine, hmine, ?_⟩
    split at h
    · rename_i hc
      exact (VClock.compare_eq_equal.mp hc).2
    · rename_i hc
      exact (VClock.compare_eq_after.mp hc).2
    · cases h
    · cases h

theorem isLoss_of_mem_loss {a : Actor Id Path} {rel : Path} {sender : Id}
    {record : FileRecord Id} {e : Effect Id Path} (h : e ∈ a.loss rel sender record) :
    e.isLoss = true := by
  unfold loss at h
  split at h
  · cases h
  · rw [List.mem_singleton.mp h]
    rfl

theorem letGo_steps (a : Actor Id Path) (rel : Path) (sender : Id) (record : FileRecord Id) :
    Steps c (hand, a) (hand, a.letGo rel sender record) :=
  .single (.loss _ fun _ => isLoss_of_mem_loss)

/-- Whoever lets a record go has an excuse afterwards. -/
theorem letGo_excused (a : Actor Id Path) (rel : Path) (sender : Id) (record : FileRecord Id) :
    (a.letGo rel sender record).Excused (rel, sender, record) := by
  cases hcur : a.isCurrent rel record with
  | true => exact .inl (le_of_isCurrent hcur)
  | false =>
      cases hpeer : a.peers.contains sender with
      | false => exact .inr (.inr hpeer)
      | true =>
          refine .inr (.inl (List.mem_append_right _ ?_))
          simp [loss, hcur, hpeer]

theorem displace_steps (a : Actor Id Path) (rel : Path) (old : Option (Id × FileRecord Id))
    (new : FileRecord Id) : Steps c (hand, a) (hand, a.displace rel old new) := by
  refine .single (.loss _ fun e he => ?_)
  split at he
  · cases he
  · split at he
    · cases he
    · cases he
    · exact isLoss_of_mem_loss he
    · exact isLoss_of_mem_loss he

/-- What is displaced is covered by what displaces it, or there is an excuse. -/
theorem displace_excused (a : Actor Id Path) (rel : Path) (sender : Id)
    (record new : FileRecord Id) :
    VClock.Le record.vv new.vv ∨
      (a.displace rel (some (sender, record)) new).Excused (rel, sender, record) := by
  have hgo := letGo_excused a rel sender record
  unfold letGo at hgo
  unfold displace
  dsimp only
  split
  · rename_i hc
    exact .inl (VClock.compare_eq_equal.mp hc).1
  · rename_i hc
    exact .inl (VClock.compare_eq_before.mp hc).1
  · exact .inr hgo
  · exact .inr hgo

theorem Settled.of_excused {a : Actor Id Path} {x : Advert Id Path} (h : a.Excused x) :
    a.Settled hand x :=
  .inl h

theorem Settled.of_covered {a : Actor Id Path} {x y : Advert Id Path} (h : a.Owed hand y)
    (hpath : y.1 = x.1) (hle : VClock.Le x.2.2.vv y.2.2.vv) : a.Settled hand x :=
  .inr (.inl ⟨y, h, hpath, hle⟩)

theorem Settled.of_owed {a : Actor Id Path} {x : Advert Id Path} (h : a.Owed hand x) :
    a.Settled hand x :=
  .of_covered h rfl (VClock.Le.refl _)

/-! ## Moving records

A shift that touches the pipeline only has to say what becomes of the waiting records. -/

theorem shift_of_waits {a : Actor Id Path} {hand' : List (Advert Id Path)}
    {pendingPulls : Map Path (PullJob Id)} {pullBacklog : List (Path × Id × FileRecord Id)}
    {deferred : Map Path (DeferredApply Id)} {tasks : List (Task Id Path)}
    (hstored : ∀ x, x ∈ hand' ∨ ({ a with pendingPulls, pullBacklog, deferred, tasks } :
      Actor Id Path).Waits x → x ∈ hand ∨ a.Waits x)
    (hsettled : ∀ x, x ∈ hand ∨ a.Waits x →
      ({ a with pendingPulls, pullBacklog, deferred, tasks } : Actor Id Path).Settled hand' x)
    (hquiet : c.quietWins → ∀ p, a.locks.isHeldByMe p = true → a.Quiet p →
      ({ a with pendingPulls, pullBacklog, deferred, tasks } : Actor Id Path).Quiet p)
    (hstaged : ∀ (rel : Path) (d : DeferredApply Id) (bytes : Bytes),
      deferred[rel]? = some d → d.staged = some bytes →
      a.deferred[rel]? = some d ∨ c.Backs d.record.manifest bytes)
    (hcap : a.pendingPulls.size ≤ maxConcurrentPulls →
      pendingPulls.size ≤ maxConcurrentPulls) :
    Steps c (hand, a) (hand', { a with pendingPulls, pullBacklog, deferred, tasks }) := by
  refine .single (.shift pendingPulls pullBacklog deferred tasks a.peerIndex a.indexStaging
    a.skipped a.peers ⟨fun _ h => h, fun _ h => h, ?_, ?_, hquiet, hstaged, hcap⟩ .refl)
  · rintro x ((hx | hx | hx) | hx)
    · exact (hstored x (.inl hx)).elim (.inl ∘ .inl) (.inl ∘ .inr ∘ .inl)
    · exact (hstored x (.inr hx)).elim (.inl ∘ .inl) (.inl ∘ .inr ∘ .inl)
    · exact .inl (.inr (.inr hx))
    · exact .inr hx
  · rintro x (hx | hx | hx)
    · exact hsettled x (.inl hx)
    · exact hsettled x (.inr hx)
    · exact .of_owed (.inr (.inr hx))

/-- A record that is settled leaves the hand. -/
theorem release_steps {a : Actor Id Path} {x : Advert Id Path} (hx : a.Settled hand x) :
    Steps c (x :: hand, a) (hand, a) := by
  refine shift_of_waits ?_ ?_ (fun _ _ _ h => h) (fun _ _ _ h _ => .inl h) id
  · exact fun y hy => hy.imp_left (List.mem_cons_of_mem _)
  · rintro y (hy | hy)
    · rcases List.mem_cons.mp hy with rfl | hy
      · exact hx
      · exact .of_owed (.inl hy)
    · exact .of_owed (.inr (.inl hy))

/-- A record is let go, out of the hand. -/
theorem abandon_steps (a : Actor Id Path) (rel : Path) (sender : Id) (record : FileRecord Id) :
    Steps c ((rel, sender, record) :: hand, a) (hand, a.letGo rel sender record) :=
  (letGo_steps a rel sender record).trans
    (release_steps (.of_excused (letGo_excused a rel sender record)))

/-! ## Jobs and tasks -/

theorem startPull_eq (a : Actor Id Path) (rel : Path) (sender : Id) (record : FileRecord Id) :
    ∃ pulling, a.startPull rel sender record =
      { a with tasks := a.tasks ++ [.pull rel sender record], pulling } := by
  unfold startPull
  dsimp only
  split
  · exact ⟨a.pulling, rfl⟩
  · exact ⟨_, rfl⟩

/-- The state with a fresh job for `rel` and its task. -/
def begun (a : Actor Id Path) (rel : Path) (sender : Id) (record : FileRecord Id) :
    Actor Id Path :=
  { a with
    pendingPulls := a.pendingPulls.insert rel ⟨sender, record, 0, none⟩
    tasks := a.tasks ++ [.pull rel sender record] }

theorem beginPull_eq (a : Actor Id Path) (rel : Path) (sender : Id) (record : FileRecord Id) :
    ∃ pulling, a.beginPull rel sender record = { a.begun rel sender record with pulling } := by
  unfold beginPull
  obtain ⟨pulling, h⟩ := startPull_eq
    { a with pendingPulls := a.pendingPulls.insert rel ⟨sender, record, 0, none⟩ }
    rel sender record
  exact ⟨pulling, h⟩

theorem waits_begun_self (a : Actor Id Path) (rel : Path) (sender : Id)
    (record : FileRecord Id) : (a.begun rel sender record).Waits (rel, sender, record) :=
  .inl ⟨_, Map.get_insert_self _ _ _, .inl rfl⟩

/-- A fresh job adds nothing but its record. -/
theorem eq_or_waits_of_begun {a : Actor Id Path} {rel : Path} {sender : Id}
    {record : FileRecord Id} {x : Advert Id Path} (h : (a.begun rel sender record).Waits x) :
    x = (rel, sender, record) ∨ a.Waits x := by
  rcases h with ⟨job, hjob, hx⟩ | hx | hx | hx | hx
  · rw [begun, Map.get_insert] at hjob
    split at hjob
    · rename_i hrel
      cases hjob
      rcases hx with hx | hx
      · exact .inl (Prod.ext hrel.symm hx.symm)
      · cases hx
    · exact .inr (.inl ⟨job, hjob, hx⟩)
  · exact .inr (.inr (.inl hx))
  · exact .inr (.inr (.inr (.inl hx)))
  · rcases List.mem_append.mp hx with hx | hx
    · exact .inr (.inr (.inr (.inr (.inl hx))))
    · rw [List.mem_singleton] at hx
      injection hx with h₁ h₂ h₃
      exact .inl (Prod.ext h₁ (Prod.ext h₂ h₃))
  · exact .inr (.inr (.inr (.inr (.inr hx))))

/-- A fresh job takes the place of none. -/
theorem waits_begun {a : Actor Id Path} {rel : Path} {sender : Id} {record : FileRecord Id}
    {x : Advert Id Path} (hnone : a.pendingPulls[rel]? = none) (h : a.Waits x) :
    (a.begun rel sender record).Waits x := by
  rcases h with ⟨job, hjob, hx⟩ | hx | hx | hx | hx
  · refine .inl ⟨job, ?_, hx⟩
    rw [begun, Map.get_insert_ne]
    · exact hjob
    · rintro rfl
      rw [hnone] at hjob
      cases hjob
  · exact .inr (.inl hx)
  · exact .inr (.inr (.inl hx))
  · exact .inr (.inr (.inr (.inl (List.mem_append_left _ hx))))
  · exact .inr (.inr (.inr (.inr hx)))

/-- Another path stays as quiet as it was. -/
theorem quiet_begun {a : Actor Id Path} {rel p : Path} {sender : Id} {record : FileRecord Id}
    (hne : rel ≠ p) (h : a.Quiet p) : (a.begun rel sender record).Quiet p := by
  obtain ⟨hjob, hdef, htask, hin⟩ := h
  refine ⟨by rw [begun, Map.get_insert_ne _ _ hne]; exact hjob, hdef, fun s r hmem => ?_, hin⟩
  rcases List.mem_append.mp hmem with hmem | hmem
  · exact htask s r hmem
  · rw [List.mem_singleton] at hmem
    injection hmem with h₁
    exact hne h₁.symm

/-- A pull is begun with a record from the hand or from the pipeline; `jobs` and `backlog`
are what is left of these before. -/
theorem beginPull_steps {a : Actor Id Path} {hand' : List (Advert Id Path)} {rel : Path}
    {sender : Id} {record : FileRecord Id} (jobs : Map Path (PullJob Id))
    (backlog : List (Path × Id × FileRecord Id)) (hnone : jobs[rel]? = none)
    (hsrc : (rel, sender, record) ∈ hand ∨ a.Waits (rel, sender, record))
    (hstored : ∀ x, x ∈ hand' ∨ ({ a with pendingPulls := jobs, pullBacklog := backlog } :
      Actor Id Path).Waits x → x ∈ hand ∨ a.Waits x)
    (hsettled : ∀ x, x ∈ hand ∨ a.Waits x → x = (rel, sender, record) ∨ a.Excused x ∨
      x ∈ hand' ∨ ({ a with pendingPulls := jobs, pullBacklog := backlog } :
        Actor Id Path).Waits x)
    (hquiet : c.quietWins → ∀ p, a.locks.isHeldByMe p = true → a.Quiet p →
      rel ≠ p ∧ jobs[p]? = none)
    (hroom : a.pendingPulls.size ≤ maxConcurrentPulls → jobs.size < maxConcurrentPulls) :
    Steps c (hand, a) (hand', ({ a with pendingPulls := jobs, pullBacklog := backlog } :
      Actor Id Path).beginPull rel sender record) := by
  obtain ⟨pulling, heq⟩ := beginPull_eq
    { a with pendingPulls := jobs, pullBacklog := backlog } rel sender record
  rw [heq]
  refine .trans (b := (hand', begun { a with pendingPulls := jobs, pullBacklog := backlog }
    rel sender record)) (shift_of_waits ?_ ?_ ?_ (fun _ _ _ h _ => .inl h) fun hsize =>
      Std.ExtTreeMap.size_insert_le.trans (hroom hsize)) (.single (.misc ..))
  · rintro x (hx | hx)
    · exact hstored x (.inl hx)
    · rcases eq_or_waits_of_begun hx with rfl | hx
      · exact hsrc
      · exact hstored x (.inr hx)
  · intro x hx
    rcases hsettled x hx with rfl | hx | hx | hx
    · exact .of_owed (.inr (.inl (waits_begun_self _ _ _ _)))
    · exact .of_excused hx
    · exact .of_owed (.inl hx)
    · exact .of_owed (.inr (.inl (waits_begun hnone hx)))
  · intro hq p hp hquietp
    obtain ⟨hne, hjob⟩ := hquiet hq p hp hquietp
    obtain ⟨-, hdef, htask, hin⟩ := hquietp
    exact quiet_begun hne ⟨hjob, hdef, htask, hin⟩

/-- The attempts of a job are counted. -/
theorem recount_steps {a : Actor Id Path} {rel : Path} {job : PullJob Id} {n : Nat}
    (hjob : a.pendingPulls[rel]? = some job) :
    Steps c (hand, a) (hand, { a with
      pendingPulls := a.pendingPulls.insert rel { job with attempts := n } }) := by
  refine shift_of_waits ?_ ?_ ?_ (fun _ _ _ h _ => .inl h) fun hsize => ?_
  · rintro x (hx | ⟨job', hjob', hx⟩ | hx)
    · exact .inl hx
    · rw [Map.get_insert] at hjob'
      split at hjob'
      · rename_i hrel
        cases hjob'
        exact .inr (.inl ⟨job, by rw [← hrel]; exact hjob, hx⟩)
      · exact .inr (.inl ⟨job', hjob', hx⟩)
    · exact .inr (.inr hx)
  · rintro x (hx | ⟨job', hjob', hx⟩ | hx)
    · exact .of_owed (.inl hx)
    · by_cases hrel : rel = x.1
      · rw [← hrel, hjob] at hjob'
        cases hjob'
        refine .of_owed (.inr (.inl (.inl ⟨{ job with attempts := n }, ?_, hx⟩)))
        rw [← hrel]
        exact Map.get_insert_self _ _ _
      · refine .of_owed (.inr (.inl (.inl ⟨job', ?_, hx⟩)))
        rw [Map.get_insert_ne _ _ hrel]
        exact hjob'
    · exact .of_owed (.inr (.inl (.inr hx)))
  · intro _ p _ hp
    have hne : rel ≠ p := by
      rintro rfl
      exact absurd (hp.1.symm.trans hjob) (by simp)
    exact ⟨by rw [Map.get_insert_ne _ _ hne]; exact hp.1, hp.2⟩
  · rw [Map.size_insert_of_get hjob]
    exact hsize

/-- The task of a job is started once more. -/
theorem startPull_steps {a : Actor Id Path} {rel : Path} {job : PullJob Id}
    (hjob : a.pendingPulls[rel]? = some job) :
    Steps c (hand, a) (hand, a.startPull rel job.sender job.record) := by
  obtain ⟨pulling, heq⟩ := startPull_eq a rel job.sender job.record
  rw [heq]
  refine .trans (b := (hand, { a with tasks := a.tasks ++ [.pull rel job.sender job.record] }))
    (shift_of_waits ?_ ?_ ?_ (fun _ _ _ h _ => .inl h) id) (.single (.misc ..))
  · rintro x (hx | hx | hx | hx | hx | hx)
    · exact .inl hx
    · exact .inr (.inl hx)
    · exact .inr (.inr (.inl hx))
    · exact .inr (.inr (.inr (.inl hx)))
    · rcases List.mem_append.mp hx with hx | hx
      · exact .inr (.inr (.inr (.inr (.inl hx))))
      · rw [List.mem_singleton] at hx
        injection hx with h₁ h₂ h₃
        refine .inr (.inl ⟨job, by rw [h₁]; exact hjob, .inl ?_⟩)
        exact Prod.ext h₂.symm h₃.symm
    · exact .inr (.inr (.inr (.inr (.inr hx))))
  · rintro x (hx | hx | hx | hx | hx | hx)
    · exact .of_owed (.inl hx)
    · exact .of_owed (.inr (.inl (.inl hx)))
    · exact .of_owed (.inr (.inl (.inr (.inl hx))))
    · exact .of_owed (.inr (.inl (.inr (.inr (.inl hx)))))
    · exact .of_owed (.inr (.inl (.inr (.inr (.inr (.inl (List.mem_append_left _ hx)))))))
    · exact .of_owed (.inr (.inl (.inr (.inr (.inr (.inr hx))))))
  · rintro _ p _ ⟨hjobs, hdef, htask, hin⟩
    refine ⟨hjobs, hdef, fun s r hmem => ?_, hin⟩
    rcases List.mem_append.mp hmem with hmem | hmem
    · exact htask s r hmem
    · rw [List.mem_singleton] at hmem
      injection hmem with h₁
      rw [h₁, hjob] at hjobs
      cases hjobs

/-! ## The backlog -/

theorem getElem_of_minByKey {α κ : Type} [LT κ] [DecidableLT κ] {key : α → κ} {l : List α}
    {i : Nat} {x : α} (h : minByKey key l = some (i, x)) : l[i]? = some x := by
  induction l generalizing i x with
  | nil => cases h
  | cons y l ih =>
      rw [minByKey] at h
      split at h
      · cases h
        rfl
      · rename_i j z hz
        split at h
        · cases h
          exact ih hz
        · cases h
          rfl

/-- Whatever was in a list is still there, or it is the element taken out. -/
theorem mem_eraseIdx_or_eq {α : Type} {l : List α} {i : Nat} {x y : α} (hi : l[i]? = some y)
    (hx : x ∈ l) : x ∈ l.eraseIdx i ∨ x = y := by
  obtain ⟨j, hj⟩ := List.mem_iff_getElem?.mp hx
  by_cases hij : j = i
  · rw [hij, hi] at hj
    exact .inr (Option.some.inj hj).symm
  · refine .inl (List.mem_iff_getElem?.mpr ?_)
    rcases Nat.lt_or_gt_of_ne hij with hlt | hgt
    · exact ⟨j, by rw [List.getElem?_eraseIdx_of_lt hlt, hj]⟩
    · refine ⟨j - 1, ?_⟩
      rw [List.getElem?_eraseIdx_of_ge (by omega), Nat.sub_add_cancel (by omega), hj]

theorem mem_set_or_eq {α : Type} {l : List α} {i : Nat} {x y : α} (v : α)
    (hi : l[i]? = some y) (hx : x ∈ l) : x ∈ l.set i v ∨ x = y := by
  obtain ⟨j, hj⟩ := List.mem_iff_getElem?.mp hx
  by_cases hij : j = i
  · rw [hij, hi] at hj
    exact .inr (Option.some.inj hj).symm
  · exact .inl (List.mem_iff_getElem?.mpr ⟨j, by rw [List.getElem?_set_ne (Ne.symm hij), hj]⟩)

/-- A smaller backlog is all that has changed. -/
theorem waits_backlog {a : Actor Id Path} {backlog : List (Path × Id × FileRecord Id)}
    {x : Advert Id Path} (hx : a.Waits x) :
    ({ a with pullBacklog := backlog } : Actor Id Path).Waits x ∨
      x ∈ a.pullBacklog := by
  rcases hx with hx | hx | hx
  · exact .inl (.inl hx)
  · exact .inr hx
  · exact .inl (.inr (.inr hx))

theorem waits_of_backlog {a : Actor Id Path} {backlog : List (Path × Id × FileRecord Id)}
    {x : Advert Id Path} (hx : ({ a with pullBacklog := backlog } : Actor Id Path).Waits x) :
    a.Waits x ∨ x ∈ backlog := by
  rcases hx with hx | hx | hx
  · exact .inl (.inl hx)
  · exact .inr hx
  · exact .inl (.inr (.inr hx))

/-- An entry with an excuse leaves the backlog. -/
theorem popBacklog_steps {a : Actor Id Path} {i : Nat} {e : Advert Id Path}
    (hi : a.pullBacklog[i]? = some e) (he : a.Excused e) :
    Steps c (hand, a) (hand, { a with pullBacklog := a.pullBacklog.eraseIdx i }) := by
  refine shift_of_waits ?_ ?_ (fun _ _ _ h => h) (fun _ _ _ h _ => .inl h) id
  · rintro x (hx | hx)
    · exact .inl hx
    · rcases waits_of_backlog hx with hx | hx
      · exact .inr hx
      · exact .inr (.inr (.inl (List.mem_of_mem_eraseIdx hx)))
  · rintro x (hx | hx)
    · exact .of_owed (.inl hx)
    · rcases @waits_backlog _ _ _ _ _ (a.pullBacklog.eraseIdx i) _ hx with hx' | hx'
      · exact .of_owed (.inr (.inl hx'))
      · rcases mem_eraseIdx_or_eq hi hx' with hx' | rfl
        · exact .of_owed (.inr (.inl (.inr (.inl hx'))))
        · exact .of_excused he

/-- The pull of a backlog entry is begun. -/
theorem admit_steps {a : Actor Id Path} {i : Nat} {rel : Path} {sender : Id}
    {record : FileRecord Id} (hi : a.pullBacklog[i]? = some (rel, sender, record))
    (hnone : a.pendingPulls[rel]? = none) (hheld : a.locks.isHeldByMe rel = false)
    (hroom : a.pendingPulls.size < maxConcurrentPulls) :
    Steps c (hand, a) (hand, ({ a with pullBacklog := a.pullBacklog.eraseIdx i } :
      Actor Id Path).beginPull rel sender record) := by
  refine beginPull_steps a.pendingPulls (a.pullBacklog.eraseIdx i) hnone
    (.inr (.inr (.inl (List.mem_of_getElem? hi)))) ?_ ?_ ?_ fun _ => hroom
  · rintro x (hx | hx)
    · exact .inl hx
    · rcases waits_of_backlog hx with hx | hx
      · exact .inr hx
      · exact .inr (.inr (.inl (List.mem_of_mem_eraseIdx hx)))
  · rintro x (hx | hx)
    · exact .inr (.inr (.inl hx))
    · rcases @waits_backlog _ _ _ _ _ (a.pullBacklog.eraseIdx i) _ hx with hx' | hx'
      · exact .inr (.inr (.inr hx'))
      · rcases mem_eraseIdx_or_eq hi hx' with hx' | rfl
        · exact .inr (.inr (.inr (.inr (.inl hx'))))
        · exact .inl rfl
  · intro _ p hp hq
    refine ⟨?_, hq.1⟩
    rintro rfl
    rw [hheld] at hp
    cases hp

theorem drainLoop_steps (n : Nat) (a : Actor Id Path) :
    Steps c (hand, a) (hand, drainLoop n a) := by
  induction n generalizing a with
  | zero => exact .refl
  | succ n ih =>
      rw [drainLoop]
      split
      · rename_i hroom
        split
        · exact .refl
        · rename_i i rel sender record hpick
          have hi := getElem_of_minByKey hpick
          dsimp only
          split
          · refine .trans ?_ (ih _)
            exact (letGo_steps a rel sender record).trans
              (popBacklog_steps (a := a.letGo rel sender record) hi
                (letGo_excused a rel sender record))
          · rename_i hfree
            rw [Bool.or_eq_true, not_or, Bool.not_eq_true, Bool.not_eq_true] at hfree
            refine .trans (admit_steps hi ?_ hfree.2 hroom) (ih _)
            exact Map.get_eq_none hfree.1
      · exact .refl

theorem drainPullBacklog_steps (a : Actor Id Path) :
    Steps c (hand, a) (hand, a.drainPullBacklog) :=
  drainLoop_steps _ a

/-! ## The end of a job -/

theorem mem_of_isPulling {a : Actor Id Path} {rel : Path} {sender : Id}
    {record : FileRecord Id} (h : a.isPulling rel sender record = true) :
    Task.pull rel sender record ∈ a.tasks ∨
      ∃ result, Event.pullStaged rel sender record result ∈ a.inbox := by
  rw [isPulling, Bool.or_eq_true, List.any_eq_true, List.any_eq_true] at h
  rcases h with ⟨t, ht, h⟩ | ⟨ev, hev, h⟩
  · refine .inl ?_
    split at h
    · obtain ⟨rfl, rfl, rfl⟩ := of_decide_eq_true h
      exact ht
    · cases h
  · refine .inr ?_
    split at h
    · obtain ⟨rfl, rfl, rfl⟩ := of_decide_eq_true h
      exact ⟨_, hev⟩
    · cases h

/-- Without the job of `rel` all else still waits. -/
theorem waits_erase {a : Actor Id Path} {rel : Path} {job : PullJob Id} {x : Advert Id Path}
    (hjob : a.pendingPulls[rel]? = some job) (hx : a.Waits x) :
    ({ a with pendingPulls := a.pendingPulls.erase rel } : Actor Id Path).Waits x ∨
      x.1 = rel ∧ ((job.sender, job.record) = x.2 ∨ job.queued = some x.2) := by
  rcases hx with ⟨job', hjob', hx⟩ | hx
  · by_cases hrel : rel = x.1
    · rw [← hrel, hjob] at hjob'
      cases hjob'
      exact .inr ⟨hrel.symm, hx⟩
    · refine .inl (.inl ⟨job', ?_, hx⟩)
      rw [Map.get_erase_ne _ hrel]
      exact hjob'
  · exact .inl (.inr hx)

theorem waits_of_erase {a : Actor Id Path} {rel : Path} {x : Advert Id Path}
    (hx : ({ a with pendingPulls := a.pendingPulls.erase rel } : Actor Id Path).Waits x) :
    a.Waits x := by
  rcases hx with ⟨job, hjob, hx⟩ | hx
  · rw [Map.get_erase] at hjob
    split at hjob
    · cases hjob
    · exact .inl ⟨job, hjob, hx⟩
  · exact .inr hx

theorem quiet_erase {a : Actor Id Path} {rel p : Path} (h : a.Quiet p) :
    ({ a with pendingPulls := a.pendingPulls.erase rel } : Actor Id Path).Quiet p := by
  obtain ⟨hjob, hrest⟩ := h
  refine ⟨?_, hrest⟩
  rw [Map.get_erase]
  split
  · rfl
  · exact hjob

/-- The job of `rel` ends when its record is pulled elsewhere or excused. -/
theorem endJob_steps {a : Actor Id Path} {rel : Path} {job : PullJob Id}
    (hjob : a.pendingPulls[rel]? = some job)
    (hend : a.Excused (rel, job.sender, job.record) ∨
      Task.pull rel job.sender job.record ∈ a.tasks ∨
      ∃ result, Event.pullStaged rel job.sender job.record result ∈ a.inbox) :
    Steps c (hand, a) (hand,
      let b : Actor Id Path := { a with pendingPulls := a.pendingPulls.erase rel }
      match job.queued with
      | some (sender, record) => b.beginPull rel sender record
      | none => b) := by
  -- the record of the job itself
  have hself : ∀ x : Advert Id Path, x.1 = rel → (job.sender, job.record) = x.2 →
      a.Excused x ∨
        ({ a with pendingPulls := a.pendingPulls.erase rel } : Actor Id Path).Waits x := by
    rintro ⟨r, x⟩ rfl hx
    cases hx
    rcases hend with h | h | h
    · exact .inl h
    · exact .inr (.inr (.inr (.inr (.inl h))))
    · exact .inr (.inr (.inr (.inr (.inr h))))
  have hstored : ∀ x, x ∈ hand ∨
      ({ a with pendingPulls := a.pendingPulls.erase rel } : Actor Id Path).Waits x →
      x ∈ hand ∨ a.Waits x := fun x hx => hx.imp_right waits_of_erase
  dsimp only
  split
  · rename_i sender record hq
    refine beginPull_steps (a.pendingPulls.erase rel) a.pullBacklog (Map.get_erase_self _ _)
      (.inr (.inl ⟨job, hjob, .inr hq⟩)) hstored ?_ ?_
      (Map.size_erase_lt hjob).trans_le
    · rintro x (hx | hx)
      · exact .inr (.inr (.inl hx))
      · rcases waits_erase hjob hx with hx | ⟨hrel, hx | hx⟩
        · exact .inr (.inr (.inr hx))
        · exact (hself x hrel hx).elim (fun h => .inr (.inl h)) fun h => .inr (.inr (.inr h))
        · rw [hq] at hx
          exact .inl (Prod.ext hrel (Option.some.inj hx).symm)
    · intro _ p _ hp
      refine ⟨?_, (quiet_erase hp).1⟩
      rintro rfl
      exact absurd (hp.1.symm.trans hjob) (by simp)
  · rename_i hq
    refine shift_of_waits hstored ?_ (fun _ _ _ h => quiet_erase h) (fun _ _ _ h _ => .inl h)
      fun hsize => Std.ExtTreeMap.size_erase_le.trans hsize
    rintro x (hx | hx)
    · exact .of_owed (.inl hx)
    · rcases waits_erase hjob hx with hx | ⟨hrel, hx | hx⟩
      · exact .of_owed (.inr (.inl hx))
      · rcases hself x hrel hx with h | h
        · exact .of_excused h
        · exact .of_owed (.inr (.inl h))
      · rw [hq] at hx
        cases hx

theorem nextPull_steps (a : Actor Id Path) (rel : Path) :
    Steps c (hand, a) (hand, a.nextPull rel) := by
  unfold nextPull
  split
  · exact .refl
  · rename_i job hjob
    by_cases hpull : a.isPulling rel job.sender job.record = true
    · simp only [if_pos hpull]
      exact endJob_steps hjob (.inr (mem_of_isPulling hpull))
    · simp only [if_neg hpull]
      exact (letGo_steps a rel job.sender job.record).trans
        (endJob_steps (a := a.letGo rel job.sender job.record) hjob
          (.inl (letGo_excused a rel job.sender job.record)))

theorem finishPull_steps (a : Actor Id Path) (rel : Path) :
    Steps c (hand, a) (hand, a.finishPull rel) :=
  (nextPull_steps a rel).trans (drainPullBacklog_steps _)

/-! ## Scheduling a pull -/

theorem enqueuePullBacklog_steps (a : Actor Id Path) (rel : Path) (sender : Id)
    (record : FileRecord Id) :
    Steps c ((rel, sender, record) :: hand, a)
      (hand, a.enqueuePullBacklog rel sender record) := by
  unfold enqueuePullBacklog
  split
  · rename_i i hfind
    obtain ⟨hlt, hrel, -⟩ := List.findIdx?_eq_some_iff_getElem.mp hfind
    have hi : a.pullBacklog[i]? = some (a.pullBacklog[i]) := List.getElem?_eq_getElem hlt
    generalize hslot : a.pullBacklog[i] = slot at hi hrel
    obtain ⟨srel, ssender, srecord⟩ := slot
    obtain rfl : srel = rel := of_decide_eq_true hrel
    refine (displace_steps a srel (a.pullBacklog[i]?.map Prod.snd) record).trans ?_
    have hout := displace_excused a srel ssender srecord record
    rw [hi, Option.map_some]
    generalize hb : a.displace srel (some (ssender, srecord)) record = b at hout ⊢
    have hback : b.pullBacklog[i]? = some (srel, ssender, srecord) := by
      rw [← hb]
      exact hi
    refine shift_of_waits ?_ ?_ (fun _ _ _ h => h) (fun _ _ _ h _ => .inl h) id
    · rintro x (hx | hx)
      · exact .inl (List.mem_cons_of_mem _ hx)
      · rcases waits_of_backlog hx with hx | hx
        · exact .inr hx
        · rcases List.mem_or_eq_of_mem_set hx with hx | rfl
          · exact .inr (.inr (.inl hx))
          · exact .inl List.mem_cons_self
    · have hnew : ({ b with pullBacklog := b.pullBacklog.set i (srel, sender, record) } :
          Actor Id Path).Owed hand (srel, sender, record) :=
        .inr (.inl (.inr (.inl (List.mem_set (List.getElem?_eq_some_iff.mp hback).1 _))))
      rintro x (hx | hx)
      · rcases List.mem_cons.mp hx with rfl | hx
        · exact .of_owed hnew
        · exact .of_owed (.inl hx)
      · rcases @waits_backlog _ _ _ _ _ (b.pullBacklog.set i (srel, sender, record)) _ hx with
          hx' | hx'
        · exact .of_owed (.inr (.inl hx'))
        · rcases mem_set_or_eq (srel, sender, record) hback hx' with hx' | rfl
          · exact .of_owed (.inr (.inl (.inr (.inl hx'))))
          · rcases hout with hle | hex
            · exact .of_covered hnew rfl hle
            · exact .of_excused hex
  · split
    · refine shift_of_waits ?_ ?_ (fun _ _ _ h => h) (fun _ _ _ h _ => .inl h) id
      · rintro x (hx | hx)
        · exact .inl (List.mem_cons_of_mem _ hx)
        · rcases waits_of_backlog hx with hx | hx
          · exact .inr hx
          · rcases List.mem_append.mp hx with hx | hx
            · exact .inr (.inr (.inl hx))
            · exact .inl (by simpa using .inl (List.mem_singleton.mp hx))
      · rintro x (hx | hx)
        · rcases List.mem_cons.mp hx with rfl | hx
          · exact .of_owed (.inr (.inl (.inr (.inl (by simp)))))
          · exact .of_owed (.inl hx)
        · rcases @waits_backlog _ _ _ _ _ (a.pullBacklog ++ [(rel, sender, record)]) _ hx with
            hx' | hx'
          · exact .of_owed (.inr (.inl hx'))
          · exact .of_owed (.inr (.inl (.inr (.inl (List.mem_append_left _ hx')))))
    · exact abandon_steps a rel sender record

/-- The slot behind a running job is filled. -/
theorem queue_steps {a : Actor Id Path} {rel : Path} {sender : Id} {record : FileRecord Id}
    {job : PullJob Id} (hjob : a.pendingPulls[rel]? = some job) :
    Steps c ((rel, sender, record) :: hand, a)
      (hand, let b := a.displace rel job.queued record
        { b with pendingPulls :=
            b.pendingPulls.insert rel { job with queued := some (sender, record) } }) := by
  refine (displace_steps a rel job.queued record).trans ?_
  have hout : ∀ s r, job.queued = some (s, r) → VClock.Le r.vv record.vv ∨
      (a.displace rel job.queued record).Excused (rel, s, r) := by
    intro s r hq
    rw [hq]
    exact displace_excused a rel s r record
  dsimp only
  generalize hb : a.displace rel job.queued record = b at hout ⊢
  have hjob' : b.pendingPulls[rel]? = some job := by
    rw [← hb]
    exact hjob
  refine shift_of_waits ?_ ?_ ?_ (fun _ _ _ h _ => .inl h) fun hsize => ?_
  · rintro x (hx | ⟨job', hjob'', hx⟩ | hx)
    · exact .inl (List.mem_cons_of_mem _ hx)
    · rw [Map.get_insert] at hjob''
      split at hjob''
      · rename_i hrel
        cases hjob''
        rcases hx with hx | hx
        · exact .inr (.inl ⟨job, by rw [← hrel]; exact hjob', .inl hx⟩)
        · exact .inl (by rw [List.mem_cons]
                         exact .inl (Prod.ext hrel.symm (Option.some.inj hx).symm))
      · exact .inr (.inl ⟨job', hjob'', hx⟩)
    · exact .inr (.inr hx)
  · have hnew : ({ b with pendingPulls :=
        b.pendingPulls.insert rel { job with queued := some (sender, record) } } :
          Actor Id Path).Owed hand (rel, sender, record) :=
      .inr (.inl (.inl ⟨_, Map.get_insert_self _ _ _, .inr rfl⟩))
    rintro x (hx | ⟨job', hjob'', hx⟩ | hx)
    · rcases List.mem_cons.mp hx with rfl | hx
      · exact .of_owed hnew
      · exact .of_owed (.inl hx)
    · by_cases hrel : rel = x.1
      · rw [← hrel, hjob'] at hjob''
        cases hjob''
        obtain ⟨r, s, w⟩ := x
        obtain rfl : rel = r := hrel
        rcases hx with hx | hx
        · exact .of_owed (.inr (.inl (.inl ⟨_, Map.get_insert_self _ _ _, .inl hx⟩)))
        · rcases hout s w hx with hle | hex
          · exact .of_covered hnew rfl hle
          · exact .of_excused hex
      · refine .of_owed (.inr (.inl (.inl ⟨job', ?_, hx⟩)))
        rw [Map.get_insert_ne _ _ hrel]
        exact hjob''
    · exact .of_owed (.inr (.inl (.inr hx)))
  · intro _ p _ hp
    have hne : rel ≠ p := by
      rintro rfl
      exact absurd (hp.1.symm.trans hjob') (by simp)
    exact ⟨by rw [Map.get_insert_ne _ _ hne]; exact hp.1, hp.2⟩
  · rw [Map.size_insert_of_get hjob']
    exact hsize

theorem schedulePull_steps (a : Actor Id Path) {rel : Path} (sender : Id)
    (record : FileRecord Id) (hheld : a.locks.isHeldByMe rel = false) :
    Steps c ((rel, sender, record) :: hand, a) (hand, a.schedulePull rel sender record) := by
  unfold schedulePull
  split
  · rename_i job hjob
    split
    · rename_i hdup
      refine release_steps (.of_covered (y := (rel, job.sender, job.record))
        (.inr (.inl (.inl ⟨job, hjob, .inl rfl⟩))) rfl ?_)
      rw [hdup.2]
      exact VClock.Le.refl _
    · exact queue_steps hjob
  · rename_i hnone
    split
    · exact enqueuePullBacklog_steps a rel sender record
    · rename_i hroom
      refine beginPull_steps a.pendingPulls a.pullBacklog hnone (.inl List.mem_cons_self) ?_ ?_ ?_
        fun _ => not_le.mp hroom
      · exact fun x hx => hx.imp_left (List.mem_cons_of_mem _)
      · rintro x (hx | hx)
        · rcases List.mem_cons.mp hx with rfl | hx
          · exact .inl rfl
          · exact .inr (.inr (.inl hx))
        · exact .inr (.inr (.inr hx))
      · intro _ p hp hq
        refine ⟨?_, hq.1⟩
        rintro rfl
        rw [hheld] at hp
        cases hp

end Tazamun.Actor
