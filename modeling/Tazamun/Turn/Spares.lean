import Tazamun.Turn.Aside
import Tazamun.Turn.Covered
import Tazamun.Turn.Desk

set_option autoImplicit false

/-! # What becomes of one path in a turn

A path that has no live record and that the sync scope holds is none of the daemon's business:
its file is neither quarantined nor removed, and nothing is published for it. Whether this is
so is a question about every handler, so one path is followed through all the operations that
handlers are made of.

`Spares q g a b` says what has happened to the path `q` on the way from `a` to `b`. Nothing of
our own was published for it, its file is still there unless a tombstone of a peer was applied
to it, and no work on it was begun, at least under the condition `g` on what started the turn.
What an operation does to other paths does not matter. This module has the relation and the
ways to go on from it: a change that has nothing to do with `q`, a tombstone that is applied to
it, a task for another path, and a walk through a list.
-/

namespace Tazamun

variable {Id Path : Type} [LinearOrder Id] [LinearOrder Path]

namespace Effect

/-- A live record of our own was committed for a path that had none. -/
def publishes (q : Path) : Effect Id Path → Bool
  | .committed _ rel record prev _ =>
      decide (rel = q) && !record.deleted && !FileRecord.isLive prev
  | _ => false

/-- A tombstone of a peer was applied. -/
def buries (q : Path) : Effect Id Path → Bool
  | .applied rel record _ _ => decide (rel = q) && record.deleted
  | _ => false

theorem publishes_of_isEntry {e : Effect Id Path} (he : e.isEntry = false) (q : Path) :
    e.publishes q = false := by
  cases e with
  | committed => cases he
  | _ => rfl

theorem publishes_of_isLoss {e : Effect Id Path} (he : e.isLoss = true) (q : Path) :
    e.publishes q = false := by
  cases e with
  | dropped => rfl
  | revived => rfl
  | _ => cases he

theorem buries_of_isEntry {e : Effect Id Path} (he : e.isEntry = false) (q : Path) :
    e.buries q = false := by
  cases e with
  | applied => cases he
  | _ => rfl

end Effect

namespace Actor

/-- The path `q` on the way from `a` to `b`; no work on it begins if the turn is `gated`. -/
structure Spares (q : Path) (gated : Prop) (a b : Actor Id Path) : Prop where
  idle : gated → (∀ t ∈ a.tasks, t.worksOn ≠ some q) → ∀ t ∈ b.tasks, t.worksOn ≠ some q
  rounds : a.autolockPending[q]? = none → b.autolockPending[q]? = none
  indexed : a.files[q]?.isSome = true → b.files[q]?.isSome = true
  unknown : a.files[q]? = none → b.files[q]? = none
  effects : ∃ es, b.journal = a.journal ++ es ∧ (∀ e ∈ es, e.publishes q = false) ∧
    (a.disk.contains q = true → b.disk.contains q = true ∨
      a.files[q]?.isSome = true ∧ ∃ e ∈ es, e.buries q = true)

namespace Spares

variable {q : Path} {g : Prop} {a b d : Actor Id Path}

theorem refl : Spares q g a a :=
  ⟨fun _ => id, id, id, id, [], by simp, by simp, fun h => .inl h⟩

/-- A record that is there now was there before. -/
theorem known (h : Spares q g a b) (hsome : b.files[q]?.isSome = true) :
    a.files[q]?.isSome = true := by
  by_contra hno
  rw [Bool.not_eq_true, Option.isSome_eq_false_iff, Option.isNone_iff_eq_none] at hno
  rw [h.unknown hno] at hsome
  cases hsome

/-- A change that keeps the file, the rounds, and whether there is a record. -/
theorem change (h : Spares q g a b) {l : List (Effect Id Path)}
    (hrounds : b.autolockPending[q]? = none → d.autolockPending[q]? = none)
    (hfiles : d.files[q]?.isSome = b.files[q]?.isSome)
    (hjournal : d.journal = b.journal ++ l) (hes : ∀ e ∈ l, e.publishes q = false)
    (hdisk : b.disk.contains q = true → d.disk.contains q = true)
    (htasks : d.tasks = b.tasks) : Spares q g a d := by
  obtain ⟨es₀, hes₀, hquiet, hkept⟩ := h.effects
  refine ⟨by rw [htasks]; exact h.idle, fun h₀ => hrounds (h.rounds h₀), fun h₀ => ?_,
    fun h₀ => ?_, es₀ ++ l, ?_, ?_, ?_⟩
  · rw [hfiles]
    exact h.indexed h₀
  · rw [h.unknown h₀] at hfiles
    exact Option.isNone_iff_eq_none.mp (Option.isSome_eq_false_iff.mp hfiles)
  · rw [hjournal, hes₀, List.append_assoc]
  · intro e he
    rcases List.mem_append.mp he with he | he
    · exact hquiet e he
    · exact hes e he
  · intro hin
    rcases hkept hin with hin | ⟨hsome, e, he, hbury⟩
    · exact .inl (hdisk hin)
    · exact .inr ⟨hsome, e, List.mem_append_left _ he, hbury⟩

/-- A change of other parts of the state. -/
theorem same (h : Spares q g a b) (hrounds : d.autolockPending = b.autolockPending)
    (hfiles : d.files = b.files) (hjournal : d.journal = b.journal) (hdisk : d.disk = b.disk)
    (htasks : d.tasks = b.tasks) : Spares q g a d :=
  h.change (l := []) (fun hr => by rw [hrounds]; exact hr) (by rw [hfiles])
    (by rw [hjournal, List.append_nil]) (by simp) (fun hd => by rw [hdisk]; exact hd) htasks

/-- The same, with losses on record. -/
theorem losses (h : Spares q g a b) {l : List (Effect Id Path)}
    (hes : ∀ e ∈ l, e.isLoss = true) (hrounds : d.autolockPending = b.autolockPending)
    (hfiles : d.files = b.files) (hjournal : d.journal = b.journal ++ l)
    (hdisk : d.disk = b.disk) (htasks : d.tasks = b.tasks) : Spares q g a d :=
  h.change (l := l) (fun hr => by rw [hrounds]; exact hr) (by rw [hfiles]) hjournal
    (fun e he => Effect.publishes_of_isLoss (hes e he) q) (fun hd => by rw [hdisk]; exact hd)
    htasks

/-- A tombstone of a peer takes the place of the record, and perhaps of the file. -/
theorem bury (h : Spares q g a b) {l : List (Effect Id Path)} {e : Effect Id Path}
    (hsome : b.files[q]?.isSome = true)
    (hrounds : b.autolockPending[q]? = none → d.autolockPending[q]? = none)
    (hfiles : d.files[q]?.isSome = true) (hjournal : d.journal = b.journal ++ l)
    (hes : ∀ e ∈ l, e.publishes q = false) (he : e ∈ l) (hbury : e.buries q = true)
    (htasks : d.tasks = b.tasks) : Spares q g a d := by
  have hknown := h.known hsome
  obtain ⟨es₀, hes₀, hquiet, -⟩ := h.effects
  refine ⟨by rw [htasks]; exact h.idle, fun h₀ => hrounds (h.rounds h₀), fun _ => hfiles,
    fun h₀ => ?_, es₀ ++ l, ?_, ?_, ?_⟩
  · rw [h₀] at hknown
    cases hknown
  · rw [hjournal, hes₀, List.append_assoc]
  · intro x hx
    rcases List.mem_append.mp hx with hx | hx
    · exact hquiet x hx
    · exact hes x hx
  · exact fun _ => .inr ⟨hknown, e, List.mem_append_right _ he, hbury⟩

theorem trans (h : Spares q g a b) (h' : Spares q g b d) : Spares q g a d := by
  obtain ⟨es, hes, hquiet, hkept⟩ := h.effects
  obtain ⟨es', hes', hquiet', hkept'⟩ := h'.effects
  refine ⟨fun hg h₀ => h'.idle hg (h.idle hg h₀), fun h₀ => h'.rounds (h.rounds h₀),
    fun h₀ => h'.indexed (h.indexed h₀),
    fun h₀ => h'.unknown (h.unknown h₀), es ++ es', ?_, ?_, fun hin => ?_⟩
  · rw [hes', hes, List.append_assoc]
  · intro e he
    rcases List.mem_append.mp he with he | he
    · exact hquiet e he
    · exact hquiet' e he
  · rcases hkept hin with hin | ⟨hsome, e, he, hbury⟩
    · rcases hkept' hin with hin | ⟨hsome, e, he, hbury⟩
      · exact .inl hin
      · exact .inr ⟨h.known hsome, e, List.mem_append_right _ he, hbury⟩
    · exact .inr ⟨hsome, e, List.mem_append_left _ he, hbury⟩

/-- A task is spawned that works on no path, or on another. -/
theorem spawn (h : Spares q g a b) {t : Task Id Path}
    (ht : g → t.worksOn ≠ some q) :
    Spares q g a (b.spawn t) := by
  refine ⟨fun hg hidle t' ht' => ?_, h.rounds, h.indexed, h.unknown, h.effects⟩
  rcases List.mem_append.mp ht' with ht' | ht'
  · exact h.idle hg hidle t' ht'
  · rw [List.mem_singleton.mp ht']
    exact ht hg

theorem foldl {α : Type} {f : Actor Id Path → α → Actor Id Path} {l : List α}
    (h : Spares q g a b) (hf : ∀ d, ∀ x ∈ l, Spares q g a d → Spares q g a (f d x)) :
    Spares q g a (l.foldl f b) := by
  induction l generalizing b with
  | nil => exact h
  | cons x l ih =>
      exact ih (hf b x List.mem_cons_self h) fun d y hy => hf d y (List.mem_cons_of_mem x hy)

end Spares

end Actor

end Tazamun
