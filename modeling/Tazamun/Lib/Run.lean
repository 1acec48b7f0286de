import Mathlib.Logic.Relation

set_option autoImplicit false

/-! # Runs of a transition system

A system is a partial step function on states, one step per action. `Reaches step ok s t`
says that a finite run leads from `s` to `t` in which every action was allowed by `ok` in
the state it was taken in; with `ok` constantly true these are all runs. The condition is a
parameter because a property often holds only of the runs that avoid one kind of step, and
the same rule then proves both versions.

`Reaches.invariant` is the only induction the safety proofs need: hold at the start, be
kept by one allowed step. A concrete run is a list of actions, evaluated by `execute`.
-/

namespace Lib

variable {σ α : Type*}

/-- `t` is reached from `s` by steps that `ok` allows. -/
inductive Reaches (step : σ → α → Option σ) (ok : σ → α → Prop) (s : σ) : σ → Prop
  | refl : Reaches step ok s s
  | tail {t u : σ} {a : α} :
      Reaches step ok s t → ok t a → step t a = some u → Reaches step ok s u

/-- The condition that allows every step. -/
def anyStep (_ : σ) (_ : α) : Prop := True

namespace Reaches

variable {step : σ → α → Option σ} {ok ok' : σ → α → Prop} {s t u : σ}

/-- **The invariant rule.** A property of the start that every allowed step keeps holds in
every state reached. -/
theorem invariant {I : σ → Prop} (h : Reaches step ok s t) (h₀ : I s)
    (hstep : ∀ v a w, I v → ok v a → step v a = some w → I w) : I t := by
  induction h with
  | refl => exact h₀
  | tail _ hok hs ih => exact hstep _ _ _ ih hok hs

theorem mono (h : Reaches step ok s t) (hle : ∀ v a, ok v a → ok' v a) :
    Reaches step ok' s t := by
  induction h with
  | refl => exact .refl
  | tail _ hok hs ih => exact .tail ih (hle _ _ hok) hs

theorem trans (h₁ : Reaches step ok s t) (h₂ : Reaches step ok t u) : Reaches step ok s u := by
  induction h₂ with
  | refl => exact h₁
  | tail _ hok hs ih => exact .tail ih hok hs

/-- A property of the end that goes back from any state to the one before it holds on both
sides of every step. -/
theorem backward {I : σ → Prop} (h : Reaches step ok s t) (ht : I t)
    (hback : ∀ v a w, I w → ok v a → step v a = some w → I v) :
    Reaches step (fun v a => ok v a ∧ I v ∧ ∀ w, step v a = some w → I w) s t := by
  induction h with
  | refl => exact .refl
  | tail _ hok hs ih =>
      have hprev := hback _ _ _ ht hok hs
      refine .tail (ih hprev) ⟨hok, hprev, fun w hw => ?_⟩ hs
      rw [hs] at hw
      cases hw
      exact ht

end Reaches

/-- Run a list of actions; `none` as soon as one of them is not enabled. -/
def execute (step : σ → α → Option σ) : List α → σ → Option σ
  | [], s => some s
  | a :: as, s =>
      match step s a with
      | none => none
      | some t => execute step as t

/-- Run a list of actions, checking each against a decidable condition on the way. -/
def executeChecked (step : σ → α → Option σ) (ok : σ → α → Bool) : List α → σ → Option σ
  | [], s => some s
  | a :: as, s =>
      if ok s a then
        match step s a with
        | none => none
        | some t => executeChecked step ok as t
      else none

/-- A list of actions that executes and passes its checks is an allowed run. -/
theorem reaches_of_executeChecked {step : σ → α → Option σ} {ok : σ → α → Bool}
    {as : List α} {s t : σ} (h : executeChecked step ok as s = some t) :
    Reaches step (fun v a => ok v a = true) s t := by
  induction as generalizing s with
  | nil =>
      obtain rfl : s = t := by simpa [executeChecked] using h
      exact .refl
  | cons a as ih =>
      rw [executeChecked] at h
      split at h
      · rename_i hok
        split at h
        · cases h
        · rename_i v hv
          have first : Reaches step (fun v a => ok v a = true) s v := .tail .refl hok hv
          exact first.trans (ih h)
      · cases h

/-- The state at the end of a checked list of actions, with what a test says of it. -/
theorem exists_reaches_of_executeChecked {step : σ → α → Option σ} {ok : σ → α → Bool}
    {P : σ → Bool} {as : List α} {s : σ} (h : (executeChecked step ok as s).any P = true) :
    ∃ t, Reaches step (fun v a => ok v a = true) s t ∧ P t = true := by
  cases ht : executeChecked step ok as s with
  | none =>
      rw [ht] at h
      cases h
  | some t =>
      rw [ht] at h
      exact ⟨t, reaches_of_executeChecked ht, h⟩

/-- The same, for actions that have a property in every state besides. -/
theorem exists_reaches_of_executeChecked_and {step : σ → α → Option σ} {ok : σ → α → Bool}
    {Q : σ → α → Prop} {P : σ → Bool} {as : List α} {s : σ} (hQ : ∀ a ∈ as, ∀ v, Q v a)
    (h : (executeChecked step ok as s).any P = true) :
    ∃ t, Reaches step (fun v a => Q v a ∧ ok v a = true) s t ∧ P t = true := by
  induction as generalizing s with
  | nil => exact ⟨s, .refl, h⟩
  | cons a as ih =>
      rw [executeChecked] at h
      split at h
      · rename_i hok
        split at h
        · cases h
        · rename_i v hv
          obtain ⟨t, ht, hp⟩ := ih (fun b hb => hQ b (List.mem_cons_of_mem a hb)) h
          have first : Reaches step (fun v a => Q v a ∧ ok v a = true) s v :=
            .tail .refl ⟨hQ a List.mem_cons_self s, hok⟩ hv
          exact ⟨t, first.trans ht, hp⟩
      · cases h

/-- A list of allowed actions that executes is a run. -/
theorem reaches_of_execute {step : σ → α → Option σ} {ok : σ → α → Prop} {as : List α} {s t : σ}
    (hok : ∀ a ∈ as, ∀ v, ok v a) (h : execute step as s = some t) : Reaches step ok s t := by
  induction as generalizing s with
  | nil =>
      obtain rfl : s = t := by simpa [execute] using h
      exact .refl
  | cons a as ih =>
      rw [execute] at h
      split at h
      · cases h
      · rename_i v hv
        have first : Reaches step ok s v := .tail .refl (hok a List.mem_cons_self s) hv
        exact first.trans (ih (fun b hb => hok b (List.mem_cons_of_mem a hb)) h)

theorem exists_reaches_of_execute {step : σ → α → Option σ} (ok : σ → α → Prop)
    {P : σ → Bool} {as : List α} {s : σ} (hok : ∀ a ∈ as, ∀ v, ok v a)
    (h : (execute step as s).any P = true) : ∃ t, Reaches step ok s t ∧ P t = true := by
  cases ht : execute step as s with
  | none =>
      rw [ht] at h
      cases h
  | some t =>
      rw [ht] at h
      exact ⟨t, reaches_of_execute hok ht, h⟩

/-- The steps of a run of two. -/
theorem prefix_of_two {a b x : α} {before : List α} (h : before ++ [x] <+: [a, b]) :
    before = [] ∧ x = a ∨ before = [a] ∧ x = b := by
  rcases before with _ | ⟨first, _ | ⟨second, rest⟩⟩
  · exact .inl ⟨rfl, (List.cons_prefix_cons.mp h).1⟩
  · obtain ⟨hfirst, hrest⟩ := List.cons_prefix_cons.mp h
    exact .inr ⟨by rw [hfirst], (List.cons_prefix_cons.mp hrest).1⟩
  · have hlen := h.length_le
    simp only [List.length_append, List.length_cons, List.length_nil] at hlen
    omega

end Lib
