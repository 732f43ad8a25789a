import Mathlib.Data.List.Basic

/-! Machines whose parties take atomic steps in any order.
A step is a partial function of an action: an action that is not enabled has no successor.
`Reaches` restricts the runs to those whose every step meets a condition on its pre-state. -/

namespace Machine
open List

variable {σ α : Type}

/-- What is reachable from `start` by steps that are all `allowed` where they are taken. -/
inductive Reaches (step : α → σ → Option σ) (allowed : α → σ → Prop) (start : σ) : σ → Prop where
  | start : Reaches step allowed start start
  | next {before after : σ} (action : α) : Reaches step allowed start before →
      allowed action before → step action before = some after → Reaches step allowed start after

def anyStep : α → σ → Prop := fun _ _ => True

variable {step : α → σ → Option σ} {allowed : α → σ → Prop} {start final before : σ}

theorem Reaches.invariant {holds : σ → Prop} (run : Reaches step allowed start final)
    (initially : holds start) (preserved : ∀ action before after, holds before → allowed action before →
      step action before = some after → holds after) : holds final := by
  induction run with
  | start => exact initially
  | next action _ meets taken ih => exact preserved action _ _ ih meets taken

theorem Reaches.trans {middle : σ} (first : Reaches step allowed start middle)
    (second : Reaches step allowed middle final) : Reaches step allowed start final := by
  induction second with
  | start => exact first
  | next action _ meets taken ih => exact .next action ih meets taken

/-- Take a whole schedule; `none` when one of its actions is not enabled. -/
def takeAll (step : α → σ → Option σ) : List α → σ → Option σ
  | [], state => some state
  | action :: actions, state => (step action state).bind (takeAll step actions)

theorem reaches_takeAll (actions : List α) (run : Reaches step anyStep start before)
    (taken : takeAll step actions before = some final) : Reaches step anyStep start final := by
  induction actions generalizing before with
  | nil =>
    cases taken
    exact run
  | cons action actions ih =>
    simp only [takeAll, Option.bind_eq_some_iff] at taken
    obtain ⟨middle, first, later⟩ := taken
    exact ih (.next action run trivial first) later

def allowedAll (step : α → σ → Option σ) (allowed : α → σ → Prop)
    [∀ action state, Decidable (allowed action state)] : List α → σ → Bool
  | [], _ => true
  | action :: actions, state =>
      decide (allowed action state) && (step action state).all (allowedAll step allowed actions)

theorem reaches_of_allowedAll [∀ action state, Decidable (allowed action state)] (actions : List α)
    (run : Reaches step allowed start before) (meets : allowedAll step allowed actions before)
    (taken : takeAll step actions before = some final) : Reaches step allowed start final := by
  induction actions generalizing before with
  | nil =>
    cases taken
    exact run
  | cons action actions ih =>
    simp only [takeAll, Option.bind_eq_some_iff] at taken
    obtain ⟨middle, first, later⟩ := taken
    rw [allowedAll, Bool.and_eq_true, first] at meets
    exact ih (.next action run (of_decide_eq_true meets.1) first) meets.2 later

/-- A history extended by one event and split at an event: at the new one, or before it. -/
theorem append_singleton_eq {history front back : List α} {last event : α}
    (same : history ++ [last] = front ++ event :: back) : (back = [] ∧ history = front ∧ event = last) ∨
      ∃ back', back = back' ++ [last] ∧ history = front ++ event :: back' := by
  rcases eq_nil_or_concat back with rfl | ⟨back', end_, rfl⟩
  · left
    obtain ⟨front', last'⟩ := append_inj' same rfl
    exact ⟨rfl, front', (singleton_inj.mp last').symm⟩
  · right
    rw [concat_eq_append, ← cons_append, ← append_assoc] at same
    obtain ⟨front', last'⟩ := append_inj' same rfl
    exact ⟨back', by rw [singleton_inj.mp last', concat_eq_append], front'⟩

end Machine
