import Mathlib.Logic.Function.Basic
import Mathlib.Data.List.Pairwise

/-! Lists of slots as a map.
A slot has a key and may hold a value; a slot that was given up keeps its key. The first slot of a
key counts, and as long as none behind it holds a value, searching for the key and searching for a
slot that holds something come to the same. -/

namespace Slots
open List Function

variable {α κ β : Type} [DecidableEq κ] (key : α → κ) (value : α → Option β)

def table : List α → κ → Option β
  | [], _ => none
  | a :: rest, k => if key a = k then value a else table rest k

def Shadowed (slots : List α) : Prop := slots.Pairwise fun a b => key a = key b → value b = none

variable {key value} {slots rest rest' : List α} {a b : α} {k : κ} {c : β}

theorem table_cons (a : α) (rest : List α) (k : κ) :
    table key value (a :: rest) k = if key a = k then value a else table key value rest k := rfl

theorem table_cons_update {held : Option β} (other : key a ≠ k)
    (changed : table key value rest' = update (table key value rest) k held) :
    table key value (a :: rest') = update (table key value (a :: rest)) k held := by
  funext k'
  rw [table_cons, changed, update_apply, update_apply, table_cons]
  by_cases here : key a = k'
  · rw [if_pos here, if_pos here, if_neg (here ▸ other)]
  · rw [if_neg here, if_neg here]

theorem exists_of_table (found : table key value slots k = some c) :
    ∃ a ∈ slots, key a = k ∧ value a = some c := by
  induction slots with
  | nil => cases found
  | cons a rest ih =>
    rw [table] at found
    split at found
    next same => exact ⟨a, mem_cons_self, same, found⟩
    next =>
      obtain ⟨b, mem, here⟩ := ih found
      exact ⟨b, mem_cons_of_mem _ mem, here⟩

theorem table_eq_none (empty : ∀ a ∈ slots, key a = k → value a = none) : table key value slots k = none := by
  cases found : table key value slots k with
  | none => rfl
  | some c =>
    obtain ⟨a, mem, same, held⟩ := exists_of_table found
    rw [empty a mem same] at held
    cases held

theorem Shadowed.table_of_mem (shadowed : Shadowed key value slots) (mem : a ∈ slots)
    (held : value a = some c) : table key value slots (key a) = some c := by
  induction slots with
  | nil => cases mem
  | cons b rest ih =>
    obtain ⟨first, later⟩ := pairwise_cons.mp shadowed
    rw [table]
    rcases mem_cons.mp mem with rfl | mem
    · rw [if_pos rfl, held]
    · split
      next same =>
        rw [first a mem same] at held
        cases held
      next => exact ih later mem

theorem shadowed_cons : Shadowed key value (a :: rest) ↔
    table key value rest (key a) = none ∧ Shadowed key value rest := by
  constructor
  · intro shadowed
    obtain ⟨first, later⟩ := pairwise_cons.mp shadowed
    exact ⟨table_eq_none fun b mem same => first b mem same.symm, later⟩
  · rintro ⟨absent, later⟩
    refine pairwise_cons.mpr ⟨fun b mem same => ?_, later⟩
    cases held : value b with
    | none => rfl
    | some c =>
      rw [same, later.table_of_mem mem held] at absent
      cases absent

omit [DecidableEq κ] in
theorem Shadowed.concat (shadowed : Shadowed key value slots) (other : ∀ a ∈ slots, key a ≠ key b) :
    Shadowed key value (slots ++ [b]) := by
  refine pairwise_append.mpr ⟨shadowed, pairwise_singleton _ _, fun a mem c last same => ?_⟩
  rw [mem_singleton.mp last] at same
  exact absurd same (other a mem)

theorem table_concat (other : ∀ a ∈ slots, key a ≠ key b) :
    table key value (slots ++ [b]) = update (table key value slots) (key b) (value b) := by
  induction slots with
  | nil =>
    funext k
    rw [nil_append, table_cons, update_apply]
    simp only [eq_comm (a := k)]
  | cons a rest ih =>
    exact table_cons_update (other a mem_cons_self) (ih fun c mem => other c (mem_cons_of_mem _ mem))

theorem Shadowed.table_iff (shadowed : Shadowed key value slots) :
    table key value slots k = some c ↔ ∃ a ∈ slots, key a = k ∧ value a = some c := by
  constructor
  · exact exists_of_table
  · rintro ⟨a, mem, rfl, held⟩
    exact shadowed.table_of_mem mem held

omit [DecidableEq κ] in
theorem Shadowed.keys_nodup (shadowed : Shadowed key value slots) :
    ((slots.filter fun a => (value a).isSome).map key).Nodup := by
  induction slots with
  | nil => exact nodup_nil
  | cons a rest ih =>
    obtain ⟨first, later⟩ := pairwise_cons.mp shadowed
    rw [filter_cons]
    split
    · refine nodup_cons.mpr ⟨fun mem => ?_, ih later⟩
      obtain ⟨b, listed, same⟩ := mem_map.mp mem
      obtain ⟨inside, held⟩ := mem_filter.mp listed
      rw [first b inside same.symm] at held
      cases held
    · exact ih later

end Slots
