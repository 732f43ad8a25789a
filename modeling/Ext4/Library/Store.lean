import Mathlib.Data.List.Perm.Basic
import Mathlib.Logic.Function.Basic

/-! Stores that are written one cell at a time, each cell with a type of its own: what a list
of writes leaves behind, when it can be repeated, and when batches can be reordered. -/

namespace Store
open List Function

variable {κ : Type} {ν : κ → Type}

abbrev Write (ν : κ → Type) := (cell : κ) × ν cell

def Agree (left right : List (Write ν)) : Prop :=
  ∀ first ∈ left, ∀ second ∈ right, first.1 = second.1 → first = second

variable [DecidableEq κ] {writes : List (Write ν)} {cell : κ} {ok : ((cell : κ) → ν cell) → Write ν → Prop}

def writeAll (writes : List (Write ν)) (store : (cell : κ) → ν cell) : (cell : κ) → ν cell :=
  writes.foldl (fun store write => update store write.1 write.2) store

@[simp] theorem writeAll_nil (store : (cell : κ) → ν cell) : writeAll [] store = store := rfl

@[simp] theorem writeAll_cons (write : Write ν) (writes : List (Write ν)) (store : (cell : κ) → ν cell) :
    writeAll (write :: writes) store = writeAll writes (update store write.1 write.2) := rfl

theorem writeAll_append (first later : List (Write ν)) (store : (cell : κ) → ν cell) :
    writeAll (first ++ later) store = writeAll later (writeAll first store) :=
  foldl_append

def Along (ok : ((cell : κ) → ν cell) → Write ν → Prop) : ((cell : κ) → ν cell) → List (Write ν) → Prop
  | _, [] => True
  | store, write :: writes => ok store write ∧ Along ok (update store write.1 write.2) writes

theorem along_append (first later : List (Write ν)) (store : (cell : κ) → ν cell) :
    Along ok store (first ++ later) ↔ Along ok store first ∧ Along ok (writeAll first store) later := by
  induction first generalizing store with
  | nil => simp [Along]
  | cons write first ih => rw [cons_append, Along, ih, Along, writeAll_cons, and_assoc]

theorem Along.mono {ok' : ((cell : κ) → ν cell) → Write ν → Prop} {store : (cell : κ) → ν cell}
    (along : Along ok store writes)
    (weaker : ∀ store write, ok store write → ok' store write) : Along ok' store writes := by
  induction writes generalizing store with
  | nil => trivial
  | cons write writes ih => exact ⟨weaker _ _ along.1, ih along.2⟩

theorem along_of_forall {ok : Write ν → Prop} (all : ∀ write ∈ writes, ok write)
    (store : (cell : κ) → ν cell) : Along (fun _ => ok) store writes := by
  induction writes generalizing store with
  | nil => trivial
  | cons write writes ih =>
    exact ⟨all write mem_cons_self, ih (fun w later => all w (mem_cons_of_mem _ later)) _⟩

def lastWrite (cell : κ) : List (Write ν) → Option (ν cell)
  | [] => none
  | write :: writes =>
      (lastWrite cell writes).or (if same : write.1 = cell then some (same ▸ write.2) else none)

theorem writeAll_apply (writes : List (Write ν)) (store : (cell : κ) → ν cell) (cell : κ) :
    writeAll writes store cell = (lastWrite cell writes).getD (store cell) := by
  induction writes generalizing store with
  | nil => rfl
  | cons write writes ih =>
    rw [writeAll_cons, ih, lastWrite]
    cases lastWrite cell writes with
    | some value => rfl
    | none =>
      by_cases same : write.1 = cell
      · subst same; simp
      · simp [same, update_of_ne (Ne.symm same)]

theorem lastWrite_mem {value : ν cell}
    (last : lastWrite cell writes = some value) : ⟨cell, value⟩ ∈ writes := by
  induction writes with
  | nil => cases last
  | cons write writes ih =>
    rw [lastWrite] at last
    cases later : lastWrite cell writes with
    | some other =>
      rw [later] at last
      cases last
      exact mem_cons_of_mem _ (ih later)
    | none =>
      rw [later] at last
      by_cases same : write.1 = cell
      · subst same
        simp only [dite_true, Option.none_or, Option.some.injEq] at last
        subst last
        exact mem_cons_self
      · simp [same] at last

theorem writeAll_idem (writes : List (Write ν)) (store : (cell : κ) → ν cell) :
    writeAll writes (writeAll writes store) = writeAll writes store := by
  funext cell
  rw [writeAll_apply, writeAll_apply]
  cases lastWrite cell writes <;> rfl

theorem writeAll_comm {left right : List (Write ν)} (agree : Agree left right) (store : (cell : κ) → ν cell) :
    writeAll right (writeAll left store) = writeAll left (writeAll right store) := by
  funext cell
  simp only [writeAll_apply]
  cases inLeft : lastWrite cell left with
  | none => simp
  | some first =>
    cases inRight : lastWrite cell right with
    | none => simp
    | some second =>
      have same := agree _ (lastWrite_mem inLeft) _ (lastWrite_mem inRight) rfl
      cases same
      rfl

/-- Replace the write to the same cell, or append: a batch that holds each cell once. -/
def put (write : Write ν) : List (Write ν) → List (Write ν)
  | [] => [write]
  | first :: rest => if first.1 = write.1 then write :: rest else first :: put write rest

theorem mem_cells_put (write : Write ν) (writes : List (Write ν)) (cell : κ) :
    cell ∈ (put write writes).map Sigma.fst ↔ cell = write.1 ∨ cell ∈ writes.map Sigma.fst := by
  induction writes with
  | nil => simp [put]
  | cons first rest ih =>
    rw [put]
    split
    next same => simp [same]
    next other =>
      rw [map_cons, mem_cons, ih, map_cons, mem_cons]
      tauto

theorem mem_put {write other : Write ν} (mem : other ∈ put write writes) :
    other = write ∨ other ∈ writes := by
  induction writes with
  | nil => exact .inl (mem_singleton.mp mem)
  | cons first rest ih =>
    rw [put] at mem
    split at mem
    · rcases mem_cons.mp mem with here | later
      · exact .inl here
      · exact .inr (mem_cons_of_mem _ later)
    · rcases mem_cons.mp mem with here | later
      · exact .inr (here ▸ mem_cons_self)
      · exact (ih later).imp_right (mem_cons_of_mem _)

theorem nodup_put (write : Write ν)
    (once : (writes.map Sigma.fst).Nodup) : ((put write writes).map Sigma.fst).Nodup := by
  induction writes with
  | nil => simp [put]
  | cons first rest ih =>
    obtain ⟨fresh, once⟩ := nodup_cons.mp once
    rw [put]
    split
    next same => exact nodup_cons.mpr ⟨same ▸ fresh, once⟩
    next other =>
      refine nodup_cons.mpr ⟨fun mem => ?_, ih once⟩
      exact ((mem_cells_put write rest first.1).mp mem).elim other fresh

theorem writeAll_of_notMem (absent : cell ∉ writes.map Sigma.fst) (value : ν cell)
    (store : (cell : κ) → ν cell) : writeAll writes (update store cell value) =
      update (writeAll writes store) cell value := by
  induction writes generalizing store with
  | nil => rfl
  | cons first rest ih =>
    rw [map_cons, mem_cons, not_or] at absent
    rw [writeAll_cons, writeAll_cons, ← ih absent.2, update_comm absent.1]

theorem writeAll_put (write : Write ν) (once : (writes.map Sigma.fst).Nodup)
    (store : (cell : κ) → ν cell) : writeAll (put write writes) store =
      update (writeAll writes store) write.1 write.2 := by
  induction writes generalizing store with
  | nil => rfl
  | cons first rest ih =>
    obtain ⟨fresh, once⟩ := nodup_cons.mp once
    rw [put]
    split
    next same =>
      obtain ⟨cell, value⟩ := first
      obtain ⟨_, value'⟩ := write
      cases same
      rw [writeAll_cons, writeAll_cons, ← writeAll_of_notMem fresh, update_idem]
    next other => rw [writeAll_cons, writeAll_cons, ih once]

variable {β : Type} (batch : β → List (Write ν))

theorem writeAll_flatMap_comm (head : β) (early : List β)
    (agree : ∀ mem ∈ early, Agree (batch mem) (batch head)) (store : (cell : κ) → ν cell) :
    writeAll (batch head) (writeAll (early.flatMap batch) store) =
      writeAll (early.flatMap batch) (writeAll (batch head) store) := by
  induction early generalizing store with
  | nil => rfl
  | cons mem early ih =>
    obtain ⟨one, others⟩ := forall_mem_cons.mp agree
    simp only [flatMap_cons, writeAll_append]
    rw [ih others, writeAll_comm one]

/-- Batches may be reordered when each pair that changes places agrees: `before` is the
wanted order, and `sorted` lists the same batches in it. -/
theorem writeAll_reorder (before : β → β → Prop) (actual sorted : List β) (perm : actual.Perm sorted)
    (order : sorted.Pairwise before) (agree : actual.Pairwise fun first second => before second first →
      Agree (batch first) (batch second)) (store : (cell : κ) → ν cell) :
    writeAll (actual.flatMap batch) store = writeAll (sorted.flatMap batch) store := by
  induction sorted generalizing actual store with
  | nil => rw [perm.eq_nil]
  | cons head sorted ih =>
    obtain ⟨early, late, rfl⟩ := append_of_mem (perm.mem_iff.mpr mem_cons_self)
    have rest : (early ++ late).Perm sorted := (perm_middle.symm.trans perm).cons_inv
    obtain ⟨first, order⟩ := pairwise_cons.mp order
    obtain ⟨_, _, cross⟩ := pairwise_append.mp agree
    -- Everything in front of the head is wanted after it, so the head can move to the front.
    have movable : ∀ mem ∈ early, Agree (batch mem) (batch head) := fun mem inEarly =>
      cross mem inEarly head mem_cons_self
        (first mem (rest.mem_iff.mp (mem_append_left _ inEarly)))
    have shorter := ih (early ++ late) rest order
      (agree.sublist (by simp)) (writeAll (batch head) store)
    simp only [flatMap_append, flatMap_cons, writeAll_append] at shorter ⊢
    rw [writeAll_flatMap_comm batch head early movable, shorter]

end Store
