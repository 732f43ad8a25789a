import Ext4.Alloc.Dispatcher

/-! `findFreeRunForTx`, the search of `allocBlocksWithTx` in a bitmap.
Runs that hold a block the transaction has staged are marked and the search begins again. -/

namespace Ext4.Staging
open Alloc

structure Layout extends Geometry where
  firstDataBlock : Nat

/-- `findFreeRunForTx`: runs with a block that the transaction has staged are skipped. Each round
marks at least one more bit, so `maxBits + 1` rounds are enough; `none` says that the rounds were
used up, `some none` that there is no run. -/
def findFreeRunForTx (staged : Nat → Bool) (maxBits n : Nat) : Nat → Bits → Option (Option (List Nat))
  | 0, _ => none
  | rounds + 1, searchMap =>
      match findFreeRun searchMap maxBits n with
      | none => some none
      | some bits =>
          if bits.any staged then
            findFreeRunForTx staged maxBits n rounds (setBits (bits.filter staged) searchMap)
          else some (some bits)

variable {staged : Nat → Bool}

theorem findFreeRunForTx_spec {maxBits n rounds : Nat} {searchMap : Bits}
    {bits : List Nat} (found : findFreeRunForTx staged maxBits n rounds searchMap = some (some bits)) :
    bits.Nodup ∧ bits.length = n ∧ ∀ b ∈ bits, searchMap b = false ∧ b < maxBits := by
  induction rounds generalizing searchMap with
  | zero => cases found
  | succ rounds ih =>
    rw [findFreeRunForTx] at found
    split at found
    · cases found
    next run search =>
      split at found
      · obtain ⟨nodup, long, clear⟩ := ih found
        refine ⟨nodup, long, fun b mem => ?_⟩
        obtain ⟨unset, inRange⟩ := clear b mem
        rw [setBits, Bool.or_eq_false_iff] at unset
        exact ⟨unset.2, inRange⟩
      · cases found
        exact findFreeRun_spec search

theorem findFreeRunForTx_unstaged (none : ∀ b, staged b = false)
    (maxBits n rounds : Nat) (searchMap : Bits) :
    findFreeRunForTx staged maxBits n (rounds + 1) searchMap = some (findFreeRun searchMap maxBits n) := by
  rw [findFreeRunForTx]
  cases findFreeRun searchMap maxBits n with
  | none => rfl
  | some bits =>
    have noConflict : bits.any staged = false := by simp [none]
    simp [noConflict]

theorem findFreeRunForTx_ends {maxBits n rounds : Nat} {searchMap : Bits}
    (enough : clearCount maxBits searchMap < rounds) :
    (∀ more, findFreeRunForTx staged maxBits n (rounds + more) searchMap =
      findFreeRunForTx staged maxBits n rounds searchMap) ∧
    match findFreeRunForTx staged maxBits n rounds searchMap with
    | some (some bits) => ∀ b ∈ bits, staged b = false
    | some none => clearCount maxBits (fun b => searchMap b || staged b) < n
    | none => False := by
  induction rounds generalizing searchMap with
  | zero => cases enough
  | succ rounds ih =>
    simp only [Nat.add_right_comm _ 1, findFreeRunForTx]
    cases search : findFreeRun searchMap maxBits n with
    | none =>
      refine ⟨fun _ => rfl, Nat.lt_of_not_le fun many => ?_⟩
      have fewer : clearCount maxBits (fun b => searchMap b || staged b) ≤ clearCount maxBits searchMap :=
        clearCount_anti fun b _ clear => (Bool.or_eq_false_iff.mp clear).1
      have found := findFreeRun_isSome (many.trans fewer)
      rw [search] at found
      cases found
    | some bits =>
      dsimp only
      split
      next conflict =>
        obtain ⟨nodup, -, clear⟩ := findFreeRun_spec search
        have marks : ∀ b ∈ bits.filter staged, searchMap b = false ∧ b < maxBits := fun b mem =>
          clear b (List.mem_of_mem_filter mem)
        obtain ⟨b, mem, marked⟩ := List.any_eq_true.mp conflict
        have some := List.length_pos_of_mem (List.mem_filter.mpr ⟨mem, marked⟩)
        have few := length_le_clearCount (nodup.filter staged) marks
        have fewer := clearCount_setBits (nodup.filter staged) marks
        have unmarked : (fun b => setBits (bits.filter staged) searchMap b || staged b) =
            fun b => searchMap b || staged b := by
          funext b
          cases here : staged b <;> simp [setBits, here]
        rw [← unmarked]
        exact ih (by omega)
      next apart => exact ⟨fun _ => rfl, by simpa using apart⟩

/-- The loop of the source has no bound; any number of rounds above `maxBits` gives its result. -/
theorem findFreeRunForTx_exact (staged : Nat → Bool) (maxBits n : Nat) (bitmap : Bits) :
    ∃ result, (∀ rounds, maxBits < rounds → findFreeRunForTx staged maxBits n rounds bitmap = some result) ∧
      match result with
      | some bits => bits.Nodup ∧ bits.length = n ∧ (∀ b ∈ bits, bitmap b = false ∧ b < maxBits) ∧
          ∀ b ∈ bits, staged b = false
      | none => clearCount maxBits (fun b => bitmap b || staged b) < n := by
  obtain ⟨same, complete⟩ := @findFreeRunForTx_ends staged maxBits n (maxBits + 1) bitmap
    (Nat.lt_succ_of_le (clearCount_le _ _))
  cases ended : findFreeRunForTx staged maxBits n (maxBits + 1) bitmap with
  | none =>
    rw [ended] at complete
    exact complete.elim
  | some result =>
    refine ⟨result, fun rounds more => ?_, ?_⟩
    · obtain ⟨extra, rfl⟩ := Nat.exists_eq_add_of_le (Nat.succ_le_of_lt more)
      exact (same extra).trans ended
    · rw [ended] at complete
      cases result with
      | none => exact complete
      | some bits =>
        obtain ⟨nodup, long, clear⟩ := findFreeRunForTx_spec ended
        exact ⟨nodup, long, clear, complete⟩

end Ext4.Staging
