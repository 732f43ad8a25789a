import Mathlib.Data.List.Nodup
import Mathlib.Data.List.Perm.Subperm
import Mathlib.Data.List.Range

/-! Allocation bitmaps of a block group and the two first-fit searches over them. -/

namespace Ext4.Alloc
open List

abbrev Bits := Nat → Bool

def setBits (bits : List Nat) (bitmap : Bits) : Bits := fun i => decide (i ∈ bits) || bitmap i

def clearBit (bit : Nat) (bitmap : Bits) : Bits := Function.update bitmap bit false

def clearCount (n : Nat) (bitmap : Bits) : Nat := (range n).countP fun i => bitmap i = false

@[simp] theorem setBits_apply (bits : List Nat) (bitmap : Bits) (i : Nat) :
    setBits bits bitmap i ↔ i ∈ bits ∨ bitmap i := by
  simp [setBits]

variable {bit : Nat}

theorem clearBit_ne {i : Nat} (other : i ≠ bit) (bitmap : Bits) :
    clearBit bit bitmap i = bitmap i := Function.update_of_ne other _ _

theorem clearCount_le (n : Nat) (bitmap : Bits) : clearCount n bitmap ≤ n :=
  countP_le_length.trans length_range.le

variable {n : Nat}

theorem clearCount_congr {one two : Bits} (same : ∀ i < n, one i = two i) :
    clearCount n one = clearCount n two :=
  countP_congr fun i mem => by rw [same i (mem_range.mp mem)]

variable {bitmap : Bits} {bits : List Nat}

theorem clearCount_setBits (once : bits.Nodup) (clear : ∀ b ∈ bits, bitmap b = false ∧ b < n) :
    clearCount n (setBits bits bitmap) = clearCount n bitmap - bits.length := by
  have members : ((range n).filter fun i => decide (i ∈ bits)).Perm bits := by
    refine (perm_ext_iff_of_nodup (nodup_range.filter _) once).mpr fun i => ?_
    simp only [mem_filter, mem_range, decide_eq_true_eq]
    exact ⟨fun found => found.2, fun mem => ⟨(clear i mem).2, mem⟩⟩
  have taken : ((range n).filter fun i => decide (i ∈ bits)).countP
      (fun i => bitmap i = false) = bits.length := by
    rw [countP_eq_length.mpr, members.length_eq]
    intro i mem
    simpa using (clear i (members.mem_iff.mp mem)).1
  have left : clearCount n (setBits bits bitmap) =
      ((range n).filter fun i => !decide (i ∈ bits)).countP fun i => bitmap i = false := by
    rw [clearCount, countP_filter]
    refine countP_congr fun i _ => ?_
    simp [setBits, and_comm]
  have split := countP_eq_countP_filter_add (range n) (fun i => decide (bitmap i = false))
    fun i => decide (i ∈ bits)
  rw [left]
  unfold clearCount
  omega

theorem clearCount_window {low high : Nat}
    (window : ∀ i < n, bitmap i = (decide (i < low) || decide (high ≤ i))) :
    clearCount n bitmap = min high n - low := by
  induction n with
  | zero => simp [clearCount]
  | succ n ih =>
    have before := ih fun i below => window i (by omega)
    have last := window n (Nat.lt_succ_self n)
    unfold clearCount at before ⊢
    rw [range_succ, countP_append, before, countP_singleton, last]
    by_cases below : n < low
    · simp only [below, decide_true, Bool.true_or, Bool.true_eq_false, decide_false,
        Bool.false_eq_true, if_false]
      omega
    · by_cases above : high ≤ n
      · simp only [above, decide_true, Bool.or_true, Bool.true_eq_false, decide_false,
          Bool.false_eq_true, if_false]
        omega
      · simp only [below, above, decide_false, Bool.or_self, decide_true, if_true]
        omega

theorem clearCount_anti {one two : Bits} (clear : ∀ i < n, one i = false → two i = false) :
    clearCount n one ≤ clearCount n two :=
  countP_mono_left fun i mem => by
    simpa using clear i (mem_range.mp mem)

variable {maxBits : Nat}

theorem length_le_clearCount (nodup : bits.Nodup)
    (clear : ∀ b ∈ bits, bitmap b = false ∧ b < maxBits) : bits.length ≤ clearCount maxBits bitmap := by
  have inside : bits ⊆ (range maxBits).filter fun i => bitmap i = false := fun b mem =>
    mem_filter.mpr ⟨mem_range.mpr (clear b mem).2, by simpa using (clear b mem).1⟩
  rw [clearCount, countP_eq_length_filter]
  exact (nodup.subperm inside).length_le

theorem clearCount_clearBit (inRange : bit < n) (set : bitmap bit) :
    clearCount n (clearBit bit bitmap) = clearCount n bitmap + 1 := by
  have clear : ∀ b ∈ [bit], clearBit bit bitmap b = false ∧ b < n := by
    simp [clearBit, inRange]
  have again : setBits [bit] (clearBit bit bitmap) = bitmap := by
    funext i
    by_cases here : i = bit
    · simp [setBits, here, set]
    · simp [setBits, here, clearBit_ne here]
  have counted := clearCount_setBits (nodup_singleton bit) clear
  have some := length_le_clearCount (nodup_singleton bit) clear
  rw [again] at counted
  rw [length_singleton] at counted some
  omega

/-- The search loop of `findFreeRun` over the next `left` bits from `i` on; it returns the
start of the run. -/
def findFreeRunLoop (bitmap : Bits) (n : Nat) : Nat → Nat → Nat → Nat → Option Nat
  | _, _, _, 0 => none
  | i, runStart, runLen, left + 1 =>
      if bitmap i = false then
        let runStart := if runLen = 0 then i else runStart
        if runLen + 1 = n then some runStart
        else findFreeRunLoop bitmap n (i + 1) runStart (runLen + 1) left
      else findFreeRunLoop bitmap n (i + 1) runStart 0 left

/-- The first `n` clear bits, wherever they are. -/
def freeBits (bitmap : Bits) (maxBits n : Nat) : List Nat :=
  ((range maxBits).filter fun i => bitmap i = false).take n

def findFreeRun (bitmap : Bits) (maxBits n : Nat) : Option (List Nat) :=
  if n = 0 then some []
  else match findFreeRunLoop bitmap n 0 0 0 maxBits with
    | some start => some (range' start n)
    | none =>
        -- No contiguous run: the clear bits are collected one by one.
        let bits := freeBits bitmap maxBits n
        if bits.length = n then some bits else none

def findFreeBit (bitmap : Bits) (maxBits : Nat) : Option Nat :=
  (range maxBits).find? fun i => bitmap i = false

/-- `n` clear bits in a row from `start` on. -/
def FreeRun (bitmap : Bits) (maxBits n start : Nat) : Prop :=
  start + n ≤ maxBits ∧ ∀ j, start ≤ j → j < start + n → bitmap j = false

section
variable {i runStart runLen left start : Nat}

theorem findFreeRun_runStart (run : runLen ≠ 0 → runStart + runLen = i) :
    (if runLen = 0 then i else runStart) + (runLen + 1) = i + 1 := by
  split
  · omega
  · have := run ‹_›
    omega

/-- The loop keeps: the last `runLen` bits before `i` are clear and start at `runStart`. -/
theorem findFreeRunLoop_free (short : runLen < n) (run : runLen ≠ 0 → runStart + runLen = i)
    (clear : ∀ j, j < i → i ≤ j + runLen → bitmap j = false)
    (found : findFreeRunLoop bitmap n i runStart runLen left = some start) :
    FreeRun bitmap (i + left) n start := by
  induction left generalizing i runStart runLen with
  | zero => cases found
  | succ left ih =>
    rw [Nat.add_comm left, ← Nat.add_assoc]
    rw [findFreeRunLoop] at found
    split at found
    next free =>
      have clear' : ∀ j, j < i + 1 → i + 1 ≤ j + (runLen + 1) → bitmap j = false := by
        intro j below above
        by_cases here : j = i
        · rw [here, free]
        · exact clear j (by omega) (by omega)
      have run' := findFreeRun_runStart run
      simp only at found
      split at found
      next complete =>
        cases found
        exact ⟨by omega, fun j low high => clear' j (by omega) (by omega)⟩
      next => exact ih (by omega) (fun _ => run') clear' found
    next => exact ih (by omega) (fun zero => absurd rfl zero) (fun j _ _ => by omega) found

theorem findFreeRunLoop_first (short : runLen < n) (run : runLen ≠ 0 → runStart + runLen = i)
    (later : i ≤ start + runLen) (free : FreeRun bitmap (i + left) n start) :
    ∃ first ≤ start, findFreeRunLoop bitmap n i runStart runLen left = some first := by
  obtain ⟨fits, clear⟩ := free
  induction left generalizing i runStart runLen with
  | zero => omega
  | succ left ih =>
    rw [findFreeRunLoop]
    split
    next free =>
      have run' := findFreeRun_runStart run
      dsimp only
      split
      · exact ⟨_, by omega, rfl⟩
      · exact ih (by omega) (fun _ => run') (by omega) (by omega)
    next set =>
      -- A set bit inside the run would contradict `clear`.
      have after : i < start := by
        by_contra inside
        exact set (clear i (by omega) (by omega))
      exact ih (by omega) (fun zero => absurd rfl zero) (by omega) (by omega)

end

theorem findFreeRun_cases (found : findFreeRun bitmap maxBits n = some bits) :
    (∃ first, FreeRun bitmap maxBits n first ∧ bits = range' first n ∧
      ∀ start, FreeRun bitmap maxBits n start → first ≤ start) ∨
    (∀ start, ¬ FreeRun bitmap maxBits n start) ∧ bits = freeBits bitmap maxBits n ∧ bits.length = n := by
  have ahead {start : Nat} (positive : n ≠ 0) (free : FreeRun bitmap maxBits n start) :
      ∃ first ≤ start, findFreeRunLoop bitmap n 0 0 0 maxBits = some first :=
    findFreeRunLoop_first (by omega) (fun zero => absurd rfl zero) (by omega) (by rwa [Nat.zero_add])
  unfold findFreeRun at found
  split at found
  next none =>
    cases found
    exact .inl ⟨0, ⟨by omega, fun j _ _ => by omega⟩, by rw [none]; rfl, fun _ _ => Nat.zero_le _⟩
  next positive =>
    split at found
    next start loop =>
      cases found
      have free := findFreeRunLoop_free (by omega) (fun zero => absurd rfl zero) (fun j low _ => by omega) loop
      rw [Nat.zero_add] at free
      refine .inl ⟨start, free, rfl, fun other free' => ?_⟩
      obtain ⟨first, before, loop'⟩ := ahead positive free'
      cases loop.symm.trans loop'
      exact before
    next loop =>
      refine .inr ⟨fun start free => ?_, ?_⟩
      · obtain ⟨first, -, loop'⟩ := ahead positive free
        cases loop.symm.trans loop'
      · dsimp only at found
        split at found
        next enough =>
          cases found
          exact ⟨rfl, enough⟩
        · cases found

theorem freeBits_spec (bitmap : Bits) (maxBits n : Nat) : (freeBits bitmap maxBits n).Nodup ∧
      ∀ b ∈ freeBits bitmap maxBits n, bitmap b = false ∧ b < maxBits := by
  refine ⟨(nodup_range.filter _).sublist (take_sublist _ _), fun b mem => ?_⟩
  obtain ⟨inRange, clear⟩ := mem_filter.mp (mem_of_mem_take mem)
  exact ⟨by simpa using clear, mem_range.mp inRange⟩

theorem findFreeRun_spec (found : findFreeRun bitmap maxBits n = some bits) :
    bits.Nodup ∧ bits.length = n ∧ ∀ b ∈ bits, bitmap b = false ∧ b < maxBits := by
  obtain ⟨first, ⟨fits, clear⟩, rfl, -⟩ | ⟨-, rfl, long⟩ := findFreeRun_cases found
  · refine ⟨nodup_range', length_range', fun b mem => ?_⟩
    obtain ⟨low, high⟩ := mem_range'_1.mp mem
    exact ⟨clear b low high, by omega⟩
  · obtain ⟨nodup, clear⟩ := freeBits_spec bitmap maxBits n
    exact ⟨nodup, long, clear⟩

theorem findFreeRun_isSome (enough : n ≤ clearCount maxBits bitmap) :
    (findFreeRun bitmap maxBits n).isSome := by
  unfold findFreeRun
  split
  · rfl
  split
  · rfl
  · rw [clearCount, countP_eq_length_filter] at enough
    have long : (freeBits bitmap maxBits n).length = n := by
      rw [freeBits, length_take, Nat.min_eq_left enough]
    simp [long]

/-- The search succeeds exactly when there are enough clear bits, and prefers the lowest ones. -/
theorem findFreeRun_lowest (bitmap : Bits) (maxBits n : Nat) :
    ((findFreeRun bitmap maxBits n).isSome ↔ n ≤ clearCount maxBits bitmap) ∧
    ∀ bits, findFreeRun bitmap maxBits n = some bits →
      (∃ first, FreeRun bitmap maxBits n first ∧ bits = range' first n ∧
        ∀ start, FreeRun bitmap maxBits n start → first ≤ start) ∨
      (∀ start, ¬ FreeRun bitmap maxBits n start) ∧
        bits = ((range maxBits).filter fun i => bitmap i = false).take n := by
  refine ⟨⟨fun some => ?_, findFreeRun_isSome⟩, fun bits found => ?_⟩
  · obtain ⟨bits, found⟩ := Option.isSome_iff_exists.mp some
    obtain ⟨nodup, long, clear⟩ := findFreeRun_spec found
    exact long ▸ length_le_clearCount nodup clear
  · exact (findFreeRun_cases found).imp_right fun scattered => ⟨scattered.1, scattered.2.1⟩

theorem findFreeBit_isSome (inRange : bit < maxBits)
    (clear : bitmap bit = false) : (findFreeBit bitmap maxBits).isSome :=
  find?_isSome.mpr ⟨bit, mem_range.mpr inRange, by simpa using clear⟩

theorem findFreeBit_spec
    (found : findFreeBit bitmap maxBits = some bit) : bitmap bit = false ∧ bit < maxBits := by
  have clear := find?_some found
  have mem := mem_of_find?_eq_some found
  exact ⟨by simpa using clear, mem_range.mp mem⟩

end Ext4.Alloc
