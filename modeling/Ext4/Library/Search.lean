import Mathlib.Order.Basic
import Mathlib.Data.List.Basic

/-! Binary search for the first index at which a predicate holds, as a loop over `[lo, hi)`.
The predicate need not be monotone: the result always has a failing index before it and a
holding one at it; monotonicity makes it the first one. -/

namespace Search

/-- Every round shortens the interval, so as many rounds as indices are enough. -/
def loop (holds : Nat → Bool) : Nat → Nat → Nat → Nat
  | 0, lo, _ => lo
  | rounds + 1, lo, hi =>
      if lo < hi then
        let mid := (lo + hi) / 2
        if holds mid then loop holds rounds lo mid else loop holds rounds (mid + 1) hi
      else lo

/-- `sort.Search(n, holds)`. -/
def search (n : Nat) (holds : Nat → Bool) : Nat := loop holds n 0 n

/-- What a search leaves behind: nothing fails at it, nothing holds just before it. -/
structure Found (n : Nat) (holds : Nat → Bool) (at' : Nat) : Prop where
  le : at' ≤ n
  here : at' < n → holds at'
  before : ∀ k, at' = k + 1 → holds k = false

variable {holds : Nat → Bool}

theorem loop_found {n : Nat} (rounds lo hi : Nat) (enough : hi - lo ≤ rounds) (order : lo ≤ hi)
    (bound : hi ≤ n) (high : hi < n → holds hi)
    (low : ∀ k, lo = k + 1 → holds k = false) : Found n holds (loop holds rounds lo hi) := by
  induction rounds generalizing lo hi with
  | zero =>
    have same : lo = hi := by omega
    subst same
    exact ⟨bound, high, low⟩
  | succ rounds ih =>
    rw [loop]
    split
    · rename_i inside
      simp only
      split
      · rename_i yes
        exact ih lo _ (by omega) (by omega) (by omega) (fun _ => yes) low
      · rename_i no
        refine ih _ hi (by omega) (by omega) bound high fun k same => ?_
        rw [← Nat.succ.inj same]
        exact Bool.eq_false_iff.mpr no
    · have same : lo = hi := by omega
      subst same
      exact ⟨bound, high, low⟩

theorem search_found (n : Nat) (holds : Nat → Bool) : Found n holds (search n holds) :=
  loop_found n 0 n (by omega) (Nat.zero_le n) (Nat.le_refl n) (fun less => absurd less (Nat.lt_irrefl n))
    fun _ same => nomatch same

theorem search_eq {n k : Nat} (inside : k ≤ n) (below : ∀ i < k, holds i = false)
    (above : ∀ i, k ≤ i → i < n → holds i) : search n holds = k := by
  have found := search_found n holds
  rcases Nat.lt_trichotomy (search n holds) k with less | same | more
  · have here := found.here (by omega)
    rw [below _ less] at here
    cases here
  · exact same
  · obtain ⟨before, next⟩ := Nat.exists_eq_add_of_lt more
    have fails := found.before (k + before) (by omega)
    have le := found.le
    rw [above (k + before) (by omega) (by omega)] at fails
    cases fails

theorem search_below {n i : Nat} (monotone : ∀ i j, i ≤ j → j < n → holds i → holds j)
    (less : i < search n holds) : holds i = false := by
  have found := search_found n holds
  obtain ⟨before, next⟩ : ∃ k, search n holds = k + 1 := ⟨search n holds - 1, by omega⟩
  have fails := found.before before next
  have le := found.le
  cases here : holds i with
  | false => rfl
  | true =>
    rw [monotone i before (by omega) (by omega) here] at fails
    cases fails

end Search
