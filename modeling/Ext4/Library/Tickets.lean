import Mathlib.Data.List.Nodup
import Mathlib.Data.Nat.ModEq

/-! A line of ticket holders behind a counter that wraps.
Numbers are handed out in turn modulo `width`; `serving` is the number whose holder may go. The
holders are listed in the order of their tickets, and the first `passed` of them have gone. -/

namespace Tickets
open List

variable {α : Type} {width start next serving passed i : Nat} {number : α → Nat} {handed : List α}
  {p : α}

/-- As long as the line is no longer than the numbers there are, a number names one holder. -/
structure Line (width start next serving : Nat) (number : α → Nat) (handed : List α)
    (passed : Nat) : Prop where
  next : next = (start + handed.length) % width
  serving : serving = (start + passed) % width
  numbers : ∀ i p, handed[i]? = some p → number p = (start + i) % width
  distinct : handed.Nodup
  gone : passed ≤ handed.length
  short : handed.length ≤ passed + width

theorem mod_inj {a j : Nat} (same : (a + i) % width = (a + j) % width) (ordered : i ≤ j)
    (near : j < i + width) : i = j := by
  have congruent : i ≡ j [MOD width] := Nat.ModEq.add_left_cancel' a same
  have divides : width ∣ j - i := (Nat.modEq_iff_dvd' ordered).mp congruent
  have zero := Nat.eq_zero_of_dvd_of_lt divides (by omega)
  omega

theorem Line.empty (start : Nat) (number : α → Nat) :
    Line width start (start % width) (start % width) number [] 0 where
  next := rfl
  serving := rfl
  numbers := by simp
  distinct := nodup_nil
  gone := Nat.le_refl _
  short := Nat.zero_le _

section
variable (line : Line width start next serving number handed passed) {number' : α → Nat}
include line

theorem Line.congr (same : ∀ p ∈ handed, number' p = number p) :
    Line width start next serving number' handed passed where
  next := line.next
  serving := line.serving
  numbers i p found := (same p (mem_of_getElem? found)).trans (line.numbers i p found)
  distinct := line.distinct
  gone := line.gone
  short := line.short

theorem Line.take (fresh : p ∉ handed) (room : handed.length < passed + width)
    (own : number' p = next) (same : ∀ q ∈ handed, number' q = number q) :
    Line width start ((next + 1) % width) serving number' (handed ++ [p]) passed where
  next := by
    rw [line.next, length_append, length_singleton, Nat.mod_add_mod, Nat.add_assoc]
  serving := line.serving
  numbers i q found := by
    rcases Nat.lt_or_ge i handed.length with early | late
    · rw [getElem?_append_left early] at found
      exact (same q (mem_of_getElem? found)).trans (line.numbers i q found)
    · rw [getElem?_append_right late] at found
      have last := (List.getElem?_eq_some_iff.mp found).1
      rw [length_singleton] at last
      have index : i = handed.length := by omega
      rw [index, Nat.sub_self] at found
      cases found
      rw [own, line.next, index]
  distinct := line.distinct.append (nodup_singleton p) (by simpa using fresh)
  gone := by
    have := line.gone
    simp only [length_append, length_singleton]
    omega
  short := by
    simp only [length_append, length_singleton]
    omega

theorem Line.holder (found : handed[i]? = some p) (waiting : passed ≤ i) (called : number p = serving) :
    i = passed := by
  have place := (List.getElem?_eq_some_iff.mp found).1
  rw [line.numbers i p found, line.serving] at called
  have short := line.short
  exact (mod_inj called.symm waiting (by omega)).symm

theorem Line.called (first : handed[passed]? = some p) : number p = serving :=
  (line.numbers passed p first).trans line.serving.symm

theorem Line.pass (first : handed[passed]? = some p) :
    Line width start next ((serving + 1) % width) number handed (passed + 1) where
  next := line.next
  serving := by rw [line.serving, Nat.mod_add_mod, Nat.add_assoc]
  numbers := line.numbers
  distinct := line.distinct
  gone := (List.getElem?_eq_some_iff.mp first).1
  short := by
    have := line.short
    omega

theorem Line.room (positive : 0 < width)
    (unused : ∀ i p, handed[i]? = some p → passed ≤ i → number p ≠ next) :
    handed.length < passed + width := by
  by_contra full
  have short := line.short
  have length : handed.length = passed + width := by omega
  have inside : passed < handed.length := by omega
  refine unused passed handed[passed] (getElem?_eq_getElem inside) (Nat.le_refl _) ?_
  rw [line.called (getElem?_eq_getElem inside), line.serving, line.next, length,
    ← Nat.add_assoc, Nat.add_mod_right]

theorem Line.first_or_empty :
    (∃ p, handed[passed]? = some p) ∨ (handed.length = passed ∧ next = serving) := by
  rcases Nat.lt_or_ge passed handed.length with waiting | none
  · exact Or.inl ⟨_, getElem?_eq_getElem waiting⟩
  · have length : handed.length = passed := Nat.le_antisymm none line.gone
    exact Or.inr ⟨length, by rw [line.next, line.serving, length]⟩

end

end Tickets
