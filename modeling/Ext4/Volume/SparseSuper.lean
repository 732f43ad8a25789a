import Mathlib.Algebra.Group.Nat.Defs
import Mathlib.Data.List.Basic

/-! The sparse-super rule in 32 bits.
`groupIsSparseBackup` multiplies up to the group number in a uint32, so its products are the
powers of 3, 5 and 7 modulo 2^32: they may meet a group number by accident, or stay below it. -/

namespace Ext4.SparseSuper
open List

def climb (g base : Nat) : Nat → Nat → Option Nat
  | 0, _ => none
  | fuel + 1, p => if p < g then climb g base fuel (p * base % 2 ^ 32) else some p

def anyBase (fuel g : Nat) : List Nat → Option Bool
  | [] => some false
  | base :: rest => (climb g base fuel base).bind fun p => if p = g then some true else anyBase fuel g rest

def groupIsSparseBackup (fuel g : Nat) : Option Bool :=
  if g ≤ 1 then some true else if g % 2 = 0 then some false else anyBase fuel g [3, 5, 7]

def IsBackup (g : Nat) : Prop := g = 0 ∨ g = 1 ∨ ∃ base ∈ [3, 5, 7], ∃ k, g = base ^ (k + 1)

def Decides (g : Nat) : Prop :=
  ∃ fuel answer, groupIsSparseBackup fuel g = some answer ∧ (answer = true ↔ IsBackup g)

/-- The product after `k` rounds. -/
def wrapped (base k : Nat) : Nat := base ^ (k + 1) % 2 ^ 32

/-- Round `k` is the first that does not stay below `g`. -/
def First (base g k : Nat) : Prop := g ≤ wrapped base k ∧ ∀ j < k, wrapped base j < g

/-- A power of `base` from 2^32 on leaves `g` modulo 2^32, and every smaller power leaves less. -/
def Struck (base g : Nat) : Prop :=
  ∃ k, 2 ^ 32 ≤ base ^ (k + 1) ∧ base ^ (k + 1) % 2 ^ 32 = g ∧ ∀ j < k, base ^ (j + 1) % 2 ^ 32 < g

variable {base g k p fuel : Nat}

theorem IsBackup.power (backup : IsBackup g) (large : 1 < g) : ∃ base ∈ [3, 5, 7], ∃ k, g = base ^ (k + 1) := by
  obtain rfl | rfl | power := backup
  · omega
  · omega
  · exact power

theorem wrapped_succ (base k : Nat) : wrapped base k * base % 2 ^ 32 = wrapped base (k + 1) := by
  rw [wrapped, Nat.mod_mul_mod, ← pow_succ, wrapped]

theorem First.unique {l : Nat} (one : First base g k) (two : First base g l) : k = l := by
  rcases Nat.lt_trichotomy k l with less | same | more
  · exact absurd (two.2 k less) (Nat.not_lt.mpr one.1)
  · exact same
  · exact absurd (one.2 l more) (Nat.not_lt.mpr two.1)

theorem climb_first {i : Nat} (ends : climb g base fuel (wrapped base i) = some p)
    (below : ∀ j < i, wrapped base j < g) : ∃ k, First base g k ∧ p = wrapped base k := by
  induction fuel generalizing i with
  | zero => cases ends
  | succ fuel ih =>
    rw [climb, wrapped_succ] at ends
    split at ends
    next less =>
      refine ih ends fun j before => ?_
      rcases Nat.lt_succ_iff_lt_or_eq.mp before with earlier | rfl
      · exact below j earlier
      · exact less
    next reached =>
      cases ends
      exact ⟨i, ⟨Nat.not_lt.mp reached, below⟩, rfl⟩

theorem climb_ends {i : Nat} (reached : g ≤ wrapped base k) (later : i ≤ k) (enough : k < i + fuel) :
    ∃ p, climb g base fuel (wrapped base i) = some p := by
  induction fuel generalizing i with
  | zero => omega
  | succ fuel ih =>
    rw [climb, wrapped_succ]
    split
    next less =>
      have other : i ≠ k := by
        rintro rfl
        omega
      exact ih (by omega) (by omega)
    · exact ⟨_, rfl⟩

theorem climb_base (known : base ∈ [3, 5, 7]) :
    climb g base fuel base = climb g base fuel (wrapped base 0) :=
  congrArg _ ((by decide : ∀ base ∈ [3, 5, 7], base = wrapped base 0) base known)

theorem climb_base_first (known : base ∈ [3, 5, 7]) (ends : climb g base fuel base = some p) :
    ∃ k, First base g k ∧ p = wrapped base k :=
  climb_first (climb_base known ▸ ends) fun _ before => absurd before (Nat.not_lt_zero _)

theorem anyBase_false {bases : List Nat} (known : bases ⊆ [3, 5, 7])
    (answered : anyBase fuel g bases = some false) (mem : base ∈ bases) :
    ∃ k, First base g k ∧ wrapped base k ≠ g := by
  induction bases with
  | nil => cases mem
  | cons first rest ih =>
    rw [anyBase, Option.bind_eq_some_iff] at answered
    obtain ⟨p, ends, answered⟩ := answered
    split at answered
    · cases answered
    next other =>
      rcases mem_cons.mp mem with rfl | later
      · obtain ⟨k, met, rfl⟩ := climb_base_first (known mem) ends
        exact ⟨k, met, other⟩
      · exact ih (fun _ in_ => known (mem_cons_of_mem _ in_)) answered later

theorem anyBase_ends {bases : List Nat} (ends : ∀ base ∈ bases, ∃ p, climb g base fuel base = some p) :
    ∃ answer, anyBase fuel g bases = some answer ∧
      (answer = true → ∃ base ∈ bases, climb g base fuel base = some g) := by
  induction bases with
  | nil => exact ⟨false, rfl, nofun⟩
  | cons first rest ih =>
    obtain ⟨p, here⟩ := ends first mem_cons_self
    obtain ⟨answer, answered, hit⟩ := ih fun base mem => ends base (mem_cons_of_mem _ mem)
    rw [anyBase, here, Option.bind_some]
    split
    next same => exact ⟨true, rfl, fun _ => ⟨first, mem_cons_self, same ▸ here⟩⟩
    · refine ⟨answer, answered, fun yes => ?_⟩
      obtain ⟨base, mem, met⟩ := hit yes
      exact ⟨base, mem_cons_of_mem _ mem, met⟩

/-- The powers below 2^32 stay clear of the last eight group numbers, and the loop meets them. -/
theorem power_fits (known : base ∈ [3, 5, 7]) (fits : base ^ (k + 1) < 2 ^ 32) :
    k < 20 ∧ base ^ (k + 1) ≤ 2 ^ 32 - 9 ∧ First base (base ^ (k + 1)) k := by
  have low : 3 ≤ base := (by decide : ∀ base ∈ [3, 5, 7], 3 ≤ base) base known
  have few : k < 20 := Nat.lt_of_not_le fun many => by
    have := Nat.pow_le_pow_left low 21
    have := Nat.pow_le_pow_right (by omega : 0 < base) (by omega : 21 ≤ k + 1)
    omega
  have far : ∀ base ∈ [3, 5, 7], ∀ k < 20, base ^ (k + 1) < 2 ^ 32 → base ^ (k + 1) ≤ 2 ^ 32 - 9 := by decide
  refine ⟨few, far base known k few fits, Nat.le_of_eq (Nat.mod_eq_of_lt fits).symm, fun j less => ?_⟩
  have less := Nat.pow_lt_pow_right (by omega : 1 < base) (by omega : j + 1 < k + 1)
  rwa [wrapped, Nat.mod_eq_of_lt (Nat.lt_trans less fits)]

def powMod : Nat → Nat → Nat → Nat
  | 0, _, _ => 1
  | bits + 1, a, e => powMod bits (a * a % 2 ^ 32) (e / 2) * a ^ (e % 2) % 2 ^ 32

theorem powMod_eq {bits a e : Nat} (small : e < 2 ^ bits) : powMod bits a e % 2 ^ 32 = a ^ e % 2 ^ 32 := by
  induction bits generalizing a e with
  | zero =>
    obtain rfl : e = 0 := by omega
    rfl
  | succ bits ih =>
    rw [powMod, Nat.mod_mod, Nat.mul_mod, ih (by omega), ← Nat.pow_mod, ← Nat.mul_mod, ← pow_two, ← pow_mul,
      ← pow_add, Nat.div_add_mod]

/-- Each loop comes as high as 2^32 - 9, and that of 7 no higher: 7^k is 1 or 7 modulo 16. -/
theorem wrapped_high (known : base ∈ [3, 5, 7]) : ∃ k < 2 ^ 30, 2 ^ 32 - 9 ≤ wrapped base k := by
  have exponents : ∀ base ∈ [3, 5, 7], ∃ e ∈ [365444362, 423929506, 216009062],
      2 ^ 32 - 9 ≤ powMod 30 base (e + 1) % 2 ^ 32 ∧ e + 1 < 2 ^ 30 := by decide
  obtain ⟨k, -, high, small⟩ := exponents base known
  rw [powMod_eq small] at high
  exact ⟨k, by omega, high⟩

theorem wrapped_seven (k : Nat) : wrapped 7 k ≤ 2 ^ 32 - 9 := by
  have residue : 7 ^ (k + 1) % 16 = 7 ∨ 7 ^ (k + 1) % 16 = 1 := by
    induction k with
    | zero => exact .inl rfl
    | succ k ih =>
      rw [pow_succ]
      omega
  rw [wrapped]
  omega

theorem Decides.ends (decides : Decides g) (odd : g % 2 = 1) (large : 1 < g) : IsBackup g ∨
    ∀ base ∈ [3, 5, 7], ∃ k, First base g k ∧ wrapped base k ≠ g := by
  obtain ⟨fuel, answer, answered, rule⟩ := decides
  rw [groupIsSparseBackup, if_neg (by omega), if_neg (by omega)] at answered
  cases answer with
  | true => exact .inl (rule.mp rfl)
  | false => exact .inr fun base => anyBase_false (List.Subset.refl _) answered

theorem Struck.first (struck : Struck base g) : ∃ k, First base g k ∧ wrapped base k = g := by
  obtain ⟨k, -, rfl, less⟩ := struck
  exact ⟨k, ⟨Nat.le_refl _, less⟩, rfl⟩

theorem First.backup_or_struck (first : First base g k) (known : base ∈ [3, 5, 7]) (met : wrapped base k = g) :
    IsBackup g ∨ Struck base g := by
  by_cases wraps : 2 ^ 32 ≤ base ^ (k + 1)
  · exact .inr ⟨k, wraps, met, first.2⟩
  · rw [wrapped, Nat.mod_eq_of_lt (Nat.not_le.mp wraps)] at met
    exact .inl (.inr (.inr ⟨base, known, k, met.symm⟩))

/-- The powers of every base leave more than the largest power below 2^32, which is 3^20, before
they have left another power. -/
theorem Struck.not_backup (struck : Struck base g) (known : base ∈ [3, 5, 7]) (large : 1 < g) : ¬ IsBackup g := by
  intro backup
  obtain ⟨other, power, l, rfl⟩ := backup.power large
  obtain ⟨k, wraps, leaves, less⟩ := struck
  have word : other ^ (l + 1) < 2 ^ 32 := leaves ▸ Nat.mod_lt _ (by decide)
  have few : l < 20 := (power_fits power word).1
  by_cases late : k ≤ 19
  · have apart : ∀ base ∈ [3, 5, 7], ∀ k ≤ 19, 2 ^ 32 ≤ base ^ (k + 1) → ∀ other ∈ [3, 5, 7], ∀ l < 20,
        base ^ (k + 1) % 2 ^ 32 ≠ other ^ (l + 1) := by decide +kernel
    exact apart base known k late wraps other power l few leaves
  · have high : ∀ base ∈ [3, 5, 7], ∃ j < 20, 3 ^ 20 ≤ base ^ (j + 1) % 2 ^ 32 := by decide +kernel
    have top : ∀ other ∈ [3, 5, 7], ∀ l < 20, other ^ (l + 1) < 2 ^ 32 → other ^ (l + 1) ≤ 3 ^ 20 := by decide +kernel
    obtain ⟨j, early, more⟩ := high base known
    have := less j (by omega)
    have := top other power l few word
    omega

/-- The rule is decided for 0, 1 and the even numbers. An odd number must not be among the last
eight, where the loop of 7 runs on for ever, and must not be struck by a power that has wrapped. -/
theorem groupIsSparseBackup_decides_iff (g : UInt32) : Decides g.toNat ↔
    g.toNat ≤ 1 ∨ g.toNat % 2 = 0 ∨ g.toNat ≤ 2 ^ 32 - 9 ∧ ∀ base ∈ [3, 5, 7], ¬ Struck base g.toNat := by
  have word : g.toNat < 2 ^ 32 := g.toNat_lt
  generalize g.toNat = g at word
  by_cases small : g ≤ 1
  · have backup : IsBackup g := by unfold IsBackup; omega
    exact iff_of_true ⟨0, true, if_pos small, iff_of_true rfl backup⟩ (.inl small)
  by_cases even : g % 2 = 0
  · refine iff_of_true ⟨0, false, by rw [groupIsSparseBackup, if_neg small, if_pos even], ?_⟩ (.inr (.inl even))
    refine iff_of_false nofun fun backup => ?_
    obtain ⟨base, known, k, rfl⟩ := backup.power (by omega)
    have odd : base % 2 = 1 := (by decide : ∀ base ∈ [3, 5, 7], base % 2 = 1) base known
    rw [Nat.pow_mod, odd, one_pow] at even
    cases even
  simp only [small, even, false_or]
  constructor
  · intro decides
    obtain backup | ends := decides.ends (by omega) (by omega)
    · obtain ⟨base, known, k, rfl⟩ := backup.power (by omega)
      exact ⟨(power_fits known word).2.1, fun _ known struck => struck.not_backup known (by omega) backup⟩
    · obtain ⟨k, first, -⟩ := ends 7 (by decide)
      refine ⟨Nat.le_trans first.1 (wrapped_seven k), fun base known struck => ?_⟩
      obtain ⟨l, met, hit⟩ := struck.first
      obtain ⟨k, first, other⟩ := ends base known
      exact absurd (first.unique met ▸ hit) other
  · rintro ⟨low, clear⟩
    have ends : ∀ base ∈ [3, 5, 7], ∃ p, climb g base (2 ^ 30) base = some p := fun base known => by
      obtain ⟨k, few, high⟩ := wrapped_high known
      rw [climb_base known]
      exact climb_ends (Nat.le_trans low high) (Nat.zero_le k) (by omega)
    obtain ⟨answer, answered, hit⟩ := anyBase_ends ends
    refine ⟨2 ^ 30, answer, by rw [groupIsSparseBackup, if_neg small, if_neg even, answered], fun yes => ?_,
      fun backup => ?_⟩
    · obtain ⟨base, known, met⟩ := hit yes
      obtain ⟨k, first, same⟩ := climb_base_first known met
      exact (first.backup_or_struck known same.symm).resolve_right (clear base known)
    · obtain ⟨base, known, k, rfl⟩ := backup.power (by omega)
      cases answer with
      | true => rfl
      | false =>
        obtain ⟨l, first, other⟩ := anyBase_false (List.Subset.refl _) answered known
        rw [first.unique (power_fits known word).2.2] at other
        exact absurd (Nat.mod_eq_of_lt word) other

/-- The fourteenth power of 5 wraps to a group number that is no power. -/
theorem not_decides_wrapped : ¬ Decides 1808548329 := by
  intro decides
  obtain backup | ends := decides.ends (by decide) (by decide)
  · obtain ⟨base, known, k, same⟩ := backup.power (by decide)
    have few : k < 20 := (power_fits known (by omega)).1
    exact (by decide : ∀ base ∈ [3, 5, 7], ∀ k < 20, 1808548329 ≠ base ^ (k + 1)) base known k few same
  · obtain ⟨k, first, other⟩ := ends 5 (by decide)
    have met : First 5 1808548329 13 := by unfold First; decide
    exact other (first.unique met ▸ rfl)

end Ext4.SparseSuper
