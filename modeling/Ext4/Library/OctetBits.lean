import Ext4.Library.Octets

/-! Bits of an octet string: bit `i` is bit `i % 8` of octet `i / 8`.
Setting and clearing a bit leaves every other bit and the length as they were. -/

namespace Octets
open List

def bitAt (raw : Bytes) (i : Nat) : Bool := (raw[i / 8]?.getD 0).toNat.testBit (i % 8)

/-- `bitmap[i/8] |= 1 << uint(i%8)`. -/
def setBit (raw : Bytes) (i : Nat) : Bytes :=
  raw.modify (i / 8) fun octet => UInt8.ofNat (octet.toNat ||| 2 ^ (i % 8))

/-- `bitmap[i/8] &^= 1 << uint(i%8)`. -/
def clearBit (raw : Bytes) (i : Nat) : Bytes :=
  raw.modify (i / 8) fun octet => UInt8.ofNat (octet.toNat &&& (255 - 2 ^ (i % 8)))

def setRange (raw : Bytes) (low high : Nat) : Bytes :=
  (range' low (high - low)).foldl setBit raw

def clearRange (raw : Bytes) (low high : Nat) : Bytes :=
  (range' low (high - low)).foldl clearBit raw

variable {raw : Bytes} {i j low high : Nat} {bits : List Nat}

theorem octet_or_lt (octet : UInt8) {k : Nat} (small : k < 8) : octet.toNat ||| 2 ^ k < 256 :=
  Nat.or_lt_two_pow (n := 8) octet.toNat_lt (Nat.pow_lt_pow_right (by decide) small)

theorem octet_and_lt (octet : UInt8) (mask : Nat) : octet.toNat &&& mask < 256 :=
  Nat.lt_of_le_of_lt Nat.and_le_left octet.toNat_lt

theorem testBit_mask : ∀ k < 8, ∀ j < 8, (255 - 2 ^ k).testBit j = decide (j ≠ k) := by decide

@[simp] theorem setBit_length : (setBit raw i).length = raw.length := length_modify ..

@[simp] theorem clearBit_length : (clearBit raw i).length = raw.length := length_modify ..

theorem bitAt_modify (change : UInt8 → UInt8) (present : i < 8 * raw.length) :
    bitAt (raw.modify (i / 8) change) j =
      if j / 8 = i / 8 then (change (raw[i / 8]?.getD 0)).toNat.testBit (j % 8) else bitAt raw j := by
  have inside : i / 8 < raw.length := by omega
  unfold bitAt
  rw [getElem?_modify]
  by_cases same : j / 8 = i / 8
  · simp [same, inside]
  · simp [same, Ne.symm same]

theorem bitAt_setBit (present : i < 8 * raw.length) :
    bitAt (setBit raw i) j = (decide (j = i) || bitAt raw j) := by
  rw [setBit, bitAt_modify _ present]
  by_cases same : j / 8 = i / 8
  · have small : i % 8 < 8 := Nat.mod_lt _ (by decide)
    rw [if_pos same, UInt8.toNat_ofNat', Nat.mod_eq_of_lt (octet_or_lt _ small), Nat.testBit_or,
      Nat.testBit_two_pow, bitAt, same, Bool.or_comm]
    congr 1
    simp only [decide_eq_decide]
    omega
  · have other : j ≠ i := fun equal => same (by rw [equal])
    rw [if_neg same, decide_eq_false other, Bool.false_or]

theorem bitAt_clearBit (present : i < 8 * raw.length) :
    bitAt (clearBit raw i) j = (decide (j ≠ i) && bitAt raw j) := by
  rw [clearBit, bitAt_modify _ present]
  by_cases same : j / 8 = i / 8
  · have small : i % 8 < 8 := Nat.mod_lt _ (by decide)
    rw [if_pos same, UInt8.toNat_ofNat', Nat.mod_eq_of_lt (octet_and_lt _ _), Nat.testBit_and,
      testBit_mask _ small _ (Nat.mod_lt _ (by decide)), bitAt, same, Bool.and_comm]
    congr 1
    simp only [decide_eq_decide]
    omega
  · have other : j ≠ i := fun equal => same (by rw [equal])
    rw [if_neg same, decide_eq_true other, Bool.true_and]

@[simp] theorem setBits_length (bits : List Nat) : (bits.foldl setBit raw).length = raw.length := by
  induction bits generalizing raw with
  | nil => rfl
  | cons i rest ih => rw [foldl_cons, ih, setBit_length]

@[simp] theorem setRange_length : (setRange raw low high).length = raw.length := setBits_length _

@[simp] theorem clearRange_length : (clearRange raw low high).length = raw.length := by
  unfold clearRange
  induction range' low (high - low) generalizing raw with
  | nil => rfl
  | cons i rest ih => rw [foldl_cons, ih, clearBit_length]

theorem bitAt_setBits (present : ∀ i ∈ bits, i < 8 * raw.length) :
    bitAt (bits.foldl setBit raw) j = (decide (j ∈ bits) || bitAt raw j) := by
  induction bits generalizing raw with
  | nil => simp
  | cons i rest ih =>
    obtain ⟨first, later⟩ := forall_mem_cons.mp present
    rw [foldl_cons, ih (by simpa using later), bitAt_setBit first]
    by_cases here : j = i <;> simp [here]

theorem bitAt_clearBits (present : ∀ i ∈ bits, i < 8 * raw.length) :
    bitAt (bits.foldl clearBit raw) j = (decide (j ∉ bits) && bitAt raw j) := by
  induction bits generalizing raw with
  | nil => simp
  | cons i rest ih =>
    obtain ⟨first, later⟩ := forall_mem_cons.mp present
    rw [foldl_cons, ih (by simpa using later), bitAt_clearBit first]
    by_cases here : j = i <;> simp [here]

theorem mem_span : j ∈ range' low (high - low) ↔ low ≤ j ∧ j < high := by
  rw [mem_range'_1]
  omega

theorem bitAt_setRange (present : high ≤ 8 * raw.length) :
    bitAt (setRange raw low high) j = (decide (low ≤ j ∧ j < high) || bitAt raw j) := by
  rw [setRange, bitAt_setBits fun i mem => by have := mem_span.mp mem; omega]
  simp only [mem_span]

theorem bitAt_clearRange (present : high ≤ 8 * raw.length) :
    bitAt (clearRange raw low high) j = (decide (¬(low ≤ j ∧ j < high)) && bitAt raw j) := by
  rw [clearRange, bitAt_clearBits fun i mem => by have := mem_span.mp mem; omega]
  simp only [mem_span]

theorem ext_bitAt {other : Bytes} (length : raw.length = other.length)
    (same : ∀ i < 8 * raw.length, bitAt raw i = bitAt other i) : raw = other := by
  apply ext_getElem length
  intro k inside inside'
  apply UInt8.toNat_inj.mp
  apply Nat.eq_of_testBit_eq
  intro j
  rcases Nat.lt_or_ge j 8 with small | large
  · have bit := same (8 * k + j) (by omega)
    have place : (8 * k + j) / 8 = k := by omega
    have offset : (8 * k + j) % 8 = j := by omega
    simpa [bitAt, place, offset, inside, inside'] using bit
  · have high : ∀ octet : UInt8, octet.toNat.testBit j = false := fun octet =>
      Nat.testBit_lt_two_pow (Nat.lt_of_lt_of_le octet.toNat_lt
        (Nat.pow_le_pow_right (by decide : 0 < 2) large))
    rw [high, high]

theorem clearRange_of_clear (present : high ≤ 8 * raw.length)
    (clear : ∀ i, low ≤ i → i < high → bitAt raw i = false) : clearRange raw low high = raw := by
  refine ext_bitAt clearRange_length fun i _ => ?_
  rw [bitAt_clearRange present]
  by_cases inside : low ≤ i ∧ i < high
  · rw [clear i inside.1 inside.2, Bool.and_false]
  · simp [inside]

end Octets
