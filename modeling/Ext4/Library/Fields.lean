import Ext4.Library.Octets

/-! Records of fixed-width fields: a buffer that is filled field by field, and tables of records of
one length. -/

namespace Octets
open List

structure Slot where
  off : Nat
  width : Nat
  value : Nat

def putSlots (raw : Bytes) (slots : List Slot) : Bytes :=
  slots.foldl (fun raw slot => writeAt raw slot.off (putUint slot.width slot.value)) raw

def Slot.span (slot : Slot) : Nat × Nat := (slot.off, slot.off + slot.width)

def Apart (size : Nat) (spans : List (Nat × Nat)) : Prop :=
  (∀ span ∈ spans, span.2 ≤ size) ∧ spans.Pairwise fun one two => one.2 ≤ two.1 ∨ two.2 ≤ one.1

instance (size : Nat) (spans : List (Nat × Nat)) : Decidable (Apart size spans) :=
  inferInstanceAs (Decidable (_ ∧ _))

variable {raw : Bytes} {slots : List Slot} {size off n : Nat} {α : Type} {encode : α → Bytes}
  {items : List α}

theorem putSlots_length (inside : ∀ slot ∈ slots, slot.off + slot.width ≤ raw.length) :
    (putSlots raw slots).length = raw.length := by
  induction slots generalizing raw with
  | nil => rfl
  | cons slot rest ih =>
    obtain ⟨first, later⟩ := forall_mem_cons.mp inside
    have length : (writeAt raw slot.off (putUint slot.width slot.value)).length = raw.length := by
      rw [writeAt_length, putUint_length]
      omega
    rw [putSlots, foldl_cons]
    refine (ih ?_).trans length
    rwa [length]

theorem writeAt_window (raw : Bytes) (off : Nat) (data : Bytes) :
    ((writeAt raw off data).drop off).take data.length = data := by
  apply ext_getElem?
  intro i
  rw [getElem?_take]
  split
  · rw [getElem?_drop, writeAt_inside _ _ _ _ ‹_›]
  · rw [getElem?_eq_none (by omega)]

theorem field_writeAt (raw : Bytes) (off width value : Nat) :
    field (writeAt raw off (putUint width value)) off width = value % 256 ^ width := by
  have whole := writeAt_window raw off (putUint width value)
  rw [putUint_length] at whole
  rw [field, whole, uintOf_putUint]

theorem field_writeAt_outside {at' : Nat} {data : Bytes} (present : at' + n ≤ raw.length)
    (outside : at' + n ≤ off ∨ off + data.length ≤ at') :
    field (writeAt raw off data) at' n = field raw at' n :=
  field_congr fun _ _ => writeAt_outside _ _ _ _ (by omega) (by omega)

theorem field_putSlots_outside (present : off + n ≤ raw.length)
    (inside : ∀ slot ∈ slots, slot.off + slot.width ≤ raw.length)
    (outside : ∀ slot ∈ slots, off + n ≤ slot.off ∨ slot.off + slot.width ≤ off) :
    field (putSlots raw slots) off n = field raw off n := by
  induction slots generalizing raw with
  | nil => rfl
  | cons slot rest ih =>
    obtain ⟨first, later⟩ := forall_mem_cons.mp inside
    obtain ⟨here, there⟩ := forall_mem_cons.mp outside
    have length : (writeAt raw slot.off (putUint slot.width slot.value)).length = raw.length := by
      rw [writeAt_length, putUint_length]
      omega
    rw [putSlots, foldl_cons]
    refine (ih (by omega) (by rwa [length]) there).trans ?_
    exact field_writeAt_outside present (by rw [putUint_length]; omega)

theorem Apart.inside (apart : Apart size (slots.map Slot.span)) :
    ∀ slot ∈ slots, slot.off + slot.width ≤ size := fun slot mem =>
  apart.1 slot.span (mem_map_of_mem mem)

theorem field_putSlots (apart : Apart raw.length (slots.map Slot.span)) {slot : Slot}
    (mem : slot ∈ slots) :
    field (putSlots raw slots) slot.off slot.width = slot.value % 256 ^ slot.width := by
  have inside := apart.inside
  replace apart := pairwise_map.mp apart.2
  induction slots generalizing raw with
  | nil => cases mem
  | cons head rest ih =>
    obtain ⟨first, later⟩ := forall_mem_cons.mp inside
    obtain ⟨here, there⟩ := pairwise_cons.mp apart
    have length : (writeAt raw head.off (putUint head.width head.value)).length = raw.length := by
      rw [writeAt_length, putUint_length]
      omega
    rw [putSlots, foldl_cons]
    rcases mem_cons.mp mem with rfl | mem
    · -- No later field reaches this one.
      refine (field_putSlots_outside (by omega) (by rwa [length]) here).trans ?_
      exact field_writeAt ..
    · exact ih mem (by rwa [length]) there

/-! ## What a write leaves alone -/

structure SameOutside (spans : List (Nat × Nat)) (raw other : Bytes) : Prop where
  length : raw.length = other.length
  octets : ∀ i, (∀ span ∈ spans, i < span.1 ∨ span.2 ≤ i) → raw[i]? = other[i]?

namespace SameOutside
variable {spans : List (Nat × Nat)} {other third : Bytes}

theorem refl (spans : List (Nat × Nat)) (raw : Bytes) : SameOutside spans raw raw :=
  ⟨rfl, fun _ _ => rfl⟩

theorem trans (first : SameOutside spans raw other) (second : SameOutside spans other third) :
    SameOutside spans raw third :=
  ⟨first.length.trans second.length, fun i outside =>
    (first.octets i outside).trans (second.octets i outside)⟩

theorem cover {low high : Nat} {data : Bytes} (listed : (low, high) ∈ spans) (first : low ≤ off)
    (last : off + data.length ≤ high) (inside : off + data.length ≤ raw.length) :
    SameOutside spans (writeAt raw off data) raw := by
  have length : (writeAt raw off data).length = raw.length := by
    rw [writeAt_length]
    omega
  refine ⟨length, fun i outside => ?_⟩
  by_cases present : i < raw.length
  · have apart := outside _ listed
    exact writeAt_outside _ _ _ _ present (by omega)
  · rw [getElem?_eq_none (by omega), getElem?_eq_none (by omega)]

theorem writeAt {width : Nat} (value : Nat) (listed : (off, off + width) ∈ spans)
    (inside : off + width ≤ raw.length) : SameOutside spans (writeAt raw off (putUint width value)) raw := by
  have whole := putUint_length width value
  exact cover listed (Nat.le_refl _) (by omega) (by omega)

theorem symm (same : SameOutside spans raw other) : SameOutside spans other raw :=
  ⟨same.length.symm, fun i outside => (same.octets i outside).symm⟩

theorem mono {wider : List (Nat × Nat)} (same : SameOutside spans raw other) (listed : spans ⊆ wider) :
    SameOutside wider raw other :=
  ⟨same.length, fun i outside => same.octets i fun span mem => outside span (listed mem)⟩

theorem widen {low high low' high' : Nat} (same : SameOutside [(low, high)] raw other)
    (listed : (low', high') ∈ spans) (first : low' ≤ low) (last : high ≤ high') : SameOutside spans raw other :=
  ⟨same.length, fun i outside => same.octets i fun span mem => by
    have := outside _ listed
    rw [mem_singleton.mp mem]
    omega⟩

theorem putSlots (inside : ∀ slot ∈ slots, slot.off + slot.width ≤ raw.length) :
    SameOutside (slots.map Slot.span) (putSlots raw slots) raw := by
  induction slots generalizing raw with
  | nil => exact refl _ _
  | cons slot rest ih =>
    obtain ⟨first, later⟩ := forall_mem_cons.mp inside
    have here : SameOutside ((slot :: rest).map Slot.span)
        (Octets.writeAt raw slot.off (putUint slot.width slot.value)) raw :=
      .writeAt slot.value (.head _) first
    have there := @ih (Octets.writeAt raw slot.off (putUint slot.width slot.value))
      (by rwa [here.length])
    exact (there.mono (subset_cons_self _ _)).trans here

theorem field (same : SameOutside spans raw other)
    (outside : ∀ span ∈ spans, off + n ≤ span.1 ∨ span.2 ≤ off) :
    field raw off n = field other off n :=
  field_congr fun i below => same.octets _ fun span mem => by
    have := outside span mem
    omega

end SameOutside

theorem uintOf_inj {one two : Bytes} (length : one.length = two.length)
    (same : uintOf one = uintOf two) : one = two := by
  induction one generalizing two with
  | nil => exact (length_eq_zero_iff.mp length.symm).symm
  | cons octet rest ih =>
    cases two with
    | nil => cases length
    | cons octet' rest' =>
      rw [uintOf, uintOf] at same
      have small := octet.toNat_lt
      have small' := octet'.toNat_lt
      have head : octet = octet' := UInt8.toNat_inj.mp (by omega)
      have tail : rest = rest' := ih (Nat.succ.inj length) (by omega)
      rw [head, tail]

theorem SameOutside.eq {spans : List (Nat × Nat)} {other : Bytes} (same : SameOutside spans raw other)
    (fields : ∀ span ∈ spans,
      Octets.field raw span.1 (span.2 - span.1) = Octets.field other span.1 (span.2 - span.1)) :
    raw = other := by
  apply ext_getElem?
  intro i
  by_cases outside : ∀ span ∈ spans, i < span.1 ∨ span.2 ≤ i
  · exact same.octets i outside
  · push Not at outside
    obtain ⟨span, listed, low, high⟩ := outside
    have part := uintOf_inj (by rw [length_take, length_take, length_drop,
      length_drop, same.length]) (fields span listed)
    have octet := congrArg (fun part : Bytes => part[i - span.1]?) part
    simp only [getElem?_take, getElem?_drop] at octet
    rwa [if_pos (by omega), if_pos (by omega), show span.1 + (i - span.1) = i by omega] at octet

/-! ## Tables -/

theorem table_record (length : ∀ a ∈ items, (encode a).length = size) {i : Nat}
    (inside : i < items.length) :
    ((items.flatMap encode).drop (i * size)).take size = encode items[i] := by
  induction items generalizing i with
  | nil => exact absurd inside (Nat.not_lt_zero i)
  | cons a rest ih =>
    obtain ⟨here, later⟩ := forall_mem_cons.mp length
    cases i with
    | zero =>
      rw [Nat.zero_mul, drop_zero, flatMap_cons, ← here, take_left]
      rfl
    | succ i =>
      have skip : (i + 1) * size = (encode a).length + i * size := by
        rw [here, Nat.succ_mul]
        omega
      rw [flatMap_cons, skip, ← drop_drop, drop_left]
      exact ih later (Nat.lt_of_succ_lt_succ inside)

theorem table_length (length : ∀ a ∈ items, (encode a).length = size) :
    (items.flatMap encode).length = items.length * size := by
  induction items with
  | nil => simp
  | cons a rest ih =>
    obtain ⟨here, later⟩ := forall_mem_cons.mp length
    rw [flatMap_cons, length_append, here, ih later, length_cons, Nat.succ_mul]
    omega

end Octets
