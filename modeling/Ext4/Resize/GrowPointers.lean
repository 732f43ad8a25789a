import Ext4.Resize.GrowFrame

/-! The block numbers in the descriptors of new groups.
They are written with the group. When the table has grown into the reserved blocks, the entries that
the resize inode gets are written into the same blocks afterwards, four octets each, and may fall on
them. -/

namespace Ext4.Resize
open Octets Overlay SuperArea List

variable {v : Layout} {s t u : Vol} {g b off value : Nat} {slot : Slot} {dind : Bytes}
  {pairs : List (Nat × Nat)}

/-! ## Words on the device -/

def Vol.word (s : Vol) (off : Nat) : Nat := uintOf (s.disk.readAt off 4)

theorem field_readAt (disk : Disk) (off : Nat) {len at' n : Nat} (inside : at' + n ≤ len) :
    field (disk.readAt off len) at' n = uintOf (disk.readAt (off + at') n) := by
  have same : ((disk.readAt off len).drop at').take n = disk.readAt (off + at') n := by
    apply ext_getElem?
    intro i
    rw [getElem?_take]
    split
    next low =>
      rw [getElem?_drop, Disk.readAt_getElem? _ _ _ _ (by omega), Disk.readAt_getElem? _ _ _ _ low,
        Nat.add_assoc]
    next high => rw [getElem?_eq_none (by rw [Disk.readAt_length]; omega)]
  rw [field, same]

theorem word_congr (same : ∀ p, off ≤ p → p < off + 4 → t.disk p = s.disk p) :
    t.word off = s.word off := by
  rw [Vol.word, Vol.word, Disk.readAt_congr fun i below => same _ (by omega) (by omega)]

theorem word_writeAt (off value : Nat) : (s.writeAt off (putUint 4 value)).word off = value % 2 ^ 32 := by
  have there := Disk.readAt_writeAt s.disk off (putUint 4 value)
  rw [putUint_length] at there
  rw [Vol.word, Vol.writeAt, there, uintOf_putUint]
  rfl

theorem writeAt_field {k : Nat} (inside : k + 4 ≤ v.blockSize) :
    (s.writeAt (v.start b) (putUint32 (s.block v b) k value)).disk =
      (s.writeAt (v.start b + k) (putUint 4 value)).disk := by
  have long : (putUint32 (s.block v b) k value).length = v.blockSize :=
    putUint_length_of_le block_length inside
  funext p
  unfold Vol.writeAt
  dsimp only
  by_cases here : p < v.start b ∨ v.start b + v.blockSize ≤ p
  · rw [Disk.writeAt_outside _ _ _ _ (by rwa [long]),
      Disk.writeAt_outside _ _ _ _ (by rw [putUint_length]; omega)]
  · obtain ⟨i, rfl⟩ := Nat.exists_eq_add_of_le (show v.start b ≤ p by omega)
    have small : i < v.blockSize := by omega
    rw [Disk.writeAt_inside _ _ _ _ (by omega)]
    apply Option.some.inj
    rw [← getElem?_eq_getElem]
    by_cases changed : i < k ∨ k + 4 ≤ i
    · rw [Disk.writeAt_outside _ _ _ _ (by rw [putUint_length]; omega), putUint32,
        Octets.writeAt_outside _ _ _ _ (by rw [block_length]; omega) (by rw [putUint_length]; omega)]
      exact Disk.readAt_getElem? _ _ _ _ small
    · obtain ⟨j, rfl⟩ := Nat.exists_eq_add_of_le (show k ≤ i by omega)
      have inField : j < (putUint 4 value).length := by rw [putUint_length]; omega
      rw [putUint32, writeAt_inside _ _ _ _ inField, ← Nat.add_assoc,
        Disk.writeAt_inside _ _ _ _ inField, getElem?_eq_getElem]

/-! ## The entries of the resize inode -/

def Layout.slotOff (v : Layout) (dind : Bytes) (pair : Nat × Nat) : Nat :=
  v.start (field dind (pair.2 * 4) 4) + backupOrdinal v pair.1 * 4

def Layout.slotValue (v : Layout) (gdt : Nat) (pair : Nat × Nat) : Nat :=
  v.groupStart pair.1 + 1 + gdt + pair.2 - 1

theorem Slotted.inside {gdt : Nat} (slotted : Slotted v gdt dind pairs s t) :
    ∀ pair ∈ pairs, field dind (pair.2 * 4) 4 ≠ 0 → backupOrdinal v pair.1 * 4 + 4 ≤ v.blockSize := by
  induction slotted with
  | nil => nofun
  | skip empty _ ih => exact forall_mem_cons.mpr ⟨fun used => absurd empty used, ih⟩
  | write _ _ _ slot _ ih => exact forall_mem_cons.mpr ⟨fun _ => slot, ih⟩

/-- A word that has its value, or that gets it from an entry: every entry that falls on it writes
that value. -/
theorem Slotted.word {gdt : Nat} (slotted : Slotted v gdt dind pairs s t)
    (each : ∀ pair ∈ pairs, field dind (pair.2 * 4) 4 ≠ 0 →
      (v.slotOff dind pair = off ∧ v.slotValue gdt pair % 2 ^ 32 = value) ∨
        v.slotOff dind pair + 4 ≤ off ∨ off + 4 ≤ v.slotOff dind pair) (some : s.word off = value ∨
      ∃ pair ∈ pairs, field dind (pair.2 * 4) 4 ≠ 0 ∧ v.slotOff dind pair = off) : t.word off = value := by
  induction slotted with
  | nil => exact some.resolve_right nofun
  | skip empty _ ih =>
    refine ih (forall_mem_cons.mp each).2 (some.imp id ?_)
    rintro ⟨pair, mem, used, here⟩
    exact ⟨pair, (mem_cons.mp mem).resolve_left (by rintro rfl; exact used empty), used, here⟩
  | @write g i b rest s t named used inside slot later ih =>
    obtain ⟨first, after⟩ := forall_mem_cons.mp each
    subst named
    refine ih after ?_
    have written : (s.writeAt (v.start (field dind (i * 4) 4)) (putUint32 (s.block v (field dind (i * 4) 4))
        (backupOrdinal v g * 4) (v.groupStart g + 1 + gdt + i - 1))).word off =
        (s.writeAt (v.slotOff dind (g, i)) (putUint 4 (v.slotValue gdt (g, i)))).word off := by
      rw [Vol.word, writeAt_field slot]
      rfl
    rw [written]
    rcases first used with ⟨rfl, rfl⟩ | apart
    · exact .inl (word_writeAt _ _)
    · have kept : (s.writeAt (v.slotOff dind (g, i)) (putUint 4 (v.slotValue gdt (g, i)))).word off =
          s.word off :=
        word_congr fun p low high => writeAt_outside (by rw [putUint_length]; omega)
      rw [kept]
      refine some.imp id ?_
      rintro ⟨pair, mem, used', here⟩
      refine ⟨pair, (mem_cons.mp mem).resolve_left ?_, used', here⟩
      rintro rfl
      omega

/-! ## The block numbers of a group -/

def Layout.holdsNumber (v : Layout) (b : Nat) : Prop := b < if v.wide then 2 ^ 64 else 2 ^ 32

/-- A descriptor names three blocks in a row exactly when its fields hold their numbers. -/
theorem decodeBGD_structures_iff {raw : Bytes} :
    (decodeBGD v raw).structures = (b, b + 1, b + 2) ↔ v.holdsNumber (b + 2) ∧
      ∀ slot ∈ v.pointerSlots b, field raw slot.off slot.width = slot.value % 256 ^ slot.width := by
  have bound := fun off => field_lt raw off 4
  have zero := bound 0
  have four := bound 4
  have eight := bound 8
  have high'' := bound 40
  unfold Desc.structures decodeBGD wideField Layout.pointerSlots Layout.holdsNumber
  simp only [Prod.mk.injEq]
  by_cases wide : v.wide
  · simp only [wide, if_true, forall_mem_cons, not_mem_nil, IsEmpty.forall_iff, implies_true, and_true]
    omega
  · simp only [wide, if_false, forall_mem_cons, not_mem_nil, IsEmpty.forall_iff, implies_true, and_true,
      Bool.false_eq_true]
    omega

theorem pointerSlots_width (mem : slot ∈ v.pointerSlots b) : slot.width = 4 := by
  unfold Layout.pointerSlots at mem
  split at mem <;> simp only [mem_cons, not_mem_nil, or_false] at mem
  · rcases mem with rfl | rfl | rfl | rfl | rfl | rfl <;> rfl
  · rcases mem with rfl | rfl | rfl <;> rfl

theorem mem_pointerOffs (mem : slot ∈ v.pointerSlots b) :
    slot.off ∈ [0, 4, 8] ∨ v.wide ∧ slot.off ∈ [32, 36, 40] := by
  unfold Layout.pointerSlots at mem
  split at mem <;> simp only [mem_cons, not_mem_nil, or_false] at mem
  next wide => rcases mem with rfl | rfl | rfl | rfl | rfl | rfl <;> simp [wide]
  next => rcases mem with rfl | rfl | rfl <;> simp

theorem pointerOffs_apart : ∀ off ∈ [0, 4, 8, 32, 36, 40], off % 4 = 0 ∧
    ∀ span ∈ descSpans, off + 4 ≤ span.1 ∨ span.2 ≤ off := by decide

theorem pointerSlots_off (mem : slot ∈ v.pointerSlots b) : slot.off % 4 = 0 ∧ slot.off + 4 ≤ v.descSize ∧
      ∀ span ∈ descSpans, slot.off + 4 ≤ span.1 ∨ span.2 ≤ slot.off := by
  have room := v.descSize_ge
  have more := @Layout.descSize_of_wide v
  rcases mem_pointerOffs mem with low | ⟨wide, high⟩
  · obtain ⟨aligned, apart⟩ := pointerOffs_apart slot.off (mem_append_left [32, 36, 40] low)
    refine ⟨aligned, ?_, apart⟩
    simp only [mem_cons, not_mem_nil, or_false] at low
    omega
  · obtain ⟨aligned, apart⟩ := pointerOffs_apart slot.off (mem_append_right [0, 4, 8] high)
    refine ⟨aligned, ?_, apart⟩
    have := more wide
    simp only [mem_cons, not_mem_nil, or_false] at high
    omega

theorem desc_structures_iff : (t.desc v g).structures = (b, b + 1, b + 2) ↔ v.holdsNumber (b + 2) ∧
    ∀ slot ∈ v.pointerSlots b, t.word (v.descOff g + slot.off) = slot.value % 2 ^ 32 := by
  rw [Vol.desc, decodeBGD_structures_iff]
  refine and_congr_right fun _ => forall₂_congr fun slot mem => ?_
  obtain ⟨-, inside, -⟩ := pointerSlots_off mem
  rw [pointerSlots_width mem, field_readAt _ _ inside]
  rfl

theorem word_newDesc (same : SameOutside descSpans (t.desc v g).raw (newDescRaw v b))
    (mem : slot ∈ v.pointerSlots b) : t.word (v.descOff g + slot.off) = slot.value % 2 ^ 32 := by
  obtain ⟨-, inside, outside⟩ := pointerSlots_off mem
  have width := pointerSlots_width mem
  have there : field (newDescRaw v b) slot.off slot.width = slot.value % 256 ^ slot.width := by
    rw [newDescRaw_eq]
    exact field_putSlots (pointerSlots_apart b) mem
  rw [width] at there
  rw [← same.field outside] at there
  have read := field_readAt t.disk (v.descOff g) inside
  exact read.symm.trans there

/-! ## The groups that are added -/

theorem Vol.HoldsGroup.congr {gdt newBlocks : Nat} (holds : s.HoldsGroup v gdt newBlocks g)
    (same : ∀ b, v.bitmapOf gdt g ≤ b → b < v.groupStart g + v.headBlocks gdt g → t.block v b = s.block v b) :
    t.HoldsGroup v gdt newBlocks g := by
  have head : v.groupStart g + v.headBlocks gdt g = v.bitmapOf gdt g + 2 + v.inodeTableBlocks := by
    unfold Layout.headBlocks Layout.bitmapOf
    omega
  refine ⟨?_, ?_, fun i inside => ?_⟩
  · rw [same _ (le_refl _) (by omega), holds.blockBitmap]
  · rw [same _ (by omega) (by omega), holds.inodeBitmap]
  · rw [same _ (by omega) (by omega), holds.inodeTable i inside]

theorem groupBlocks_le_group (newBlocks g : Nat) : v.groupBlocks newBlocks g ≤ v.blocksPerGroup := by
  unfold Layout.groupBlocks
  split <;> omega

section
variable {gdt newBlocks : Nat} {groups : List Nat} (all : AddedAll v gdt newBlocks groups s t)
  (sorted : groups.Pairwise (· < ·))
  (front : ∀ g ∈ groups, ∀ g' ∈ groups, v.descOff g + v.descSize ≤ v.start (v.groupStart g'))
include all sorted front

theorem AddedAll.kept : ∀ g ∈ groups,
    SameOutside descSpans (t.desc v g).raw (newDescRaw v (v.bitmapOf gdt g)) ∧
      t.HoldsGroup v gdt newBlocks g := by
  induction all with
  | nil => nofun
  | @cons g rest s t u first later ih =>
    obtain ⟨below, sorted⟩ := pairwise_cons.mp sorted
    have frontHere : ∀ g' ∈ rest, v.descOff g' + v.descSize ≤ v.start (v.groupStart g) :=
      fun g' mem => front g' (.tail _ mem) g (.head _)
    refine forall_mem_cons.mpr ⟨⟨?_, ?_⟩, ih sorted fun g' mem g'' mem' =>
      front g' (.tail _ mem) g'' (.tail _ mem')⟩
    · have same : u.desc v g = t.desc v g := by
        refine desc_congr fun p low high => later.disk (fun g' mem => .inl ?_) fun g' mem => ?_
        · have := descOff_apart (v := v) (below g' mem)
          omega
        · have := front g (.head _) g' (.tail _ mem)
          omega
      rw [same]
      exact first.desc
    · refine (first.holds (front g (.head _) g (.head _))).congr fun b low high => ?_
      have inGroup : v.groupStart g ≤ b := (Nat.le_add_right _ _).trans low
      refine block_congr fun p first' last' => later.disk (fun g' mem => .inr ?_) fun g' mem => ?_
      · exact (frontHere g' mem).trans ((start_le inGroup).trans first')
      · -- The head of the group ends before the next group starts.
        have room := first.room.trans (groupBlocks_le_group newBlocks g)
        have next : v.groupStart g + v.blocksPerGroup ≤ v.groupStart g' := by
          have := Nat.mul_le_mul_right v.blocksPerGroup (Nat.succ_le_of_lt (below g' mem))
          unfold Layout.groupStart
          rw [Nat.succ_mul] at this
          omega
        exact Nat.lt_of_lt_of_le last' (start_apart (by omega))

end

end Ext4.Resize
