import Ext4.Resize.GrowPointers
import Ext4.Resize.Refused

/-! What is in use when a filesystem grows.
The table of descriptors and its copies are lengthened in place. The reserved blocks behind them are
there for that; where they are too few the new descriptors are written over the bitmaps. -/

namespace Ext4.Resize
open Octets Overlay SuperArea List

variable {v : Layout} {s t : Vol} {g b newSize g' p newGroups : Nat} {slot : Slot}

/-- What `Format` and `mke2fs` make: the block bitmap of the first group follows the descriptors and
the blocks that are reserved for them, and with reserved blocks there is a resize inode, whose double
indirect block names each of them once at most. -/
structure Produced (v : Layout) (s : Vol) : Prop extends Consistent v s where
  descSize : v.descSize % 4 = 0
  firstBitmap : (s.desc v 0).blockBitmap =
    v.bgdTableBlock + v.gdtBlocks (s.numBlockGroups v) + v.reservedGdt
  inode : 0 < v.reservedGdt → ResizeInode v s
  entriesOnce : 0 < v.reservedGdt → ∀ i < v.blockSize / 4, ∀ j < v.blockSize / 4,
    field (s.block v (s.dindBlock v)) (i * 4) 4 ≠ 0 →
    field (s.block v (s.dindBlock v)) (i * 4) 4 = field (s.block v (s.dindBlock v)) (j * 4) 4 → i = j

/-! ## What is to be kept -/

def Vol.superCopy (v : Layout) (s : Vol) (b : Nat) : Prop :=
  ∃ g < s.numBlockGroups v, v.isSparseSuperGroup g ∧ b = v.groupStart g

def Vol.tableBlock (v : Layout) (s : Vol) (b : Nat) : Prop :=
  ∃ g < s.numBlockGroups v, v.isSparseSuperGroup g ∧ v.groupStart g + 1 ≤ b ∧
    b < v.groupStart g + 1 + v.gdtBlocks (s.numBlockGroups v)

/-- A block of the resize inode: a reserved one, its double indirect block, or where it is recorded. -/
def Vol.resizeBlock (v : Layout) (s : Vol) (b : Nat) : Prop :=
  0 < v.reservedGdt ∧
    ((∃ g < s.numBlockGroups v, v.isSparseSuperGroup g ∧
        v.groupStart g + 1 + v.gdtBlocks (s.numBlockGroups v) ≤ b ∧
        b < v.groupStart g + 1 + v.gdtBlocks (s.numBlockGroups v) + v.reservedGdt) ∨
      b = s.dindBlock v ∨
      (v.start b < s.resizeInodeOff v + v.inodeSize ∧ s.resizeInodeOff v < v.start b + v.blockSize))

/-- What is in use is as it was, every group's bitmaps and inode table are where its descriptor says,
and none is on a block of the lengthened table or of a copy of it. -/
structure Preserved (v : Layout) (s t : Vol) : Prop where
  kept : ∀ b, v.firstDataBlock ≤ b → b < s.sb.blocksCount → s.inUse v b → ¬ s.superCopy v b →
    ¬ s.tableBlock v b → b ≠ (s.desc v (s.numBlockGroups v - 1)).blockBitmap → ¬ s.resizeBlock v b →
    t.block v b = s.block v b
  old : ∀ g < t.numBlockGroups v, g < s.numBlockGroups v →
    (t.desc v g).structures = (s.desc v g).structures
  new : ∀ g < t.numBlockGroups v, s.numBlockGroups v ≤ g →
    (t.desc v g).structures = (v.bitmapOf (v.gdtBlocks (t.numBlockGroups v)) g,
      v.bitmapOf (v.gdtBlocks (t.numBlockGroups v)) g + 1, v.bitmapOf (v.gdtBlocks (t.numBlockGroups v)) g + 2) ∧
    t.HoldsGroup v (v.gdtBlocks (t.numBlockGroups v)) t.sb.blocksCount g
  apart : ∀ g < t.numBlockGroups v, ∀ b ∈ t.structures v g, ¬ t.tableBlock v b

/-- The reserved blocks suffice for the table, the descriptors of the new groups can hold the numbers
of their blocks, and no entry of the resize inode falls on such a number, unless it is the same. -/
structure Vol.GrowFits (v : Layout) (s : Vol) (newSize : Nat) : Prop where
  table : v.newGdt newSize ≤ v.gdtBlocks (s.numBlockGroups v) + v.reservedGdt
  numbers : ∀ g ∈ s.fresh v newSize, v.holdsNumber (v.bitmapOf (v.newGdt newSize) g + 2)
  entries : 0 < v.reservedGdt → ∀ pair ∈ v.slotPairs (s.numBlockGroups v) (v.newGroups newSize),
    field (s.block v (s.dindBlock v)) (pair.2 * 4) 4 ≠ 0 → ∀ g ∈ s.fresh v newSize,
    ∀ slot ∈ v.pointerSlots (v.bitmapOf (v.newGdt newSize) g),
      v.slotOff (s.block v (s.dindBlock v)) pair = v.descOff g + slot.off →
      v.slotValue (v.newGdt newSize) pair % 2 ^ 32 = slot.value % 2 ^ 32

/-! ## The lengthened table -/

theorem groupStart_mono (le : g ≤ g') : v.groupStart g ≤ v.groupStart g' :=
  Nat.add_le_add_right (Nat.mul_le_mul_right _ le) _

theorem groupStart_zero : v.groupStart 0 = v.firstDataBlock := by
  rw [Layout.groupStart, Nat.zero_mul, Nat.zero_add]

theorem Filesystem.some_groups (filesystem : Filesystem v s) : 0 < s.numBlockGroups v := by
  have table := filesystem.table
  have first := filesystem.first
  exact (lt_groupsOf filesystem.groups).mpr (by rw [Nat.zero_mul]; omega)

section
variable (produced : Produced v s)
include produced

theorem Produced.table_lt : v.bgdTableBlock + v.gdtBlocks (s.numBlockGroups v) + v.reservedGdt <
    v.groupStart 1 ∧
    v.bgdTableBlock + v.gdtBlocks (s.numBlockGroups v) + v.reservedGdt < s.sb.blocksCount := by
  have filesystem := produced.toFilesystem
  have some := filesystem.some_groups
  have mem : v.bgdTableBlock + v.gdtBlocks (s.numBlockGroups v) + v.reservedGdt ∈ s.structures v 0 :=
    produced.firstBitmap ▸ blockBitmap_mem
  have inside := (filesystem.inside 0 some _ mem).2
  refine ⟨?_, inside⟩
  by_cases one : 1 < s.numBlockGroups v
  · have sparse : v.isSparseSuperGroup 1 := by
      rw [Layout.isSparseSuperGroup, Bool.or_eq_true]
      exact .inr (by decide)
    have first := filesystem.first
    have next : v.groupStart 1 = v.blocksPerGroup + v.firstDataBlock := by
      rw [Layout.groupStart, Nat.one_mul]
    have positive := v.blocksPerGroup_pos
    rcases filesystem.behind 0 some _ mem 1 one sparse with before | behind
    · exact before
    · omega
  · have covered := filesystem.blocksCount_le
    have := groupStart_mono (v := v) (show s.numBlockGroups v ≤ 1 by omega)
    omega

end

theorem mem_copies {groups : Nat} :
    g ∈ v.copies groups ↔ 1 ≤ g ∧ g < groups ∧ v.isSparseSuperGroup g := by
  rw [Layout.copies, mem_filter, mem_range'_1, and_assoc]
  exact and_congr_right fun low => and_congr_left fun _ => by omega

theorem Grew.last_disk {lasted added extended : Vol} (grew : Grew v s newSize lasted added extended t)
    (super : p < v.superSpan.1 ∨ v.superSpan.2 ≤ p)
    (copies : ∀ g ∈ v.copies (v.newGroups newSize), p < v.start (v.groupStart g) ∨
      v.start (v.groupStart g + 1 + v.newGdt newSize) ≤ p) : t.disk p = extended.disk p := by
  refine grew.wrote.disk p (forall_mem_cons.mpr ⟨super, fun span mem => ?_⟩)
  obtain ⟨g, listed, inside⟩ := mem_flatMap.mp mem
  have apart := copies g listed
  have next := start_succ (v := v) (v.groupStart g)
  have after := start_le (v := v) (Nat.le_add_right (v.groupStart g + 1) (v.newGdt newSize))
  have size := @superblockSize_le v
  simp only [Layout.copySpans, mem_cons, not_mem_nil, or_false] at inside
  rcases inside with rfl | rfl
  · unfold Layout.copySpan
    omega
  · rw [blocksSpan_end]
    unfold Layout.blocksSpan
    omega

theorem outside_head (super : ¬ s.superCopy v b) (descs : ¬ s.tableBlock v b) (resize : ¬ s.resizeBlock v b)
    (present : g < s.numBlockGroups v) (sparse : v.isSparseSuperGroup g) : b < v.groupStart g ∨
      v.groupStart g + 1 + v.gdtBlocks (s.numBlockGroups v) + v.reservedGdt ≤ b := by
  by_contra inside
  refine super ⟨g, present, sparse, ?_⟩
  by_contra other
  refine descs ⟨g, present, sparse, by omega, ?_⟩
  by_contra behind
  exact resize ⟨by omega, .inl ⟨g, present, sparse, by omega, by omega⟩⟩

section
variable (produced : Produced v s) (clear : 0 < v.reservedGdt → ResizeInode.Clear v s newSize)
  {lasted added extended : Vol} (grew : Grew v s newSize lasted added extended t) (longer : s.size ≤ newSize)
include produced clear grew longer

theorem Grew.extended_disk (outside : p < v.start (v.bgdTableBlock + v.gdtBlocks (s.numBlockGroups v)) ∨
      v.start (v.bgdTableBlock + v.gdtBlocks (s.numBlockGroups v) + v.reservedGdt) ≤ p)
    (record : 0 < v.reservedGdt → p < s.resizeInodeOff v ∨ s.resizeInodeOff v + v.inodeSize ≤ p) :
    extended.disk p = added.disk p := by
  by_cases reserved : 0 < v.reservedGdt
  · exact (grew.extended_wrote produced.toFilesystem longer produced.inode clear).2 p outside (record reserved)
  · have step := grew.inode
    rw [ExtendedReserved, if_neg reserved] at step
    rw [step]

theorem Grew.old_structures (present : g < s.numBlockGroups v) :
    (t.desc v g).structures = (s.desc v g).structures := by
  have filesystem := produced.toFilesystem
  obtain ⟨second, -⟩ := produced.table_lt
  have inTable := descOff_le (v := v) present
  have first : v.start v.bgdTableBlock ≤ v.descOff g := Nat.le_add_right _ _
  have front := start_le (v := v) (show v.bgdTableBlock + v.gdtBlocks (s.numBlockGroups v) ≤ v.groupStart 1 by omega)
  have same : t.desc v g = added.desc v g := by
    refine desc_congr fun p low high => ?_
    rw [grew.last_disk (.inr ((superSpan_le 0).trans (first.trans low))) fun g' mem => .inl ?_]
    · refine grew.extended_disk produced clear longer (.inl (by omega)) fun reserved => .inl ?_
      have inode := (produced.inode reserved).group
      have place : v.start (s.desc v ((resizeIno - 1) / v.inodesPerGroup)).inodeTable ≤ s.resizeInodeOff v :=
        Nat.le_add_right _ _
      have behind := filesystem.start_structure_ge inode inodeTable_mem
      omega
    · have := start_le (v := v) (groupStart_mono (v := v) (mem_copies.mp mem).1)
      omega
  rw [same]
  exact grew.added_structures filesystem longer present

end

section
variable (produced : Produced v s)
  (table : v.newGdt newSize ≤ v.gdtBlocks (s.numBlockGroups v) + v.reservedGdt)
include produced table

theorem Produced.newTable_lt : v.bgdTableBlock + v.newGdt newSize < v.groupStart 1 ∧
    ∀ g ∈ s.fresh v newSize, v.bgdTableBlock + v.newGdt newSize < v.groupStart g := by
  obtain ⟨second, inside⟩ := produced.table_lt
  have covered := produced.toFilesystem.blocksCount_le
  refine ⟨by omega, fun g mem => ?_⟩
  have := groupStart_mono (v := v) (mem_fresh.mp mem).1
  omega

theorem Produced.clear (reserved : 0 < v.reservedGdt) : ResizeInode.Clear v s newSize := by
  have inode := produced.inode reserved
  have behind := inode.dindBehind
  have := produced.toFilesystem.tableEnd_le inode.group inodeTable_mem
  exact ⟨by omega, by omega⟩

variable {lasted added extended : Vol} (grew : Grew v s newSize lasted added extended t)
include grew

theorem Grew.table_disk (low : v.start v.bgdTableBlock ≤ p)
    (high : p < v.start (v.bgdTableBlock + v.newGdt newSize)) : t.disk p = extended.disk p := by
  obtain ⟨second, -⟩ := produced.newTable_lt table
  refine grew.last_disk (.inr ?_) fun g mem => .inl ?_
  · exact (superSpan_le 0).trans low
  · have := start_le (v := v) (second.le.trans (groupStart_mono (mem_copies.mp mem).1))
    omega

variable (longer : s.size ≤ newSize)
include longer

theorem Grew.extended_word {off : Nat} (front : off + 4 ≤ v.start (v.bgdTableBlock + v.newGdt newSize)) :
    (¬ 0 < v.reservedGdt ∧ extended.word off = added.word off) ∨ (0 < v.reservedGdt ∧ ∃ after,
        Slotted v (v.newGdt newSize) (s.block v (s.dindBlock v))
          (v.slotPairs (s.numBlockGroups v) (v.newGroups newSize)) added after ∧
        extended.word off = after.word off) := by
  have step := grew.inode
  unfold ExtendedReserved at step
  split at step
  next reserved =>
    have filesystem := produced.toFilesystem
    have inode := produced.inode reserved
    have clear := produced.clear table reserved
    obtain ⟨-, -, -, after, slotted, final⟩ := step
    rw [grew.added_dind filesystem longer inode clear] at slotted final
    refine .inr ⟨reserved, after, slotted, ?_⟩
    have place := (inode.resizeInodeOff_kept slotted fun pair mem => slotPairs_lt mem).trans
      (grew.added_resizeInodeOff filesystem longer inode)
    have behind : v.start (v.bgdTableBlock + v.newGdt newSize) ≤ s.resizeInodeOff v :=
      (start_le clear.record).trans (Nat.le_add_right _ _)
    split at final
    · rw [final]
    · obtain ⟨raw, -, rfl⟩ := final
      exact word_congr fun p _ last => writeAt_outside (.inl (by rw [place]; omega))
  next none => exact .inl ⟨none, by rw [step]⟩

end

/-! ## The descriptors of the new groups -/

theorem mem_slotPairs {oldGroups i : Nat} : (g, i) ∈ v.slotPairs oldGroups newGroups ↔
    (oldGroups ≤ g ∧ g < newGroups) ∧ v.isSparseSuperGroup g ∧ i < v.blockSize / 4 := by
  unfold Layout.slotPairs
  simp only [mem_flatMap, mem_filter, mem_map, mem_range, Prod.mk.injEq]
  constructor
  · rintro ⟨g', ⟨inRange, sparse⟩, i', inside, rfl, rfl⟩
    have := mem_range'_1.mp inRange
    exact ⟨by omega, sparse, inside⟩
  · rintro ⟨⟨low, high⟩, sparse, inside⟩
    exact ⟨g, ⟨mem_range'_1.mpr (by omega), sparse⟩, i, inside, rfl, rfl⟩

theorem backupOrdinal_lt (positive : 1 ≤ g) (sparse : v.isSparseSuperGroup g)
    (less : g < g') : backupOrdinal v g < backupOrdinal v g' := by
  have split : range' 1 (g' - 1) = range' 1 (g - 1) ++ range' g (g' - g) := by
    have parts := @range'_append_1 1 (g - 1) (g' - g)
    rw [show 1 + (g - 1) = g by omega, show g - 1 + (g' - g) = g' - 1 by omega] at parts
    exact parts.symm
  have here : 0 < (range' g (g' - g)).countP v.isSparseSuperGroup :=
    countP_pos_iff.mpr ⟨g, mem_range'_1.mpr (by omega), sparse⟩
  unfold backupOrdinal
  rw [split, countP_append]
  omega

theorem backupOrdinal_inj (positive : 1 ≤ g) (positive' : 1 ≤ g') (sparse : v.isSparseSuperGroup g)
    (sparse' : v.isSparseSuperGroup g') (same : backupOrdinal v g = backupOrdinal v g') : g = g' := by
  rcases Nat.lt_trichotomy g g' with less | equal | more
  · have := backupOrdinal_lt positive sparse less
    omega
  · exact equal
  · have := backupOrdinal_lt positive' sparse' more
    omega

theorem Produced.slotOff_inj (produced : Produced v s) (reserved : 0 < v.reservedGdt)
    {pair other : Nat × Nat} (mem : pair ∈ v.slotPairs (s.numBlockGroups v) newGroups)
    (mem' : other ∈ v.slotPairs (s.numBlockGroups v) newGroups)
    (used : field (s.block v (s.dindBlock v)) (pair.2 * 4) 4 ≠ 0)
    (inside : backupOrdinal v pair.1 * 4 + 4 ≤ v.blockSize)
    (inside' : backupOrdinal v other.1 * 4 + 4 ≤ v.blockSize)
    (same : v.slotOff (s.block v (s.dindBlock v)) pair = v.slotOff (s.block v (s.dindBlock v)) other) :
    pair = other := by
  obtain ⟨g, i⟩ := pair
  obtain ⟨g', i'⟩ := other
  obtain ⟨⟨low, -⟩, sparse, small⟩ := mem_slotPairs.mp mem
  obtain ⟨⟨low', -⟩, sparse', small'⟩ := mem_slotPairs.mp mem'
  have some := produced.toFilesystem.some_groups
  dsimp only at used inside inside'
  unfold Layout.slotOff at same
  dsimp only at same
  have block : field (s.block v (s.dindBlock v)) (i * 4) 4 = field (s.block v (s.dindBlock v)) (i' * 4) 4 := by
    rcases Nat.lt_trichotomy (field (s.block v (s.dindBlock v)) (i * 4) 4)
      (field (s.block v (s.dindBlock v)) (i' * 4) 4) with less | equal | more
    · have := start_apart (v := v) less
      omega
    · exact equal
    · have := start_apart (v := v) more
      omega
  rw [block] at same
  rw [produced.entriesOnce reserved i small i' small' used block,
    backupOrdinal_inj (by omega) (by omega) sparse sparse' (by omega)]

theorem blockSize_four : v.blockSize % 4 = 0 := by
  obtain ⟨k, -, size⟩ := v.blockSize_eq
  rw [size, Nat.mul_mod]
  simp

theorem slotOff_aligned (descSize : v.descSize % 4 = 0) (dind : Bytes) (pair : Nat × Nat)
    (mem : slot ∈ v.pointerSlots b) : v.slotOff dind pair = v.descOff g + slot.off ∨
      v.slotOff dind pair + 4 ≤ v.descOff g + slot.off ∨ v.descOff g + slot.off + 4 ≤ v.slotOff dind pair := by
  obtain ⟨aligned, -, -⟩ := pointerSlots_off mem
  have size := @blockSize_four v
  have block : ∀ n, n * v.blockSize % 4 = 0 := fun n => by rw [Nat.mul_mod, size, Nat.mul_zero, Nat.zero_mod]
  have desc : g * v.descSize % 4 = 0 := by rw [Nat.mul_mod, descSize, Nat.mul_zero, Nat.zero_mod]
  have one := block (field dind (pair.2 * 4) 4)
  have two := block v.bgdTableBlock
  unfold Layout.slotOff Layout.descOff Layout.start
  omega

section
variable (produced : Produced v s)
  (table : v.newGdt newSize ≤ v.gdtBlocks (s.numBlockGroups v) + v.reservedGdt)
  {lasted added extended : Vol} (grew : Grew v s newSize lasted added extended t)
include produced table grew

theorem Grew.added_new (mem : g ∈ s.fresh v newSize) :
    SameOutside descSpans (added.desc v g).raw (newDescRaw v (v.bitmapOf (v.newGdt newSize) g)) ∧
      added.HoldsGroup v (v.newGdt newSize) (newSize / v.blockSize) g := by
  refine grew.groups.kept pairwise_lt_range' (fun g mem g' mem' => ?_) g mem
  refine (descOff_le (mem_fresh.mp mem).2).trans (start_le ?_)
  exact ((produced.newTable_lt table).2 g' mem').le

variable (longer : s.size ≤ newSize)
include longer

/-- A field of a new descriptor holds its number exactly when no entry puts another one there. -/
theorem Grew.word_iff (mem : g ∈ s.fresh v newSize)
    (listed : slot ∈ v.pointerSlots (v.bitmapOf (v.newGdt newSize) g)) :
    t.word (v.descOff g + slot.off) = slot.value % 2 ^ 32 ↔
      (0 < v.reservedGdt → ∀ pair ∈ v.slotPairs (s.numBlockGroups v) (v.newGroups newSize),
        field (s.block v (s.dindBlock v)) (pair.2 * 4) 4 ≠ 0 →
        v.slotOff (s.block v (s.dindBlock v)) pair = v.descOff g + slot.off →
        v.slotValue (v.newGdt newSize) pair % 2 ^ 32 = slot.value % 2 ^ 32) := by
  obtain ⟨-, inDesc, -⟩ := pointerSlots_off listed
  have inTable := descOff_le (v := v) (mem_fresh.mp mem).2
  have first : v.start v.bgdTableBlock ≤ v.descOff g := Nat.le_add_right _ _
  have last : t.word (v.descOff g + slot.off) = extended.word (v.descOff g + slot.off) :=
    word_congr fun p low high => grew.table_disk produced table (by omega) (by unfold Layout.newGdt; omega)
  have before := word_newDesc (grew.added_new produced table mem).1 listed
  have front : v.descOff g + slot.off + 4 ≤ v.start (v.bgdTableBlock + v.newGdt newSize) := by
    unfold Layout.newGdt
    omega
  rw [last]
  rcases grew.extended_word produced table longer front with ⟨none, same⟩ | ⟨reserved, after, slotted, same⟩
  · rw [same]
    exact iff_of_true before fun no => absurd no none
  · have aligned := fun pair => slotOff_aligned (g := g) produced.descSize (s.block v (s.dindBlock v)) pair listed
    rw [same]
    constructor
    · intro holds _ pair paired used here
      refine (slotted.word (fun other paired' used' => ?_) (.inr ⟨pair, paired, used, here⟩)).symm.trans holds
      refine (aligned other).imp (fun there => ⟨there, ?_⟩) id
      rw [produced.slotOff_inj reserved paired' paired used' (slotted.inside _ paired' used')
        (slotted.inside _ paired used) (there.trans here.symm)]
    · intro entries
      refine slotted.word (fun pair paired used => ?_) (.inl before)
      exact (aligned pair).imp (fun here => ⟨here, entries reserved pair paired used here⟩) id

theorem Grew.kept_block (old : b < s.sb.blocksCount) (first : v.firstDataBlock ≤ b)
    (super : ¬ s.superCopy v b) (descs : ¬ s.tableBlock v b)
    (bitmap : b ≠ (s.desc v (s.numBlockGroups v - 1)).blockBitmap) (resize : ¬ s.resizeBlock v b) :
    t.block v b = s.block v b := by
  have filesystem := produced.toFilesystem
  have apart := fun g => outside_head (g := g) super descs resize
  have front := apart 0 filesystem.some_groups isSparseSuperGroup_zero
  have start := filesystem.first
  rw [groupStart_zero] at front
  have covered := filesystem.blocksCount_le
  have behind := start_le (v := v)
    (show v.bgdTableBlock + v.gdtBlocks (s.numBlockGroups v) + v.reservedGdt ≤ b by omega)
  refine block_congr fun p low high => ?_
  have super := (superSpan_le 0).trans (start_le (show v.bgdTableBlock + 0 ≤ b by omega))
  rw [grew.last_disk (.inr (super.trans low)) fun g mem => ?_,
    grew.extended_disk produced (produced.clear table) longer (.inr (behind.trans low)) fun reserved => ?_]
  · exact grew.added_octet filesystem longer old (by omega) (by omega) bitmap low high
  · by_contra inside
    exact resize ⟨reserved, .inr (.inr ⟨by omega, by omega⟩)⟩
  · obtain ⟨-, -, sparse⟩ := mem_copies.mp mem
    by_cases present : g < s.numBlockGroups v
    · rcases apart g present sparse with before | after
      · have := start_apart (v := v) before
        omega
      · have := start_le (v := v) (show v.groupStart g + 1 + v.newGdt newSize ≤ b by omega)
        omega
    · have := groupStart_mono (v := v) (Nat.le_of_not_lt present)
      have := start_apart (v := v) (show b < v.groupStart g by omega)
      omega

omit longer in
theorem Grew.new_apart (mem : g ∈ s.fresh v newSize) (low : v.bitmapOf (v.newGdt newSize) g ≤ b)
    (high : b < v.groupStart g + v.headBlocks (v.newGdt newSize) g) (sparse : v.isSparseSuperGroup g') :
    b < v.groupStart g' ∨ v.groupStart g' + 1 + v.newGdt newSize ≤ b := by
  have room := (grew.groups.room g mem).trans (groupBlocks_le_group _ _)
  obtain ⟨second, -⟩ := produced.newTable_lt table
  have first := produced.first
  have step : ∀ {a c : Nat}, a < c → v.groupStart a + v.blocksPerGroup ≤ v.groupStart c := groupStart_le
  have next : v.groupStart 1 = v.blocksPerGroup + v.firstDataBlock := by
    rw [Layout.groupStart, Nat.one_mul]
  rcases Nat.lt_trichotomy g g' with later | rfl | earlier
  · have := step later
    omega
  · rw [Layout.bitmapOf, Layout.superBlocks, if_pos sparse] at low
    omega
  · have := step earlier
    have : v.groupStart g ≤ v.bitmapOf (v.newGdt newSize) g := Nat.le_add_right _ _
    omega

theorem Grew.new_holds (mem : g ∈ s.fresh v newSize) :
    t.HoldsGroup v (v.newGdt newSize) (newSize / v.blockSize) g := by
  have filesystem := produced.toFilesystem
  have behind := (produced.newTable_lt table).2 g mem
  have covered := filesystem.blocksCount_le
  have old := groupStart_mono (v := v) (mem_fresh.mp mem).1
  refine (grew.added_new produced table mem).2.congr fun b low high => block_congr fun p from' last => ?_
  have inGroup : v.groupStart g ≤ b := (Nat.le_add_right _ _).trans low
  have tableEnd := start_le (v := v)
    (show v.bgdTableBlock + v.gdtBlocks (s.numBlockGroups v) + v.reservedGdt ≤ b by
      have := produced.table_lt.2
      omega)
  have super := (superSpan_le 0).trans (start_le (show v.bgdTableBlock + 0 ≤ b by omega))
  rw [grew.last_disk (.inr (super.trans from')) fun g' mem' => ?_,
    grew.extended_disk produced (produced.clear table) longer (.inr (tableEnd.trans from')) fun reserved => .inr ?_]
  · -- The record of the resize inode is in an old block.
    have group := (produced.inode reserved).group
    have some := @inodeTableBlocks_pos v
    have inside := (filesystem.inside _ group ((s.desc v ((resizeIno - 1) / v.inodesPerGroup)).inodeTable +
      (v.inodeTableBlocks - 1)) (.tail _ (.tail _ (mem_range'_1.mpr (by omega))))).2
    have record := @inodeOff_lt v resizeIno (s.desc v ((resizeIno - 1) / v.inodesPerGroup))
    have := start_le (v := v) (show (s.desc v ((resizeIno - 1) / v.inodesPerGroup)).inodeTable +
      v.inodeTableBlocks ≤ b by omega)
    exact record.trans (this.trans from')
  · obtain ⟨-, -, sparse⟩ := mem_copies.mp mem'
    rcases grew.new_apart produced table mem low high sparse with before | after
    · have := start_apart (v := v) before
      omega
    · exact .inr ((start_le after).trans from')

end

/-! ## The call -/

theorem mem_structures (named : (t.desc v g).structures = (b, b + 1, b + 2)) {b' : Nat}
    (mem : b' ∈ t.structures v g) : b ≤ b' ∧ b' < b + 2 + v.inodeTableBlocks := by
  obtain ⟨block, rest⟩ := Prod.mk.inj named
  obtain ⟨inode, table⟩ := Prod.mk.inj rest
  rw [Vol.structures, block, inode, table] at mem
  simp only [mem_cons, mem_range'_1] at mem
  omega

/-- The bitmap of the first group follows the reserved blocks, so a longer table is on it. -/
theorem Preserved.table (produced : Produced v s) (preserved : Preserved v s t) :
    v.gdtBlocks (t.numBlockGroups v) ≤ v.gdtBlocks (s.numBlockGroups v) + v.reservedGdt := by
  rcases Nat.eq_zero_or_pos (t.numBlockGroups v) with none | some
  · have size := v.blockSize_ge
    rw [none, Layout.gdtBlocks, Nat.zero_mul, Nat.zero_add, Nat.div_eq_of_lt (by omega)]
    exact Nat.zero_le _
  · have named := (Prod.mk.inj (preserved.old 0 some produced.toFilesystem.some_groups)).1
    have apart := preserved.apart 0 some _ (@blockBitmap_mem v t 0)
    rw [named, produced.firstBitmap] at apart
    by_contra longer
    refine apart ⟨0, some, isSparseSuperGroup_zero, ?_, ?_⟩
    all_goals
      rw [groupStart_zero, produced.first]
      omega

theorem grow_preserves_iff {newSize : Int} (produced : Produced v s)
    (done : grow v newSize s = (.ok (), t)) : Preserved v s t ↔ s.GrowFits v newSize.toNat := by
  have filesystem := produced.toFilesystem
  obtain ⟨admitted, lasted, added, extended, grew⟩ := (grow_meets newSize filesystem.raw).ok done
  have longer : s.size ≤ newSize.toNat := by
    by_contra shorter
    exact admitted (.inr (.inl (by omega)))
  have groups : t.numBlockGroups v = v.newGroups newSize.toNat := by
    rw [Vol.numBlockGroups, grew.blocksCount]
    rfl
  constructor
  · intro preserved
    have table := preserved.table produced
    rw [groups] at table
    have named : ∀ g ∈ s.fresh v newSize.toNat, (t.desc v g).structures =
        (v.bitmapOf (v.newGdt newSize.toNat) g, v.bitmapOf (v.newGdt newSize.toNat) g + 1,
          v.bitmapOf (v.newGdt newSize.toNat) g + 2) := by
      intro g mem
      obtain ⟨low, high⟩ := mem_fresh.mp mem
      have new := (preserved.new g (by rw [groups]; exact high) low).1
      rw [groups] at new
      exact new
    refine ⟨table, fun g mem => (desc_structures_iff.mp (named g mem)).1, ?_⟩
    intro reserved pair paired used g mem slot listed here
    have word := (desc_structures_iff.mp (named g mem)).2 slot listed
    exact (grew.word_iff produced table longer mem listed).mp word reserved pair paired used here
  · intro fits
    have table := fits.table
    have named : ∀ g ∈ s.fresh v newSize.toNat, (t.desc v g).structures =
        (v.bitmapOf (v.newGdt newSize.toNat) g, v.bitmapOf (v.newGdt newSize.toNat) g + 1,
          v.bitmapOf (v.newGdt newSize.toNat) g + 2) := by
      intro g mem
      refine desc_structures_iff.mpr ⟨fits.numbers g mem, fun slot listed => ?_⟩
      refine (grew.word_iff produced table longer mem listed).mpr ?_
      exact fun reserved pair paired used here => fits.entries reserved pair paired used g mem slot listed here
    constructor
    case kept =>
      intro b first old _ super descs bitmap resize
      exact grew.kept_block produced table longer old first super descs bitmap resize
    case old => exact fun g _ present => grew.old_structures produced (produced.clear table) longer present
    case new =>
      intro g present low
      rw [groups] at present ⊢
      have mem := mem_fresh.mpr ⟨low, present⟩
      rw [grew.blocksCount]
      exact ⟨named g mem, grew.new_holds produced table longer mem⟩
    case apart =>
      rintro g present b mem ⟨g', present', sparse, low, high⟩
      rw [groups] at present present' high
      change b < v.groupStart g' + 1 + v.newGdt newSize.toNat at high
      by_cases old : g < s.numBlockGroups v
      · rw [structures_congr (grew.old_structures produced (produced.clear table) longer old)] at mem
        have inside := (filesystem.inside g old b mem).2
        have covered := filesystem.blocksCount_le
        by_cases old' : g' < s.numBlockGroups v
        · rcases filesystem.behind g old b mem g' old' sparse with before | after <;> omega
        · have := groupStart_mono (v := v) (Nat.le_of_not_lt old')
          omega
      · have fresh := mem_fresh.mpr ⟨Nat.le_of_not_lt old, present⟩
        have inHead := mem_structures (named g fresh) mem
        have head : v.groupStart g + v.headBlocks (v.newGdt newSize.toNat) g =
            v.bitmapOf (v.newGdt newSize.toNat) g + 2 + v.inodeTableBlocks := by
          unfold Layout.headBlocks Layout.bitmapOf
          omega
        rcases grew.new_apart produced table fresh inHead.1 (by omega) sparse with before | after <;> omega

/-! ## A filesystem that fills its descriptors -/

/-- With a full last group and no resize inode nothing has to be read but the descriptors. -/
theorem grow_succeeds {newSize : Int} (raw : s.sb.raw.length = superblockSize)
    (admitted : ¬ s.growRefused v newSize) (groups : s.numBlockGroups v = g + 1)
    (full : v.blocksPerGroup ≤ s.sb.blocksCount - v.groupStart g) (plain : v.reservedGdt = 0)
    (room : ∀ g ∈ s.fresh v newSize.toNat,
      v.headBlocks (v.newGdt newSize.toNat) g ≤ v.groupBlocks (newSize.toNat / v.blockSize) g)
    (table : v.start (v.bgdTableBlock + v.newGdt newSize.toNat) ≤ newSize.toNat) :
    ∃ t, grow v newSize s = (.ok (), t) := by
  obtain ⟨positive, longer, more⟩ : ¬ newSize ≤ 0 ∧ ¬ newSize.toNat ≤ s.size ∧
      ¬ newSize.toNat / v.blockSize ≤ s.size / v.blockSize := by
    simpa only [Vol.growRefused, not_or] using admitted
  have meets : (grow v newSize).Meets s (fun _ _ => True) fun _ _ => False := by
    rw [grow, if_neg positive, meets_bind, meets_read]
    rw [if_neg longer, if_neg more, growTo]
    rw [meets_bind, meets_read, meets_bind, meets_modify, meets_bind,
      meets_modify, growOld_full groups full, meets_bind, meets_pure, meets_bind]
    refine (addGroups_meets (s := s.published v newSize.toNat) _ 0 raw).mono (fun total added all => ?_)
      fun _ _ bad => ?_
    · have long : added.sb.raw.length = superblockSize := by
        rw [all.memory.1]
        exact raw
      rw [meets_bind, extendReserved, if_neg (by omega), meets_pure]
      refine (publish_meets long).mono (fun _ _ _ => trivial) fun _ _ short => ?_
      have reached : newSize.toNat ≤ added.size := all.wrote.size_ge
      have tableEnd := short.2
      rw [blocksSpan_end] at tableEnd
      unfold Layout.newGdt Layout.newGroups at table
      omega
    · obtain ⟨-, g, mem, few⟩ := bad
      have := room g mem
      unfold Layout.newGdt Layout.newGroups at this
      omega
  rcases ran : grow v newSize s with ⟨e | _, t⟩
  · exact (meets.error ran).elim
  · exact ⟨t, rfl⟩

section
open Format
open Volume (fmtBlockSize fmtBlocksPerGroup)

theorem formatted_produced {total : Nat} (cfg : Config) (fits : Format.Fits total)
    (accepted : accepts total) : Produced (layout cfg) (formatted total cfg) := by
  have consistent := formatted_consistent cfg fits accepted
  have groups := formatted_groups cfg fits.1
  have some : 0 < nGroups total := groups ▸ consistent.toFilesystem.some_groups
  constructor
  case toConsistent => exact consistent
  case descSize => exact (by decide : fmtDescSize % 4 = 0)
  case firstBitmap =>
    rw [formatted_desc cfg fits.1 some, groups]
    change 0 * fmtBlocksPerGroup + groupSuperBlocks total 0 = 1 + bgdtBlocks total + 0
    rw [groupSuperBlocks, if_pos (by decide)]
    omega
  case inode => exact fun no => absurd no (Nat.lt_irrefl 0)
  case entriesOnce => exact fun no => absurd no (Nat.lt_irrefl 0)

def fullTable : Vol := formatted 4194304 ⟨[], [], 0⟩

theorem fullTable_blocksCount : fullTable.sb.blocksCount = 4194304 := formatted_blocksCount _ (by decide)

theorem fullTable_groups : fullTable.numBlockGroups (layout ⟨[], [], 0⟩) = 128 := by
  rw [Vol.numBlockGroups, fullTable_blocksCount]
  decide

theorem fullTable_produced : Produced (layout ⟨[], [], 0⟩) fullTable :=
  formatted_produced _ (by decide) (by decide)

theorem fullTable_grows : ∃ t,
    grow (layout ⟨[], [], 0⟩) (4227072 * fmtBlockSize : Nat) fullTable = (.ok (), t) := by
  have size : fullTable.size = 4194304 * fmtBlockSize := formatted_size _ (by decide) (by decide)
  refine grow_succeeds fullTable_produced.raw ?_ fullTable_groups ?_ rfl (fun g mem => ?_) (by decide)
  · rw [Vol.growRefused, size]
    decide
  · rw [fullTable_blocksCount]
    decide
  · have present := mem_fresh.mp mem
    rw [fullTable_groups] at present
    have last : g = 128 := by
      have : (layout ⟨[], [], 0⟩).newGroups ((4227072 * fmtBlockSize : Nat) : Int).toNat = 129 := by decide
      omega
    rw [last]
    decide

theorem grow_preserves_iff_full : ∃ t,
    grow (layout ⟨[], [], 0⟩) (4227072 * fmtBlockSize : Nat) fullTable = (.ok (), t) ∧
    (Preserved (layout ⟨[], [], 0⟩) fullTable t ↔
      fullTable.GrowFits (layout ⟨[], [], 0⟩) ((4227072 * fmtBlockSize : Nat) : Int).toNat) := by
  obtain ⟨t, done⟩ := fullTable_grows
  exact ⟨t, done, grow_preserves_iff fullTable_produced done⟩

/-- The descriptors are then on the block bitmap of the first group. -/
theorem grow_overwrites_bitmap : Produced (layout ⟨[], [], 0⟩) fullTable ∧ ∃ t,
    grow (layout ⟨[], [], 0⟩) (4227072 * fmtBlockSize : Nat) fullTable = (.ok (), t) ∧
    t.tableBlock (layout ⟨[], [], 0⟩) (t.desc (layout ⟨[], [], 0⟩) 0).blockBitmap := by
  obtain ⟨t, done⟩ := fullTable_grows
  refine ⟨fullTable_produced, t, done, ?_⟩
  obtain ⟨admitted, lasted, added, extended, grew⟩ := (grow_meets _ fullTable_produced.raw).ok done
  have longer : fullTable.size ≤ ((4227072 * fmtBlockSize : Nat) : Int).toNat := by
    by_contra shorter
    exact admitted (.inr (.inl (by omega)))
  have named := grew.old_structures fullTable_produced (fun no => absurd no (by decide)) longer
    (g := 0) (by rw [fullTable_groups]; decide)
  have bitmap : (t.desc (layout ⟨[], [], 0⟩) 0).blockBitmap = 2 := by
    refine (Prod.mk.inj named).1.trans ?_
    rw [fullTable_produced.firstBitmap, fullTable_groups]
    decide
  have groups : t.numBlockGroups (layout ⟨[], [], 0⟩) = 129 := by
    rw [Vol.numBlockGroups, grew.blocksCount]
    decide
  rw [bitmap, Vol.tableBlock, groups]
  exact ⟨0, by decide, by decide, by decide, by decide⟩

end

end Ext4.Resize
