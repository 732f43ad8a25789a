import Ext4.Resize.GrowFrame
import Ext4.Resize.Refused
import Ext4.Resize.ShrinkAllocator

/-! Resizing a filesystem in a partition.
The size that is asked for is that of the filesystem, but the device is cut or lengthened to it from
its own start: the offset of the partition is not added. -/

namespace Ext4.Resize
open Octets Overlay SuperArea Format List
open Volume (fmtBlockSize)

variable {v : Layout} {s t : Vol} {g newSize : Nat} {others : List (Nat × Nat)}

/-! ## The end of the device after `Grow` -/

/-- The ends of what is laid out, in blocks: the descriptors, the copies of them, and the metadata of
the new groups. -/
def Vol.growEnds (v : Layout) (s : Vol) (newSize : Nat) : List Nat :=
  (v.bgdTableBlock + v.newGdt newSize) ::
    ((v.copies (v.newGroups newSize)).map (fun g => v.groupStart g + 1 + v.newGdt newSize) ++
      (s.fresh v newSize).map fun g => v.groupStart g + v.headBlocks (v.newGdt newSize) g)

section
variable {lasted added extended : Vol} (grew : Grew v s newSize lasted added extended t)
include grew

theorem Grew.lasted_size : lasted.size = newSize := by
  have last := grew.last
  split at last
  next =>
    unfold GrewLast at last
    split at last
    · obtain ⟨block, desc, rewritten⟩ := last
      obtain ⟨_, -, -, size⟩ := rewritten.writes
      have before : (s.published v newSize).size = newSize := rfl
      omega
    · rw [last]
      rfl
  next =>
    rw [last]
    rfl

theorem Grew.size_le_iff (same : extended.size = added.size) (n : Nat) :
    t.size ≤ n ↔ newSize ≤ n ∧ ∀ e ∈ s.growEnds v newSize, v.start e ≤ n := by
  have table := grew.table
  rw [blocksSpan_end, same] at table
  have super := @superSpan_le v (v.newGdt newSize)
  have front := @superblockSize_le v
  rw [grew.wrote.size, same, grew.groups.wrote.size, grew.lasted_size]
  unfold Vol.growEnds
  simp only [forall_mem_cons, forall_mem_append, forall_mem_map]
  constructor
  · rintro ⟨⟨device, groups⟩, first, copies⟩
    -- The table was read before the copies were written.
    have reached : added.size ≤ n := (grew.groups.wrote.size n).mpr ⟨grew.lasted_size.symm ▸ device, groups⟩
    refine ⟨device, by omega, fun g mem => ?_, fun g mem => ?_⟩
    · have last := copies (v.blocksSpan (v.groupStart g + 1) (v.newGdt newSize))
        (mem_flatMap.mpr ⟨g, mem, .tail _ (.head _)⟩)
      rwa [blocksSpan_end] at last
    · exact groupSpans_end fun span inside => groups span (mem_flatMap.mpr ⟨g, mem, inside⟩)
  · rintro ⟨device, first, copies, groups⟩
    refine ⟨⟨device, fun span mem => ?_⟩, super.trans first, fun span mem => ?_⟩
    · obtain ⟨g, listed, inside⟩ := mem_flatMap.mp mem
      rcases mem_groupSpans inside with rfl | ⟨-, high⟩
      · exact (descOff_le (mem_fresh.mp listed).2).trans first
      · exact high.trans (groups g listed)
    · obtain ⟨g, listed, inside⟩ := mem_flatMap.mp mem
      have last := copies g listed
      simp only [Layout.copySpans, mem_cons, not_mem_nil, or_false] at inside
      rcases inside with rfl | rfl
      · have := start_le (v := v) (Nat.le_add_right (v.groupStart g + 1) (v.newGdt newSize))
        have := start_succ (v := v) (v.groupStart g)
        unfold Layout.copySpan
        omega
      · rwa [blocksSpan_end]

end

/-! ## What a resize may touch -/

def Vol.followed (v : Layout) (others : List (Nat × Nat)) (s : Vol) : Prop :=
  ∃ other ∈ others, v.start s.sb.blocksCount ≤ other.1 ∧ other.1 < other.2 ∧ other.2 ≤ s.size

/-- The filesystem ends on the device, and when there are other partitions behind it, nothing at or
behind the end of the range that was asked for is written or cut off. -/
structure Within (v : Layout) (others : List (Nat × Nat)) (s : Vol) (newSize : Nat) (t : Vol) : Prop where
  onDevice : v.start t.sb.blocksCount ≤ t.size
  behind : s.followed v others → t.size ≤ max s.size (v.partOffset + newSize) ∧
    ∀ p, v.partOffset + newSize ≤ p → p < s.size → p < t.size ∧ t.disk p = s.disk p

/-- The offset is made up for by the rest of the size, or by what is laid out at the end; with a
partition behind it nothing is laid out past the end. -/
def Vol.growStays (v : Layout) (others : List (Nat × Nat)) (s : Vol) (newSize : Nat) : Prop :=
  (v.partOffset ≤ newSize % v.blockSize ∨ ∃ e ∈ s.growEnds v newSize, newSize / v.blockSize ≤ e) ∧
    (s.followed v others → ∀ e ∈ s.growEnds v newSize, e ≤ newSize / v.blockSize)

def Vol.shrinkStays (v : Layout) (others : List (Nat × Nat)) (s : Vol) : Prop :=
  v.partOffset = 0 ∧ ¬ s.followed v others

theorem start_le_iff {b b' : Nat} : v.start b ≤ v.start b' ↔ b ≤ b' := by
  have size := v.blockSize_ge
  rw [Layout.start, Layout.start, Nat.add_le_add_iff_left, Nat.mul_le_mul_right_iff (by omega)]

theorem grow_within_iff {newSize : Int} (raw : s.sb.raw.length = superblockSize)
    (inode : 0 < v.reservedGdt → Filesystem v s ∧ ResizeInode v s ∧ ResizeInode.Clear v s newSize.toNat)
    (done : grow v newSize s = (.ok (), t)) :
    Within v others s newSize.toNat t ↔ s.growStays v others newSize.toNat := by
  obtain ⟨admitted, lasted, added, extended, grew⟩ := (grow_meets newSize raw).ok done
  have longer : s.size < newSize.toNat := by
    by_contra shorter
    exact admitted (.inr (.inl (by omega)))
  have same : extended.size = added.size := by
    by_cases reserved : 0 < v.reservedGdt
    · exact (grew.extended_wrote (inode reserved).1 longer.le (fun _ => (inode reserved).2.1)
        fun _ => (inode reserved).2.2).1
    · have step := grew.inode
      rw [ExtendedReserved, if_neg reserved] at step
      rw [step]
  have size := grew.size_le_iff same
  have positive : 0 < v.blockSize := Nat.lt_of_lt_of_le (by decide) v.blockSize_ge
  have split := Nat.div_add_mod newSize.toNat v.blockSize
  rw [Nat.mul_comm] at split
  have blocks : 0 < newSize.toNat / v.blockSize := by
    by_contra none
    exact admitted (.inr (.inr (Nat.eq_zero_of_not_pos none ▸ Nat.zero_le _)))
  have reach : v.start t.sb.blocksCount ≤ t.size ↔ v.partOffset ≤ newSize.toNat % v.blockSize ∨
      ∃ e ∈ s.growEnds v newSize.toNat, newSize.toNat / v.blockSize ≤ e := by
    have first : 0 < v.start (newSize.toNat / v.blockSize) :=
      Nat.lt_of_lt_of_le (Nat.mul_pos blocks positive) (Nat.le_add_left _ _)
    have missed := size (v.start (newSize.toNat / v.blockSize) - 1)
    rw [grew.blocksCount, ← not_lt, ← Nat.le_sub_one_iff_lt first, missed, not_and_or]
    refine or_congr ?_ ?_
    · unfold Layout.start
      omega
    · simp only [not_forall, Nat.le_sub_one_iff_lt first, not_lt, start_le_iff, exists_prop]
  have beyond : t.size ≤ v.partOffset + newSize.toNat ↔
      ∀ e ∈ s.growEnds v newSize.toNat, e ≤ newSize.toNat / v.blockSize := by
    rw [size, and_iff_right (Nat.le_add_left _ _)]
    refine forall₂_congr fun e _ => ?_
    rw [Layout.start, Nat.add_le_add_iff_left, Nat.le_div_iff_mul_le positive]
  constructor
  · exact fun within => ⟨reach.mp within.onDevice, fun followed => beyond.mp
      ((within.behind followed).1.trans (by omega))⟩
  · refine fun stays => ⟨reach.mpr stays.1, fun followed => ⟨?_, fun p low old => ?_⟩⟩
    · exact (beyond.mpr (stays.2 followed)).trans (le_max_right _ _)
    · omega

theorem shrink_within_iff {newSize : Int} (done : shrink v newSize s = (.ok (), t)) :
    Within v others s newSize.toNat t ↔ s.shrinkStays v others := by
  obtain ⟨admitted, shrunk⟩ := (shrink_meets newSize).ok done
  have size := shrunk.size
  have count := shrunk.blocksCount
  have whole : newSize.toNat / v.blockSize * v.blockSize = newSize.toNat :=
    Nat.div_mul_cancel (Nat.dvd_of_mod_eq_zero admitted.whole)
  have reach : v.start t.sb.blocksCount ≤ t.size ↔ v.partOffset = 0 := by
    rw [size, count, Layout.start, whole]
    omega
  have kept : s.followed v others → v.partOffset + newSize.toNat < s.size := by
    rintro ⟨other, -, behind, some, inside⟩
    have := start_apart (v := v) admitted.drops
    unfold Layout.start at *
    omega
  constructor
  · refine fun within => ⟨reach.mp within.onDevice, fun followed => ?_⟩
    have := ((within.behind followed).2 _ (le_refl _) (kept followed)).1
    omega
  · exact fun stays => ⟨reach.mpr stays.1, fun followed => absurd followed stays.2⟩

/-! ## The calls -/

def ResizeCall.stays (v : Layout) (others : List (Nat × Nat)) (s : Vol) : ResizeCall → Prop
  | .grow newSize => s.growStays v others newSize.toNat
  | .shrink _ => s.shrinkStays v others
  | .resize newSize =>
      if newSize.toNat = s.size then v.start s.sb.blocksCount ≤ s.size
      else if s.size < newSize.toNat then s.growStays v others newSize.toNat
      else s.shrinkStays v others

/-- For every image without a resize inode, and for every filesystem with one that the lengthened
descriptors do not reach. -/
theorem resize_within_iff {call : ResizeCall} {others : List (Nat × Nat)}
    (raw : s.sb.raw.length = superblockSize) (inode : 0 < v.reservedGdt →
      Filesystem v s ∧ ResizeInode v s ∧ ResizeInode.Clear v s call.newSize.toNat)
    (done : call.run v s = (.ok (), t)) : Within v others s call.newSize.toNat t ↔ call.stays v others s := by
  cases call with
  | grow newSize => exact grow_within_iff raw inode done
  | shrink newSize => exact shrink_within_iff done
  | resize newSize =>
    by_cases positive : newSize ≤ 0
    · rw [ResizeCall.run, resize, if_pos positive] at done
      cases (Prod.mk.inj done).1
    · have ran := (resize_run v positive s).symm.trans done
      rw [ResizeCall.stays]
      split at ran
      next same =>
        obtain ⟨-, rfl⟩ := Prod.mk.inj ran
        rw [if_pos same]
        refine ⟨Within.onDevice, fun inside => ⟨inside, fun _ => ⟨le_max_left _ _, fun p low old => ?_⟩⟩⟩
        exact ⟨old, rfl⟩
      next other =>
        rw [if_neg other]
        split at ran
        next longer => rw [if_pos longer]; exact grow_within_iff raw inode ran
        next shorter => rw [if_neg shorter]; exact shrink_within_iff ran

/-! ## A filesystem in a partition -/

def Layout.movedBy (v : Layout) (offset : Nat) : Layout := { v with partOffset := v.partOffset + offset }

def Vol.movedBy (s : Vol) (offset rest : Nat) : Vol :=
  { s with
    size := offset + s.size + rest
    disk := fun p => if p < offset then 0 else s.disk (p - offset) }

section
variable (offset rest : Nat)

theorem movedBy_readAt (off len : Nat) :
    (s.movedBy offset rest).disk.readAt (offset + off) len = s.disk.readAt off len := by
  refine map_congr_left fun i _ => ?_
  rw [Vol.movedBy]
  dsimp only
  rw [if_neg (by omega)]
  congr 1
  omega

theorem movedBy_start (b : Nat) : (v.movedBy offset).start b = offset + v.start b := by
  unfold Layout.movedBy Layout.start
  dsimp only
  omega

theorem movedBy_block (b : Nat) : (s.movedBy offset rest).block (v.movedBy offset) b = s.block v b := by
  rw [Vol.block, movedBy_start, movedBy_readAt]
  rfl

theorem movedBy_desc (g : Nat) : (s.movedBy offset rest).desc (v.movedBy offset) g = s.desc v g := by
  rw [Vol.desc, Layout.descOff, movedBy_start, Nat.add_assoc, movedBy_readAt]
  rfl

theorem movedBy_consistent (consistent : Consistent v s) :
    Consistent (v.movedBy offset) (s.movedBy offset rest) := by
  have desc := movedBy_desc (v := v) (s := s) offset rest
  have block := movedBy_block (v := v) (s := s) offset rest
  have structures : (s.movedBy offset rest).structures (v.movedBy offset) = s.structures v := by
    funext g
    rw [Vol.structures, desc]
    rfl
  have free : (s.movedBy offset rest).freeIn (v.movedBy offset) = s.freeIn v := by
    funext g
    rw [Vol.freeIn, desc, block]
    rfl
  have freeInodes : (s.movedBy offset rest).freeInodesIn (v.movedBy offset) = s.freeInodesIn v := by
    funext g
    rw [Vol.freeInodesIn, desc, block]
    rfl
  have onDevice := consistent.onDevice
  constructor
  case toFilesystem =>
    constructor
    case raw => exact consistent.raw
    case first => exact consistent.first
    case onDevice =>
      rw [movedBy_start]
      exact (Nat.add_le_add_left onDevice _).trans (Nat.le_add_right _ _)
    case groups => exact consistent.groups
    case inodes => exact consistent.inodes
    case table => exact consistent.table
    case inside => rw [structures]; exact consistent.inside
    case behind => rw [structures]; exact consistent.behind
    case distinct => rw [structures]; exact consistent.distinct
  case freeBlocks => intro g present; rw [desc, free]; exact consistent.freeBlocks g present
  case freeInodes => intro g present; rw [desc, freeInodes]; exact consistent.freeInodes g present
  case totalBlocks => rw [free]; exact consistent.totalBlocks
  case totalInodes => rw [freeInodes]; exact consistent.totalInodes
  case descSum => intro g present; rw [desc]; exact consistent.descSum g present
  case blockSum => intro g present; rw [desc, block]; exact consistent.blockSum g present
  case inodeSum => intro g present; rw [desc, block]; exact consistent.inodeSum g present
  case marked =>
    intro g present b mem
    rw [structures] at mem
    rw [Vol.inUse, desc, block]
    exact consistent.marked g present b mem

theorem movedBy_shrinks {newSize : Int} (consistent : Consistent v s)
    (done : shrink v newSize s = (.ok (), t)) :
    ∃ t, shrink (v.movedBy offset) newSize (s.movedBy offset rest) = (.ok (), t) := by
  have desc := movedBy_desc (v := v) (s := s) offset rest
  have block := movedBy_block (v := v) (s := s) offset rest
  obtain ⟨admitted, shrunk⟩ := (shrink_meets newSize).ok done
  have fewer := Nat.le_of_lt admitted.drops
  have some : 0 < newSize.toNat / v.blockSize := Nat.lt_of_lt_of_le v.blocksPerGroup_pos admitted.keepsGroup
  have smaller := admitted.smaller
  have admitted' : Admitted (v.movedBy offset) (s.movedBy offset rest) newSize := by
    constructor
    case positive => exact admitted.positive
    case smaller => unfold Vol.movedBy; dsimp only; omega
    case whole => exact admitted.whole
    case drops => exact admitted.drops
    case keepsGroup => exact admitted.keepsGroup
    case keepsUsed =>
      intro g present i low high used
      rw [desc, block] at used
      exact admitted.keepsUsed g present i low high used
  obtain ⟨t', ran, -⟩ := shrink_succeeds (movedBy_consistent offset rest consistent) admitted' fun g gone => by
    have droppable := (cutTo_droppable consistent.toFilesystem fewer some gone _ _).mp (shrunk.1 g gone)
    unfold Vol.droppable
    rw [desc, block, block]
    exact droppable
  exact ⟨t', ran⟩

end

/-! ## Two partitions -/

def twoPartitions : Vol := twoGroups.movedBy 1048576 4096

def partitionLayout : Layout := plainLayout.movedBy 1048576

theorem twoPartitions_shrinks : ∃ t,
    shrink partitionLayout (32769 * fmtBlockSize : Nat) twoPartitions = (.ok (), t) := by
  obtain ⟨t, done, -⟩ := twoGroups_shrinks
  exact movedBy_shrinks _ _ twoGroups_consistent done

theorem resize_within_iff_two : ∃ t,
    (ResizeCall.shrink (32769 * fmtBlockSize : Nat)).run partitionLayout twoPartitions = (.ok (), t) ∧
    (Within partitionLayout [(269484032, 269488128)] twoPartitions
        (ResizeCall.shrink (32769 * fmtBlockSize : Nat)).newSize.toNat t ↔
      (ResizeCall.shrink (32769 * fmtBlockSize : Nat)).stays partitionLayout [(269484032, 269488128)]
        twoPartitions) := by
  obtain ⟨t, done⟩ := twoPartitions_shrinks
  exact ⟨t, done, resize_within_iff twoGroups_consistent.raw (fun no => absurd no (by decide)) done⟩

/-- The device ends in the filesystem, and the second partition is gone. -/
theorem shrink_cuts_partitions : Consistent partitionLayout twoPartitions ∧
    twoPartitions.size = 269488128 ∧ ∃ t,
    shrink partitionLayout (32769 * fmtBlockSize : Nat) twoPartitions = (.ok (), t) ∧
    t.size < partitionLayout.start t.sb.blocksCount ∧ t.size < 269484032 := by
  have size : twoGroups.size = 65536 * fmtBlockSize := formatted_size _ (by decide) (by decide)
  obtain ⟨t, done⟩ := twoPartitions_shrinks
  have shrunk := ((shrink_meets _).ok done).2
  refine ⟨movedBy_consistent _ _ twoGroups_consistent, ?_, t, done, ?_, ?_⟩
  · rw [twoPartitions, Vol.movedBy, size]
    decide
  · rw [shrunk.size, shrunk.blocksCount]
    decide
  · rw [shrunk.size]
    decide

end Ext4.Resize
