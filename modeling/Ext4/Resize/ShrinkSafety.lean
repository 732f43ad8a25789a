import Ext4.Resize.Shrinking

/-! What `Shrink` cuts off.
The minimum size leaves out the blocks that `Shrink` assumes for the metadata at the head of every
group. What is needed behind those heads stays; what is needed in one of them, the metadata of the
last group or with flex_bg any block, may be behind the new end. -/

namespace Ext4.Resize
open Octets Overlay SuperArea

variable {v : Layout} {s t : Vol} {g b : Nat}

/-- The block is one of those that `Shrink` takes for the metadata of its group. -/
def Vol.inHead (v : Layout) (s : Vol) (b : Nat) : Prop :=
  let k := b - v.firstDataBlock
  k % v.blocksPerGroup < v.headBlocks (v.gdtBlocks (s.numBlockGroups v)) (k / v.blocksPerGroup)

/-- Mapped by a live inode, or a bitmap or a block of the inode table of one of the first groups. -/
def Vol.needed (v : Layout) (s : Vol) (live : Nat → Prop) (groups b : Nat) : Prop :=
  live b ∨ ∃ g < groups, b ∈ s.structures v g

theorem groupStart_add (low : v.firstDataBlock ≤ b) :
    v.groupStart ((b - v.firstDataBlock) / v.blocksPerGroup) +
      (b - v.firstDataBlock) % v.blocksPerGroup = b := by
  have := Nat.div_add_mod' (b - v.firstDataBlock) v.blocksPerGroup
  unfold Layout.groupStart
  omega

theorem Filesystem.group_lt (filesystem : Filesystem v s) (high : b < s.sb.blocksCount) :
    (b - v.firstDataBlock) / v.blocksPerGroup < s.numBlockGroups v := by
  rw [Vol.numBlockGroups, lt_groupsOf filesystem.groups]
  have := Nat.div_mul_le_self (b - v.firstDataBlock) v.blocksPerGroup
  omega

theorem Admitted.below {newSize : Int} (admitted : Admitted v s newSize) (filesystem : Filesystem v s)
    (low : v.firstDataBlock ≤ b) (high : b < s.sb.blocksCount) (used : s.inUse v b)
    (behind : ¬ s.inHead v b) : b < newSize.toNat / v.blockSize := by
  have place := groupStart_add low
  have inside := Nat.mod_lt (b - v.firstDataBlock) v.blocksPerGroup_pos
  have below := admitted.keepsUsed _ (filesystem.group_lt high) _ (Nat.le_of_not_lt behind) (by
    unfold Layout.groupRange
    omega) used
  omega

theorem shrunkTo_blocksCount (newSize freed freedInodes : Nat) :
    (s.shrunkTo v newSize freed freedInodes).sb.blocksCount = newSize / v.blockSize := by
  unfold Vol.shrunkTo Vol.shrunk
  dsimp only [Vol.resized, Vol.superWritten, Vol.writeAt, Super.encodeRaw]
  split <;> rfl

theorem Shrunk.blocksCount {newSize : Nat} (shrunk : Shrunk v s newSize t) :
    t.sb.blocksCount = newSize / v.blockSize := by
  obtain ⟨-, freedInodes, -, rfl⟩ := shrunk
  exact shrunkTo_blocksCount _ _ _

/-- Everything that is needed is below the new end exactly when what is needed in the head of a
group is. -/
theorem shrink_keeps_iff {live : Nat → Prop} {newSize : Int} (consistent : Consistent v s)
    (owned : ∀ b, live b → v.firstDataBlock ≤ b ∧ b < s.sb.blocksCount ∧ s.inUse v b)
    (done : shrink v newSize s = (.ok (), t)) :
    (∀ b, s.needed v live (t.numBlockGroups v) b → b < t.sb.blocksCount) ↔
      ∀ b, s.needed v live (v.groupsOf (newSize.toNat / v.blockSize)) b → s.inHead v b →
        b < newSize.toNat / v.blockSize := by
  obtain ⟨admitted, shrunk⟩ := (shrink_meets newSize).ok done
  have filesystem := consistent.toFilesystem
  have fewer := filesystem.groupsOf_le (Nat.le_of_lt admitted.drops)
  rw [Vol.numBlockGroups, shrunk.blocksCount]
  refine ⟨fun keeps b needed _ => keeps b needed, fun heads b needed => ?_⟩
  by_cases head : s.inHead v b
  · exact heads b needed head
  · have known : v.firstDataBlock ≤ b ∧ b < s.sb.blocksCount ∧ s.inUse v b := by
      rcases needed with mapped | ⟨g, present, mem⟩
      · exact owned b mapped
      · have there := Nat.lt_of_lt_of_le present fewer
        have inside := filesystem.inside g there b mem
        exact ⟨inside.1, inside.2, consistent.marked g there b mem⟩
    exact admitted.below filesystem known.1 known.2.1 known.2.2 head

/-! ## A filesystem of two groups -/

section
open Format
open Volume (fmtBlockSize)

def plainLayout : Layout := layout ⟨[], [], 0⟩

def twoGroups : Vol := formatted 65536 ⟨[], [], 0⟩

theorem twoGroups_consistent : Consistent plainLayout twoGroups :=
  formatted_consistent _ (by decide) (by decide)

theorem twoGroups_shrinks : ∃ t, shrink plainLayout (32769 * fmtBlockSize : Nat) twoGroups = (.ok (), t) ∧
    Shrunk plainLayout twoGroups (32769 * fmtBlockSize) t :=
  formatted_shrinks ⟨[], [], 0⟩ (by decide) (by decide) (by decide) (by decide)

/-- The bitmap of the second group follows the copies of the superblock and of the descriptors. -/
theorem twoGroups_bitmap : (twoGroups.desc plainLayout 1).blockBitmap = 32770 := by
  unfold twoGroups plainLayout
  rw [formatted_desc _ (by decide) (by decide)]
  rfl

/-- The block of the root directory. -/
theorem twoGroups_root (b : Nat) (root : b = rootBlock plainLayout twoGroups) :
    plainLayout.firstDataBlock ≤ b ∧ b < twoGroups.sb.blocksCount ∧ twoGroups.inUse plainLayout b := by
  have place : rootBlock plainLayout twoGroups = 20 := formatted_root _ (by decide) (by decide)
  have count : twoGroups.sb.blocksCount = 65536 := formatted_blocksCount _ (by decide)
  have marked := (formatted_marked ⟨[], [], 0⟩ (by decide : accepts 65536) (by decide)
    (by decide : 0 < nGroups 65536) (by decide : 20 < 8 * fmtBlockSize)).mpr
  rw [root, place, count]
  exact ⟨by decide, by decide, marked (.inr (.inl place.symm))⟩

theorem shrink_keeps_iff_two : ∃ t, shrink plainLayout (32769 * fmtBlockSize : Nat) twoGroups = (.ok (), t) ∧
    ((∀ b, twoGroups.needed plainLayout (· = rootBlock plainLayout twoGroups)
        (t.numBlockGroups plainLayout) b → b < t.sb.blocksCount) ↔
      ∀ b, twoGroups.needed plainLayout (· = rootBlock plainLayout twoGroups)
          (plainLayout.groupsOf (((32769 * fmtBlockSize : Nat) : Int).toNat / plainLayout.blockSize)) b →
        twoGroups.inHead plainLayout b →
          b < ((32769 * fmtBlockSize : Nat) : Int).toNat / plainLayout.blockSize) := by
  obtain ⟨t, done, -⟩ := twoGroups_shrinks
  exact ⟨t, done, shrink_keeps_iff twoGroups_consistent twoGroups_root done⟩

/-- The bitmaps and the inode table of the second group are cut off. -/
theorem shrink_cuts_bitmap : Consistent plainLayout twoGroups ∧ ∃ t,
    shrink plainLayout (32769 * fmtBlockSize : Nat) twoGroups = (.ok (), t) ∧
    ∃ g < t.numBlockGroups plainLayout, t.sb.blocksCount ≤ (twoGroups.desc plainLayout g).blockBitmap := by
  obtain ⟨t, done, shrunk⟩ := twoGroups_shrinks
  have count : t.sb.blocksCount = 32769 := shrunk.blocksCount
  refine ⟨twoGroups_consistent, t, done, 1, ?_, ?_⟩
  · rw [Vol.numBlockGroups, count]
    decide
  · rw [count, twoGroups_bitmap]
    decide

end

end Ext4.Resize
