import Ext4.Resize.Disk

/-! `Shrink`: nothing is moved. The request is refused below a minimum that is taken from the block
bitmaps, without the blocks at the head of every group that its metadata is assumed to take; the
tail of the last group that remains is cut off its bitmap, the groups behind it are dropped, and
the device is cut. -/

namespace Ext4.Resize
open Octets Overlay SuperArea

variable (v : Layout)

/-! ## The minimum -/

/-- `groupRange`: how many blocks of the group the volume has. -/
def Layout.groupRange (blocks g : Nat) : Nat :=
  min (v.groupStart g + v.blocksPerGroup) blocks - v.groupStart g

def highestUsed (bitmap : Bytes) (head range : Nat) : Option Nat :=
  let top := min range (bitmap.length * 8)
  let floor := min head top
  (List.range' floor (top - floor)).reverse.find? (bitAt bitmap)

/-- The loop of `shrinkMinimumBlocks`. -/
def highestBlock (blocks gdt : Nat) : List Nat → Nat → Call Nat
  | [], highest => pure highest
  | g :: rest, highest => do
      let d ← readBGD v g
      let bitmap ← readBlock v d.blockBitmap
      match highestUsed bitmap (v.headBlocks gdt g) (v.groupRange blocks g) with
      | some i => highestBlock blocks gdt rest (max highest (v.groupStart g + i + 1))
      | none => highestBlock blocks gdt rest highest

def shrinkMinimumBlocks : Call Nat := do
  let blocks ← .read fun s => s.sb.blocksCount
  let groups := v.groupsOf blocks
  let highest ← highestBlock v blocks (v.gdtBlocks groups) (List.range groups) 0
  pure (max highest v.blocksPerGroup)

/-! ## The last group -/

/-- How many of the bits from `low` up to `high` are clear. -/
def clearIn (bitmap : Bytes) (low high : Nat) : Nat :=
  (List.range' low (high - low)).countP fun i => !bitAt bitmap i

def shrinkLast (oldBlocks newBlocks g : Nat) : Call Nat :=
  let oldGroupUsed := min v.blocksPerGroup (oldBlocks - v.groupStart g)
  let newGroupUsed := min v.blocksPerGroup (newBlocks - v.groupStart g)
  if newGroupUsed < oldGroupUsed then do
    let d ← readBGD v g
    let bitmap ← readBlock v d.blockBitmap
    let prevFree := clearIn bitmap newGroupUsed oldGroupUsed
    if d.freeBlocks < prevFree then .fail .tailCount
    else do
      let d ← writeBlockBitmap v { d with freeBlocks := d.freeBlocks - prevFree }
        (clearRange bitmap newGroupUsed oldGroupUsed)
      writeBGD v g d
      pure prevFree
  else pure 0

/-! ## The groups behind it -/

/-- Nothing in the group may be in use but its head; its free blocks and free inodes. -/
def dropGroup (oldBlocks gdt g : Nat) : Call (Nat × Nat) := do
  let d ← readBGD v g
  let bitmap ← readBlock v d.blockBitmap
  let head := v.headBlocks gdt g
  let top := min (v.groupRange oldBlocks g) (bitmap.length * 8)
  if (List.range' head (top - head)).any (bitAt bitmap) then .fail (.usedBlock g)
  else do
    let inodes ← readBlock v d.inodeBitmap
    if (List.range v.inodesPerGroup).any (bitAt inodes) then .fail (.usedInodes g)
    else pure (clearIn bitmap head top, d.freeInodes)

def dropGroups (oldBlocks gdt : Nat) : List Nat → Nat → Nat → Call (Nat × Nat)
  | [], blocks, inodes => pure (blocks, inodes)
  | g :: rest, blocks, inodes => do
      let dropped ← dropGroup v oldBlocks gdt g
      dropGroups oldBlocks gdt rest (blocks + dropped.1) ((inodes + dropped.2) % 2 ^ 32)

/-! ## Shrink -/

/-- `n - m` on so many bits. -/
def lessBy (bits m n : Nat) : Nat := (n + (2 ^ bits - m % 2 ^ bits)) % 2 ^ bits

def Vol.shrunk (s : Vol) (blocks freedBlocks droppedInodes droppedFreeInodes : Nat) : Vol :=
  let s := { s with sb := { s.sb with
    blocksCount := blocks
    freeBlocks := lessBy 64 freedBlocks s.sb.freeBlocks } }
  if 0 < droppedInodes then
    let inodesCount := lessBy 32 droppedInodes s.inodesCount
    { s with
      inodesCount
      sb := { s.sb with
        raw := putUint32 s.sb.raw 0 inodesCount
        freeInodes := lessBy 32 droppedFreeInodes s.sb.freeInodes } }
  else s

/-- `Shrink` from where the size has been found above the minimum. -/
def shrinkTo (newSize : Nat) : Call Unit := do
  let oldBlocks ← .read fun s => s.sb.blocksCount
  let newBlocks := newSize / v.blockSize
  let oldGroups := v.groupsOf oldBlocks
  let newGroups := v.groupsOf newBlocks
  if newGroups = 0 then .fail .noGroups
  else do
    let prevFree ← shrinkLast v oldBlocks newBlocks (newGroups - 1)
    let gone := List.range' newGroups (oldGroups - newGroups)
    let freed ← dropGroups v oldBlocks (v.gdtBlocks oldGroups) gone prevFree 0
    .modify fun s => s.shrunk newBlocks freed.1 (gone.length * v.inodesPerGroup % 2 ^ 32) freed.2
    writeSuperblock v
    .modify fun s => s.resized newSize

def shrink (newSizeBytes : Int) : Call Unit :=
  if newSizeBytes ≤ 0 then .fail .invalidSize
  else do
    let newSize := newSizeBytes.toNat
    let s ← .read id
    if s.size ≤ newSize then .fail .notSmaller
    else if newSize % v.blockSize ≠ 0 then .fail .notMultiple
    else if s.sb.blocksCount ≤ newSize / v.blockSize then .fail .nothingDropped
    else do
      let least ← shrinkMinimumBlocks v
      if newSize / v.blockSize < least then .fail .belowMinimum else shrinkTo v newSize

/-! ## CheckImage -/

def checkGroups : List Nat → Bool → Nat → Nat → Call (Bool × Nat × Nat)
  | [], agree, blocks, inodes => pure (agree, blocks, inodes)
  | g :: rest, agree, blocks, inodes => do
      let d ← readBGD v g
      let bitmap ← readBlock v d.blockBitmap
      let freeBlocks := Alloc.clearCount v.blocksPerGroup (bitAt bitmap)
      let inodeBitmap ← readBlock v d.inodeBitmap
      let freeInodes := Alloc.clearCount v.inodesPerGroup (bitAt inodeBitmap)
      checkGroups rest (agree && freeBlocks = d.freeBlocks && freeInodes = d.freeInodes)
        ((blocks + freeBlocks) % 2 ^ 64) ((inodes + freeInodes) % 2 ^ 32)

def checkImage : Call Unit := do
  let s ← .read id
  let (agree, blocks, inodes) ← checkGroups v (List.range (s.numBlockGroups v)) true 0 0
  if agree ∧ blocks = s.sb.freeBlocks ∧ inodes = s.sb.freeInodes then pure () else .fail .inconsistent

end Ext4.Resize
