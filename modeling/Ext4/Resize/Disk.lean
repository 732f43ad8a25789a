import Ext4.Library.OctetBits
import Ext4.Volume.FileSystem
import Ext4.Volume.SuperArea

/-! A volume on its backing device, octet for octet.
`Format`, `Grow`, `Shrink` and `CheckImage` find the bitmaps and inode tables through the group
descriptors, so here a bitmap is a block like any other and two structures may lie on each other. -/

namespace Ext4.Resize
open Octets Overlay SuperArea

/-- The fields of the superblock that do not change, and where the filesystem starts on the device.
The bounds are those of `readSuperblock`, and that a bitmap is one block. -/
structure Layout extends Geometry where
  partOffset : Nat
  firstDataBlock : Nat
  incompat : Nat
  /-- `s_reserved_gdt_blocks`. -/
  reservedGdt : Nat
  csumSeed : UInt32
  blockSize_eq : ∃ k ≤ 6, blockSize = 1024 * 2 ^ k
  blocksPerGroup_pos : 0 < blocksPerGroup
  inodesPerGroup_pos : 0 < inodesPerGroup
  blockBits : blocksPerGroup ≤ 8 * blockSize
  inodeBits : inodesPerGroup ≤ 8 * blockSize
  inodeSize_ge : 128 ≤ inodeSize
  descSize_ge : 32 ≤ descSize
  firstDataBlock_le : firstDataBlock ≤ 1

theorem Layout.blockSize_ge (v : Layout) : 1024 ≤ v.blockSize := by
  obtain ⟨k, -, eq⟩ := v.blockSize_eq
  have := Nat.one_le_two_pow (n := k)
  rw [eq]
  omega

structure Vol where
  size : Nat
  disk : Disk
  sb : Super
  inodesCount : Nat

inductive Err where
  /-- The device was read behind its end. -/
  | shortRead
  | invalidSize
  | notGreater
  | noFullBlock
  | noRoom (group : Nat)
  | noDoubleIndirect
  | inodeRange
  /-- A run-time panic. -/
  | indexOutOfRange
  | notSmaller
  | notMultiple
  | nothingDropped
  | belowMinimum
  | noGroups
  | tailCount
  | usedBlock (group : Nat)
  | usedInodes (group : Nat)
  | inconsistent
  | noFreeBlocks
  | insideTable (block : Nat)
  deriving DecidableEq

abbrev Call (α : Type) := Prog Vol Err α

variable (v : Layout)

/-! ## The device -/

def Layout.start (b : Nat) : Nat := v.partOffset + b * v.blockSize

def readAt (off len : Nat) : Call Bytes :=
  .tryRead fun s => if off + len ≤ s.size then .ok (s.disk.readAt off len) else .error .shortRead

/-- `WriteAt`; the device grows when its end is passed. -/
def Vol.writeAt (s : Vol) (off : Nat) (data : Bytes) : Vol :=
  { s with disk := s.disk.writeAt off data, size := max s.size (off + data.length) }

def writeAt (off : Nat) (data : Bytes) : Call Unit := .modify fun s => s.writeAt off data

/-- `Truncate` of the device; what it gains reads as zeros. -/
def Vol.resized (s : Vol) (size : Nat) : Vol :=
  { s with disk := fun p => if p < min s.size size then s.disk p else 0, size := size }

/-- `readRawBlock`, and `readBitmap` when nothing is reserved. -/
def readBlock (b : Nat) : Call Bytes := readAt (v.start b) v.blockSize

def writeBlock (b : Nat) (data : Bytes) : Call Unit := writeAt (v.start b) data

def Vol.block (s : Vol) (b : Nat) : Bytes := s.disk.readAt (v.start b) v.blockSize

/-! ## Groups -/

def Layout.groupsOf (blocks : Nat) : Nat := (blocks + v.blocksPerGroup - 1) / v.blocksPerGroup % 2 ^ 32

def Vol.numBlockGroups (s : Vol) : Nat := v.groupsOf s.sb.blocksCount

def Layout.groupStart (g : Nat) : Nat := g * v.blocksPerGroup + v.firstDataBlock

def Layout.present (blocks g : Nat) : Nat := min v.blocksPerGroup (blocks - v.groupStart g)

def Layout.isSparseSuperGroup (g : Nat) : Bool :=
  v.roCompat &&& 0x0001 = 0 || Volume.groupIsSparseBackup g

def Layout.inodeTableBlocks : Nat :=
  (v.inodeSize * v.inodesPerGroup + v.blockSize - 1) / v.blockSize

def Layout.gdtBlocks (groups : Nat) : Nat := (groups * v.descSize + v.blockSize - 1) / v.blockSize

/-- The blocks in front of the bitmaps of a group: a copy of the superblock and of the descriptors,
and the reserved descriptor blocks. -/
def Layout.superBlocks (gdt g : Nat) : Nat :=
  if v.isSparseSuperGroup g then 1 + gdt + v.reservedGdt else 0

/-- What `Grow` takes for the metadata of a new group and `Shrink` assumes for that of any. -/
def Layout.headBlocks (gdt g : Nat) : Nat := v.superBlocks gdt g + 2 + v.inodeTableBlocks

/-! ## Descriptors -/

structure Desc where
  raw : Bytes
  blockBitmap : Nat
  inodeBitmap : Nat
  inodeTable : Nat
  freeBlocks : Nat
  freeInodes : Nat
  usedDirs : Nat
  deriving DecidableEq

/-- `FeatureIncompat&FeatIncompat64bit != 0 && DescSize >= 64`. -/
def Layout.wide : Bool := v.incompat &&& 0x0080 ≠ 0 && 64 ≤ v.descSize

def Layout.metadataCsum : Bool := v.roCompat &&& featROCompatMetadataCsum ≠ 0

def wideField (raw : Bytes) (low high n : Nat) : Nat :=
  field raw low n + if v.wide then field raw high n * 256 ^ n else 0

def decodeBGD (raw : Bytes) : Desc where
  raw
  blockBitmap := wideField v raw 0 32 4
  inodeBitmap := wideField v raw 4 36 4
  inodeTable := wideField v raw 8 40 4
  freeBlocks := wideField v raw 12 44 2
  freeInodes := wideField v raw 14 46 2
  usedDirs := wideField v raw 16 48 2

def putUint16 (raw : Bytes) (off value : Nat) : Bytes := Octets.writeAt raw off (putUint 2 value)

def putWide16 (raw : Bytes) (low high value : Nat) : Bytes :=
  let raw := putUint16 raw low value
  if v.wide then putUint16 raw high (value / 2 ^ 16) else raw

/-- `encode`: the three counts go to the octets, the block numbers do not. -/
def Desc.encode (d : Desc) : Bytes :=
  putWide16 v (putWide16 v (putWide16 v d.raw 12 44 d.freeBlocks) 14 46 d.freeInodes) 16 48 d.usedDirs

def sealDesc (g : Nat) (raw : Bytes) : Bytes :=
  if v.metadataCsum then
    let cleared := putUint16 raw 30 0
    putUint16 cleared 30 (crc32c (crc32c v.csumSeed (putUint 4 g)) (cleared.take v.descSize)).toNat
  else raw

/-- `setBitmapCsum`; `covered` is the number of bits that the checksum is over. -/
def setBitmapCsum (covered low high : Nat) (bitmap : Bytes) (d : Desc) : Desc :=
  if v.metadataCsum then
    let csum := (crc32c v.csumSeed (bitmap.take ((covered + 7) / 8))).toNat
    let raw := putUint16 d.raw low csum
    { d with raw := if 64 ≤ v.descSize then putUint16 raw high (csum / 2 ^ 16) else raw }
  else d

def Layout.descOff (g : Nat) : Nat := v.start v.bgdTableBlock + g * v.descSize

def Vol.desc (s : Vol) (g : Nat) : Desc := decodeBGD v (s.disk.readAt (v.descOff g) v.descSize)

def readBGD (g : Nat) : Call Desc := do
  let raw ← readAt (v.descOff g) v.descSize
  pure (decodeBGD v raw)

/-- The clear bits of a bitmap, counted on the device; nothing when it cannot be read. -/
def Vol.recounted (s : Vol) (b bits : Nat) : Option Nat :=
  if v.start b + v.blockSize ≤ s.size then some (Alloc.clearCount bits (bitAt (s.block v b))) else none

/-- The commit worker replaces the counts of a descriptor that is to be written by those of the
bitmaps on the device. -/
def Vol.recount (s : Vol) (g : Nat) (raw : Bytes) : Bytes :=
  let d := decodeBGD v raw
  let freeBlocks := (s.recounted v d.blockBitmap v.blocksPerGroup).getD d.freeBlocks
  let freeInodes := (s.recounted v d.inodeBitmap v.inodesPerGroup).getD d.freeInodes
  if freeBlocks = d.freeBlocks ∧ freeInodes = d.freeInodes then raw
  else sealDesc v g (({ d with freeBlocks, freeInodes } : Desc).encode v)

def Vol.writeBGD (s : Vol) (g : Nat) (d : Desc) : Vol :=
  s.writeAt (v.descOff g) (s.recount v g (sealDesc v g (d.encode v)))

def writeBGD (g : Nat) (d : Desc) : Call Unit := .modify fun s => s.writeBGD v g d

/-- `writeBitmapBufNoLock` of the block bitmap; the descriptor gets the checksum. -/
def writeBlockBitmap (d : Desc) (bitmap : Bytes) : Call Desc := do
  writeBlock v d.blockBitmap bitmap
  pure (setBitmapCsum v v.blocksPerGroup 24 56 bitmap d)

def writeInodeBitmap (d : Desc) (bitmap : Bytes) : Call Desc := do
  writeBlock v d.inodeBitmap bitmap
  pure (setBitmapCsum v v.inodesPerGroup 26 58 bitmap d)

def Layout.inodeOff (d : Desc) (num : Nat) : Nat :=
  v.start d.inodeTable + (num - 1) % v.inodesPerGroup * v.inodeSize

/-! ## The superblock -/

def writeSuperblock : Call Unit := .modify fun s =>
  let s := { s with sb := s.sb.encodeRaw v.toGeometry }
  s.writeAt (v.partOffset + 1024) s.sb.raw

def writeBackupSuper (g : Nat) : Call Unit := do
  let raw ← .read fun s => s.sb.raw
  writeBlock v (v.groupStart g) (putUint16 raw 90 g)

end Ext4.Resize
