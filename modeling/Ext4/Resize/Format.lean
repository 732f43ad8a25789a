import Ext4.Resize.Disk

/-! `Format`, octet for octet.
Every group gets its bitmaps and its inode table at its head, behind the copies of the superblock
and of the descriptors where there are any. The counts of blocks and groups are 32-bit numbers. -/

namespace Ext4.Resize.Format
open Octets Overlay SuperArea
open Volume (fmtBlockSize fmtBlocksPerGroup fmtInodesPerGroup fmtInodeTableBlocks fmtReservedInodes
  groupIsSparseBackup)

def fmtInodeSize : Nat := 256

def fmtDescSize : Nat := 32

section
variable (total : Nat)

/-- A size of fewer blocks is refused, and one whose blocks have no 32-bit number. -/
def accepts : Bool := Volume.fmtMinBlocks ≤ total && total < 2 ^ 32

/-! ## The layout -/

def nGroups : Nat := (total + fmtBlocksPerGroup - 1) % 2 ^ 32 / fmtBlocksPerGroup

def bgdtBlocks : Nat := (nGroups total * fmtDescSize + fmtBlockSize - 1) / fmtBlockSize

def groupSuperBlocks (g : Nat) : Nat := if groupIsSparseBackup g then 1 + bgdtBlocks total else 0

def groupMetaBlocks (g : Nat) : Nat :=
  groupSuperBlocks total g + 2 + fmtInodeTableBlocks + if g = 0 then 1 else 0

def groupBlocks (g : Nat) : Nat :=
  if g = nGroups total - 1 then total - g * fmtBlocksPerGroup else fmtBlocksPerGroup

def g0InodeTable : Nat := 1 + bgdtBlocks total + 2

def g0RootDirDataBlock : Nat := g0InodeTable total + fmtInodeTableBlocks

def totalFreeBlocks : Nat :=
  ((List.range (nGroups total)).map fun g => groupBlocks total g - groupMetaBlocks total g).sum

/-! ## The superblock -/

structure Config where
  uuid : Bytes
  label : Bytes
  now : Nat

variable (cfg : Config)

def superSlots : List Slot :=
  [⟨0, 4, fmtInodesPerGroup * nGroups total⟩, ⟨4, 4, total⟩, ⟨12, 4, totalFreeBlocks total⟩,
   ⟨16, 4, 2 ^ 32 + fmtInodesPerGroup * nGroups total - fmtReservedInodes⟩,
   ⟨24, 4, 2⟩, -- s_log_block_size
   ⟨28, 4, 2⟩,
   ⟨32, 4, fmtBlocksPerGroup⟩,
   ⟨36, 4, fmtBlocksPerGroup⟩,
   ⟨40, 4, fmtInodesPerGroup⟩,
   ⟨44, 4, cfg.now⟩,
   ⟨48, 4, cfg.now⟩,
   ⟨54, 2, 20⟩,
   ⟨56, 2, 0xEF53⟩,
   ⟨58, 2, 1⟩,
   ⟨60, 2, 1⟩,
   ⟨64, 4, cfg.now⟩,
   ⟨76, 4, 1⟩,
   ⟨84, 4, 11⟩,
   ⟨88, 2, fmtInodeSize⟩,
   ⟨96, 4, 0x0042⟩, -- file types and extents
   ⟨100, 4, 0x0001⟩, -- sparse_super
   ⟨104, 16, uintOf cfg.uuid⟩,
   ⟨120, 16, uintOf (cfg.label.take 16)⟩,
   ⟨0xFE, 2, fmtDescSize⟩]

def superRaw : Bytes := putSlots (List.replicate superblockSize 0) (superSlots total cfg)

/-! ## Descriptors and bitmaps -/

def descSlots (g : Nat) : List Slot :=
  let metaStart := g * fmtBlocksPerGroup + groupSuperBlocks total g
  [⟨0, 4, metaStart⟩, ⟨4, 4, metaStart + 1⟩, ⟨8, 4, metaStart + 2⟩,
   ⟨12, 2, groupBlocks total g - groupMetaBlocks total g⟩,
   ⟨14, 2, if g = 0 then fmtInodesPerGroup - fmtReservedInodes else fmtInodesPerGroup⟩,
   ⟨16, 2, if g = 0 then 1 else 0⟩]

def descRaw (g : Nat) : Bytes := putSlots (List.replicate fmtDescSize 0) (descSlots total g)

def bgdtBuf : Bytes := (List.range (nGroups total)).flatMap (descRaw total)

/-- The metadata at the head of the group, and the bits that stand for no block. -/
def blockBitmap (g : Nat) : Bytes :=
  setRange (setRange (List.replicate fmtBlockSize 0) 0 (groupMetaBlocks total g)) (groupBlocks total g)
    (8 * fmtBlockSize)

def inodeBitmap (g : Nat) : Bytes :=
  setRange (setRange (List.replicate fmtBlockSize 0) 0 (if g = 0 then fmtReservedInodes else 0))
    fmtInodesPerGroup (8 * fmtBlockSize)

/-! ## The root directory -/

def rootSlots : List Slot :=
  [⟨0, 2, 0x41ED⟩, ⟨26, 2, 2⟩, ⟨4, 4, fmtBlockSize⟩, ⟨28, 4, fmtBlockSize / 512⟩, ⟨8, 4, cfg.now⟩,
   ⟨12, 4, cfg.now⟩,
   ⟨16, 4, cfg.now⟩,
   ⟨32, 4, 0x80000⟩,
   ⟨40, 2, 0xF30A⟩,
   ⟨42, 2, 1⟩,
   ⟨44, 2, 4⟩,
   ⟨56, 2, 1⟩,
   ⟨60, 4, g0RootDirDataBlock total⟩]

def rootRaw : Bytes := putSlots (List.replicate fmtInodeSize 0) (rootSlots total cfg)

def dirSlots : List Slot :=
  [⟨0, 4, 2⟩, ⟨4, 2, 12⟩, ⟨6, 1, 1⟩, ⟨7, 1, 2⟩, ⟨8, 1, 46⟩,
   ⟨12, 4, 2⟩, ⟨16, 2, fmtBlockSize - 12⟩, ⟨18, 1, 2⟩, ⟨19, 1, 2⟩, ⟨20, 1, 46⟩, ⟨21, 1, 46⟩]

def dirBuf : Bytes := putSlots (List.replicate fmtBlockSize 0) dirSlots

/-! ## The image -/

/-- The copies of the superblock and of the descriptors in a group other than the first. -/
def copyWrites (g : Nat) : List (Nat × Bytes) :=
  let start := g * fmtBlocksPerGroup
  if 0 < g ∧ 0 < groupSuperBlocks total g then
    [(start * fmtBlockSize, putUint16 (superRaw total cfg) 90 g), ((start + 1) * fmtBlockSize, bgdtBuf total)]
  else []

def groupWrites (g : Nat) : List (Nat × Bytes) :=
  let bitmap := g * fmtBlocksPerGroup + groupSuperBlocks total g
  copyWrites total cfg g ++
  [(bitmap * fmtBlockSize, blockBitmap total g), ((bitmap + 1) * fmtBlockSize, inodeBitmap g)]

def writes : List (Nat × Bytes) :=
  [(1024, superRaw total cfg), (fmtBlockSize, bgdtBuf total)] ++
    (List.range (nGroups total)).flatMap (groupWrites total cfg) ++
    [(g0InodeTable total * fmtBlockSize + fmtInodeSize, rootRaw total cfg),
     (g0RootDirDataBlock total * fmtBlockSize, dirBuf)]

end

def layout (cfg : Config) : Layout where
  blockSize := fmtBlockSize
  blocksPerGroup := fmtBlocksPerGroup
  inodesPerGroup := fmtInodesPerGroup
  roCompat := 0x0001
  inodeSize := fmtInodeSize
  descSize := fmtDescSize
  partOffset := 0
  firstDataBlock := 0
  incompat := 0x0042
  reservedGdt := 0
  csumSeed := crc32c (~~~ 0) (cfg.uuid.take 16)
  blockSize_eq := ⟨2, by decide, rfl⟩
  blocksPerGroup_pos := Nat.two_pow_pos 15
  inodesPerGroup_pos := Nat.two_pow_pos 8
  blockBits := by decide
  inodeBits := by decide
  inodeSize_ge := by decide
  descSize_ge := by decide
  firstDataBlock_le := by decide

/-- The formatted volume as `Open` finds it. The file was cut to its size first, and a write behind
the end makes it longer. -/
def formatted (total : Nat) (cfg : Config) : Vol where
  size := (writes total cfg).foldl (fun size write => max size (write.1 + write.2.length))
    (total * fmtBlockSize)
  disk := Disk.writeAll (fun _ => 0) (writes total cfg)
  sb := decode (superRaw total cfg)
  inodesCount := field (superRaw total cfg) 0 4

end Ext4.Resize.Format
