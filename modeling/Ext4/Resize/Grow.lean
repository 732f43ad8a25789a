import Ext4.Resize.Disk

/-! `Grow`: the device is made longer, the rest of the last group is released, groups are added behind
it, and the copies of the superblock and of the descriptors are written anew. -/

namespace Ext4.Resize
open Octets Overlay SuperArea

variable (v : Layout)

/-! ## The last group -/

def growLast (oldBlocks newBlocks g : Nat) : Call Nat :=
  let oldGroupUsed := oldBlocks - v.groupStart g
  let newGroupUsed := min v.blocksPerGroup (newBlocks - v.groupStart g)
  if oldGroupUsed < newGroupUsed then do
    let added := newGroupUsed - oldGroupUsed
    let d ← readBGD v g
    let bitmap ← readBlock v d.blockBitmap
    let d ← writeBlockBitmap v { d with freeBlocks := (d.freeBlocks + added) % 2 ^ 32 }
      (clearRange bitmap oldGroupUsed newGroupUsed)
    writeBGD v g d
    pure added
  else pure 0

def growOld (oldBlocks newBlocks : Nat) : Call Nat :=
  if 0 < v.groupsOf oldBlocks then growLast v oldBlocks newBlocks (v.groupsOf oldBlocks - 1) else pure 0

/-! ## New groups -/

def Layout.groupBlocks (blocks g : Nat) : Nat :=
  if blocks < v.groupStart g + v.blocksPerGroup then blocks - v.groupStart g else v.blocksPerGroup

def newBlockBitmap (head groupBlocks : Nat) : Bytes :=
  setRange (setRange (List.replicate v.blockSize 0) 0 head) groupBlocks (8 * v.blockSize)

def newInodeBitmap : Bytes :=
  setRange (List.replicate v.blockSize 0) v.inodesPerGroup (8 * v.blockSize)

/-- The octets of a new descriptor; `encode` does not write the block numbers. -/
def newDescRaw (blockBitmap : Nat) : Bytes :=
  let raw := List.replicate v.descSize 0
  let raw := putUint32 raw 0 blockBitmap
  let raw := putUint32 raw 4 (blockBitmap + 1)
  let raw := putUint32 raw 8 (blockBitmap + 2)
  if v.wide then
    let raw := putUint32 raw 32 (blockBitmap / 2 ^ 32)
    let raw := putUint32 raw 36 ((blockBitmap + 1) / 2 ^ 32)
    putUint32 raw 40 ((blockBitmap + 2) / 2 ^ 32)
  else raw

def newDesc (blockBitmap free : Nat) : Desc where
  raw := newDescRaw v blockBitmap
  blockBitmap
  inodeBitmap := blockBitmap + 1
  inodeTable := blockBitmap + 2
  freeBlocks := free % 2 ^ 32
  freeInodes := v.inodesPerGroup
  usedDirs := 0

/-- Only a sparse-super group gets a copy; the descriptors in it follow at the end. -/
def stampSuper (g : Nat) : Call Unit :=
  if v.isSparseSuperGroup g then writeBackupSuper v g else pure ()

def writeGroup (d : Desc) (head groupBlocks : Nat) : Call Desc := do
  let d ← writeBlockBitmap v d (newBlockBitmap v head groupBlocks)
  let d ← writeInodeBitmap v d (newInodeBitmap v)
  Prog.forEach (fun i => writeBlock v (d.inodeTable + i) (List.replicate v.blockSize 0))
    (List.range v.inodeTableBlocks)
  pure d

def addGroup (gdt newBlocks g : Nat) : Call Nat :=
  let groupBlocks := v.groupBlocks newBlocks g
  let head := v.headBlocks gdt g
  if groupBlocks < head then .fail (.noRoom g)
  else do
    stampSuper v g
    let d ← writeGroup v (newDesc v (v.groupStart g + v.superBlocks gdt g) (groupBlocks - head)) head
      groupBlocks
    writeBGD v g d
    pure (groupBlocks - head)

/-- The loop over the new groups; `total` counts the free blocks. -/
def addGroups (gdt newBlocks : Nat) : List Nat → Nat → Call Nat
  | [], total => pure total
  | g :: rest, total => do
      let added ← addGroup v gdt newBlocks g
      addGroups gdt newBlocks rest (total + added)

/-! ## The resize inode -/

def resizeIno : Nat := 7

def readInode (num : Nat) : Call Bytes := do
  let count ← .read Vol.inodesCount
  if count < num then .fail .inodeRange
  else do
    let d ← readBGD v ((num - 1) / v.inodesPerGroup)
    readAt (v.inodeOff d num) v.inodeSize

def sealInode (num : Nat) (raw : Bytes) : Bytes :=
  if v.metadataCsum then
    let long := decide (0x82 + 2 < raw.length)
    let raw := putUint16 raw 0x7C 0
    let raw := if long then putUint16 raw 0x82 0 else raw
    let csum := crc32c (crc32c (crc32c v.csumSeed (putUint 4 num)) (putUint 4 (field raw 100 4))) raw
    let raw := putUint16 raw 0x7C csum.toNat
    if long then putUint16 raw 0x82 (csum.toNat / 2 ^ 16) else raw
  else raw

def writeInode (num : Nat) (raw : Bytes) : Call Unit := do
  let d ← readBGD v ((num - 1) / v.inodesPerGroup)
  writeAt (v.inodeOff d num) (sealInode v num raw)

/-- `backupOrdinal`: the groups with a copy in front of `g`, without group 0. -/
def backupOrdinal (g : Nat) : Nat := (List.range' 1 (g - 1)).countP v.isSparseSuperGroup

/-- One entry of the double indirect block: the block it names gets the reserved block of the group. -/
def extendSlot (gdt g : Nat) (dind : Bytes) (i : Nat) : Call Nat :=
  let indBlock := field dind (i * 4) 4
  if indBlock = 0 then pure 0
  else do
    let ind ← readBlock v indBlock
    let slot := backupOrdinal v g
    if v.blockSize < slot * 4 + 4 then .fail .indexOutOfRange
    else do
      writeBlock v indBlock (putUint32 ind (slot * 4) (v.groupStart g + 1 + gdt + i - 1))
      pure 1

/-- All entries for all groups with a copy; `total` counts the blocks that were added. -/
def extendSlots (gdt : Nat) (dind : Bytes) : List (Nat × Nat) → Nat → Call Nat
  | [], total => pure total
  | (g, i) :: rest, total => do
      let added ← extendSlot v gdt g dind i
      extendSlots gdt dind rest (total + added)

def addSectors (added : Nat) (raw : Bytes) : Bytes :=
  let total := field raw 0x74 2 * 2 ^ 32 + field raw 28 4 + added * (v.blockSize / 512)
  putUint16 (putUint32 raw 28 total) 0x74 (total / 2 ^ 32)

def extendResizeInode (oldGroups newGroups gdt : Nat) : Call Unit := do
  let raw ← readInode v resizeIno
  let dindBlock := field raw (40 + 13 * 4) 4
  if dindBlock = 0 then .fail .noDoubleIndirect
  else do
    let dind ← readBlock v dindBlock
    let backups := (List.range' oldGroups (newGroups - oldGroups)).filter v.isSparseSuperGroup
    let added ← extendSlots v gdt dind
      (backups.flatMap fun g => (List.range (v.blockSize / 4)).map fun i => (g, i)) 0
    if added = 0 then pure () else writeInode v resizeIno (addSectors v added raw)

def extendReserved (oldGroups newGroups gdt : Nat) : Call Unit :=
  if 0 < v.reservedGdt then extendResizeInode v oldGroups newGroups gdt else pure ()

/-! ## The copies -/

def refreshSuperBackups (groups gdt : Nat) : Call Unit := do
  let table ← readAt (v.start v.bgdTableBlock) (gdt * v.blockSize)
  Prog.forEach (fun g => do
      writeBackupSuper v g
      writeAt (v.start (v.groupStart g + 1)) table)
    ((List.range' 1 (groups - 1)).filter v.isSparseSuperGroup)

/-! ## Grow -/

def Vol.withBlocksCount (s : Vol) (blocks : Nat) : Vol :=
  { s with sb := { s.sb with blocksCount := blocks } }

def Vol.grown (s : Vol) (blocks addedBlocks addedInodes : Nat) : Vol :=
  let s := s.withBlocksCount blocks
  let s := { s with sb := { s.sb with freeBlocks := (s.sb.freeBlocks + addedBlocks) % 2 ^ 64 } }
  if 0 < addedInodes then
    let inodesCount := (s.inodesCount + addedInodes) % 2 ^ 32
    { s with
      inodesCount
      sb := { s.sb with
        raw := putUint32 s.sb.raw 0 inodesCount
        freeInodes := (s.sb.freeInodes + addedInodes) % 2 ^ 32 } }
  else s

def growTo (newSize : Nat) : Call Unit := do
  let oldBlocks ← .read fun s => s.sb.blocksCount
  let newBlocks := newSize / v.blockSize
  let oldGroups := v.groupsOf oldBlocks
  let newGroups := v.groupsOf newBlocks
  .modify fun s => s.resized newSize
  .modify fun s => s.withBlocksCount newBlocks
  let inLast ← growOld v oldBlocks newBlocks
  let gdt := v.gdtBlocks newGroups
  let fresh := List.range' oldGroups (newGroups - oldGroups)
  let added ← addGroups v gdt newBlocks fresh inLast
  extendReserved v oldGroups newGroups gdt
  .modify fun s => s.grown newBlocks added (fresh.length * v.inodesPerGroup % 2 ^ 32)
  writeSuperblock v
  refreshSuperBackups v newGroups gdt

def grow (newSizeBytes : Int) : Call Unit :=
  if newSizeBytes ≤ 0 then .fail .invalidSize
  else do
    let size ← .read Vol.size
    let newSize := newSizeBytes.toNat
    if newSize ≤ size then .fail .notGreater
    else if newSize / v.blockSize ≤ size / v.blockSize then .fail .noFullBlock
    else growTo v newSize

end Ext4.Resize
