import Mathlib.Tactic.Linarith
import Ext4.Library.Fields
import Ext4.Library.Overlay
import Ext4.Sidecar.Record

/-! The superblock of a transaction.
The superblock lies at octet 1024 of the filesystem whatever the block size is. The transactional
allocators encode the counters they hold in memory and stage the encoding with the bitmap and the
descriptor: `allocInodeWithTx` at octet 1024, `allocBlocksWithTx` and `lockedAllocBlocksWithTx` at
the start of block `1024 / BlockSize`. -/

namespace Ext4.SuperArea
open Octets Overlay

/-! ## Encoding and decoding -/

def superblockSize : Nat := 1024

/-- The fields of `superblock` that an allocation does not change. -/
structure Geometry where
  blockSize : Nat
  blocksPerGroup : Nat
  inodesPerGroup : Nat
  roCompat : Nat
  inodeSize : Nat
  descSize : Nat
  deriving DecidableEq

/-- The octets the superblock was read from, and the counters held in memory. -/
structure Super where
  raw : Bytes
  blocksCount : Nat
  freeBlocks : Nat
  freeInodes : Nat
  deriving DecidableEq

inductive LoadError where
  | badMagic
  | logBlockSize
  | blocksPerGroup
  | inodesPerGroup
  | inodeSize
  deriving DecidableEq, Repr

def inodeSizeOf (raw : Bytes) : Nat := if field raw 88 2 = 0 then 128 else field raw 88 2

def descSizeOf (raw : Bytes) : Nat := if field raw 0xFE 2 < 32 then 32 else field raw 0xFE 2

def geometryOf (raw : Bytes) : Geometry where
  blockSize := 1024 * 2 ^ field raw 24 4
  blocksPerGroup := field raw 32 4
  inodesPerGroup := field raw 40 4
  roCompat := field raw 100 4
  inodeSize := inodeSizeOf raw
  descSize := descSizeOf raw

def decode (raw : Bytes) : Super where
  raw
  blocksCount := field raw 0x150 4 * 2 ^ 32 + field raw 4 4
  freeBlocks := field raw 0x158 4 * 2 ^ 32 + field raw 12 4
  freeInodes := field raw 16 4

/-- The checks of `readSuperblock`, in its order. -/
def check (raw : Bytes) : Except LoadError Unit :=
  if field raw 56 2 ≠ 0xEF53 then .error .badMagic
  else if 6 < field raw 24 4 then .error .logBlockSize
  else if field raw 32 4 = 0 then .error .blocksPerGroup
  else if field raw 40 4 = 0 then .error .inodesPerGroup
  else if inodeSizeOf raw < 128 ∨ inodeSizeOf raw &&& (inodeSizeOf raw - 1) ≠ 0 ∨
      1024 * 2 ^ field raw 24 4 < inodeSizeOf raw then .error .inodeSize
  else .ok ()

def readSuperblock (disk : Disk) (fsOffset : Nat) : Except LoadError (Geometry × Super) :=
  let raw := disk.readAt (fsOffset + 1024) superblockSize
  (check raw).map fun _ => (geometryOf raw, decode raw)

def featROCompatMetadataCsum : Nat := 0x0400

/-- `crc32c` of the source complements its argument and its result. -/
def crc32c (crc : UInt32) (data : Bytes) : UInt32 := ~~~ Sidecar.crcUpdate (~~~ crc) data

def putUint32 (raw : Bytes) (off v : Nat) : Bytes := writeAt raw off (putUint 4 v)

def checksummed (raw : Bytes) : Bytes :=
  let cleared := putUint32 raw 0x3FC 0
  putUint32 cleared 0x3FC (crc32c (~~~ 0) (cleared.take 0x3FC)).toNat

def Super.counted (sb : Super) : Bytes :=
  let raw := putUint32 sb.raw 4 sb.blocksCount
  let raw := putUint32 raw 0x150 (sb.blocksCount / 2 ^ 32)
  let raw := putUint32 raw 12 sb.freeBlocks
  let raw := putUint32 raw 0x158 (sb.freeBlocks / 2 ^ 32)
  putUint32 raw 16 sb.freeInodes

/-- The octets `encodeRaw` leaves in `sb.raw`. -/
def Super.encoded (vol : Geometry) (sb : Super) : Bytes :=
  if vol.roCompat &&& featROCompatMetadataCsum ≠ 0 then checksummed sb.counted else sb.counted

def Super.encodeRaw (vol : Geometry) (sb : Super) : Super := { sb with raw := sb.encoded vol }

def Geometry.bgdTableBlock (vol : Geometry) : Nat := if 1024 < vol.blockSize then 1 else 2

/-- A superblock as the driver holds it: accepted by `readSuperblock`, with counters that fit their
fields. Only the counters differ from what was read. -/
structure Loaded (vol : Geometry) (sb : Super) : Prop where
  length : sb.raw.length = superblockSize
  accepted : check sb.raw = .ok ()
  geometry : vol = geometryOf sb.raw
  freeBlocks : sb.freeBlocks < 2 ^ 64

variable {off : Nat}

section Encoding

variable {raw : Bytes} (length : raw.length = superblockSize)
include length

theorem putUint32_length {v : Nat} (fits : off + 4 ≤ superblockSize) :
    (putUint32 raw off v).length = superblockSize := by
  rw [putUint32, writeAt_length, putUint_length]
  omega

theorem checksummed_length : (checksummed raw).length = superblockSize :=
  putUint32_length (putUint32_length length (by decide)) (by decide)

theorem field_checksummed {n : Nat} (below : off + n ≤ 0x3FC) :
    field (checksummed raw) off n = field raw off n := by
  have present : off + n ≤ superblockSize := Nat.le_trans below (by decide)
  have cleared := putUint32_length length (by decide : 0x3FC + 4 ≤ superblockSize) (v := 0)
  rw [checksummed, putUint32, field_writeAt_outside (by omega) (.inl below), putUint32,
    field_writeAt_outside (by omega) (.inl below)]

end Encoding

def counterSpans : List (Nat × Nat) := [(4, 8), (0x150, 0x154), (12, 16), (0x158, 0x15C), (16, 20)]

def Super.counterSlots (sb : Super) : List Slot :=
  [⟨4, 4, sb.blocksCount⟩, ⟨0x150, 4, sb.blocksCount / 2 ^ 32⟩, ⟨12, 4, sb.freeBlocks⟩,
    ⟨0x158, 4, sb.freeBlocks / 2 ^ 32⟩, ⟨16, 4, sb.freeInodes⟩]

theorem Super.counted_eq (sb : Super) : sb.counted = putSlots sb.raw sb.counterSlots := rfl

section Counters

variable {vol : Geometry} {sb : Super} (length : sb.raw.length = superblockSize)
include length

theorem counterSlots_apart : Apart sb.raw.length (sb.counterSlots.map Slot.span) := by
  rw [length]
  exact (by decide : Apart superblockSize counterSpans)

theorem counted_length : sb.counted.length = superblockSize :=
  (putSlots_length (counterSlots_apart length).inside).trans length

theorem encoded_length : (sb.encoded vol).length = superblockSize := by
  unfold Super.encoded
  split
  · exact checksummed_length (counted_length length)
  · exact counted_length length

theorem field_encoded {n : Nat} (below : off + n ≤ 0x3FC) :
    field (sb.encoded vol) off n = field sb.counted off n := by
  unfold Super.encoded
  split
  · exact field_checksummed (counted_length length) below
  · rfl

theorem field_encoded_kept {n : Nat} (below : off + n ≤ 0x3FC)
    (apart : ∀ span ∈ counterSpans, off + n ≤ span.1 ∨ span.2 ≤ off) :
    field (sb.encoded vol) off n = field sb.raw off n := by
  have present : off + n ≤ sb.raw.length := by rw [length, superblockSize]; omega
  have spans : sb.counterSlots.map Slot.span = counterSpans := rfl
  rw [field_encoded length below, Super.counted_eq]
  refine field_putSlots_outside present (counterSlots_apart length).inside fun slot mem => apart slot.span ?_
  rw [← spans]
  exact List.mem_map_of_mem mem

theorem geometryOf_encoded : geometryOf (sb.encoded vol) = geometryOf sb.raw := by
  have kept : ∀ off n, off + n ≤ 0x3FC → (∀ span ∈ counterSpans, off + n ≤ span.1 ∨ span.2 ≤ off) →
      field (sb.encoded vol) off n = field sb.raw off n := fun off n => field_encoded_kept length
  simp only [geometryOf, inodeSizeOf, descSizeOf, kept 24 4 (by decide) (by decide),
    kept 32 4 (by decide) (by decide), kept 40 4 (by decide) (by decide), kept 100 4 (by decide) (by decide),
    kept 88 2 (by decide) (by decide), kept 0xFE 2 (by decide) (by decide)]

theorem check_encoded : check (sb.encoded vol) = check sb.raw := by
  have magic : field (sb.encoded vol) 56 2 = field sb.raw 56 2 :=
    field_encoded_kept length (by decide) (by decide)
  have logSize : field (sb.encoded vol) 24 4 = field sb.raw 24 4 :=
    field_encoded_kept length (by decide) (by decide)
  have same := @geometryOf_encoded vol sb length
  have inode : inodeSizeOf (sb.encoded vol) = inodeSizeOf sb.raw := congrArg Geometry.inodeSize same
  have blocks : field (sb.encoded vol) 32 4 = field sb.raw 32 4 := congrArg Geometry.blocksPerGroup same
  have inodes : field (sb.encoded vol) 40 4 = field sb.raw 40 4 := congrArg Geometry.inodesPerGroup same
  rw [check, check, magic, logSize, inode, blocks, inodes]

theorem decode_encoded : decode (sb.encoded vol) =
    ⟨sb.encoded vol, sb.blocksCount % 2 ^ 64, sb.freeBlocks % 2 ^ 64, sb.freeInodes % 2 ^ 32⟩ := by
  have counter : ∀ off value, off + 4 ≤ 0x3FC → ⟨off, 4, value⟩ ∈ sb.counterSlots →
      field (sb.encoded vol) off 4 = value % 2 ^ 32 := fun off value below listed =>
    (field_encoded length below).trans (field_putSlots (counterSlots_apart length) listed)
  simp only [decode, counter 0x150 _ (by decide) (.tail _ (.head _)), counter 4 _ (by decide) (.head _),
    counter 0x158 _ (by decide) (.tail _ (.tail _ (.tail _ (.head _)))),
    counter 12 _ (by decide) (.tail _ (.tail _ (.head _))),
    counter 16 _ (by decide) (.tail _ (.tail _ (.tail _ (.tail _ (.head _)))))]
  congr 1 <;> omega

end Counters

theorem decode_encoded_freeBlocks {vol : Geometry} {sb : Super} (loaded : Loaded vol sb) :
    (decode (sb.encoded vol)).freeBlocks = sb.freeBlocks := by
  rw [decode_encoded loaded.length]
  exact Nat.mod_eq_of_lt loaded.freeBlocks

theorem Loaded.encodeRaw {vol : Geometry} {sb : Super} (loaded : Loaded vol sb) :
    Loaded vol (sb.encodeRaw vol) where
  length := encoded_length loaded.length
  accepted := (check_encoded loaded.length).trans loaded.accepted
  geometry := loaded.geometry.trans (geometryOf_encoded loaded.length).symm
  freeBlocks := loaded.freeBlocks

/-! ## Staging -/

/-- A step of a transaction, with what it found on the device: the group, the place of the bitmap,
the bitmap with the new bits set and the descriptor with the allocator's fields merged in. Other
ranges (inode tables, directory and data blocks) are given by their offset in the filesystem. -/
inductive Stage where
  | allocBlocks (n group bitmapBlock : Nat) (bitmap desc : Bytes)
  | lockedAllocBlocks (n group bitmapBlock : Nat) (bitmap desc : Bytes)
  | allocInode (group bitmapBlock : Nat) (bitmap desc : Bytes)
  | range (start : Nat) (data : Bytes)
  deriving DecidableEq

structure Session where
  sb : Super
  tx : Tx

section Steps

variable (fsOffset : Nat) (vol : Geometry) (disk : Disk)

def addRangeToTx (startAbs : Nat) (data : Bytes) (tx : Tx) : Tx :=
  addRange fsOffset vol.blockSize disk startAbs data tx

/-- `stageDescriptorUpdate`: the whole table block is staged, with the merged descriptor in it. -/
def stageDescriptorUpdate (group : Nat) (desc : Bytes) (tx : Tx) : Tx :=
  let descOff := vol.bgdTableBlock * vol.blockSize + group * vol.descSize
  let blockNum := descOff / vol.blockSize
  let blockBuf := buffer fsOffset vol.blockSize disk tx blockNum
  addRangeToTx fsOffset vol disk (fsOffset + blockNum * vol.blockSize)
    (writeAt blockBuf (descOff % vol.blockSize) desc) tx

/-- `atomic.AddUint64(&v, ^(uint64(n) - 1))` for a counter of `width` bits. -/
def lower (width n v : Nat) : Nat := (v + (2 ^ width - n % 2 ^ width)) % 2 ^ width

def Super.takeBlocks (sb : Super) (n : Nat) : Super := { sb with freeBlocks := lower 64 n sb.freeBlocks }

def Super.takeInode (sb : Super) : Super := { sb with freeInodes := lower 32 1 sb.freeInodes }

/-- The superblock is encoded before the bitmap and the descriptor are staged. The bitmap is then
taken from the transaction, its new bits set once more and put back, which changes nothing. -/
def allocBlocksWithTx (n group bitmapBlock : Nat) (bitmap desc : Bytes) (s : Session) : Session :=
  let sb := (s.sb.takeBlocks n).encodeRaw vol
  let sbBlock := 1024 / vol.blockSize
  let tx := addRangeToTx fsOffset vol disk (fsOffset + bitmapBlock * vol.blockSize) bitmap s.tx
  let tx := stageDescriptorUpdate fsOffset vol disk group desc tx
  ⟨sb, addRangeToTx fsOffset vol disk (fsOffset + sbBlock * vol.blockSize) sb.raw tx⟩

def lockedAllocBlocksWithTx (n group bitmapBlock : Nat) (bitmap desc : Bytes) (s : Session) : Session :=
  let sb := s.sb.takeBlocks n
  let tx := addRangeToTx fsOffset vol disk (fsOffset + bitmapBlock * vol.blockSize) bitmap s.tx
  let tx := stageDescriptorUpdate fsOffset vol disk group desc tx
  let sbBlock := 1024 / vol.blockSize
  let sb := sb.encodeRaw vol
  ⟨sb, addRangeToTx fsOffset vol disk (fsOffset + sbBlock * vol.blockSize) sb.raw tx⟩

def allocInodeWithTx (group bitmapBlock : Nat) (bitmap desc : Bytes) (s : Session) : Session :=
  let sb := s.sb.takeInode.encodeRaw vol
  let tx := addRangeToTx fsOffset vol disk (fsOffset + bitmapBlock * vol.blockSize) bitmap s.tx
  let tx := stageDescriptorUpdate fsOffset vol disk group desc tx
  ⟨sb, addRangeToTx fsOffset vol disk (fsOffset + 1024) sb.raw tx⟩

def perform (s : Session) : Stage → Session
  | .allocBlocks n group bitmapBlock bitmap desc =>
      allocBlocksWithTx fsOffset vol disk n group bitmapBlock bitmap desc s
  | .lockedAllocBlocks n group bitmapBlock bitmap desc =>
      lockedAllocBlocksWithTx fsOffset vol disk n group bitmapBlock bitmap desc s
  | .allocInode group bitmapBlock bitmap desc =>
      allocInodeWithTx fsOffset vol disk group bitmapBlock bitmap desc s
  | .range start data => { s with tx := addRangeToTx fsOffset vol disk (fsOffset + start) data s.tx }

def staged (stages : List Stage) (s : Session) : Session := stages.foldl (perform fsOffset vol disk) s

def committed (stages : List Stage) (sb : Super) : Disk :=
  apply fsOffset vol.blockSize disk (staged fsOffset vol disk stages ⟨sb, []⟩).tx

end Steps

def Stage.isBlocks : Stage → Bool
  | .allocBlocks .. | .lockedAllocBlocks .. => true
  | _ => false

/-- The bitmap, or the other range, lies past the boot area and the superblock. -/
def Stage.Placed (size : Nat) : Stage → Prop
  | .allocBlocks _ _ bitmapBlock _ _ | .lockedAllocBlocks _ _ bitmapBlock _ _
  | .allocInode _ bitmapBlock _ _ => 2048 ≤ bitmapBlock * size
  | .range start _ => 2048 ≤ start

instance (size : Nat) : DecidablePred (Stage.Placed size)
  | .allocBlocks .. | .lockedAllocBlocks .. | .allocInode .. | .range .. =>
      inferInstanceAs (Decidable (_ ≤ _))

def Stage.memory (vol : Geometry) (sb : Super) : Stage → Super
  | .allocBlocks n .. | .lockedAllocBlocks n .. => (sb.takeBlocks n).encodeRaw vol
  | .allocInode .. => sb.takeInode.encodeRaw vol
  | .range .. => sb

def Stage.place (size : Nat) : Stage → Option Nat
  | .allocBlocks .. | .lockedAllocBlocks .. => some (1024 / size * size)
  | .allocInode .. => some 1024
  | .range .. => none

section Loads

variable {vol : Geometry} {sb : Super} (loaded : Loaded vol sb)
include loaded

theorem Loaded.size_cases : vol.blockSize = 1024 ∨ 2048 ≤ vol.blockSize := by
  rw [loaded.geometry, geometryOf]
  rcases Nat.eq_zero_or_pos (field sb.raw 24 4) with zero | more
  · exact .inl (by rw [zero]; rfl)
  · have := Nat.pow_le_pow_right (by decide : 0 < 2) more
    exact .inr (by simp only; omega)

theorem Loaded.size_pos : 0 < vol.blockSize := by
  rcases loaded.size_cases with small | large <;> omega

theorem Loaded.withFreeBlocks {free : Nat} (fits : free < 2 ^ 64) :
    Loaded vol { sb with freeBlocks := free } :=
  ⟨loaded.length, loaded.accepted, loaded.geometry, fits⟩

theorem Loaded.withFreeInodes (free : Nat) : Loaded vol { sb with freeInodes := free } :=
  ⟨loaded.length, loaded.accepted, loaded.geometry, loaded.freeBlocks⟩

theorem Loaded.memory (stage : Stage) : Loaded vol (stage.memory vol sb) := by
  have fits : ∀ n, lower 64 n sb.freeBlocks < 2 ^ 64 := fun n => Nat.mod_lt _ (Nat.two_pow_pos 64)
  cases stage with
  | allocBlocks n => exact (loaded.withFreeBlocks (fits n)).encodeRaw
  | lockedAllocBlocks n => exact (loaded.withFreeBlocks (fits n)).encodeRaw
  | allocInode => exact (loaded.withFreeInodes _).encodeRaw
  | range => exact loaded

end Loads

/-! ## What a stage does to the first 2048 octets -/

/-- The transaction stays well formed and the boot area and the superblock are left alone. -/
structure Kept (fsOffset : Nat) (disk : Disk) (size : Nat) (tx tx' : Tx) : Prop where
  formed : Formed size tx'
  area : ∀ p < fsOffset + 2048,
    content fsOffset size disk tx' p = content fsOffset size disk tx p

section Spec

variable {fsOffset : Nat} {vol : Geometry} {disk : Disk} {tx tx' : Tx}

theorem addRangeToTx_kept (disk : Disk) (positive : 0 < vol.blockSize) (formed : Formed vol.blockSize tx)
    {start : Nat} (data : Bytes) (past : fsOffset + 2048 ≤ start) :
    Kept fsOffset disk vol.blockSize tx (addRangeToTx fsOffset vol disk start data tx) where
  formed := formed.addRange disk start data positive
  area := fun p low => by
    rw [addRangeToTx, content_addRange disk data formed positive (by omega),
      Disk.writeAt_outside _ _ _ _ (.inl (by omega))]

theorem bgdTable_past (sizes : vol.blockSize = 1024 ∨ 2048 ≤ vol.blockSize) (off : Nat) :
    2048 ≤ (vol.bgdTableBlock * vol.blockSize + off) / vol.blockSize * vol.blockSize := by
  have first : vol.bgdTableBlock ≤ (vol.bgdTableBlock * vol.blockSize + off) / vol.blockSize := by
    rw [Nat.le_div_iff_mul_le (by omega)]
    omega
  refine Nat.le_trans ?_ (Nat.mul_le_mul_right vol.blockSize first)
  rcases sizes with small | large
  · rw [Geometry.bgdTableBlock, small]
    decide
  · rw [Geometry.bgdTableBlock, if_pos (by omega)]
    omega

theorem Kept.trans {size : Nat} {tx'' : Tx} (first : Kept fsOffset disk size tx tx')
    (second : Kept fsOffset disk size tx' tx'') : Kept fsOffset disk size tx tx'' :=
  ⟨second.formed, fun p low => (second.area p low).trans (first.area p low)⟩

theorem metadata_kept {sb : Super} (loaded : Loaded vol sb) (formed : Formed vol.blockSize tx) (group : Nat)
    {bitmapBlock : Nat} (bitmap desc : Bytes) (placed : 2048 ≤ bitmapBlock * vol.blockSize) :
    Kept fsOffset disk vol.blockSize tx (stageDescriptorUpdate fsOffset vol disk group desc
      (addRangeToTx fsOffset vol disk (fsOffset + bitmapBlock * vol.blockSize) bitmap tx)) := by
  have first := addRangeToTx_kept disk loaded.size_pos formed bitmap
    (Nat.add_le_add_left placed fsOffset)
  exact first.trans (addRangeToTx_kept disk loaded.size_pos first.formed _
    (Nat.add_le_add_left (bgdTable_past loaded.size_cases _) fsOffset))

theorem super_staged {sb : Super} (loaded : Loaded vol sb)
    (kept : Kept fsOffset disk vol.blockSize tx tx') (off : Nat) (raw : Bytes) :
    Formed vol.blockSize (addRangeToTx fsOffset vol disk (fsOffset + off) raw tx') ∧ ∀ p < fsOffset + 2048,
      content fsOffset vol.blockSize disk (addRangeToTx fsOffset vol disk (fsOffset + off) raw tx') p =
        (content fsOffset vol.blockSize disk tx).writeAt (fsOffset + off) raw p := by
  refine ⟨kept.formed.addRange disk _ _ loaded.size_pos, fun p low => ?_⟩
  rw [addRangeToTx, content_addRange disk raw kept.formed loaded.size_pos (Nat.le_add_right _ _),
    Disk.writeAt, Disk.writeAt, kept.area p low]

/-- One stage: the counters move in memory, the transaction stays well formed, and within the boot
area and the superblock only the encoded superblock is written, at the stage's own place. -/
theorem perform_spec (fsOffset : Nat) (disk : Disk) {s : Session} (loaded : Loaded vol s.sb)
    (formed : Formed vol.blockSize s.tx)
    (stage : Stage) (placed : stage.Placed vol.blockSize) :
    (perform fsOffset vol disk s stage).sb = stage.memory vol s.sb ∧
    Formed vol.blockSize (perform fsOffset vol disk s stage).tx ∧
    ∀ p < fsOffset + 2048, content fsOffset vol.blockSize disk (perform fsOffset vol disk s stage).tx p =
      match stage.place vol.blockSize with
      | some off => (content fsOffset vol.blockSize disk s.tx).writeAt (fsOffset + off)
          (stage.memory vol s.sb).raw p
      | none => content fsOffset vol.blockSize disk s.tx p := by
  cases stage with
  | allocBlocks n group bitmapBlock bitmap desc =>
    exact ⟨rfl, super_staged loaded (metadata_kept loaded formed group bitmap desc placed) _ _⟩
  | lockedAllocBlocks n group bitmapBlock bitmap desc =>
    exact ⟨rfl, super_staged loaded (metadata_kept loaded formed group bitmap desc placed) _ _⟩
  | allocInode group bitmapBlock bitmap desc =>
    exact ⟨rfl, super_staged loaded (metadata_kept loaded formed group bitmap desc placed) _ _⟩
  | range start data =>
    have kept := addRangeToTx_kept disk loaded.size_pos formed data
      (Nat.add_le_add_left placed fsOffset)
    exact ⟨rfl, kept.formed, kept.area⟩

end Spec

/-! ## Whole transactions -/

def lastAt (vol : Geometry) (off : Nat) : List Stage → Super → Option Bytes
  | [], _ => none
  | stage :: rest, sb =>
      (lastAt vol off rest (stage.memory vol sb)).or
        (if stage.place vol.blockSize = some off then some (stage.memory vol sb).raw else none)

/-- The free-block count of a superblock as `readSuperblock` returns it. -/
def freeCount (raw : Bytes) : Except LoadError Nat := (check raw).map fun _ => (decode raw).freeBlocks

section Run

variable {fsOffset : Nat} {vol : Geometry} {disk : Disk} {sb : Super} {stage : Stage}

theorem place_cases (sizes : vol.blockSize = 1024 ∨ 2048 ≤ vol.blockSize)
    (place : stage.place vol.blockSize = some off) : off = 0 ∨ off = 1024 := by
  have blocks : 1024 / vol.blockSize * vol.blockSize = 0 ∨ 1024 / vol.blockSize * vol.blockSize = 1024 := by
    rcases sizes with small | large
    · exact .inr (by rw [small])
    · exact .inl (by rw [Nat.div_eq_of_lt (by omega), Nat.zero_mul])
  cases stage with
  | allocBlocks => cases place; exact blocks
  | lockedAllocBlocks => cases place; exact blocks
  | allocInode => cases place; exact .inr rfl
  | range => cases place

theorem perform_readAt {s : Session} (loaded : Loaded vol s.sb) (formed : Formed vol.blockSize s.tx)
    (stage : Stage) (placed : stage.Placed vol.blockSize) (place : off = 0 ∨ off = 1024) :
    (content fsOffset vol.blockSize disk (perform fsOffset vol disk s stage).tx).readAt
        (fsOffset + off) superblockSize =
      if stage.place vol.blockSize = some off then (stage.memory vol s.sb).raw
      else (content fsOffset vol.blockSize disk s.tx).readAt (fsOffset + off) superblockSize := by
  have whole : superblockSize = 1024 := rfl
  have length := (loaded.memory stage).length
  obtain ⟨_, _, area⟩ := perform_spec fsOffset disk loaded formed stage placed
  cases at' : stage.place vol.blockSize with
  | none =>
    rw [at'] at area
    exact Disk.readAt_congr fun i inside => area (fsOffset + off + i) (by omega)
  | some other =>
    rw [at'] at area
    have read : (content fsOffset vol.blockSize disk (perform fsOffset vol disk s stage).tx).readAt
        (fsOffset + off) superblockSize =
        ((content fsOffset vol.blockSize disk s.tx).writeAt (fsOffset + other)
          (stage.memory vol s.sb).raw).readAt (fsOffset + off) superblockSize :=
      Disk.readAt_congr fun i inside => area (fsOffset + off + i) (by omega)
    by_cases same : other = off
    · rw [read, if_pos (by rw [same]), same, ← length, Disk.readAt_writeAt]
    · have apart := place_cases loaded.size_cases at'
      rw [read, if_neg (fun equal => same (Option.some.inj equal)),
        Disk.readAt_writeAt_outside _ _ _ _ _ (by omega)]

theorem staged_spec (fsOffset : Nat) (disk : Disk) (stages : List Stage) {s : Session} (loaded : Loaded vol s.sb)
    (formed : Formed vol.blockSize s.tx) (placed : ∀ stage ∈ stages, stage.Placed vol.blockSize) :
    (staged fsOffset vol disk stages s).sb = stages.foldl (Stage.memory vol) s.sb ∧
    Formed vol.blockSize (staged fsOffset vol disk stages s).tx ∧ ∀ off, off = 0 ∨ off = 1024 →
      (content fsOffset vol.blockSize disk (staged fsOffset vol disk stages s).tx).readAt
          (fsOffset + off) superblockSize = (lastAt vol off stages s.sb).getD
          ((content fsOffset vol.blockSize disk s.tx).readAt (fsOffset + off) superblockSize) := by
  induction stages generalizing s with
  | nil => exact ⟨rfl, formed, fun off _ => by simp only [lastAt, Option.getD_none, staged, List.foldl_nil]⟩
  | cons stage rest ih =>
    have here := placed stage List.mem_cons_self
    obtain ⟨memory, formed', _⟩ := perform_spec fsOffset disk loaded formed stage here
    have ready : Loaded vol (perform fsOffset vol disk s stage).sb := by
      rw [memory]
      exact loaded.memory stage
    obtain ⟨last, whole, read⟩ := ih ready formed' fun other mem =>
      placed other (List.mem_cons_of_mem _ mem)
    rw [memory] at last read
    refine ⟨last, whole, fun off place => (read off place).trans ?_⟩
    rw [perform_readAt loaded formed stage here place, lastAt]
    cases lastAt vol off rest (stage.memory vol s.sb) with
    | some raw => simp only [Option.some_or, Option.getD_some]
    | none =>
      by_cases here : stage.place vol.blockSize = some off
      · simp only [if_pos here, Option.none_or, Option.getD_none, Option.getD_some]
      · simp only [if_neg here, Option.none_or, Option.getD_none]

theorem lastAt_isSome {stages : List Stage}
    (any : ∃ stage ∈ stages, stage.place vol.blockSize = some off) : (lastAt vol off stages sb).isSome := by
  induction stages generalizing sb with
  | nil => simp at any
  | cons stage rest ih =>
    rw [lastAt]
    by_cases later : ∃ stage ∈ rest, stage.place vol.blockSize = some off
    · obtain ⟨raw, found⟩ := Option.isSome_iff_exists.mp (@ih (stage.memory vol sb) later)
      rw [found]
      rfl
    · obtain ⟨found, mem, place⟩ := any
      rcases List.mem_cons.mp mem with rfl | further
      · simp [place]
      · exact absurd ⟨found, further, place⟩ later

/-- What a superblock of the transaction reads back as, when no later stage takes blocks. -/
theorem freeCount_memory (loaded : Loaded vol sb) (place : stage.place vol.blockSize ≠ none) :
    freeCount (stage.memory vol sb).raw = .ok (stage.memory vol sb).freeBlocks := by
  have encodes : ∃ before : Super, Loaded vol before ∧ stage.memory vol sb = before.encodeRaw vol := by
    have fits : ∀ n, lower 64 n sb.freeBlocks < 2 ^ 64 := fun n => Nat.mod_lt _ (Nat.two_pow_pos 64)
    cases stage with
    | allocBlocks n => exact ⟨_, loaded.withFreeBlocks (fits n), rfl⟩
    | lockedAllocBlocks n => exact ⟨_, loaded.withFreeBlocks (fits n), rfl⟩
    | allocInode => exact ⟨_, loaded.withFreeInodes _, rfl⟩
    | range => exact absurd rfl place
  obtain ⟨before, ready, equal⟩ := encodes
  rw [equal, freeCount, ready.encodeRaw.accepted]
  exact congrArg Except.ok (decode_encoded_freeBlocks ready)

/-- With blocks of 1024 octets the last superblock staged, whichever allocator did it, carries the
count that is in memory at the end. -/
theorem freeCount_lastAt (small : vol.blockSize = 1024) (stages : List Stage) (loaded : Loaded vol sb) :
    match lastAt vol 1024 stages sb with
    | some raw => freeCount raw = .ok (stages.foldl (Stage.memory vol) sb).freeBlocks
    | none => (stages.foldl (Stage.memory vol) sb).freeBlocks = sb.freeBlocks := by
  induction stages generalizing sb with
  | nil => exact rfl
  | cons stage rest ih =>
    have later := ih (loaded.memory stage)
    rw [lastAt, List.foldl_cons]
    cases found : lastAt vol 1024 rest (stage.memory vol sb) with
    | some raw =>
      rw [found] at later
      exact later
    | none =>
      rw [found] at later
      -- no superblock follows, so this stage's is the last one, unless the stage has none
      cases stage with
      | range start data => exact later
      | allocBlocks n group bitmapBlock bitmap desc =>
        have place : (Stage.allocBlocks n group bitmapBlock bitmap desc).place vol.blockSize = some 1024 := by
          rw [Stage.place, small]
        rw [if_pos place, Option.none_or, later]
        exact freeCount_memory loaded (by rw [place]; exact Option.some_ne_none _)
      | lockedAllocBlocks n group bitmapBlock bitmap desc =>
        have place : (Stage.lockedAllocBlocks n group bitmapBlock bitmap desc).place vol.blockSize =
            some 1024 := by
          rw [Stage.place, small]
        rw [if_pos place, Option.none_or, later]
        exact freeCount_memory loaded (by rw [place]; exact Option.some_ne_none _)
      | allocInode group bitmapBlock bitmap desc =>
        have place : (Stage.allocInode group bitmapBlock bitmap desc).place vol.blockSize = some 1024 := rfl
        rw [if_pos place, Option.none_or, later]
        exact freeCount_memory loaded (by rw [place]; exact Option.some_ne_none _)

theorem lastAt_eq_none {stages : List Stage}
    (absent : ∀ stage ∈ stages, stage.place vol.blockSize ≠ some off) : lastAt vol off stages sb = none := by
  induction stages generalizing sb with
  | nil => rfl
  | cons stage rest ih =>
    rw [lastAt, ih fun other mem => absent other (List.mem_cons_of_mem _ mem),
      if_neg (absent stage List.mem_cons_self), Option.none_or]

end Run

/-- The superblock on the device has the count held in memory, and the boot area is as it was. -/
structure Lands (fsOffset : Nat) (vol : Geometry) (disk : Disk) (stages : List Stage) (sb : Super) : Prop where
  counted : (readSuperblock (committed fsOffset vol disk stages sb) fsOffset).map (fun read => read.2.freeBlocks) =
    .ok (staged fsOffset vol disk stages ⟨sb, []⟩).sb.freeBlocks
  boot : (committed fsOffset vol disk stages sb).readAt fsOffset superblockSize =
    disk.readAt fsOffset superblockSize

/-- The boot area holds beforehand the superblock that the transaction's last block allocation will
encode, and the superblock, after the transaction's inode allocations if it has any, the count that
will be in memory. -/
def Coincides (fsOffset : Nat) (vol : Geometry) (disk : Disk) (stages : List Stage) (sb : Super) : Prop :=
  lastAt vol 0 stages sb = some (disk.readAt fsOffset superblockSize) ∧
    freeCount ((lastAt vol 1024 stages sb).getD (disk.readAt (fsOffset + 1024) superblockSize)) =
      .ok (stages.foldl (Stage.memory vol) sb).freeBlocks

theorem readSuperblock_freeBlocks (disk : Disk) (fsOffset : Nat) :
    (readSuperblock disk fsOffset).map (fun read => read.2.freeBlocks) =
      freeCount (disk.readAt (fsOffset + 1024) superblockSize) := by
  simp only [readSuperblock]
  generalize disk.readAt (fsOffset + 1024) superblockSize = raw
  unfold freeCount
  cases check raw <;> rfl

section Landing

variable {fsOffset : Nat} {vol : Geometry} {disk : Disk} {stages : List Stage} {sb : Super}

theorem committed_readAt (fsOffset : Nat) (disk : Disk) (loaded : Loaded vol sb)
    (placed : ∀ stage ∈ stages, stage.Placed vol.blockSize)
    (place : off = 0 ∨ off = 1024) :
    (committed fsOffset vol disk stages sb).readAt (fsOffset + off) superblockSize =
      (lastAt vol off stages sb).getD (disk.readAt (fsOffset + off) superblockSize) := by
  have start : Formed vol.blockSize [] := Formed.nil _
  obtain ⟨_, formed, read⟩ := staged_spec fsOffset disk stages (s := ⟨sb, []⟩) loaded start placed
  rw [committed, apply_eq_content disk formed loaded.size_pos, read off place, content_nil]

theorem lands_iff_places (loaded : Loaded vol sb) (placed : ∀ stage ∈ stages, stage.Placed vol.blockSize) :
    Lands fsOffset vol disk stages sb ↔
      freeCount ((lastAt vol 1024 stages sb).getD (disk.readAt (fsOffset + 1024) superblockSize)) =
        .ok (stages.foldl (Stage.memory vol) sb).freeBlocks ∧
      (lastAt vol 0 stages sb).getD (disk.readAt fsOffset superblockSize) =
        disk.readAt fsOffset superblockSize := by
  have memory : (staged fsOffset vol disk stages ⟨sb, []⟩).sb = stages.foldl (Stage.memory vol) sb :=
    (staged_spec fsOffset disk stages (s := ⟨sb, []⟩) loaded (Formed.nil _) placed).1
  have super := committed_readAt fsOffset disk loaded placed (.inr rfl)
  have boot := committed_readAt fsOffset disk loaded placed (.inl rfl)
  constructor
  · rintro ⟨counted, same⟩
    rw [readSuperblock_freeBlocks, super, memory] at counted
    exact ⟨counted, boot.symm.trans same⟩
  · rintro ⟨counted, same⟩
    refine ⟨?_, boot.trans same⟩
    rw [readSuperblock_freeBlocks, super, memory, counted]

/-- The superblock of a transaction that allocates blocks lands on the superblock exactly when the
blocks have 1024 octets, degenerate coincidences apart. -/
theorem lands_iff (loaded : Loaded vol sb) (placed : ∀ stage ∈ stages, stage.Placed vol.blockSize)
    (allocates : ∃ stage ∈ stages, stage.isBlocks) : Lands fsOffset vol disk stages sb ↔
      vol.blockSize = 1024 ∨ Coincides fsOffset vol disk stages sb := by
  have blocksPlace : ∀ stage : Stage, stage.isBlocks →
      stage.place vol.blockSize = some (1024 / vol.blockSize * vol.blockSize) := by
    rintro (_ | _ | _ | _) blocks
    · rfl
    · rfl
    · cases blocks
    · cases blocks
  obtain ⟨stage, mem, blocks⟩ := allocates
  rw [lands_iff_places loaded placed]
  rcases loaded.size_cases with small | large
  · -- every allocator stages at octet 1024, none in the boot area
    have absent : ∀ stage : Stage, stage.place vol.blockSize ≠ some 0 := by
      intro stage place
      rw [small] at place
      cases stage <;> cases place
    have some1024 : (lastAt vol 1024 stages sb).isSome :=
      lastAt_isSome ⟨stage, mem, by rw [blocksPlace stage blocks, small]⟩
    obtain ⟨raw, found⟩ := Option.isSome_iff_exists.mp some1024
    have counted := freeCount_lastAt small stages loaded
    rw [found] at counted
    rw [found, lastAt_eq_none fun other _ => absent other]
    exact ⟨fun _ => .inl small, fun _ => ⟨counted, Option.getD_none⟩⟩
  · have some0 : (lastAt vol 0 stages sb).isSome :=
      lastAt_isSome ⟨stage, mem, by
        rw [blocksPlace stage blocks, Nat.div_eq_of_lt (by omega), Nat.zero_mul]⟩
    obtain ⟨raw, found⟩ := Option.isSome_iff_exists.mp some0
    have notSmall : vol.blockSize ≠ 1024 := by omega
    rw [or_iff_right notSmall, Coincides, found, Option.getD_some, Option.some.injEq, and_comm]

end Landing

/-! ## Block sizes 1024 and 2048 -/

/-- A superblock with the given `s_log_block_size`, 100 free blocks and no checksums. -/
def sampleRaw (logSize : Nat) : Bytes :=
  let raw := List.replicate superblockSize 0
  let raw := writeAt raw 4 (putUint 4 1000)
  let raw := writeAt raw 12 (putUint 4 100)
  let raw := writeAt raw 24 (putUint 4 logSize)
  let raw := writeAt raw 32 (putUint 4 8192)
  let raw := writeAt raw 40 (putUint 4 64)
  writeAt raw 56 (putUint 2 0xEF53)

def sampleDisk (logSize : Nat) : Disk := Disk.writeAt (fun _ => 0) 1024 (sampleRaw logSize)

def sampleStages : List Stage := [.allocBlocks 1 0 4 [1] [7]]

theorem sample_loaded (logSize : Nat) (accepted : logSize ∈ [0, 1]) :
    Loaded (geometryOf (sampleRaw logSize)) (decode (sampleRaw logSize)) := by
  rcases List.mem_cons.mp accepted with rfl | one
  · exact ⟨by decide +kernel, by decide +kernel, rfl, by decide +kernel⟩
  · cases List.mem_singleton.mp one
    exact ⟨by decide +kernel, by decide +kernel, rfl, by decide +kernel⟩

theorem sample_placed (logSize : Nat) (accepted : logSize ∈ [0, 1]) :
    ∀ stage ∈ sampleStages, stage.Placed (geometryOf (sampleRaw logSize)).blockSize := by
  rcases List.mem_cons.mp accepted with rfl | one
  · decide +kernel
  · cases List.mem_singleton.mp one
    decide +kernel

theorem lands_small : (geometryOf (sampleRaw 0)).blockSize = 1024 ∧
    Lands 0 (geometryOf (sampleRaw 0)) (sampleDisk 0) sampleStages (decode (sampleRaw 0)) :=
  have small : (geometryOf (sampleRaw 0)).blockSize = 1024 := by decide +kernel
  ⟨small, (lands_iff (sample_loaded 0 (by decide)) (sample_placed 0 (by decide))
    ⟨_, List.mem_singleton.mpr rfl, rfl⟩).mpr (.inl small)⟩

/-- With blocks of 2048 octets the superblock is written over the boot area and the one on the
device keeps the old count. -/
theorem not_lands_large : Loaded (geometryOf (sampleRaw 1)) (decode (sampleRaw 1)) ∧
    (geometryOf (sampleRaw 1)).blockSize = 2048 ∧
    (committed 0 (geometryOf (sampleRaw 1)) (sampleDisk 1) sampleStages (decode (sampleRaw 1))) 56 = 0x53 ∧
    ¬ Lands 0 (geometryOf (sampleRaw 1)) (sampleDisk 1) sampleStages (decode (sampleRaw 1)) := by
  have stamped : committed 0 (geometryOf (sampleRaw 1)) (sampleDisk 1) sampleStages
      (decode (sampleRaw 1)) 56 = 0x53 := by decide +kernel
  refine ⟨sample_loaded 1 (by decide), by decide +kernel, stamped, fun lands => ?_⟩
  have same := congrArg (fun octets => octets[56]?) lands.boot
  simp only [Disk.readAt_getElem? _ _ _ _ (by decide : 56 < superblockSize), Nat.zero_add, stamped] at same
  exact absurd same (by decide)

end Ext4.SuperArea
