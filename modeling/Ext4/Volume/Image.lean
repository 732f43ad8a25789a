import Ext4.Library.Octets
import Ext4.Library.Store
import Ext4.Alloc.Staging

/-! The content of a volume, block by block.
Every block of the image is a cell with the type of what the code keeps there, and an address
names a block by its purpose; the blocks that hold data and directories go by their number.
Times, checksums and the features that formatting does not switch on are left out. -/

namespace Ext4.Volume
open Octets Alloc

abbrev Name := List Char

abbrev Path := List Char

/-- `i_mode & 0xF000`. -/
inductive Kind where
  | none
  | regular
  | dir
  | symlink
  deriving DecidableEq, Repr

/-- The `file_type` octet of a directory entry. -/
inductive FileType where
  | unknown
  | regFile
  | dir
  | symlink
  deriving DecidableEq, Repr

structure Extent where
  logBlock : Nat
  physBlock : Nat
  count : Nat
  deriving DecidableEq, Repr

inductive Mapping where
  /-- The extents flag is clear. -/
  | none
  /-- A symlink target of at most 60 octets. -/
  | target (path : Path)
  /-- At most four extents. -/
  | inline (extents : List Extent)
  /-- One index entry: the extents are in the leaf block `child`. -/
  | index (child : Nat)
  deriving DecidableEq, Repr

structure Inode where
  kind : Kind
  perm : Nat
  /-- `i_links_count`, 16 bits wide. -/
  links : Nat
  size : Nat
  /-- `i_blocks_lo`, in sectors of 512 octets. -/
  sectors : Nat
  mapping : Mapping
  deriving DecidableEq, Repr

/-- `make([]byte, sb.InodeSize)`. -/
def Inode.zero : Inode := ⟨.none, 0, 0, 0, 0, .none⟩

/-- One record of a directory block; a record with inode 0 is free and keeps its old name. -/
structure Slot where
  ino : Nat
  recLen : Nat
  name : Name
  fileType : FileType
  deriving DecidableEq, Repr

inductive Block where
  | data (content : Bytes)
  | target (path : Path)
  | slots (records : List Slot)
  | leaf (extents : List Extent)
  deriving DecidableEq, Repr

structure Desc where
  freeBlocks : Nat
  freeInodes : Nat
  usedDirs : Nat
  deriving DecidableEq, Repr

structure Counters where
  blocksCount : Nat
  inodesCount : Nat
  freeBlocks : Nat
  freeInodes : Nat
  label : Bytes
  deriving DecidableEq, Repr

/-- The block of the superblock. With blocks of more than 1024 octets the superblock stands at
offset 1024 of block 0, and what is written to the start of that block is not read again. -/
structure SuperBlock where
  primary : Counters
  stray : Option Counters
  deriving DecidableEq, Repr

inductive Addr where
  | super
  | descs (k : Nat)
  | bitmap (key : Key)
  | itable (group k : Nat)
  | block (number : Nat)
  deriving DecidableEq, Repr

abbrev Content : Addr → Type
  | .super => SuperBlock
  | .descs _ => Nat → Desc
  | .bitmap _ => Bits
  | .itable _ _ => Nat → Inode
  | .block _ => Block

abbrev Image := (a : Addr) → Content a

structure Shape extends Staging.Layout where
  blockSize : Nat
  inodesPerBlock : Nat
  descsPerBlock : Nat
  /-- The width of the counters of a descriptor. -/
  descBits : Nat
  /-- The blocks of superblocks, descriptors, bitmaps and inode tables. -/
  metadata : Nat → Bool
  /-- What `metadata_csum` takes of the block of a new directory. -/
  dirTail : Nat := 0
  blocksPerGroup_pos : 0 < blocksPerGroup
  inodesPerGroup_pos : 0 < inodesPerGroup
  inodesPerBlock_pos : 0 < inodesPerBlock

/-! ## Where things are -/

section
variable (v : Shape)

def Shape.blockKey (b : Nat) : Key := ⟨(b - v.firstDataBlock) / v.blocksPerGroup, true⟩

def Shape.blockBit (b : Nat) : Nat := (b - v.firstDataBlock) % v.blocksPerGroup

def Shape.inodeKey (i : Nat) : Key := ⟨(i - 1) / v.inodesPerGroup, false⟩

def Shape.inodeBit (i : Nat) : Nat := (i - 1) % v.inodesPerGroup

def Shape.inodeGroup (i : Nat) : Nat := (i - 1) / v.inodesPerGroup

def Shape.inodeTableBlock (i : Nat) : Nat := (i - 1) % v.inodesPerGroup / v.inodesPerBlock

def Shape.inodeIndex (i : Nat) : Nat := (i - 1) % v.inodesPerGroup % v.inodesPerBlock

def Shape.blockOf (group bit : Nat) : Nat := group * v.blocksPerGroup + v.firstDataBlock + bit

def Shape.inodeOf (group bit : Nat) : Nat := group * v.inodesPerGroup + bit + 1

end

variable {v : Shape} {group bit b i j : Nat}

theorem Shape.blockKey_blockOf (inGroup : bit < v.blocksPerGroup) :
    v.blockKey (v.blockOf group bit) = ⟨group, true⟩ := by
  have sum : v.blockOf group bit - v.firstDataBlock = bit + v.blocksPerGroup * group := by
    rw [Shape.blockOf, Nat.mul_comm]
    omega
  rw [Shape.blockKey, sum, Nat.add_mul_div_left _ _ v.blocksPerGroup_pos,
    Nat.div_eq_of_lt inGroup, Nat.zero_add]

theorem Shape.blockBit_blockOf (inGroup : bit < v.blocksPerGroup) :
    v.blockBit (v.blockOf group bit) = bit := by
  have sum : v.blockOf group bit - v.firstDataBlock = bit + v.blocksPerGroup * group := by
    rw [Shape.blockOf, Nat.mul_comm]
    omega
  rw [Shape.blockBit, sum, Nat.add_mul_mod_self_left, Nat.mod_eq_of_lt inGroup]

theorem Shape.inodeKey_inodeOf (inGroup : bit < v.inodesPerGroup) :
    v.inodeKey (v.inodeOf group bit) = ⟨group, false⟩ := by
  have sum : v.inodeOf group bit - 1 = bit + v.inodesPerGroup * group := by
    rw [Shape.inodeOf, Nat.mul_comm]
    omega
  rw [Shape.inodeKey, sum, Nat.add_mul_div_left _ _ v.inodesPerGroup_pos,
    Nat.div_eq_of_lt inGroup, Nat.zero_add]

theorem Shape.inodeBit_inodeOf (inGroup : bit < v.inodesPerGroup) :
    v.inodeBit (v.inodeOf group bit) = bit := by
  have sum : v.inodeOf group bit - 1 = bit + v.inodesPerGroup * group := by
    rw [Shape.inodeOf, Nat.mul_comm]
    omega
  rw [Shape.inodeBit, sum, Nat.add_mul_mod_self_left, Nat.mod_eq_of_lt inGroup]

theorem div_mod_inj {a n : Nat} (quotient : a / n = b / n) (remainder : a % n = b % n) : a = b := by
  rw [← Nat.div_add_mod a n, ← Nat.div_add_mod b n, quotient, remainder]

theorem Shape.block_inj {c : Nat} (low : v.firstDataBlock ≤ b) (low' : v.firstDataBlock ≤ c)
    (key : v.blockKey b = v.blockKey c) (bit : v.blockBit b = v.blockBit c) : b = c := by
  have := div_mod_inj (Key.mk.inj key).1 bit
  omega

theorem Shape.inodeBit_inj (low : 0 < i) (low' : 0 < j) (key : v.inodeKey i = v.inodeKey j)
    (bit : v.inodeBit i = v.inodeBit j) : i = j := by
  have := div_mod_inj (Key.mk.inj key).1 bit
  omega

theorem Shape.inodeIndex_inj (low : 0 < i) (low' : 0 < j)
    (group : v.inodeGroup i = v.inodeGroup j) (k : v.inodeTableBlock i = v.inodeTableBlock j)
    (index : v.inodeIndex i = v.inodeIndex j) : i = j := by
  have := div_mod_inj group (div_mod_inj k index)
  omega

/-! ## Reading -/

section
variable (v : Shape) (img : Image)

/-- The block is marked used in its block bitmap; the blocks before the first data block have no
bit and are never released. -/
def used (b : Nat) : Bool := b < v.firstDataBlock || img (.bitmap (v.blockKey b)) (v.blockBit b)

def live (i : Nat) : Bool := 0 < i && img (.bitmap (v.inodeKey i)) (v.inodeBit i)

def inodeAt (i : Nat) : Inode :=
  if i = 0 then .zero
  else img (.itable (v.inodeGroup i) (v.inodeTableBlock i)) (v.inodeIndex i)

def descAt (g : Nat) : Desc := img (.descs (g / v.descsPerBlock)) (g % v.descsPerBlock)

end

end Ext4.Volume
