import Mathlib.Data.List.Nodup
import Ext4.Volume.View

/-! Allocating and freeing blocks and inodes.
An allocation scans the groups from a rotating start for one whose descriptor and bitmap have
room. With a transaction the three metadata writes are staged and the bits stay reserved until
the caller's cleanup; without one they are written straight to the device. -/

namespace Ext4.Volume
open Octets Alloc Store

variable (v : Shape)

def FS.groups (s : FS) : Nat := (s.sb.blocksCount + v.blocksPerGroup - 1) / v.blocksPerGroup

/-- `atomic.AddUint32(&allocGroupCursor, allocCursorStride)`, with the default stride. -/
def FS.advanceCursor (s : FS) : FS := { s with cursor := (s.cursor + 1) % 2 ^ 32 }

def FS.order (s : FS) : List Nat :=
  (List.range (s.groups v)).map fun i => (s.cursor % s.groups v + i) % s.groups v

/-- `reserveBitmapBits` with `want` true. -/
def FS.reserve (s : FS) (key : Key) (bits : List Nat) : FS :=
  { s with reserved := Function.update s.reserved key (bits ++ s.reserved key) }

def FS.unreserve (s : FS) (key : Key) (bits : List Nat) : FS :=
  let left := (s.reserved key).filter fun bit => decide (bit ∉ bits)
  { s with reserved := Function.update s.reserved key left }

def FS.write (s : FS) (inTx : Bool) (write : Write Content) : FS :=
  if inTx then s.put write else s.direct write

/-- Before it writes a descriptor, the commit dispatcher counts the clear bits of the two bitmaps on
the device. -/
def FS.counted (s : FS) (g : Nat) (d : Desc) : Desc :=
  { d with
    freeBlocks := clearCount v.blocksPerGroup (s.image (.bitmap ⟨g, true⟩)) % 2 ^ v.descBits
    freeInodes := clearCount v.inodesPerGroup (s.image (.bitmap ⟨g, false⟩)) % 2 ^ v.descBits }

/-- The descriptor block of group `g` with its entry changed; in a transaction only the fields of
the caller are taken from the device's copy (`stageDescriptorUpdate`). -/
def FS.writeDesc (s : FS) (inTx : Bool) (g : Nat) (change : Desc → Desc) : FS :=
  let d := change (descAt v s.now g)
  s.write inTx ⟨.descs (g / v.descsPerBlock),
    Function.update (s.now (.descs (g / v.descsPerBlock))) (g % v.descsPerBlock)
      (if inTx then d else s.counted v g d)⟩

/-- The superblock as `encodeRaw` leaves it, at offset 1024. -/
def FS.writeSuper (s : FS) (inTx : Bool) : FS :=
  s.write inTx ⟨.super, { s.now .super with primary := s.sb }⟩

/-- `allocBlocksWithTx` stages the superblock at the start of its block instead. -/
def FS.writeStray (s : FS) : FS :=
  if v.blockSize ≤ 1024 then s.writeSuper true
  else s.put ⟨.super, { s.now .super with stray := some s.sb }⟩

/-- `atomic.AddUint64` or `atomic.AddUint32` with the complement of `n - 1`. -/
def minus (width n x : Nat) : Nat := (x + 2 ^ width - n) % 2 ^ width

/-- `atomic.AddUint64` or `atomic.AddUint32` of one. -/
def plusOne (width x : Nat) : Nat := (x + 1) % 2 ^ width

def FS.recount (s : FS) (inTx : Bool) (g : Nat) (change : Desc → Desc)
    (counters : Counters → Counters) : FS :=
  let s' := s.writeDesc v inTx g change
  { s' with sb := counters s'.sb }

/-! ## Blocks -/

def FS.findRun (s : FS) (inTx : Bool) (n g : Nat) : Option (List Nat) :=
  let bitmap := s.visible ⟨g, true⟩
  match inTx, s.tx with
  | true, some staged =>
      (Staging.findFreeRunForTx
        (fun bit => decide (Addr.block (v.blockOf g bit) ∈ staged.writes.map Sigma.fst))
        v.blocksPerGroup n (v.blocksPerGroup + 1) bitmap).join
  | _, _ => findFreeRun bitmap v.blocksPerGroup n

def FS.chooseBlocks (s : FS) (inTx : Bool) (n : Nat) : Option (Nat × List Nat) :=
  (s.order v).findSome? fun g =>
    if (descAt v s.image g).freeBlocks < n then none
    else (s.findRun v inTx n g).map fun bits => (g, bits)

def FS.takeBlocks (s : FS) (inTx : Bool) (g : Nat) (bits : List Nat) : FS :=
  let n := bits.length
  let free := (descAt v s.image g).freeBlocks - n
  let s' := s.reserve ⟨g, true⟩ bits
  let s' := s'.write inTx ⟨.bitmap ⟨g, true⟩, setBits bits (s.visible ⟨g, true⟩)⟩
  let s' := s'.recount v inTx g (fun d => { d with freeBlocks := free })
    fun sb => { sb with freeBlocks := minus 64 n sb.freeBlocks }
  if inTx then s'.writeStray v else (s'.writeSuper false).unreserve ⟨g, true⟩ bits

abbrev Cleanup := List (Key × List Nat)

def FS.cleanup (s : FS) (held : Cleanup) : FS :=
  held.foldl (fun s part => s.unreserve part.1 part.2) s

/-- `allocBlocks` and `allocBlocksWithTx`. -/
def allocBlocks (inTx : Bool) (n : Nat) : Prog FS Err (List Nat × Cleanup) := fun s =>
  let s := s.advanceCursor
  match s.chooseBlocks v inTx n with
  | none => (.error .noFreeBlocks, s)
  | some (g, bits) =>
      (.ok (bits.map (v.blockOf g), [(⟨g, true⟩, bits)]), s.takeBlocks v inTx g bits)

theorem allocBlocks_rule {v : Shape} {s : FS} {inTx : Bool} {n : Nat} {post : List Nat × Cleanup → FS → Prop}
    {failed : Err → FS → Prop}
    (full : s.advanceCursor.chooseBlocks v inTx n = none → failed .noFreeBlocks s.advanceCursor)
    (taken : ∀ g bits, s.advanceCursor.chooseBlocks v inTx n = some (g, bits) →
      post (bits.map (v.blockOf g), [(⟨g, true⟩, bits)]) (s.advanceCursor.takeBlocks v inTx g bits)) :
    (allocBlocks v inTx n).Meets s post failed := by
  unfold Prog.Meets allocBlocks
  dsimp only
  cases chosen : s.advanceCursor.chooseBlocks v inTx n with
  | none => exact full chosen
  | some choice => exact taken _ _ chosen

/-- `freeBlock`; the dispatcher writes bitmap, descriptor and superblock also when a journal is
enabled. -/
def FS.freeBlock (s : FS) (b : Nat) : FS :=
  if b < v.firstDataBlock then s
  else
    let key := v.blockKey b
    let bit := v.blockBit b
    let free := plusOne v.descBits (descAt v s.image key.group).freeBlocks
    let s' := s.direct ⟨.bitmap key, clearBit bit (s.visible key)⟩
    let s' := s'.recount v false key.group (fun d => { d with freeBlocks := free })
      fun sb => { sb with freeBlocks := plusOne 64 sb.freeBlocks }
    (s'.writeSuper false).unreserve key [bit]

/-! ## Inodes -/

def FS.chooseInode (s : FS) : Option (Nat × Nat) :=
  (s.order v).findSome? fun g =>
    if (descAt v s.image g).freeInodes = 0 then none
    else (findFreeBit (s.visible ⟨g, false⟩) v.inodesPerGroup).map fun bit => (g, bit)

def FS.takeInode (s : FS) (inTx : Bool) (g bit : Nat) (isDir : Bool) : FS :=
  let d := descAt v s.image g
  let dirs := if isDir then plusOne v.descBits d.usedDirs else d.usedDirs
  let s' := s.reserve ⟨g, false⟩ [bit]
  let s' := s'.write inTx ⟨.bitmap ⟨g, false⟩, setBits [bit] (s.visible ⟨g, false⟩)⟩
  let s' := s'.recount v inTx g
    (fun now => { now with freeInodes := d.freeInodes - 1, usedDirs := dirs })
    fun sb => { sb with freeInodes := minus 32 1 sb.freeInodes }
  let s' := s'.writeSuper inTx
  if inTx then s' else s'.unreserve ⟨g, false⟩ [bit]

/-- `allocInode` and `allocInodeWithTx`. -/
def allocInode (inTx isDir : Bool) : Prog FS Err (Nat × Cleanup) := fun s =>
  let s := s.advanceCursor
  match s.chooseInode v with
  | none => (.error .noFreeInodes, s)
  | some (g, bit) => (.ok (v.inodeOf g bit, [(⟨g, false⟩, [bit])]), s.takeInode v inTx g bit isDir)

theorem allocInode_rule {v : Shape} {s : FS} {inTx isDir : Bool} {post : Nat × Cleanup → FS → Prop}
    {failed : Err → FS → Prop}
    (full : s.advanceCursor.chooseInode v = none → failed .noFreeInodes s.advanceCursor)
    (taken : ∀ g bit, s.advanceCursor.chooseInode v = some (g, bit) →
      post (v.inodeOf g bit, [(⟨g, false⟩, [bit])]) (s.advanceCursor.takeInode v inTx g bit isDir)) :
    (allocInode v inTx isDir).Meets s post failed := by
  unfold Prog.Meets allocInode
  dsimp only
  cases chosen : s.advanceCursor.chooseInode v with
  | none => exact full chosen
  | some choice => exact taken _ _ chosen

/-- `freeInodeSlot`: the bitmap goes through the journal, descriptor and superblock do not. -/
def FS.freeInodeSlot (s : FS) (i : Nat) : FS :=
  let key := v.inodeKey i
  let free := plusOne v.descBits (descAt v s.image key.group).freeInodes
  let s' := s.put ⟨.bitmap key, clearBit (v.inodeBit i) (s.visible key)⟩
  let s' := s'.recount v false key.group (fun d => { d with freeInodes := free })
    fun sb => { sb with freeInodes := plusOne 32 sb.freeInodes }
  s'.writeSuper false

end Ext4.Volume
