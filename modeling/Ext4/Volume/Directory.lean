import Ext4.Volume.Extents

/-! Directory blocks: the records, inserting one, freeing one, and the listing of a directory. -/

namespace Ext4.Volume
open Octets Alloc Store

structure Entry where
  ino : Nat
  name : Name
  fileType : FileType
  deriving DecidableEq, Repr

def dot : Name := ['.']

def dotDot : Name := ['.', '.']

def Slot.entry (slot : Slot) : Entry := ⟨slot.ino, slot.name, slot.fileType⟩

/-- `parseDirBlock` lists the record. -/
def Slot.listed (slot : Slot) : Bool :=
  decide (slot.ino ≠ 0) && decide (slot.name ≠ []) && decide (slot.name.length + 8 ≤ slot.recLen)

def listing (slots : List Slot) : List Entry := (slots.filter Slot.listed).map Slot.entry

def Block.records : Block → List Slot
  | .slots records => records
  | _ => []

def minDirentSize (nameLen : Nat) : Nat := (8 + nameLen + 3) / 4 * 4

/-- `writeDirEntry`: the octet for the length of the name wraps around. -/
def newSlot (ino recLen : Nat) (name : Name) (fileType : FileType) : Slot :=
  ⟨ino, recLen, name.take (name.length % 256), fileType⟩

/-- `tryInsertDirEntry`: the first free record that is long enough, or the first one with enough
slack behind it. -/
def tryInsertDirEntry (ino : Nat) (name : Name) (fileType : FileType) :
    List Slot → Option (List Slot)
  | [] => none
  | slot :: rest =>
      let needed := minDirentSize name.length
      let minLen := minDirentSize slot.name.length
      if slot.ino = 0 then
        if needed ≤ slot.recLen then some (newSlot ino slot.recLen name fileType :: rest)
        else (tryInsertDirEntry ino name fileType rest).map (slot :: ·)
      else if slot.recLen < minLen then none
      else if needed ≤ slot.recLen - minLen then
        some ({ slot with recLen := minLen } :: newSlot ino (slot.recLen - minLen) name fileType :: rest)
      else (tryInsertDirEntry ino name fileType rest).map (slot :: ·)

/-- `zeroEntryInBlock`: the first record of that name is freed, free or not. -/
def zeroEntryInBlock (name : Name) : List Slot → Option (List Slot)
  | [] => none
  | slot :: rest =>
      if slot.name ≠ [] ∧ slot.name = name then some ({ slot with ino := 0 } :: rest)
      else (zeroEntryInBlock name rest).map (slot :: ·)

/-- The loop of `updateDotDot` over one block. -/
def setDotDot (parent : Nat) : List Slot → Option (List Slot)
  | [] => none
  | slot :: rest =>
      if slot.name = dotDot then some ({ slot with ino := parent } :: rest)
      else (setDotDot parent rest).map (slot :: ·)

/-- The first block that the change applies to, with the records it leaves there. -/
def firstChange (block : Nat → Block) (change : List Slot → Option (List Slot))
    (blocks : List Nat) : Option (Nat × List Slot) :=
  blocks.findSome? fun b => (change (block b).records).map fun slots => (b, slots)

def FS.readDir (s : FS) (dir : Inode) : Except Err (List Entry) := do
  let extents ← s.readExtents dir.mapping
  return (blocksOf extents).flatMap fun b => listing (s.image (.block b)).records

variable (v : Shape)

/-- `addDirEntryAllocBlocks`, or the allocation in the caller's transaction. -/
def growBlocks : Bool → Prog FS Err (List Nat × Cleanup)
  | true => allocBlocks v true 1
  | false => do
      let blocks ← allocBlocksAlone v 1
      pure (blocks, [])

def layExtents (extents : List Extent) : Prog FS Err (Mapping × Cleanup) :=
  if extents.length ≤ 4 then pure (.inline extents, [])
  else do
    let (child, held) ← prepareExtentChild v extents
    pure (.index child, held)

def nextLogBlock (extents : List Extent) : Nat :=
  match extents.getLast? with
  | some last => last.logBlock + last.count
  | none => 0

def growDir (inTx : Bool) (num : Nat) (dir : Inode) (extents : List Extent) (slot : Slot) :
    Prog FS Err (Inode × Cleanup) := do
  let (blocks, held) ← growBlocks v inTx
  let new := blocks.headD 0
  .modify fun s => s.writeBlock new (.slots [slot])
  let logBlock := nextLogBlock extents
  let (mapping, heldLeaf) ← layExtents v (extents ++ [⟨logBlock, new, 1⟩])
  let dir := { dir with
    mapping := mapping
    size := (logBlock + 1) * v.blockSize
    sectors := (logBlock + 1) * (v.blockSize / 512) }
  .modify fun s => s.writeInode v num dir
  pure (dir, heldLeaf ++ held)

/-- `addDirEntryWithTx`, and `addDirEntry` outside a transaction. It returns the directory's
inode, which it may have extended. -/
def addDirEntry (inTx : Bool) (num : Nat) (dir : Inode) (ino : Nat) (name : Name)
    (fileType : FileType) : Prog FS Err (Inode × Cleanup) := do
  let extents ← .tryRead fun s => s.parseExtents dir.mapping
  let place ← .read fun s =>
    firstChange (fun b => s.image (.block b)) (tryInsertDirEntry ino name fileType)
      (blocksOf extents)
  match place with
  | some (b, slots) => do
      .modify fun s => s.writeBlock b (.slots slots)
      pure (dir, [])
  | none => growDir v inTx num dir extents (newSlot ino (v.blockSize - 12) name fileType)

def changeDir (dir : Inode) (change : List Slot → Option (List Slot)) : Prog FS Err Unit := do
  let extents ← .tryRead fun s => s.parseExtents dir.mapping
  let place ← .read fun s => firstChange (fun b => s.image (.block b)) change (blocksOf extents)
  match place with
  | some (b, slots) => .modify fun s => s.writeBlock b (.slots slots)
  | none => pure ()

def zeroDirEntry (dir : Inode) (name : Name) : Prog FS Err Unit :=
  changeDir dir (zeroEntryInBlock name)

def updateDotDot (dir : Inode) (parent : Nat) : Prog FS Err Unit := changeDir dir (setDotDot parent)

end Ext4.Volume
