import Ext4.Volume.Space

/-! Inodes and the blocks they map.
The extent tree that the code writes is inline in the inode, or one leaf block deep. -/

namespace Ext4.Volume
open Octets Alloc Store

def Extent.blocks (e : Extent) : List Nat := List.range' e.physBlock e.count

def blocksOf (extents : List Extent) : List Nat := extents.flatMap Extent.blocks

/-! ## Reading -/

section
variable (s : FS)

def FS.readInode (v : Shape) (i : Nat) : Except Err Inode :=
  if i = 0 ∨ s.sb.inodesCount < i then .error .badInode else .ok (inodeAt v s.image i)

/-- Two runs of `checkRuns` overlap. -/
def overlaps (start : Extent → Nat) (e f : Extent) : Bool :=
  decide (e.count ≠ 0) && decide (f.count ≠ 0) &&
    decide (start e < start f + f.count) && decide (start f < start e + e.count)

theorem overlaps_iff {start : Extent → Nat} (e f : Extent) : overlaps start e f = false ↔
    (e.count ≠ 0 → f.count ≠ 0 → start e + e.count ≤ start f ∨ start f + f.count ≤ start e) := by
  simp only [overlaps, Bool.and_eq_false_iff, decide_eq_false_iff_not]
  omega

theorem overlaps_disjoint (start : Extent → Nat) (e f : Extent) : overlaps start e f = false ↔
    (List.range' (start e) e.count).Disjoint (List.range' (start f) f.count) := by
  simp only [overlaps_iff, List.Disjoint, List.mem_range'_1]
  refine ⟨fun apart b one two => by omega, fun apart some some' => ?_⟩
  by_contra overlap
  exact @apart (max (start e) (start f)) (by omega) (by omega)

/-- `checkRuns` accepts: no two leaves overlap. -/
def disjointRuns (start : Extent → Nat) : List Extent → Bool
  | [] => true
  | e :: rest => !rest.any (overlaps start e) && disjointRuns start rest

theorem disjointRuns_iff (start : Extent → Nat) (leaves : List Extent) :
    disjointRuns start leaves ↔ leaves.Pairwise fun e f => overlaps start e f = false := by
  induction leaves with
  | nil => simp [disjointRuns]
  | cons e rest ih => simp [disjointRuns, ih]

def validateExtents (extents : List Extent) : Except Err (List Extent) :=
  if disjointRuns Extent.logBlock extents && disjointRuns Extent.physBlock extents then
    .ok extents
  else .error .overlappingExtents

/-- `parseExtentRoot` on an extent tree of the two shapes the code writes. -/
def FS.parseExtents : Mapping → Except Err (List Extent)
  | .inline extents => validateExtents extents
  | .index child =>
      if child = 0 ∨ s.sb.blocksCount ≤ child then .error .badExtentIndex
      else match s.image (.block child) with
        | .leaf extents => validateExtents extents
        | _ => .error .badExtentMagic
  | .none | .target _ => .error .blockMap

/-- `readExtents`: an inode without the extents flag that was never written maps nothing. -/
def FS.readExtents : Mapping → Except Err (List Extent)
  | .none => .ok []
  | mapping => s.parseExtents mapping

end

/-! ## Writing -/

section
variable (v : Shape)

/-- `addInodeToTx`, and `writeInode` outside a transaction. -/
def FS.writeInode (s : FS) (i : Nat) (x : Inode) : FS :=
  let addr := Addr.itable (v.inodeGroup i) (v.inodeTableBlock i)
  s.put ⟨addr, setInode v i x (s.now addr)⟩

/-- `addRangeToTx` of a whole block, and `writeRawBlock` outside a transaction. -/
def FS.writeBlock (s : FS) (b : Nat) (content : Block) : FS := s.put ⟨.block b, content⟩

/-- An allocation in a transaction of its own when a journal is enabled
(`addDirEntryAllocBlocks`, `makeDirAllocBlocks`). -/
def allocBlocksAlone (n : Nat) : Prog FS Err (List Nat) := fun s =>
  if s.journal then
    (do
      let (blocks, held) ← (allocBlocks v true n).onFailure FS.abort
      .modify fun s => s.commit.cleanup held
      pure blocks : Prog FS Err (List Nat)) s.startTx
  else (do
      let (blocks, _) ← allocBlocks v false n
      pure blocks : Prog FS Err (List Nat)) s

/-- `makeDirAllocInode`. -/
def allocInodeAlone (isDir : Bool) : Prog FS Err Nat := fun s =>
  if s.journal then
    (do
      let (i, held) ← (allocInode v true isDir).onFailure FS.abort
      .modify fun s => s.commit.cleanup held
      pure i : Prog FS Err Nat) s.startTx
  else (do
      let (i, _) ← allocInode v false isDir
      pure i : Prog FS Err Nat) s

def Shape.leafCap : Nat := (v.blockSize - 12) / 12

def writeLeaf (inTx : Bool) (extents : List Extent) : Prog FS Err (Nat × Cleanup) := do
  let (blocks, held) ← allocBlocks v inTx 1
  let child := blocks.headD 0
  .modify fun s => s.writeBlock child (.leaf extents)
  pure (child, held)

/-- `prepareExtentChild`: in the caller's transaction, in one of its own, or directly. -/
def prepareExtentChild (extents : List Extent) : Prog FS Err (Nat × Cleanup) := fun s =>
  if v.leafCap < extents.length then (.error .tooManyExtents, s)
  else if s.tx.isSome then writeLeaf v true extents s
  else if s.journal then
    (do
      let (child, held) ← (writeLeaf v true extents).onFailure FS.abort
      .modify fun s => s.commit.cleanup held
      pure (child, []) : Prog FS Err (Nat × Cleanup)) s.startTx
  else (do
      let (child, _) ← writeLeaf v false extents
      pure (child, []) : Prog FS Err (Nat × Cleanup)) s

/-- `writeExtentTree`; its cleanup variable is shadowed, so the reservation of the leaf block
stays. -/
def writeExtentTree (extents : List Extent) : Prog FS Err Mapping := fun s =>
  if extents.length ≤ 4 then (.ok (.inline extents), s)
  else if v.leafCap < extents.length then (.error .tooManyExtents, s)
  else if s.journal then
    (do
      let (child, _) ← (writeLeaf v true extents).onFailure FS.abort
      .modify FS.commit
      pure (.index child) : Prog FS Err Mapping) s.startTx
  else (do
      let (child, _) ← writeLeaf v false extents
      pure (.index child) : Prog FS Err Mapping) s

/-- `buildExtents`: consecutive blocks are merged. -/
def buildExtentsLoop (extents : List Extent) (current : Extent) : List Nat → List Extent
  | [] => extents ++ [current]
  | b :: rest =>
      if b = current.physBlock + current.count ∧ current.count < 0x7FFF then
        buildExtentsLoop extents { current with count := current.count + 1 } rest
      else
        buildExtentsLoop (extents ++ [current]) ⟨current.logBlock + current.count, b, 1⟩ rest

def buildExtents : List Nat → List Extent
  | [] => []
  | b :: rest => buildExtentsLoop [] ⟨0, b, 1⟩ rest

/-- `freeInodeBlocks`: the data blocks, not the leaf block. -/
def freeInodeBlocks (x : Inode) : Prog FS Err Unit := fun s =>
  match x.mapping with
  | .none | .target _ => (.ok (), s)
  | mapping =>
      match s.parseExtents mapping with
      | .error e => (.error e, s)
      | .ok extents => (.ok (), (blocksOf extents).foldl (FS.freeBlock v) s)

end

end Ext4.Volume
