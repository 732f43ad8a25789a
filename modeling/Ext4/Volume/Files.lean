import Mathlib.Data.List.Sort
import Ext4.Volume.Operations
import Ext4.Volume.RandomAccess

/-! Open files: writing at an offset and truncating.
A file keeps the extents and the size it was opened with, and follows only its own changes. -/

namespace Ext4.Volume
open Octets Alloc Store

structure File where
  ino : Nat
  extents : List Extent
  size : Nat
  deriving DecidableEq, Repr

variable (v : Shape)

def openFile (path : Path) : Prog FS Err File := do
  let (i, x) ← .tryRead fun s => s.lookupPath v (components path)
  if x.kind ≠ .regular then .fail .notRegular
  else do
    let x ← .tryRead fun s => s.readInode v i
    let extents ← .tryRead fun s => s.parseExtents x.mapping
    let blocksCount ← .read fun s => s.sb.blocksCount
    if blocksCount * v.blockSize < x.size then .fail .tooLarge
    else if 0 < x.size ∧ extents = [] then .fail .noExtents
    else pure ⟨i, extents.insertionSort fun e f => e.logBlock ≤ f.logBlock, x.size⟩

def File.locate (f : File) (b : Nat) : Option Nat := Volume.locate f.extents b

def Block.octet (block : Block) (i : Nat) : UInt8 :=
  match block with
  | .data content => content[i]?.getD 0
  | _ => 0

def FS.fetch (s : FS) (phys at_ n : Nat) : Except Err Bytes :=
  if s.sb.blocksCount ≠ 0 ∧ s.sb.blocksCount ≤ phys + (at_ + n - 1) / v.blockSize then
    .error .outOfRange
  else .ok ((List.range' at_ n).map fun i =>
    (s.image (.block (phys + i / v.blockSize))).octet (i % v.blockSize))

def File.readAt (f : File) (s : FS) (off len : Nat) : Bytes × Option (Stop Err) :=
  readMapped (s.fetch v) v.blockSize f.size f.extents off len

/-- One block of the loop of `readFileData`, with its logical and its physical number. -/
def FS.copyBlock (s : FS) (size : Nat) (out : Bytes) (block : Nat × Nat) : Except Err Bytes :=
  if s.sb.blocksCount ≠ 0 ∧ s.sb.blocksCount ≤ block.2 then .error .outOfRange
  else
    let start := block.1 * v.blockSize
    if size ≤ start then .ok out
    else
      let n := min v.blockSize (size - start)
      .ok (out.take start ++ (List.range n).map (s.image (.block block.2)).octet ++ out.drop (start + n))

/-- `ReadFile`; `limit` is `MaxReadSize`. -/
def FS.readFile (s : FS) (limit : Nat) (path : Path) : Except Err Bytes := do
  let (i, x) ← s.lookupPath v (components path)
  if x.kind ≠ .regular then throw .notRegular
  let x ← s.readInode v i
  let extents ← s.parseExtents x.mapping
  if min (s.sb.blocksCount * v.blockSize) limit < x.size then throw .tooLarge
  if 0 < x.size ∧ extents = [] then throw .noExtents
  let blocks := extents.flatMap fun e =>
    (List.range e.count).map fun k => (e.logBlock + k, e.physBlock + k)
  blocks.foldlM (s.copyBlock v x.size) (List.replicate x.size 0)

def splice (at_ : Nat) (octets : Bytes) (block : Block) : Block :=
  let old := match block with
    | .data content => content
    | _ => []
  let old := old ++ List.replicate (v.blockSize - old.length) 0
  .data (old.take at_ ++ octets ++ old.drop (at_ + octets.length))

def FS.writeInBlock (s : FS) (b at_ : Nat) (octets : Bytes) : FS :=
  s.direct ⟨.block b, splice v at_ octets (s.image (.block b))⟩

def zeroSlack (f : File) (oldSize newSize : Nat) (s : FS) : FS :=
  let slack := oldSize % v.blockSize
  if newSize ≤ oldSize ∨ oldSize = 0 ∨ slack = 0 then s
  else match f.locate (oldSize / v.blockSize) with
    | none => s
    | some b =>
        s.writeInBlock v b slack (List.replicate (min (v.blockSize - slack) (newSize - oldSize)) 0)

def staleChild (old new : Mapping) : List Nat :=
  match old with
  | .index child => if new = .index child then [] else [child]
  | _ => []

def commitFile (f : File) (extents : List Extent) (size : Nat) : Prog FS Err File := do
  let x ← .tryRead fun s => s.readInode v f.ino
  let mapping ← writeExtentTree v extents
  let sectors := (extents.map Extent.count).sum * (v.blockSize / 512) % 2 ^ 32
  .modify fun s => s.writeInode v f.ino
    { x with mapping := mapping, size := size, sectors := sectors }
  .modify fun s => (staleChild x.mapping mapping).foldl (FS.freeBlock v) s
  pure { f with extents := extents, size := size }

/-- The loop of `coalesceExtents` over the sorted extents. -/
def coalesceLoop (last : Extent) : List Extent → List Extent
  | [] => [last]
  | e :: rest =>
      if last.logBlock + last.count = e.logBlock ∧ last.physBlock + last.count = e.physBlock ∧
          last.count + e.count ≤ 0x7FFF then
        coalesceLoop { last with count := last.count + e.count } rest
      else last :: coalesceLoop e rest

def coalesceExtents (extents : List Extent) : List Extent :=
  match extents.insertionSort fun e f => e.logBlock ≤ f.logBlock with
  | [] => []
  | e :: rest => coalesceLoop e rest

/-- The logical blocks that hold the octets from `off` to `stop`. -/
def touched (off stop : Nat) : List Nat :=
  let first := off / v.blockSize
  List.range' first ((stop - 1) / v.blockSize + 1 - first)

def singles (missing blocks : List Nat) : List Extent :=
  missing.zipWith (fun b phys => ⟨b % 2 ^ 32, phys, 1⟩) blocks

def mapRange (f : File) (off stop : Nat) : Prog FS Err File :=
  let missing := (touched v off stop).filter fun b => (f.locate b).isNone
  let newSize := max f.size stop
  if missing = [] then
    if newSize = f.size then pure f
    else do
      .modify (zeroSlack v f f.size newSize)
      commitFile v f f.extents newSize
  else do
    let (blocks, _) ← allocBlocks v false (missing.length % 2 ^ 32)
    .modify fun s => blocks.foldl (fun s b =>
      s.writeBlock b (.data (List.replicate v.blockSize 0))) s
    -- `phys[i]` for every missing block, also when the count was cut to 32 bits.
    if blocks.length < missing.length then .fail .panicked
    else do
      .modify (zeroSlack v f f.size newSize)
      commitFile v f (coalesceExtents (f.extents ++ singles missing blocks)) newSize

/-- The part of `octets`, which start at `off`, that falls into logical block `b`. -/
def within (octets : Bytes) (off b : Nat) : Bytes :=
  let start := b * v.blockSize - off
  (octets.drop start).take (b * v.blockSize + v.blockSize - max off (b * v.blockSize))

def writePart (f : File) (octets : Bytes) (off b : Nat) : Prog FS Err Unit :=
  match f.locate b with
  | none => .fail .unmapped
  | some phys => .modify fun s =>
      s.writeInBlock v phys (off - b * v.blockSize) (within v octets off b)

def writeAt (f : File) (octets : Bytes) (off : Nat) : Prog FS Err File :=
  if octets = [] then pure f
  else do
    let f ← mapRange v f off (off + octets.length)
    .forEach (writePart v f octets off) (touched v off (off + octets.length))
    pure f

/-- What `WriteAt` leaves in the file when it fails: the loop over the blocks comes after the file
has got its new extents and size. -/
def File.afterWriteAt (f : File) (octets : Bytes) (off : Nat) (s : FS) : File :=
  match mapRange v f off (off + octets.length) s with
  | (.ok f', _) => f'
  | (.error _, _) => f

/-- The extents that stay when the file is cut to `keep` blocks. -/
def keptExtents (keep : Nat) (extents : List Extent) : List Extent :=
  extents.filterMap fun e =>
    if keep ≤ e.logBlock then none
    else some { e with count := min e.count (keep - e.logBlock) }

def freedBlocks (keep : Nat) (extents : List Extent) : List Nat :=
  extents.flatMap fun e => e.blocks.drop (keep - e.logBlock)

def shrink (f : File) (size : Nat) : Prog FS Err File := do
  let keep := (size + v.blockSize - 1) / v.blockSize
  let slack := size % v.blockSize
  .modify fun s => if slack = 0 then s else
    match f.locate (size / v.blockSize) with
    | none => s
    | some b => s.writeInBlock v b slack (List.replicate (v.blockSize - slack) 0)
  let f' ← commitFile v f (keptExtents keep f.extents) size
  .modify fun s => (freedBlocks keep f.extents).foldl (FS.freeBlock v) s
  pure f'

def truncate (f : File) (size : Nat) : Prog FS Err File :=
  if size = f.size then pure f
  else if size < f.size then shrink v f size
  else do
    .modify (zeroSlack v f f.size size)
    commitFile v f f.extents size

end Ext4.Volume
