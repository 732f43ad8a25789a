import Ext4.Library.Overlay
import Ext4.Volume.RandomAccess

/-! The content of an inode, octet by octet.
An inode keeps its content inline (in `i_block` and the `system.data` attribute), in an extent tree
or in a classic block map. `readFileData` copies all of it into one buffer; `newFile` builds the
sorted list of leaves that `ReadAt` searches. -/

namespace Ext4.InodeData
open Octets Overlay Volume

/-! ## Devices and volumes -/

structure Device where
  octets : Disk
  length : Nat

def Device.readAt (dev : Device) (off n : Nat) : Option Bytes :=
  if n = 0 ∨ off + n ≤ dev.length then some (dev.octets.readAt off n) else none

structure Geometry where
  fsOffset : Nat
  blockSize : Nat
  blocksCount : Nat
  /-- `maxReadLimit`. -/
  readLimit : Nat
  deviceBytes : Nat
  positive : 0 < blockSize

inductive Err where
  | inlineData
  | tooLarge
  | missingValue
  | shortValue
  | valueInode
  | valueRange
  | nodeTooSmall
  | badMagic
  | depth
  | indexRange
  | cycle
  | overlapping
  | reusedBlock
  | logicalRange
  | noExtents
  | outOfRange
  | device
  | notRegular
  deriving DecidableEq, Repr

/-- `inode`: its octets, and the fields decoded when it was read. -/
structure Inode where
  num : Nat
  raw : Bytes
  size : Nat
  mode : Nat
  deriving DecidableEq

namespace Inode

/-- The decoding at the end of `readInode`. -/
def decode (num : Nat) (raw : Bytes) : Inode where
  num
  raw
  size := field raw 108 4 * 2 ^ 32 + field raw 4 4
  mode := field raw 0 2

def flags (x : Inode) : Nat := field x.raw 32 4
def iblock (x : Inode) : Bytes := (x.raw.drop 40).take 60
def isRegular (x : Inode) : Bool := x.mode &&& 0xF000 = 0x8000
def isInline (x : Inode) : Bool := x.flags &&& 0x10000000 ≠ 0
def isMapped (x : Inode) : Bool := x.flags &&& 0x00080000 ≠ 0

end Inode

def maxInt64 : Nat := 2 ^ 63 - 1

/-- The functions of the imported `safeio`, and what is relied on: a visit set refuses exactly the
numbers it has seen, and a buffer has the length asked for, within the bound and below `maxInt64`. -/
class Safeio where
  VisitSet : Type
  fresh : VisitSet
  check : VisitSet → Nat → Option VisitSet
  Seen : VisitSet → Nat → Prop
  makeBytes : Nat → Nat → Option Bytes
  seen_fresh : ∀ b, ¬ Seen fresh b
  check_seen : ∀ {visited b}, Seen visited b → check visited b = none
  check_unseen : ∀ {visited b}, ¬ Seen visited b →
    ∃ more, check visited b = some more ∧ ∀ c, Seen more c ↔ c = b ∨ Seen visited c
  makeBytes_some : ∀ {size max out}, makeBytes size max = some out →
    out = List.replicate size 0 ∧ size ≤ max ∧ size < maxInt64
  makeBytes_fits : ∀ {size max}, size ≤ max → size < maxInt64 →
    makeBytes size max = some (List.replicate size 0)

open Safeio (VisitSet)

section
variable (v : Geometry) (dev : Device) [Safeio]

/-- `declaredBytes`; nothing when the superblock does not say. -/
def declaredBytes : Option Nat :=
  if v.blocksCount = 0 then none
  else if maxInt64 / v.blockSize < v.blocksCount then some maxInt64
  else some (v.blocksCount * v.blockSize)

def fileSizeCeiling (fallback : Nat) : Nat :=
  let max := (declaredBytes v).getD fallback
  if v.readLimit < max ∨ max = 0 then v.readLimit else max

def blockBudget : Nat :=
  let declared := if v.blocksCount = 0 then none else some v.blocksCount
  let device := if v.deviceBytes = 0 then none else some (v.deviceBytes / v.blockSize)
  match declared, device with
  | some declared, some device => min declared device
  | some declared, none => declared
  | none, some device => device
  | none, none => v.readLimit / v.blockSize

def readRawBlock (b : Nat) : Except Err Bytes :=
  match dev.readAt (v.fsOffset + b * v.blockSize) v.blockSize with
  | some data => .ok data
  | none => .error .device

/-- `safeio.MakeBytes(clampInt64(size), max)`. -/
def makeBytes (size max : Nat) : Except Err Bytes :=
  match Safeio.makeBytes (min size maxInt64) max with
  | none => .error .tooLarge
  | some out => .ok out

/-! ## Extent trees -/

def visit (visited : VisitSet) (b : Nat) (err : Err) : Except Err VisitSet :=
  match Safeio.check visited b with
  | none => .error err
  | some visited => .ok visited

def nodeEntries (buf : Bytes) : List Nat :=
  ((List.range (field buf 2 2)).map fun i => 12 + i * 12).takeWhile fun off => off + 12 ≤ buf.length

def leafEntry (buf : Bytes) (off : Nat) : Extent :=
  let count := field buf (off + 4) 2
  { logBlock := field buf off 4
    physBlock := field buf (off + 6) 2 * 2 ^ 32 + field buf (off + 8) 4
    count := if 32768 < count then count % 2 ^ 15 else count }

def childBlock (buf : Bytes) (off : Nat) : Nat :=
  field buf (off + 8) 2 * 2 ^ 32 + field buf (off + 4) 4

/-- The index entries of a node, each child read with `node`. -/
def indexEntries (node : Bytes → VisitSet → Except Err (List Extent × VisitSet)) (buf : Bytes) :
    List Nat → VisitSet → Except Err (List Extent × VisitSet)
  | [], visited => .ok ([], visited)
  | off :: rest, visited => do
      let child := childBlock buf off
      if child = 0 ∨ v.blocksCount ≠ 0 ∧ v.blocksCount ≤ child then .error .indexRange
      else
        let visited ← visit visited child .cycle
        let childBuf ← readRawBlock v dev child
        let (leaves, visited) ← node childBuf visited
        let (more, visited) ← indexEntries node buf rest visited
        .ok (leaves ++ more, visited)

/-- `parseExtentNode`, for the depth the parent expects. -/
def parseExtentNode : Nat → Bytes → VisitSet → Except Err (List Extent × VisitSet)
  | expectDepth, buf, visited =>
      if buf.length < 12 then .error .nodeTooSmall
      else if field buf 0 2 ≠ 0xF30A then .error .badMagic
      else if field buf 6 2 ≠ expectDepth then .error .depth
      else
        match expectDepth with
        | 0 => .ok ((nodeEntries buf).map (leafEntry buf), visited)
        | depth + 1 => indexEntries v dev (parseExtentNode depth) buf (nodeEntries buf) visited

def maxExtentDepth : Nat := 5

/-- `validateExtents`: no two leaves overlap, neither logically nor physically. -/
def validated (leaves : List Extent) : Except Err (List Extent) :=
  if disjointRuns Extent.logBlock leaves && disjointRuns Extent.physBlock leaves then .ok leaves
  else .error .overlapping

def parseExtentRoot (buf : Bytes) : Except Err (List Extent) :=
  if buf.length < 12 then .error .nodeTooSmall
  else if maxExtentDepth < field buf 6 2 then .error .depth
  else do
    let (leaves, _) ← parseExtentNode v dev (field buf 6 2) buf Safeio.fresh
    validated leaves

/-! ## Block maps -/

/-- What the walk of a block map carries: the blocks charged so far, the indirect blocks seen and
the leaves, the last one first. -/
structure MapState where
  used : Nat
  visited : VisitSet
  leaves : List Extent

def charge (st : MapState) : Except Err MapState :=
  if blockBudget v < st.used + 1 then .error .tooLarge else .ok { st with used := st.used + 1 }

def addLeaf (lbn phys : Nat) : List Extent → List Extent
  | last :: rest =>
      if last.count < 0xFFFF ∧ last.physBlock + last.count = phys ∧ last.logBlock + last.count = lbn then
        { last with count := last.count + 1 } :: rest
      else ⟨lbn, phys, 1⟩ :: last :: rest
  | [] => [⟨lbn, phys, 1⟩]

def emit (lbn phys : Nat) (st : MapState) : Except Err MapState := do
  let st ← charge v st
  if 2 ^ 32 ≤ lbn then .error .logicalRange
  else .ok { st with leaves := addLeaf lbn phys st.leaves }

/-- The pointers of an indirect block or of `i_block`, from logical block `base` on, each covering
`span` blocks; null pointers are holes. -/
def pointers (node : Nat → Nat → MapState → Except Err MapState) (buf : Bytes) (nblocks base span : Nat) :
    List Nat → MapState → Except Err MapState
  | [], st => .ok st
  | i :: rest, st =>
      let lbn := base + i * span
      if nblocks ≤ lbn then .ok st
      else if field buf (i * 4) 4 = 0 then pointers node buf nblocks base span rest st
      else do
        let st ← node lbn (field buf (i * 4) 4) st
        pointers node buf nblocks base span rest st

/-- The data below a pointer of the given level: a data block, or an indirect block of the level
below. -/
def walk (nblocks : Nat) : Nat → Nat → Nat → MapState → Except Err MapState
  | 0, lbn, phys, st => emit v lbn phys st
  | level + 1, base, blk, st => do
      let st ← charge v st
      let visited ← visit st.visited blk .reusedBlock
      let buf ← readRawBlock v dev blk
      pointers (walk nblocks level) buf nblocks base ((v.blockSize / 4) ^ level)
        (List.range (v.blockSize / 4)) { st with visited }

/-- The single, double and triple indirect pointers of `i_block`. -/
def indirect (iblock : Bytes) (nblocks : Nat) : List Nat → Nat → MapState → Except Err MapState
  | [], _, st => .ok st
  | level :: rest, base, st =>
      if nblocks ≤ base then .ok st
      else do
        let phys := field iblock ((11 + level) * 4) 4
        let st ← if phys = 0 then .ok st else walk v dev nblocks level base phys st
        indirect iblock nblocks rest (base + (v.blockSize / 4) ^ level) st

/-- The leaves of the first `nblocks` logical blocks. -/
def mapLeaves (iblock : Bytes) (nblocks : Nat) : Except Err (List Extent) := do
  let st ← pointers (walk v dev nblocks 0) iblock nblocks 0 1 (List.range 12)
    ⟨0, Safeio.fresh, []⟩
  let st ← indirect v dev iblock nblocks [1, 2, 3] 12 st
  .ok st.leaves.reverse

def blockMapExtents (x : Inode) : Except Err (List Extent) :=
  if x.size = 0 then .ok [] else mapLeaves v dev x.iblock ((x.size + v.blockSize - 1) / v.blockSize)

/-! ## Inline data -/

/-- `findSystemDataXattr`: a malformed table is an absent attribute. An entry takes 16 octets at
least, so a table of that many octets has no more entries. -/
def findSystemData (buf : Bytes) (valueBase : Nat) : Nat → Nat → Except Err (Option Bytes)
  | 0, _ => .ok none
  | rounds + 1, off =>
      if buf.length < off + 4 then .ok none
      else
        let nameLen := field buf off 1
        let nameIndex := field buf (off + 1) 1
        if nameLen = 0 ∧ nameIndex = 0 then .ok none
        else if buf.length < off + 16 then .ok none
        else if buf.length < off + 16 + nameLen then .ok none
        else if nameIndex = 7 ∧ (buf.drop (off + 16)).take nameLen = [100, 97, 116, 97] then
          let start := valueBase + field buf (off + 2) 2
          let valueSize := field buf (off + 8) 4
          if field buf (off + 4) 4 ≠ 0 then .error .valueInode
          else if buf.length < start + valueSize then .error .valueRange
          else .ok (some ((buf.drop start).take valueSize))
        else findSystemData buf valueBase rounds (off + 16 + (nameLen + 3) / 4 * 4)

def Inode.extraIsize (x : Inode) : Nat :=
  if x.raw.length ≤ 129 then 0
  else if x.raw.length < 128 + field x.raw 128 2 then x.raw.length - 128
  else field x.raw 128 2

/-- `systemDataValue`: the attributes in the inode, then those of the attribute block. -/
def systemDataValue (x : Inode) : Except Err (Option Bytes) := do
  let hdr := 128 + x.extraIsize
  let inside ←
    if hdr + 4 ≤ x.raw.length ∧ field x.raw hdr 4 = 0xEA020000 then
      findSystemData x.raw (hdr + 4) x.raw.length (hdr + 4)
    else .ok none
  match inside with
  | some value => .ok (some value)
  | none =>
      let aclBlock := field x.raw 104 4
      if x.raw.length < 108 ∨ aclBlock = 0 then .ok none
      else do
        let buf ← readRawBlock v dev aclBlock
        if field buf 0 4 = 0xEA020000 then findSystemData buf 0 buf.length 32 else .ok none

def inlineData (x : Inode) : Except Err Bytes :=
  if x.size ≤ 60 then .ok (x.iblock.take x.size)
  else do
    match ← systemDataValue v dev x with
    | none => .error .missingValue
    | some value =>
        if value.length < x.size - 60 then .error .shortValue
        else .ok (x.iblock ++ value.take (x.size - 60))

/-! ## Whole files -/

def mappedEnd (leaves : List Extent) : Nat :=
  leaves.foldl (fun top e => max top ((e.logBlock + e.count) * v.blockSize)) 0

def leafBlocks (leaves : List Extent) : List (Nat × Nat) :=
  leaves.flatMap fun e => (List.range e.count).map fun k => (e.logBlock + k, e.physBlock + k)

/-- The copy loop of `readFileData` for an extent tree, block by block. -/
def copyBlocks (size : Nat) : List (Nat × Nat) → Bytes → Except Err Bytes
  | [], out => .ok out
  | (log, phys) :: rest, out =>
      if v.blocksCount ≠ 0 ∧ v.blocksCount ≤ phys then .error .outOfRange
      else if size ≤ log * v.blockSize then copyBlocks size rest out
      else
        match dev.readAt (v.fsOffset + phys * v.blockSize) (min v.blockSize (size - log * v.blockSize)) with
        | none => .error .device
        | some data => copyBlocks size rest (writeAt out (log * v.blockSize) data)

/-- `copyLeaves`, for a block map: leaf by leaf, with no check of the physical range. -/
def copyLeaves (size : Nat) : List Extent → Bytes → Except Err Bytes
  | [], out => .ok out
  | e :: rest, out =>
      if size ≤ e.logBlock * v.blockSize then copyLeaves size rest out
      else
        match dev.readAt (v.fsOffset + e.physBlock * v.blockSize)
            (min (e.count * v.blockSize) (size - e.logBlock * v.blockSize)) with
        | none => .error .device
        | some data => copyLeaves size rest (writeAt out (e.logBlock * v.blockSize) data)

def blockMapData (x : Inode) : Except Err Bytes := do
  let out ← makeBytes x.size (fileSizeCeiling v 0)
  if out.isEmpty then .ok out
  else do
    let leaves ← blockMapExtents v dev x
    copyLeaves v dev out.length leaves out

def extentData (x : Inode) : Except Err Bytes := do
  let leaves ← parseExtentRoot v dev x.iblock
  let out ← makeBytes x.size (fileSizeCeiling v (mappedEnd v leaves))
  if 0 < x.size ∧ leaves = [] then .error .noExtents
  else copyBlocks v dev x.size (leafBlocks leaves) out

def readFileData (x : Inode) : Except Err Bytes :=
  if x.isInline then inlineData v dev x
  else if x.isMapped then extentData v dev x
  else blockMapData v dev x

/-- `ReadFile`, for any way `lookup` of resolving a path. -/
def readFile {Path : Type} (lookup : Path → Except Err Inode) (path : Path) : Except Err Bytes := do
  let x ← lookup path
  if x.isRegular then readFileData v dev x else .error .notRegular

/-! ## Open files -/

/-- `ext4File`; an inline file has its content and no leaves. -/
structure File where
  inline : Option Bytes
  extents : List Extent
  size : Nat

/-- `readExtents`: the leaves of either layout. -/
def readExtents (x : Inode) : Except Err (List Extent) :=
  if x.isInline then .error .inlineData
  else if x.isMapped then parseExtentRoot v dev x.iblock
  else blockMapExtents v dev x

/-- `newFile`. `sort` is whatever `sort.Slice` does with leaves that start at one block. -/
def newFile (sort : List Extent → List Extent) (x : Inode) : Except Err File :=
  if x.isInline then do
    let data ← inlineData v dev x
    .ok ⟨some data, [], data.length⟩
  else do
    let leaves ← readExtents v dev x
    if (declaredBytes v).getD (mappedEnd v leaves) < x.size then .error .tooLarge
    else if 0 < x.size ∧ leaves = [] ∧ x.isMapped then .error .noExtents
    else .ok ⟨none, sort leaves, x.size⟩

def openFile {Path : Type} (sort : List Extent → List Extent) (lookup : Path → Except Err Inode)
    (path : Path) : Except Err File := do
  let x ← lookup path
  if x.isRegular then newFile v dev sort x else .error .notRegular

def fetch (phys within chunk : Nat) : Except Err Bytes :=
  if v.blocksCount ≠ 0 ∧ v.blocksCount ≤ phys + (within + chunk - 1) / v.blockSize then .error .outOfRange
  else match dev.readAt (v.fsOffset + phys * v.blockSize + within) chunk with
    | none => .error .device
    | some data => .ok data

def File.readAt (f : File) (off len : Nat) : Bytes × Option (Stop Err) :=
  match f.inline with
  | some data =>
      if f.size ≤ off then ([], some .eof)
      else
        let copied := (data.drop off).take len
        (copied, if copied.length < len then some .eof else none)
  | none => readMapped (fetch v dev) v.blockSize f.size f.extents off len

end

/-- A visit set as the list of the numbers it has seen. -/
instance listed : Safeio where
  VisitSet := List Nat
  fresh := []
  check visited b := if b ∈ visited then none else some (b :: visited)
  Seen visited b := b ∈ visited
  makeBytes size max := if size ≤ max ∧ size < maxInt64 then some (List.replicate size 0) else none
  seen_fresh _ := List.not_mem_nil
  check_seen seen := if_pos seen
  check_unseen unseen := ⟨_, if_neg unseen, fun _ => List.mem_cons⟩
  makeBytes_some made := by
    obtain ⟨fits, made⟩ := Option.ite_none_right_eq_some.mp made
    exact ⟨(Option.some.inj made).symm, fits⟩
  makeBytes_fits fits small := if_pos ⟨fits, small⟩

end Ext4.InodeData
