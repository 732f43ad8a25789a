import Ext4.Volume.Lookup

/-! The operations on paths.
Each follows its source function with the copies of inodes that the function holds: a copy read
before another step of the same operation rewrites that inode stays as it was read. -/

namespace Ext4.Volume
open Octets Alloc Store

variable (v : Shape)

def FS.findEntry (s : FS) (dir : Inode) (name : Name) : Except Err (Option (Nat × Inode)) := do
  let entries ← s.readDir dir
  match entries.find? fun e => e.name = name with
  | none => return none
  | some e => do
      let x ← s.readInode v e.ino
      return some (e.ino, x)

/-- A failed transaction is aborted, and the reservations the caller knows of are dropped. -/
def undo (inTx : Bool) (held : Cleanup) (s : FS) : FS := if inTx then s.abort.cleanup held else s

def finish (inTx : Bool) (held : Cleanup) (s : FS) : FS :=
  if inTx then s.commit.cleanup held else s

/-- The octets of `data` that go to its `i`-th block, filled up with zeros. -/
def chunk (data : Bytes) (i : Nat) : Bytes :=
  let piece := (data.drop (i * v.blockSize)).take v.blockSize
  piece ++ List.replicate (v.blockSize - piece.length) 0

def writeChunks (data : Bytes) (blocks : List Nat) (s : FS) : FS :=
  blocks.zipIdx.foldl (fun s (b, i) => s.writeBlock b (.data (chunk v data i))) s

/-! ## WriteFile -/

def blocksFor (data : Bytes) : Nat := max 1 ((data.length + v.blockSize - 1) / v.blockSize)

/-- The inode of the file: the existing one, or a new one that is still all zeros. -/
def fileInode (inTx : Bool) : Option (Nat × Inode) → Prog FS Err (Nat × Inode × Cleanup)
  | some (i, x) => pure (i, x, [])
  | none => do
      let (i, held) ← allocInode v inTx false
      pure (i, .zero, held)

/-- The extents of the new content; the cleanup of the leaf block is shadowed in the source. -/
def fileMapping (blocks : List Nat) : Prog FS Err Mapping := do
  let (mapping, _) ← layExtents v (buildExtents blocks)
  pure mapping

def enterFile (inTx : Bool) (dirNum : Nat) (dir : Inode) (name : Name) (isNew : Bool) (i : Nat)
    (x : Inode) (perm : Nat) (data : Bytes) (blocks : List Nat) : Prog FS Err Cleanup := do
  let mapping ← fileMapping v blocks
  let x := { x with
    kind := .regular
    perm := perm % 512
    links := 1
    size := data.length
    sectors := blocks.length * (v.blockSize / 512) % 2 ^ 32
    mapping := mapping }
  .modify fun s => s.writeInode v i x
  if isNew then do
    let (_, held) ← addDirEntry v inTx dirNum dir i name .regFile
    pure held
  else pure []

/-- `writeFile` once the old blocks are released. -/
def storeFile (inTx : Bool) (dirNum : Nat) (dir : Inode) (name : Name)
    (existing : Option (Nat × Inode)) (perm : Nat) (data : Bytes) : Prog FS Err Unit := do
  let (blocks, held) ← (allocBlocks v inTx (blocksFor v data)).onFailure (undo inTx [])
  .modify (writeChunks v data blocks)
  let (i, x, heldIno) ← (fileInode v inTx existing).onFailure (undo inTx held)
  let heldDir ← (enterFile v inTx dirNum dir name existing.isNone i x perm data blocks).onFailure
    (undo inTx (held ++ heldIno))
  .modify (finish inTx (held ++ heldIno ++ heldDir))

/-- `writeFile`. The blocks of an existing file are released before the new ones are allocated. -/
def writeFile (path : Path) (data : Bytes) (perm : Nat) : Prog FS Err Unit := do
  let (dirNum, _, name) ← .tryRead fun s => s.lookupParent v path
  let dir ← .tryRead fun s => s.readInode v dirNum
  let existing ← .tryRead fun s => s.findEntry v dir name
  if existing.any fun found => found.2.kind ≠ .regular then .fail .notRegular
  else do
    match existing with
    | some (_, x) => freeInodeBlocks v x
    | none => pure ()
    let journal ← .read FS.journal
    .modify fun s => if journal then s.startTx else s
    storeFile v journal dirNum dir name existing perm data

/-! ## MkDir, Symlink, Link -/

def dirBlock (self parent : Nat) : Block :=
  .slots [⟨self, 12, dot, .dir⟩, ⟨parent, v.blockSize - 12 - v.dirTail, dotDot, .dir⟩]

def dirInode (perm block : Nat) : Inode :=
  ⟨.dir, perm % 512, 2, v.blockSize, v.blockSize / 512, .inline [⟨0, block, 1⟩]⟩

/-- `le.PutUint16(raw[inodeOffLinksCount:], links+1)`. -/
def Inode.addLink (x : Inode) : Inode := { x with links := (x.links + 1) % 2 ^ 16 }

def Inode.dropLink (x : Inode) : Inode := { x with links := x.links - 1 }

/-- The part of `makeDir` that runs in the transaction, from the directory block on. -/
def enterDirTx (parentNum : Nat) (parent : Inode) (name : Name) (perm i b : Nat) :
    Prog FS Err Cleanup := do
  .modify fun s => s.writeBlock b (dirBlock v i parentNum)
  .modify fun s => s.writeInode v i (dirInode v perm b)
  let (parent, held) ← addDirEntry v true parentNum parent.addLink i name .dir
  .modify fun s => s.writeInode v parentNum parent
  pure held

def makeDirTx (parentNum : Nat) (parent : Inode) (name : Name) (perm : Nat) :
    Prog FS Err Unit := do
  .modify FS.startTx
  let (i, heldIno) ← (allocInode v true true).onFailure (undo true [])
  let (blocks, held) ← (allocBlocks v true 1).onFailure (undo true heldIno)
  let heldDir ← (enterDirTx v parentNum parent name perm i (blocks.headD 0)).onFailure
    (undo true (held ++ heldIno))
  .modify (finish true (heldDir ++ held ++ heldIno))
  .modify fun s => s.writeSuper false

def makeDirDirect (parentNum : Nat) (parent : Inode) (name : Name) (perm : Nat) :
    Prog FS Err Unit := do
  let i ← allocInodeAlone v true
  let blocks ← allocBlocksAlone v 1
  let b := blocks.headD 0
  .modify fun s => s.writeSuper false
  .modify fun s => s.writeBlock b (dirBlock v i parentNum)
  .modify fun s => s.writeInode v i (dirInode v perm b)
  let (parent, _) ← addDirEntry v false parentNum parent i name .dir
  .modify fun s => s.writeInode v parentNum parent.addLink

def makeDir (path : Path) (perm : Nat) : Prog FS Err Unit := do
  let (parentNum, parent, name) ← .tryRead fun s => s.lookupParent v path
  let entries ← .tryRead fun s => s.readDir parent
  if entries.any fun e => e.name = name then .fail .alreadyExists
  else do
    let journal ← .read FS.journal
    if journal then makeDirTx v parentNum parent name perm
    else makeDirDirect v parentNum parent name perm

def linkInode (target : Path) : Prog FS Err Inode :=
  if target.length ≤ 60 then pure ⟨.symlink, 0o777, 1, target.length, 0, .target target⟩
  else do
    let blocks ← allocBlocksAlone v 1
    let b := blocks.headD 0
    .modify fun s => s.writeBlock b (.target target)
    .modify fun s => s.writeSuper false
    pure ⟨.symlink, 0o777, 1, target.length, v.blockSize / 512, .inline [⟨0, b, 1⟩]⟩

def makeSymlink (target linkPath : Path) : Prog FS Err Unit := do
  let (parentNum, _, name) ← .tryRead fun s => s.lookupParent v linkPath
  if target = [] then .fail .emptyTarget
  else if v.blockSize < target.length then .fail .targetTooLong
  else do
    let parent ← .tryRead fun s => s.readInode v parentNum
    let entries ← .tryRead fun s => s.readDir parent
    if entries.any fun e => e.name = name then .fail .alreadyExists
    else do
      let i ← allocInodeAlone v false
      let x ← linkInode v target
      .modify fun s => s.writeInode v i x
      let _ ← addDirEntry v false parentNum parent i name .symlink
      pure ()

def Inode.fileType (x : Inode) : FileType :=
  match x.kind with
  | .dir => .dir
  | .symlink => .symlink
  | _ => .regFile

def makeLink (oldPath newPath : Path) : Prog FS Err Unit := do
  let (_, srcParent, srcName) ← .tryRead fun s => s.lookupParent v oldPath
  let found ← .tryRead fun s => s.findEntry v srcParent srcName
  match found with
  | none => .fail .notExist
  | some (src, x) =>
    if x.kind = .dir then .fail .isDir
    else do
      let (newNum, _, newName) ← .tryRead fun s => s.lookupParent v newPath
      let newParent ← .tryRead fun s => s.readInode v newNum
      let entries ← .tryRead fun s => s.readDir newParent
      if entries.any fun e => e.name = newName then .fail .alreadyExists
      else do
        let _ ← addDirEntry v false newNum newParent src newName x.fileType
        let x ← .tryRead fun s => s.readInode v src
        .modify fun s => s.writeInode v src x.addLink

/-! ## DeleteFile, DeleteDir, Rename -/

def decrementAndFreeInode (i : Nat) (x : Inode) : Prog FS Err Unit :=
  if 0 < x.dropLink.links then .modify fun s => s.writeInode v i x.dropLink
  else do
    freeInodeBlocks v x.dropLink
    .modify fun s => s.freeInodeSlot v i

/-- Resolve the parent of a path, and the path itself; a path that does not exist is done with. -/
def resolve (path : Path) (next : Nat → Inode → Name → Nat → Inode → Prog FS Err Unit) :
    Prog FS Err Unit := do
  let parent ← .read fun s => s.lookupParent v path
  match parent with
  | .error .notExist => pure ()
  | .error e => .fail e
  | .ok (parentNum, parent, name) => do
      let target ← .read fun s => s.lookupPath v (components path)
      match target with
      | .error .notExist => pure ()
      | .error e => .fail e
      | .ok (i, x) => next parentNum parent name i x

/-- `removeFile`: the entry goes by the parent and the name, the inode by the whole path. -/
def removeFile (path : Path) : Prog FS Err Unit :=
  resolve v path fun _ parent name i x =>
    if x.kind ≠ .regular then .fail .notRegular
    else do
      zeroDirEntry parent name
      decrementAndFreeInode v i x

/-- The end of `removeDir`, when the children are gone. -/
def dropDir (parentNum : Nat) (parent : Inode) (name : Name) (i : Nat) (x : Inode) :
    Prog FS Err Unit := do
  zeroDirEntry parent name
  freeInodeBlocks v x
  .modify fun s => s.freeInodeSlot v i
  .modify fun s => s.writeInode v parentNum parent.dropLink

/-- `removeDir`, with a bound on the depth of the recursion. -/
def removeDir : Nat → Path → Prog FS Err Unit
  | 0, _ => .fail .noFuel
  | fuel + 1, path =>
      resolve v path fun parentNum parent name i x =>
        if x.kind ≠ .dir then .fail .notDir
        else do
          let children ← .tryRead fun s => s.readDir x
          .forEach (fun e =>
            if e.name = dot ∨ e.name = dotDot then pure ()
            else if e.fileType = .dir then removeDir fuel (path ++ '/' :: e.name)
            else removeFile v (path ++ '/' :: e.name)) children
          dropDir v parentNum parent name i x

/-- The step of `rename` that removes what is at the destination. -/
def replace (fuel : Nat) (newPath : Path) (src dst : Inode) : Prog FS Err Unit :=
  if src.kind = .dir ∧ dst.kind ≠ .dir then .fail .typeMismatch
  else if src.kind ≠ .dir ∧ dst.kind = .dir then .fail .typeMismatch
  else if dst.kind = .dir then removeDir v fuel newPath
  else removeFile v newPath

/-- The steps of `rename` after the destination is free. -/
def moveEntry (oldNum : Nat) (oldParent : Inode) (oldName : Name) (newNum : Nat)
    (newParent : Inode) (newName : Name) (src : Nat) (x : Inode) : Prog FS Err Unit := do
  let (newParent, _) ← addDirEntry v false newNum newParent src newName x.fileType
  zeroDirEntry oldParent oldName
  if x.kind = .dir ∧ oldNum ≠ newNum then do
    updateDotDot x newNum
    .modify fun s => s.writeInode v oldNum oldParent.dropLink
    .modify fun s => s.writeInode v newNum newParent.addLink
  else pure ()

def rename (fuel : Nat) (oldPath newPath : Path) : Prog FS Err Unit := do
  let (oldNum, oldParent, oldName) ← .tryRead fun s => s.lookupParent v oldPath
  let (newNum, newParent, newName) ← .tryRead fun s => s.lookupParent v newPath
  if oldNum = newNum ∧ oldName = newName then pure ()
  else do
    let found ← .tryRead fun s => s.findEntry v oldParent oldName
    match found with
    | none => .fail .notExist
    | some (src, x) => do
        let existing ← .tryRead fun s => s.findEntry v newParent newName
        match existing with
        | some (_, dst) => replace v fuel newPath x dst
        | none => pure ()
        moveEntry v oldNum oldParent oldName newNum newParent newName src x

/-! ## Metadata -/

def withInodeForUpdate (path : Path) (edit : Inode → Inode) : Prog FS Err Unit := do
  let (i, _) ← .tryRead fun s => s.lookupPath v (components path)
  let x ← .tryRead fun s => s.readInode v i
  .modify fun s => s.writeInode v i (edit x)

def chmod (path : Path) (bits : Nat) : Prog FS Err Unit :=
  withInodeForUpdate v path fun x => { x with perm := bits % 2 ^ 12 }

/-- `SetLabel`: the superblock is read from the device and written back directly. -/
def setLabel (label : Bytes) : Prog FS Err Unit :=
  if 16 < label.length then .fail .labelTooLong
  else .modify fun s =>
    let old := s.image .super
    let s := s.direct ⟨.super, { old with primary := { old.primary with label := label } }⟩
    { s with sb := { s.sb with label := label } }

end Ext4.Volume
