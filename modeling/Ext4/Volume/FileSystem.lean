import Ext4.Volume.Files

/-! Formatting, and the filesystem as a machine whose actions are the calls on it. -/

namespace Ext4.Volume
open Octets Alloc Store

/-! ## Format -/

def fmtBlockSize : Nat := 4096

def fmtBlocksPerGroup : Nat := 32768

def fmtInodesPerGroup : Nat := 256

def fmtInodeTableBlocks : Nat := 16

def fmtReservedInodes : Nat := 10

/-- The loop of `groupIsSparseBackup`: some power of `base` is `g`. -/
def isPowerLoop (base g : Nat) : Nat → Nat → Bool
  | 0, _ => false
  | left + 1, p => if p < g then isPowerLoop base g left (p * base) else p = g

def groupIsSparseBackup (g : Nat) : Bool :=
  if g ≤ 1 then true
  else if g % 2 = 0 then false
  else [3, 5, 7].any fun base => isPowerLoop base g 32 base

section
variable (total : Nat)

/-- `nGroups`. The code adds in 32 bits, so this is its value where the sum fits them, up to
2^32 - 32768 blocks. -/
def fmtGroups : Nat := (total + fmtBlocksPerGroup - 1) / fmtBlocksPerGroup

def fmtDescBlocks : Nat := (fmtGroups total * 32 + fmtBlockSize - 1) / fmtBlockSize

def fmtSuperBlocks (g : Nat) : Nat := if groupIsSparseBackup g then 1 + fmtDescBlocks total else 0

/-- `groupMetaBlocks`: group 0 counts the block of the root directory. -/
def fmtMetaBlocks (g : Nat) : Nat :=
  fmtSuperBlocks total g + 2 + fmtInodeTableBlocks + if g = 0 then 1 else 0

def fmtRootBlock : Nat := 1 + fmtDescBlocks total + 2 + fmtInodeTableBlocks

/-- `groupBlocks`: the last group may be shorter. -/
def fmtGroupBlocks (g : Nat) : Nat := min fmtBlocksPerGroup (total - g * fmtBlocksPerGroup)

def fmtShape : Shape where
  blocksPerGroup := fmtBlocksPerGroup
  inodesPerGroup := fmtInodesPerGroup
  firstDataBlock := 0
  blockSize := fmtBlockSize
  inodesPerBlock := 16
  descsPerBlock := 128
  descBits := 16
  metadata b := b % fmtBlocksPerGroup < fmtMetaBlocks total (b / fmtBlocksPerGroup) &&
    b ≠ fmtRootBlock total
  blocksPerGroup_pos := by decide
  inodesPerGroup_pos := by decide
  inodesPerBlock_pos := by decide

def fmtDesc (g : Nat) : Desc where
  freeBlocks := fmtGroupBlocks total g - fmtMetaBlocks total g
  freeInodes := if g = 0 then fmtInodesPerGroup - fmtReservedInodes else fmtInodesPerGroup
  usedDirs := if g = 0 then 1 else 0

def fmtCounters (label : Bytes) : Counters where
  blocksCount := total
  inodesCount := fmtInodesPerGroup * fmtGroups total
  freeBlocks := ((List.range (fmtGroups total)).map fun g => (fmtDesc total g).freeBlocks).sum
  freeInodes := fmtInodesPerGroup * fmtGroups total - fmtReservedInodes
  label := label.take 16

def fmtRootInode : Inode :=
  ⟨.dir, 0o755, 2, fmtBlockSize, fmtBlockSize / 512, .inline [⟨0, fmtRootBlock total, 1⟩]⟩

/-- The image that `Format` writes. -/
def fmtImage (label : Bytes) : Image
  | .super => ⟨fmtCounters total label, none⟩
  | .descs k => fun j => fmtDesc total (k * 128 + j)
  | .bitmap ⟨g, true⟩ => fun i => i < fmtMetaBlocks total g || fmtGroupBlocks total g ≤ i
  | .bitmap ⟨g, false⟩ => fun i => (g = 0 && i < fmtReservedInodes) || fmtInodesPerGroup ≤ i
  | .itable g k => fun j => if g = 0 ∧ k = 0 ∧ j = 1 then fmtRootInode total else .zero
  | .block b => if b = fmtRootBlock total then dirBlock (fmtShape total) rootIno rootIno
      else .data []

/-- `Format` has opened the volume; a size of fewer blocks than this is refused. -/
def fmtMinBlocks : Nat := fmtInodeTableBlocks + 5

def formatted (label : Bytes) (journal : Bool) : FS where
  device := ⟨fmtImage total label, [], fmtImage total label, rfl⟩
  journal := journal
  tx := none
  reserved _ := []
  cursor := 0
  sb := fmtCounters total label

end

/-! ## The machine -/

structure World where
  fs : FS
  files : List File

inductive Action where
  | writeFile (path : Path) (data : Bytes) (perm : Nat)
  | mkDir (path : Path) (perm : Nat)
  | symlink (target linkPath : Path)
  | link (oldPath newPath : Path)
  | deleteFile (path : Path)
  | deleteDir (fuel : Nat) (path : Path)
  | rename (fuel : Nat) (oldPath newPath : Path)
  | openFile (path : Path)
  | writeAt (file : Nat) (data : Bytes) (off : Nat)
  | truncate (file size : Nat)
  | chmod (path : Path) (bits : Nat)
  | setLabel (label : Bytes)

variable (v : Shape)

def World.call (w : World) (prog : Prog FS Err Unit) : Except Err Unit × World :=
  let (outcome, fs) := prog w.fs
  (outcome, { w with fs := fs })

/-- A call on an open file, with what is `left` of the file when the call fails. -/
def World.onFile (w : World) (file : Nat) (prog : File → Prog FS Err File)
    (left : File → FS → File) : Except Err Unit × World :=
  match w.files[file]? with
  | none => (.error .notExist, w)
  | some f =>
      match prog f w.fs with
      | (.ok f', fs) => (.ok (), ⟨fs, w.files.set file f'⟩)
      | (.error e, fs) => (.error e, ⟨fs, w.files.set file (left f w.fs)⟩)

def perform (w : World) : Action → Except Err Unit × World
  | .writeFile path data perm => w.call (writeFile v path data perm)
  | .mkDir path perm => w.call (makeDir v path perm)
  | .symlink target linkPath => w.call (makeSymlink v target linkPath)
  | .link oldPath newPath => w.call (makeLink v oldPath newPath)
  | .deleteFile path => w.call (removeFile v path)
  | .deleteDir fuel path => w.call (removeDir v fuel path)
  | .rename fuel oldPath newPath => w.call (rename v fuel oldPath newPath)
  | .openFile path =>
      match openFile v path w.fs with
      | (.ok f, fs) => (.ok (), ⟨fs, w.files ++ [f]⟩)
      | (.error e, fs) => (.error e, { w with fs := fs })
  | .writeAt file data off =>
      w.onFile file (fun f => writeAt v f data off) fun f => f.afterWriteAt v data off
  | .truncate file size => w.onFile file (fun f => truncate v f size) fun f _ => f
  | .chmod path bits => w.call (chmod v path bits)
  | .setLabel label => w.call (setLabel label)

def step (action : Action) (w : World) : Option World :=
  match perform v w action with
  | (.error .noFuel, _) => none
  | (_, w') => some w'

end Ext4.Volume
