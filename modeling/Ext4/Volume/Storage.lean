import Ext4.Library.Program
import Ext4.Volume.Image

/-! The device, the sidecar journal and the transaction of an open filesystem.
A write goes straight to the device, or into the open transaction, or into a transaction of its
own; `now` is what the image will be once the open transaction commits. -/

namespace Ext4.Volume
open Octets Alloc Store

inductive Err where
  /-- `io/fs.ErrNotExist`. -/
  | notExist
  | notDir
  | badInode
  | symlinkLoop
  | invalidPath
  | trailingSlash
  | noFreeBlocks
  | noFreeInodes
  /-- The extents flag of the inode is clear. -/
  | blockMap
  | tooManyExtents
  | overlappingExtents
  | badExtentIndex
  | badExtentMagic
  | alreadyExists
  | notRegular
  | isDir
  | typeMismatch
  | emptyTarget
  | targetTooLong
  | labelTooLong
  | unmapped
  | tooLarge
  | noExtents
  /-- A data block past the end of the filesystem. -/
  | outOfRange
  /-- An index out of range, where the code panics. -/
  | panicked
  /-- The model gave up following a recursion; the code would still be running. -/
  | noFuel
  deriving DecidableEq, Repr

abbrev Record := List (Write Content)

inductive Effect where
  /-- A record is appended to the sidecar, then its blocks are written. -/
  | commit (record : Record)
  | direct (write : Write Content)

def Effect.writes : Effect → Record
  | .commit record => record
  | .direct write => [write]

def play (log : List Effect) (image : Image) : Image := writeAll (log.flatMap Effect.writes) image

structure Device where
  base : Image
  log : List Effect
  image : Image
  played : image = play log base

def Device.apply (d : Device) (effect : Effect) : Device where
  base := d.base
  log := d.log ++ [effect]
  image := writeAll effect.writes d.image
  played := by
    rw [d.played, play, play, List.flatMap_append, writeAll_append, List.flatMap_singleton]

structure Staged where
  writes : Record
  once : (writes.map Sigma.fst).Nodup

def Staged.empty : Staged := ⟨[], List.nodup_nil⟩

def Staged.add (staged : Staged) (write : Write Content) : Staged :=
  ⟨put write staged.writes, nodup_put write staged.once⟩

structure FS where
  device : Device
  /-- A sidecar journal is enabled. -/
  journal : Bool
  tx : Option Staged
  /-- `reservedBits`. -/
  reserved : Key → List Nat
  /-- `allocGroupCursor`. -/
  cursor : Nat
  /-- The superblock in memory. -/
  sb : Counters

def FS.image (s : FS) : Image := s.device.image

def FS.now (s : FS) : Image :=
  match s.tx with
  | some staged => writeAll staged.writes s.image
  | none => s.image

/-- `writeAtWithTrace`, or one write of the commit dispatcher. -/
def FS.direct (s : FS) (write : Write Content) : FS :=
  { s with device := s.device.apply (.direct write) }

def FS.commitRecord (s : FS) (record : Record) : FS :=
  { s with device := s.device.apply (.commit record) }

/-- `addRangeToTx` in a transaction, `applyOrJournalWrite` otherwise. -/
def FS.put (s : FS) (write : Write Content) : FS :=
  match s.tx with
  | some staged => { s with tx := some (staged.add write) }
  | none => if s.journal then s.commitRecord [write] else s.direct write

def FS.startTx (s : FS) : FS := { s with tx := some .empty }

def FS.commit (s : FS) : FS :=
  match s.tx with
  | some staged => { s.commitRecord staged.writes with tx := none }
  | none => s

def FS.abort (s : FS) : FS := { s with tx := none }

/-! ## What the calls leave behind -/

section
variable (s : FS) (write : Write Content)

@[simp] theorem FS.direct_image : (s.direct write).image = Function.update s.image write.1 write.2 :=
  rfl

theorem FS.now_of_none (closed : s.tx = none) : s.now = s.image := by
  rw [now, closed]

theorem FS.direct_now (closed : s.tx = none) :
    (s.direct write).now = Function.update s.now write.1 write.2 := by
  rw [now_of_none s closed, now_of_none (s.direct write) closed, direct_image]

theorem FS.put_of_none (closed : s.tx = none) :
    s.put write = if s.journal then s.commitRecord [write] else s.direct write := by
  rw [put, closed]

theorem FS.put_now : (s.put write).now = Function.update s.now write.1 write.2 := by
  cases opened : s.tx with
  | some staged =>
    rw [now, put, now, opened]
    exact writeAll_put write staged.once s.image
  | none =>
    rw [put_of_none s write opened]
    split
    · rw [now_of_none s opened, now_of_none (s.commitRecord [write]) opened]
      rfl
    · exact direct_now s write opened

@[simp] theorem FS.put_journal : (s.put write).journal = s.journal := by
  unfold put
  cases s.tx with
  | some staged => rfl
  | none => dsimp only; split <;> rfl

@[simp] theorem FS.put_tx_isSome : (s.put write).tx.isSome = s.tx.isSome := by
  unfold put
  cases open_ : s.tx with
  | some staged => rfl
  | none => dsimp only; split <;> simp [commitRecord, direct, open_]

@[simp] theorem FS.put_reserved : (s.put write).reserved = s.reserved := by
  unfold put
  cases s.tx with
  | some staged => rfl
  | none => dsimp only; split <;> rfl

@[simp] theorem FS.put_sb : (s.put write).sb = s.sb := by
  unfold put
  cases s.tx with
  | some staged => rfl
  | none => dsimp only; split <;> rfl

theorem FS.put_device (inTx : s.tx.isSome) : (s.put write).device = s.device := by
  unfold put
  cases open_ : s.tx with
  | some staged => rfl
  | none => simp [open_] at inTx

theorem FS.commit_now : s.commit.now = s.now := by
  unfold commit
  cases open_ : s.tx with
  | some staged => rw [now, now, open_]; rfl
  | none => rfl

end

end Ext4.Volume
