import Ext4.Volume.SuperArea
import Ext4.Sidecar.Landing

/-! The superblock that opening keeps in memory.
`openFromDevice` decodes the superblock, then lets the sidecar journal replay into the image, and
keeps what it decoded before. Every later superblock write starts from those octets. -/

namespace Ext4.SuperArea
open Octets Sidecar List
open Overlay hiding Tx

inductive OpenError where
  | superblock (error : LoadError)
  | replay (error : ReplayError)
  deriving DecidableEq, Repr

structure Opened where
  vol : Geometry
  sb : Super
  journal : Journal
  image : Disk

def areaOf (fsOffset : Nat) (addressable : fsOffset < 2 ^ 63) (vol : Geometry) (sb : Super) : Area :=
  ⟨fsOffset, vol.blockSize, sb.blocksCount, addressable⟩

/-- `openFromDevice` for a partition that has been found at `fsOffset`. -/
def openFromDevice (disk : Disk) (fsOffset : Nat) (addressable : fsOffset < 2 ^ 63) (file : Bytes) :
    Except OpenError Opened :=
  match readSuperblock disk fsOffset with
  | .error e => .error (.superblock e)
  | .ok (vol, sb) =>
      -- A sidecar that cannot be scanned leaves the journal disabled; a failed replay is fatal.
      let landed := (areaOf fsOffset addressable vol sb).replayOnOpen file (openJournal file)
      match landed.error with
      | some e => .error (.replay e)
      | none =>
          .ok ⟨vol, sb, (Sidecar.openFromDevice sb.blocksCount file).journal, disk.writeAll landed.writes⟩

/-- What the driver works with: the geometry, and the counters of blocks, free blocks and free
inodes. -/
def counters (loaded : Geometry × Super) : Geometry × Nat × Nat × Nat :=
  (loaded.1, loaded.2.blocksCount, loaded.2.freeBlocks, loaded.2.freeInodes)

/-- The superblock in memory is the one of the image, and to write it back changes no counter. -/
structure Opened.Current (opened : Opened) (fsOffset : Nat) : Prop where
  same : readSuperblock opened.image fsOffset = .ok (opened.vol, opened.sb)
  kept : (readSuperblock (opened.image.writeAt (fsOffset + 1024) (opened.sb.encoded opened.vol))
    fsOffset).map counters = (readSuperblock opened.image fsOffset).map counters

/-! ## Writing a superblock back -/

theorem decode_bounds (raw : Bytes) : (decode raw).blocksCount < 2 ^ 64 ∧
    (decode raw).freeBlocks < 2 ^ 64 ∧ (decode raw).freeInodes < 2 ^ 32 := by
  have blocksLow := field_lt raw 4 4
  have blocksHigh := field_lt raw 0x150 4
  have freeLow := field_lt raw 12 4
  have freeHigh := field_lt raw 0x158 4
  have inodes := field_lt raw 16 4
  simp only [decode]
  omega

theorem counters_encoded {raw : Bytes} (length : raw.length = superblockSize) :
    counters (geometryOf ((decode raw).encoded (geometryOf raw)),
      decode ((decode raw).encoded (geometryOf raw))) = counters (geometryOf raw, decode raw) := by
  obtain ⟨blocks, free, inodes⟩ := decode_bounds raw
  rw [counters, counters, geometryOf_encoded length, decode_encoded length, Nat.mod_eq_of_lt blocks,
    Nat.mod_eq_of_lt free, Nat.mod_eq_of_lt inodes]
  rfl

theorem readSuperblock_ok {disk : Disk} {fsOffset : Nat} {loaded : Geometry × Super} :
    readSuperblock disk fsOffset = .ok loaded ↔ ∃ raw,
      disk.readAt (fsOffset + 1024) superblockSize = raw ∧ check raw = .ok () ∧
        loaded = (geometryOf raw, decode raw) := by
  rw [readSuperblock]
  generalize disk.readAt (fsOffset + 1024) superblockSize = raw
  cases checked : check raw with
  | error e => simp [checked, Except.map]
  | ok accepted => simp [checked, Except.map, eq_comm]

/-- The octets of the superblock are all that `readSuperblock` looks at, and are kept as `raw`. -/
theorem readSuperblock_same_iff {disk other : Disk} {fsOffset : Nat} {loaded : Geometry × Super}
    (read : readSuperblock disk fsOffset = .ok loaded) : readSuperblock other fsOffset = .ok loaded ↔
      ∀ i < superblockSize, other (fsOffset + 1024 + i) = disk (fsOffset + 1024 + i) := by
  constructor
  · intro reread i inside
    obtain ⟨raw, octets, _, first⟩ := readSuperblock_ok.mp read
    obtain ⟨raw', octets', _, second⟩ := readSuperblock_ok.mp reread
    have same : raw' = raw := congrArg (fun l => l.2.raw) (second.symm.trans first)
    have octet := congrArg (fun bytes : Bytes => bytes[i]?) (octets'.trans (same.trans octets.symm))
    rw [Disk.readAt_getElem? _ _ _ _ inside, Disk.readAt_getElem? _ _ _ _ inside] at octet
    exact Option.some.inj octet
  · intro same
    have equal := Disk.readAt_congr same
    rw [readSuperblock, equal]
    exact read

theorem writeBack_counters {disk : Disk} {fsOffset : Nat} {vol : Geometry} {sb : Super}
    (read : readSuperblock disk fsOffset = .ok (vol, sb)) :
    (readSuperblock (disk.writeAt (fsOffset + 1024) (sb.encoded vol)) fsOffset).map counters =
      (readSuperblock disk fsOffset).map counters := by
  obtain ⟨raw, octets, accepted, loaded⟩ := readSuperblock_ok.mp read
  have length : raw.length = superblockSize := by rw [← octets, Disk.readAt_length]
  cases loaded
  have back : (disk.writeAt (fsOffset + 1024) ((decode raw).encoded (geometryOf raw))).readAt
      (fsOffset + 1024) superblockSize = (decode raw).encoded (geometryOf raw) := by
    have whole := @encoded_length (geometryOf raw) (decode raw) length
    have written := Disk.readAt_writeAt disk (fsOffset + 1024) ((decode raw).encoded (geometryOf raw))
    rwa [whole] at written
  have again : readSuperblock (disk.writeAt (fsOffset + 1024) ((decode raw).encoded (geometryOf raw)))
      fsOffset = .ok (geometryOf ((decode raw).encoded (geometryOf raw)),
        decode ((decode raw).encoded (geometryOf raw))) := by
    exact readSuperblock_ok.mpr ⟨_, back, (check_encoded length).trans accepted, rfl⟩
  rw [again, read]
  exact congrArg Except.ok (counters_encoded length)

/-! ## What replay leaves of the superblock -/

/-- The octet that the records of the sidecar file hold for the place `p` of the device: that of the
last entry to cover it. -/
def recordedOctet (area : Area) (file : Bytes) (p : Nat) : Option UInt8 :=
  if (openJournal file).enabled then
    lastOctet p ((entriesIn file).map fun entry => (area.position entry.block % 2 ^ 64, entry.data))
  else none

variable {disk : Disk} {fsOffset : Nat} {addressable : fsOffset < 2 ^ 63} {file : Bytes} {opened : Opened}

theorem openFromDevice_ok (success : openFromDevice disk fsOffset addressable file = .ok opened) :
    readSuperblock disk fsOffset = .ok (opened.vol, opened.sb) ∧ ∀ p, opened.image p =
        (recordedOctet (areaOf fsOffset addressable opened.vol opened.sb) file p).getD (disk p) := by
  unfold openFromDevice at success
  split at success
  · cases success
  next vol sb read =>
    dsimp only at success
    split at success
    · cases success
    next quiet =>
      cases success
      refine ⟨read, fun p => ?_⟩
      dsimp only
      rw [Disk.writeAll_apply, recordedOctet]
      split
      next enabled => rw [Area.replayOnOpen_quiet _ enabled quiet]
      next off => rw [Area.replayOnOpen, Sidecar.replayOnOpen, if_neg off]; rfl

/-- The superblock in memory is that of the recovered image exactly when the journal records nothing
new for its octets. -/
theorem opened_current_iff (success : openFromDevice disk fsOffset addressable file = .ok opened) :
    opened.Current fsOffset ↔ ∀ i < superblockSize, ∀ octet,
      recordedOctet (areaOf fsOffset addressable opened.vol opened.sb) file (fsOffset + 1024 + i) =
        some octet → octet = disk (fsOffset + 1024 + i) := by
  obtain ⟨read, image⟩ := openFromDevice_ok success
  constructor
  · intro current i inside octet recorded
    have same := (readSuperblock_same_iff read).mp current.same i inside
    rw [image, recorded] at same
    exact same
  · intro nothing
    have same : readSuperblock opened.image fsOffset = .ok (opened.vol, opened.sb) := by
      rw [readSuperblock_same_iff read]
      intro i inside
      rw [image]
      cases recorded : recordedOctet (areaOf fsOffset addressable opened.vol opened.sb) file
          (fsOffset + 1024 + i) with
      | none => rfl
      | some octet => exact nothing i inside octet recorded
    exact ⟨same, writeBack_counters same⟩

/-! ## A journal that restores the superblock -/

theorem openFromDevice_whole (addressable : fsOffset < 2 ^ 63) {vol : Geometry} {sb : Super} {txs : List Tx}
    (read : readSuperblock disk fsOffset = .ok (vol, sb)) (fits : ∀ tx ∈ txs, tx.Fits sb.blocksCount)
    (accepted : ((areaOf fsOffset addressable vol sb).land none (txs.flatMap Tx.entries)).error = none) :
    openFromDevice disk fsOffset addressable (sidecarFile txs) =
      .ok ⟨vol, sb, (Sidecar.openFromDevice sb.blocksCount (sidecarFile txs)).journal,
        disk.writeAll ((areaOf fsOffset addressable vol sb).land none (txs.flatMap Tx.entries)).writes⟩ := by
  have landed := (areaOf fsOffset addressable vol sb).replayOnOpen_whole fits
  unfold openFromDevice
  rw [read]
  dsimp only
  rw [landed]
  split
  next e fails =>
    rw [accepted] at fails
    cases fails
  next => rfl

/-- The superblock of a volume with 1000 blocks of 1024 octets after one more block was taken, as a
transaction records it. -/
def takenRaw : Bytes := putUint32 (sampleRaw 0) 12 99

def takenTx : Tx := ⟨1, [⟨1, takenRaw⟩]⟩

theorem sample_length : (sampleRaw 0).length = superblockSize := by decide +kernel

theorem taken_length : takenRaw.length = superblockSize := putUint32_length sample_length (by decide)

theorem read_written {raw : Bytes} (length : raw.length = superblockSize) (accepted : check raw = .ok ()) :
    readSuperblock (disk.writeAt (fsOffset + 1024) raw) fsOffset = .ok (geometryOf raw, decode raw) := by
  have back := Disk.readAt_writeAt disk (fsOffset + 1024) raw
  rw [length] at back
  exact readSuperblock_ok.mpr ⟨raw, back, accepted, rfl⟩

theorem sample_read : readSuperblock (sampleDisk 0) 0 =
    .ok (geometryOf (sampleRaw 0), decode (sampleRaw 0)) :=
  read_written sample_length (by decide +kernel)

theorem sample_size : (geometryOf (sampleRaw 0)).blockSize = 1024 := by decide +kernel

theorem sample_blocks : (decode (sampleRaw 0)).blocksCount = 1000 := by decide +kernel

/-- A journal that records some other block leaves the superblock as it was read. -/
theorem other_block_current : ∃ opened,
    openFromDevice (sampleDisk 0) 0 (by decide) (sidecarFile [⟨1, [⟨5, [7]⟩]⟩]) = .ok opened ∧
      opened.Current 0 := by
  have fits : ∀ tx ∈ [Tx.mk 1 [⟨5, [7]⟩]], tx.Fits (decode (sampleRaw 0)).blocksCount := by
    intro tx mem
    rw [mem_singleton.mp mem, sample_blocks]
    exact ⟨by decide, by decide, by decide, by decide, by decide⟩
  have success := openFromDevice_whole (by decide) sample_read fits (by decide +kernel)
  refine ⟨_, success, (opened_current_iff success).mpr ?_⟩
  intro i inside octet recorded
  have nothing : recordedOctet (areaOf 0 (by decide) (geometryOf (sampleRaw 0)) (decode (sampleRaw 0)))
      (sidecarFile [⟨1, [⟨5, [7]⟩]⟩]) (0 + 1024 + i) = none := by
    rw [recordedOctet]
    split
    · refine lastOctet_outside fun write mem => ?_
      obtain ⟨entry, only, rfl⟩ := mem_map.mp mem
      rw [entriesIn_whole fits] at only
      rw [mem_singleton.mp only, Area.position, areaOf, sample_size]
      dsimp only [superblockSize] at inside ⊢
      omega
    · rfl
  rw [nothing] at recorded
  cases recorded

/-- The transaction was recorded and the machine stopped before its blocks were written. Opening
restores the superblock on the device, counts the block as free all the same, and the next superblock
write says so on the device. -/
theorem stale_superblock : ∃ opened,
    openFromDevice (sampleDisk 0) 0 (by decide) (sidecarFile [takenTx]) = .ok opened ∧
      (readSuperblock opened.image 0).map counters = .ok (opened.vol, 1000, 99, 0) ∧
      opened.sb.freeBlocks = 100 ∧
      (readSuperblock (opened.image.writeAt 1024 (opened.sb.encoded opened.vol)) 0).map counters =
        .ok (opened.vol, 1000, 100, 0) := by
  have fits : ∀ tx ∈ [takenTx], tx.Fits (decode (sampleRaw 0)).blocksCount := by
    intro tx mem
    rw [mem_singleton.mp mem, sample_blocks]
    refine ⟨by decide, by decide, ?_, by decide, by decide⟩
    intro entry only
    rw [mem_singleton.mp only, taken_length]
    decide
  have offset : (areaOf 0 (by decide) (geometryOf (sampleRaw 0)) (decode (sampleRaw 0))).offset 1 = 1024 := by
    rw [Area.offset_eq, Area.position, areaOf, sample_size]
    decide
  have place : (areaOf 0 (by decide) (geometryOf (sampleRaw 0)) (decode (sampleRaw 0))).land none
      ([takenTx].flatMap Tx.entries) = ⟨[(1024, takenRaw)], none⟩ := by
    rw [flatMap_singleton, takenTx, Area.land, offset, if_neg (by decide)]
    rfl
  have success := openFromDevice_whole (by decide) sample_read fits (by rw [place])
  rw [place] at success
  refine ⟨_, success, ?_, by decide +kernel, ?_⟩
  · dsimp only [Disk.writeAll]
    rw [@read_written (sampleDisk 0) 0 takenRaw taken_length (by decide +kernel)]
    decide +kernel
  · dsimp only
    rw [@read_written _ 0 _ (encoded_length sample_length) (by decide +kernel)]
    decide +kernel

end Ext4.SuperArea
