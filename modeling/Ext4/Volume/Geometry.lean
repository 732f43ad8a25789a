import Mathlib.Algebra.Order.Floor.Div
import Ext4.Library.Checked
import Ext4.Volume.RecoveredSuper

/-! What the geometry of an accepted superblock says of the groups and of their metadata blocks.
The source divides the block count itself, in 64 bits, and narrows the quotient to 32: the blocks in
front of the first data block are counted as if they belonged to a group. The bits per group and the
descriptor size are not compared with the size of the blocks that hold them. -/

namespace Ext4.SuperArea
open Octets Overlay

def Super.firstDataBlock (sb : Super) : Nat := field sb.raw 20 4

def numBlockGroups (vol : Geometry) (sb : Super) : Nat :=
  (sb.blocksCount + vol.blocksPerGroup - 1) % 2 ^ 64 / vol.blocksPerGroup % 2 ^ 32

structure ExactGroups (vol : Geometry) (sb : Super) : Prop where
  some : 1 ≤ numBlockGroups vol sb
  ceiling : numBlockGroups vol sb = (sb.blocksCount - sb.firstDataBlock) ⌈/⌉ vol.blocksPerGroup
  inhabited : ∀ g < numBlockGroups vol sb, ∃ b < sb.blocksCount,
    sb.firstDataBlock + g * vol.blocksPerGroup ≤ b ∧ b < sb.firstDataBlock + (g + 1) * vol.blocksPerGroup

/-- The accepted fields: the raw octets are those of the device, the divisors are not zero. -/
theorem readSuperblock_fields {disk : Disk} {off : Nat} {vol : Geometry} {sb : Super}
    (accepted : readSuperblock disk off = .ok (vol, sb)) :
    sb = decode sb.raw ∧ vol = geometryOf sb.raw ∧ 0 < vol.blocksPerGroup ∧ 0 < vol.inodesPerGroup := by
  obtain ⟨raw, -, checked, same⟩ := readSuperblock_ok.mp accepted
  cases same
  simp only [check] at checked
  split_ifs at checked with magic log blocks inodes size
  exact ⟨rfl, rfl, Nat.pos_of_ne_zero blocks, Nat.pos_of_ne_zero inodes⟩

section
variable {n bpg : Nat} (positive : 0 < bpg) (filled : 0 < n)
include positive filled

theorem round_up : (n + bpg - 1) / bpg = (n - 1) / bpg + 1 := by
  rw [← Nat.add_div_right _ positive]
  congr 1
  omega

theorem quotient_eq (narrow : n < 2 ^ 64) :
    (n + bpg - 1) % 2 ^ 64 / bpg = if n + bpg ≤ 2 ^ 64 then (n - 1) / bpg + 1 else 0 := by
  split
  · rw [Nat.mod_eq_of_lt (by omega), round_up positive filled]
  · rw [Nat.mod_eq_sub_mod (by omega), Nat.div_eq_of_lt]
    exact (Nat.mod_le _ _).trans_lt (by omega)

end

theorem exactGroups_iff {disk : Disk} {off : Nat} {vol : Geometry} {sb : Super}
    (accepted : readSuperblock disk off = .ok (vol, sb)) :
    ExactGroups vol sb ↔ 0 < sb.blocksCount ∧ sb.blocksCount ≤ (2 ^ 32 - 1) * vol.blocksPerGroup ∧
      sb.firstDataBlock ≤ (sb.blocksCount - 1) % vol.blocksPerGroup := by
  obtain ⟨decoded, shape, positive, -⟩ := readSuperblock_fields accepted
  have small : vol.blocksPerGroup < 2 ^ 32 := shape ▸ field_lt sb.raw 32 4
  have first : sb.firstDataBlock < 2 ^ 32 := field_lt sb.raw 20 4
  have narrow : sb.blocksCount < 2 ^ 64 := decoded ▸ (decode_bounds sb.raw).1
  have parts := Nat.div_add_mod (sb.blocksCount - 1) vol.blocksPerGroup
  constructor
  · rintro ⟨some, ceiling, inhabited⟩
    obtain ⟨b, below, behind, -⟩ := inhabited 0 some
    have filled : sb.firstDataBlock < sb.blocksCount := by omega
    rw [Nat.ceilDiv_eq_add_pred_div, round_up positive (Nat.sub_pos_of_lt filled)] at ceiling
    rw [numBlockGroups, quotient_eq positive (by omega) narrow] at ceiling some
    have rest := Nat.div_add_mod (sb.blocksCount - sb.firstDataBlock - 1) vol.blocksPerGroup
    have short := Nat.mod_lt (sb.blocksCount - sb.firstDataBlock - 1) positive
    have short' := Nat.mod_lt (sb.blocksCount - 1) positive
    generalize (sb.blocksCount - 1) / vol.blocksPerGroup = q at *
    generalize (sb.blocksCount - sb.firstDataBlock - 1) / vol.blocksPerGroup = k at *
    by_cases plain : sb.blocksCount + vol.blocksPerGroup ≤ 2 ^ 64
    · rw [if_pos plain] at ceiling
      by_cases few : q + 1 < 2 ^ 32
      · obtain rfl : q = k := by omega
        have := Nat.mul_le_mul_left vol.blocksPerGroup (show q + 1 ≤ 2 ^ 32 - 1 by omega)
        rw [Nat.mul_succ] at this
        omega
      · -- a narrowed count is smaller by a multiple of 2 ^ 32, more than the first block accounts for
        have := Nat.mul_le_mul_left vol.blocksPerGroup (show k + 2 ^ 32 ≤ q by omega)
        rw [Nat.mul_add] at this
        omega
    · rw [if_neg plain] at some
      omega
  · rintro ⟨some, fits, inside⟩
    have filled : sb.firstDataBlock < sb.blocksCount := by
      have := Nat.mod_le (sb.blocksCount - 1) vol.blocksPerGroup
      omega
    have short := Nat.mod_lt (sb.blocksCount - 1) positive
    have few := Nat.div_lt_of_lt_mul (show sb.blocksCount - 1 < vol.blocksPerGroup * (2 ^ 32 - 1) by omega)
    have count : numBlockGroups vol sb = (sb.blocksCount - 1) / vol.blocksPerGroup + 1 := by
      rw [numBlockGroups, quotient_eq positive some narrow, if_pos (by omega), Nat.mod_eq_of_lt (by omega)]
    refine ⟨count ▸ Nat.succ_pos _, ?_, fun g below => ⟨sb.firstDataBlock + g * vol.blocksPerGroup, ?_, le_rfl, ?_⟩⟩
    · have last : sb.blocksCount - sb.firstDataBlock - 1 =
          vol.blocksPerGroup * ((sb.blocksCount - 1) / vol.blocksPerGroup) +
            ((sb.blocksCount - 1) % vol.blocksPerGroup - sb.firstDataBlock) := by omega
      rw [Nat.ceilDiv_eq_add_pred_div, round_up positive (Nat.sub_pos_of_lt filled), count, last, Nat.mul_add_div positive,
        Nat.div_eq_of_lt ((Nat.sub_le _ _).trans_lt short), Nat.add_zero]
    · rw [count, Nat.lt_succ_iff] at below
      have := Nat.mul_le_mul_left vol.blocksPerGroup below
      rw [Nat.mul_comm g]
      omega
    · rw [Nat.succ_mul]
      omega

theorem readSuperblock_stored {raw : Bytes} (length : raw.length = superblockSize) (accepted : check raw = .ok ()) :
    readSuperblock (Disk.writeAt (fun _ => 0) 1024 raw) 0 = .ok (geometryOf raw, decode raw) := by
  have read := Disk.readAt_writeAt (fun _ => 0) 1024 raw
  rw [length] at read
  exact readSuperblock_ok.mpr ⟨raw, read, accepted, rfl⟩

theorem sample_groups : readSuperblock (sampleDisk 0) 0 = .ok (geometryOf (sampleRaw 0), decode (sampleRaw 0)) ∧
    ExactGroups (geometryOf (sampleRaw 0)) (decode (sampleRaw 0)) := by
  have accepted := readSuperblock_stored (show (sampleRaw 0).length = _ by decide +kernel) (by decide +kernel)
  exact ⟨accepted, (exactGroups_iff accepted).mpr (by decide +kernel)⟩

/-- A superblock of 8193 blocks of 1 KiB, of which the first is the boot block. -/
def bootBlockRaw : Bytes :=
  writeAt (writeAt (sampleRaw 0) 4 (putUint 4 8193)) 20 (putUint 4 1)

/-- The 8192 blocks behind the boot block are one group; a second one is counted. -/
theorem second_group_empty : readSuperblock (Disk.writeAt (fun _ => 0) 1024 bootBlockRaw) 0 =
      .ok (geometryOf bootBlockRaw, decode bootBlockRaw) ∧
    numBlockGroups (geometryOf bootBlockRaw) (decode bootBlockRaw) = 2 ∧
    ¬ ExactGroups (geometryOf bootBlockRaw) (decode bootBlockRaw) := by
  have two : numBlockGroups (geometryOf bootBlockRaw) (decode bootBlockRaw) = 2 := by decide +kernel
  refine ⟨readSuperblock_stored (by decide +kernel) (by decide +kernel), two, fun exact' => ?_⟩
  obtain ⟨b, below, behind, -⟩ := exact'.inhabited 1 (by omega)
  have blocks : (decode bootBlockRaw).blocksCount = 8193 := by decide +kernel
  have start : (decode bootBlockRaw).firstDataBlock + 1 * (geometryOf bootBlockRaw).blocksPerGroup = 8193 := by
    decide +kernel
  omega

/-! ## Bitmaps and descriptor blocks -/

section
open Checked

def bitRound (_ : Unit) (i : Nat) (set : Bool) : Nat ⊕ Unit := if set then .inr () else .inl i

def findFreeBit (bitmap : Bytes) (maxBits : Nat) : Option (Option Nat) :=
  (scan bitmap bitRound maxBits 0 ()).map (·.getLeft?)

def runRound (n : Nat) : Nat × Nat → Nat → Bool → List Nat ⊕ (Nat × Nat)
  | _, _, true => .inr (0, 0)
  | (runStart, runLen), i, false =>
      let runStart := if runLen = 0 then i else runStart
      if runLen + 1 = n then .inl (List.range' runStart n) else .inr (runStart, runLen + 1)

def pickRound (n : Nat) (bits : List Nat) (i : Nat) (set : Bool) : List Nat ⊕ List Nat :=
  if set then .inr bits else if bits.length + 1 = n then .inl (bits ++ [i]) else .inr (bits ++ [i])

def findFreeRun (bitmap : Bytes) (maxBits n : Nat) : Option (Option (List Nat)) :=
  if n = 0 then some (some []) else
    (scan bitmap (runRound n) maxBits 0 (0, 0)).bind fun
      | .inl bits => some (some bits)
      | .inr (_, runLen) =>
          if runLen < n then (scan bitmap (pickRound n) maxBits 0 []).map (·.getLeft?) else some none

def countRound (count _ : Nat) (set : Bool) : Empty ⊕ Nat := .inr (if set then count else count + 1)

def countZeroBits (bitmap : Bytes) (maxBits : Nat) : Option Nat :=
  (scan bitmap countRound maxBits 0 0).bind (·.getRight?)

variable (vol : Geometry)

def takeInodeBit (bitmap : Bytes) : Option (Option Bytes) :=
  (findFreeBit bitmap vol.inodesPerGroup).bind (·.elim (some none) fun bit => (Checked.setBit bitmap bit).map some)

def takeBlockBits (bitmap : Bytes) (n : Nat) : Option (Option Bytes) :=
  (findFreeRun bitmap vol.blocksPerGroup n).bind (·.elim (some none) fun bits => (bits.foldlM Checked.setBit bitmap).map some)

def blockAllocDescRanges : List (Nat × Nat) :=
  [(0x0C, 0x0E), (0x18, 0x1A)] ++ if 64 ≤ vol.descSize then [(0x2C, 0x2E), (0x38, 0x3A)] else []

def inodeAllocDescRanges : List (Nat × Nat) :=
  [(0x0E, 0x10), (0x10, 0x12), (0x1A, 0x1C), (0x1C, 0x1E)] ++
    if 64 ≤ vol.descSize then [(0x2E, 0x30), (0x30, 0x32), (0x3A, 0x3C), (0x3C, 0x3E)] else []

/-- `copy(merged[r[0]:r[1]], d.raw[r[0]:r[1]])`. -/
def overlayRange (desc merged : Bytes) (r : Nat × Nat) : Option Bytes := (slice desc r.1 r.2).bind (put merged r.1)

/-- What `stageDescriptorUpdate` does to the buffer of the table block; `csum` is the checksum of
the descriptor, where there is one. -/
def mergeDescriptor (csum : Option (Bytes → Nat)) (blockBuf : Bytes) (g : Nat) (desc : Bytes)
    (ownedRanges : List (Nat × Nat)) : Option Bytes := do
  let offInBlock := (vol.bgdTableBlock * vol.blockSize + g * vol.descSize) % vol.blockSize
  let current ← slice blockBuf offInBlock (offInBlock + vol.descSize)
  let merged ← ownedRanges.foldlM (overlayRange desc) current
  let sealed ← csum.elim (some merged) fun csum => put merged 30 (putUint 2 (csum merged))
  put blockBuf offInBlock sealed

/-- No scan or edit leaves its block, whatever the bitmaps and descriptors hold. -/
structure InRange (sb : Super) : Prop where
  counted : ∀ bitmap : Bytes, bitmap.length = vol.blockSize →
    (countZeroBits bitmap vol.blocksPerGroup).isSome ∧ (countZeroBits bitmap vol.inodesPerGroup).isSome
  allocated : ∀ bitmap : Bytes, bitmap.length = vol.blockSize →
    (takeInodeBit vol bitmap).isSome ∧ ∀ n, (takeBlockBits vol bitmap n).isSome
  freed : ∀ bitmap : Bytes, bitmap.length = vol.blockSize → ∀ rel,
    (Checked.clearBit bitmap (rel % vol.blocksPerGroup)).isSome ∧ (Checked.clearBit bitmap (rel % vol.inodesPerGroup)).isSome
  staged : ∀ g < numBlockGroups vol sb, ∀ csum (blockBuf desc : Bytes), blockBuf.length = vol.blockSize →
    desc.length = vol.descSize → ∀ ranges ∈ [blockAllocDescRanges vol, inodeAllocDescRanges vol],
    (mergeDescriptor vol csum blockBuf g desc ranges).isSome

variable {vol}

section
variable {bitmap : Bytes} {maxBits : Nat}

theorem countZeroBits_isSome : (countZeroBits bitmap maxBits).isSome ↔ maxBits ≤ 8 * bitmap.length := by
  unfold countZeroBits
  constructor
  · intro counted
    by_contra outside
    rw [scan_outside (fun _ _ _ => rfl) (by omega) (by omega)] at counted
    cases counted
  · intro inside
    obtain ⟨out, scanned, -⟩ := scan_inside countRound (fun _ _ => True) (fun _ => False)
      (show 0 + maxBits ≤ 8 * bitmap.length by omega) (fun _ _ _ _ _ => trivial) (s := 0) trivial
    rw [scanned]
    cases out with
    | inl never => cases never
    | inr count => rfl

variable (inside : maxBits ≤ 8 * bitmap.length)
include inside

theorem findFreeBit_inside :
    ∃ found, findFreeBit bitmap maxBits = some found ∧ ∀ bit ∈ found, bit < 8 * bitmap.length :=
  scan_found bitRound (fun _ _ => True) (· < 8 * bitmap.length) ((Nat.zero_add _).trans_le inside)
    (fun _ j b below _ => by cases b <;> simp [bitRound, below]) trivial

omit inside in
theorem runRound_kept (n : Nat) (s : Nat × Nat) (j : Nat) (b : Bool) (below : j < 8 * bitmap.length)
    (run : s.1 + s.2 ≤ j) :
    (runRound n s j b).elim (fun bits => ∀ bit ∈ bits, bit < 8 * bitmap.length) (fun s => s.1 + s.2 ≤ j + 1) := by
  cases b with
  | true => exact Nat.zero_le _
  | false =>
    simp only [runRound]
    split_ifs <;> simp at * <;> omega

omit inside in
theorem pickRound_kept (n : Nat) (bits : List Nat) (j : Nat) (b : Bool) (below : j < 8 * bitmap.length)
    (picked : ∀ bit ∈ bits, bit < 8 * bitmap.length) :
    (pickRound n bits j b).elim (fun bits => ∀ bit ∈ bits, bit < 8 * bitmap.length)
      (fun bits => ∀ bit ∈ bits, bit < 8 * bitmap.length) := by
  unfold pickRound
  split_ifs <;> simp <;> grind

theorem findFreeRun_inside (n : Nat) : ∃ found, findFreeRun bitmap maxBits n = some found ∧
    ∀ bits ∈ found, ∀ bit ∈ bits, bit < 8 * bitmap.length := by
  have whole := (Nat.zero_add _).trans_le inside
  unfold findFreeRun
  split
  · exact ⟨_, rfl, by simp⟩
  · obtain ⟨out, scanned, kept⟩ := scan_inside (runRound n) _ _ whole (runRound_kept n) (s := (0, 0)) le_rfl
    rw [scanned, Option.bind_some]
    cases out with
    | inl bits => exact ⟨_, rfl, fun _ same => by cases same; exact kept⟩
    | inr s =>
      dsimp only
      split
      · exact scan_found (pickRound n) (fun _ _ => _) _ whole (pickRound_kept n) (by simp)
      · exact ⟨_, rfl, by simp⟩

end

theorem setBits_isSome {bitmap : Bytes} {bits : List Nat} (inside : ∀ bit ∈ bits, bit < 8 * bitmap.length) :
    (bits.foldlM Checked.setBit bitmap).isSome := by
  obtain ⟨out, done, -⟩ := foldlM_inside Checked.setBit (fun bit mem raw (length : raw.length = bitmap.length) =>
    ⟨setBit raw bit, if_pos (by have := inside bit mem; omega), setBit_length.trans length⟩) rfl
  rw [done]
  rfl

theorem descRanges_inside (large : 32 ≤ vol.descSize) :
    ∀ ranges ∈ [blockAllocDescRanges vol, inodeAllocDescRanges vol], ∀ r ∈ ranges, r.1 ≤ r.2 ∧ r.2 ≤ vol.descSize := by
  simp only [blockAllocDescRanges, inodeAllocDescRanges, List.forall_mem_cons]
  split <;> simp <;> omega

theorem mergeDescriptor_isSome {csum : Option (Bytes → Nat)} {blockBuf desc : Bytes} {g : Nat} {ranges : List (Nat × Nat)}
    (block : blockBuf.length = vol.blockSize) (length : desc.length = vol.descSize) (large : 32 ≤ vol.descSize)
    (owned : ∀ r ∈ ranges, r.1 ≤ r.2 ∧ r.2 ≤ vol.descSize) :
    (mergeDescriptor vol csum blockBuf g desc ranges).isSome ↔ g * vol.descSize % vol.blockSize + vol.descSize ≤ vol.blockSize := by
  have start : (vol.bgdTableBlock * vol.blockSize + g * vol.descSize) % vol.blockSize =
      g * vol.descSize % vol.blockSize := by rw [Nat.add_comm, Nat.add_mul_mod_self_right]
  rw [mergeDescriptor, start]
  constructor
  · intro done
    by_contra straddles
    rw [slice, if_neg (by omega)] at done
    cases done
  · intro fits
    obtain ⟨current, read, size⟩ := slice_inside (Nat.le_add_right _ _) (fits.trans_eq block.symm)
    rw [Nat.add_sub_cancel_left] at size
    obtain ⟨merged, done, size⟩ := foldlM_inside (overlayRange desc) (fun r mem raw same => by
      obtain ⟨ordered, inside⟩ := owned r mem
      obtain ⟨piece, cut, length⟩ := slice_inside ordered (length ▸ inside)
      rw [overlayRange, cut]
      exact put_inside same (by omega)) size
    obtain ⟨sealed, same, size⟩ : ∃ sealed, csum.elim (some merged) (fun csum => put merged 30 (putUint 2 (csum merged))) =
        some sealed ∧ sealed.length = vol.descSize := by
      cases csum with
      | none => exact ⟨_, rfl, size⟩
      | some csum => exact put_inside size (by rw [putUint_length]; omega)
    rw [← size] at fits
    obtain ⟨out, last, -⟩ := put_inside block fits
    rw [size] at last
    simp only [read, done, same, last, Option.bind_eq_bind, Option.bind_some, Option.isSome_some]

/-- No descriptor straddles two blocks exactly when its size divides that of a block, or one block
holds them all. -/
theorem apart_iff {n size block : Nat} (positive : 0 < size) (some : 0 < block) :
    (∀ g < n, g * size % block + size ≤ block) ↔ size ∣ block ∨ n * size ≤ block := by
  constructor
  · intro apart
    by_contra neither
    obtain ⟨straddles, many⟩ := not_or.mp neither
    have below : block / size < n := Nat.div_lt_of_lt_mul (by rw [Nat.mul_comm]; omega)
    have parts := Nat.div_add_mod block size
    have short := Nat.mod_lt block positive
    have := apart _ below
    rw [Nat.mul_comm, Nat.mod_eq_of_lt (by omega)] at this
    omega
  · rintro (⟨k, rfl⟩ | all) g below
    · rw [Nat.mul_comm, Nat.mul_mod_mul_left, ← Nat.mul_succ]
      exact Nat.mul_le_mul_left _ (Nat.mod_lt _ (Nat.pos_of_mul_pos_left some))
    · have := Nat.mul_le_mul_right size (Nat.succ_le_of_lt below)
      rw [Nat.succ_mul] at this
      rw [Nat.mod_eq_of_lt (by omega)]
      omega

theorem inRange_iff {disk : Disk} {off : Nat} {sb : Super}
    (accepted : readSuperblock disk off = .ok (vol, sb)) :
    InRange vol sb ↔ vol.blocksPerGroup ≤ 8 * vol.blockSize ∧ vol.inodesPerGroup ≤ 8 * vol.blockSize ∧
      (vol.descSize ∣ vol.blockSize ∨ numBlockGroups vol sb * vol.descSize ≤ vol.blockSize) := by
  obtain ⟨-, shape, blocks, inodes⟩ := readSuperblock_fields accepted
  have large : 32 ≤ vol.descSize := by
    rw [shape]
    simp only [geometryOf, descSizeOf]
    split <;> omega
  have filled : 0 < vol.blockSize := shape ▸ Nat.mul_pos (by decide) (Nat.two_pow_pos _)
  have zeros : (List.replicate vol.blockSize (0 : UInt8)).length = vol.blockSize := List.length_replicate
  rw [← apart_iff (by omega) filled]
  constructor
  · rintro ⟨counted, -, -, staged⟩
    obtain ⟨first, second⟩ := counted _ zeros
    rw [countZeroBits_isSome, zeros] at first second
    refine ⟨first, second, fun g below => ?_⟩
    exact (mergeDescriptor_isSome zeros List.length_replicate large (descRanges_inside large _ (.head _))).mp
      (staged g below none _ (List.replicate vol.descSize 0) zeros List.length_replicate _ (.head _))
  · rintro ⟨first, second, apart⟩
    refine ⟨fun bitmap length => ?_, fun bitmap length => ⟨?_, fun n => ?_⟩, fun bitmap length rel => ?_,
      fun g below csum blockBuf desc block length ranges owned =>
        (mergeDescriptor_isSome block length large (descRanges_inside large _ owned)).mpr (apart g below)⟩
    · rw [countZeroBits_isSome, countZeroBits_isSome, length]
      exact ⟨first, second⟩
    · obtain ⟨found, same, inside⟩ := findFreeBit_inside (second.trans_eq (congrArg _ length.symm))
      rw [takeInodeBit, same, Option.bind_some]
      cases found with
      | none => rfl
      | some bit =>
        have := inside bit rfl
        simp [Checked.setBit, show bit / 8 < bitmap.length by omega]
    · obtain ⟨found, same, inside⟩ := findFreeRun_inside (first.trans_eq (congrArg _ length.symm)) n
      rw [takeBlockBits, same, Option.bind_some]
      cases found with
      | none => rfl
      | some bits => exact Option.isSome_map.trans (setBits_isSome (inside bits rfl))
    · have one := Nat.mod_lt rel blocks
      have two := Nat.mod_lt rel inodes
      rw [Checked.clearBit, Checked.clearBit, if_pos (by omega), if_pos (by omega)]
      exact ⟨rfl, rfl⟩

theorem sample_inRange : readSuperblock (sampleDisk 0) 0 = .ok (geometryOf (sampleRaw 0), decode (sampleRaw 0)) ∧
    InRange (geometryOf (sampleRaw 0)) (decode (sampleRaw 0)) := by
  have accepted := readSuperblock_stored (show (sampleRaw 0).length = _ by decide +kernel) (by decide +kernel)
  exact ⟨accepted, (inRange_iff accepted).mpr (by decide +kernel)⟩

def wideGroupRaw : Bytes := writeAt (sampleRaw 0) 32 (putUint 4 8193)

/-- The superblock is accepted, and the count of `CheckImage` indexes behind the bitmap. -/
theorem count_leaves_bitmap : readSuperblock (Disk.writeAt (fun _ => 0) 1024 wideGroupRaw) 0 =
      .ok (geometryOf wideGroupRaw, decode wideGroupRaw) ∧
    ¬ InRange (geometryOf wideGroupRaw) (decode wideGroupRaw) := by
  refine ⟨readSuperblock_stored (by decide +kernel) (by decide +kernel), fun inRange => ?_⟩
  have size : (geometryOf wideGroupRaw).blockSize = 1024 := by decide +kernel
  have bits : (geometryOf wideGroupRaw).blocksPerGroup = 8193 := by decide +kernel
  have counted := (inRange.counted (List.replicate 1024 0) (List.length_replicate.trans size.symm)).1
  rw [bits, countZeroBits_isSome, List.length_replicate] at counted
  omega

end

end Ext4.SuperArea
