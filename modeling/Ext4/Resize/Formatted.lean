import Mathlib.Algebra.Group.Action.Defs
import Mathlib.Algebra.Order.BigOperators.Group.List
import Ext4.Resize.Format

/-! What `Format` leaves on the device, and for which sizes it is a well-formed filesystem.
The descriptors and the bitmaps are read back from the octets that were written. A last group that
is shorter than its metadata is not refused, and the number of groups overflows for the largest
sizes. -/

namespace Ext4.Resize.Format
open Octets Overlay SuperArea List
open Volume (fmtBlockSize fmtBlocksPerGroup fmtInodesPerGroup fmtInodeTableBlocks fmtReservedInodes
  groupIsSparseBackup)

variable {total g : Nat} {cfg : Config}

/-! ## Sizes -/

theorem nGroups_le (total : Nat) : nGroups total ≤ 131072 := by
  unfold nGroups fmtBlocksPerGroup
  omega

theorem bgdtBlocks_le (total : Nat) : bgdtBlocks total ≤ 1024 := by
  have := nGroups_le total
  unfold bgdtBlocks fmtDescSize fmtBlockSize
  omega

theorem groupSuperBlocks_le (total g : Nat) :
    groupSuperBlocks total g ≤ 1025 := by
  have := bgdtBlocks_le total
  unfold groupSuperBlocks
  split <;> omega

theorem bgdtBuf_fits (total : Nat) : nGroups total * fmtDescSize ≤ bgdtBlocks total * fmtBlockSize := by
  unfold bgdtBlocks fmtDescSize fmtBlockSize
  omega

def superSpans : List (Nat × Nat) :=
  [(0, 4), (4, 8), (12, 16), (16, 20), (24, 28), (28, 32), (32, 36), (36, 40), (40, 44), (44, 48),
   (48, 52), (54, 56), (56, 58), (58, 60), (60, 62), (64, 68), (76, 80), (84, 88), (88, 90), (96, 100),
   (100, 104), (104, 120), (120, 136), (254, 256)]

theorem superSlots_span : (superSlots total cfg).map Slot.span = superSpans := rfl

theorem superSlots_apart : Apart superblockSize ((superSlots total cfg).map Slot.span) := by
  rw [superSlots_span]
  decide

theorem descSlots_apart : Apart fmtDescSize ((descSlots total g).map Slot.span) := by
  change Apart 32 [(0, 4), (4, 8), (8, 12), (12, 14), (14, 16), (16, 18)]
  decide

theorem rootSlots_apart : Apart fmtInodeSize ((rootSlots total cfg).map Slot.span) := by
  change Apart 256 [(0, 2), (26, 28), (4, 8), (28, 32), (8, 12), (12, 16), (16, 20), (32, 36), (40, 42),
    (42, 44), (44, 46), (56, 58), (60, 64)]
  decide

theorem putSlots_zero_length {size : Nat} {slots : List Slot} (apart : Apart size (slots.map Slot.span)) :
    (putSlots (replicate size 0) slots).length = size := by
  rw [putSlots_length (by simpa using apart.inside), length_replicate]

theorem superRaw_length : (superRaw total cfg).length = 1024 := putSlots_zero_length superSlots_apart

theorem descRaw_length : (descRaw total g).length = fmtDescSize := putSlots_zero_length descSlots_apart

theorem rootRaw_length : (rootRaw total cfg).length = fmtInodeSize :=
  putSlots_zero_length rootSlots_apart

theorem dirBuf_length : dirBuf.length = fmtBlockSize := putSlots_zero_length (by decide)

theorem bgdtBuf_length : (bgdtBuf total).length = nGroups total * fmtDescSize := by
  rw [bgdtBuf, table_length fun g _ => descRaw_length, length_range]

theorem blockBitmap_length : (blockBitmap total g).length = fmtBlockSize := by
  simp [blockBitmap]

theorem inodeBitmap_length : (inodeBitmap g).length = fmtBlockSize := by
  simp [inodeBitmap]

variable {off value : Nat}

theorem putUint16_length {raw : Bytes} (inside : off + 2 ≤ raw.length) :
    (putUint16 raw off value).length = raw.length := by
  rw [putUint16, writeAt_length, putUint_length]
  omega

/-! ## Where the writes are -/

variable {write : Nat × Bytes} {m width : Nat}

theorem groupWrites_inside
    (mem : write ∈ groupWrites total cfg g) :
    (g * fmtBlocksPerGroup + if g = 0 then 1 + bgdtBlocks total else 0) * fmtBlockSize ≤ write.1 ∧
      write.1 + write.2.length ≤ (g * fmtBlocksPerGroup + fmtBlocksPerGroup) * fmtBlockSize := by
  have few := bgdtBlocks_le total
  have copies := groupSuperBlocks_le total g
  have fits := bgdtBuf_fits total
  have front : (if g = 0 then 1 + bgdtBlocks total else 0) ≤ groupSuperBlocks total g := by
    split
    next zero => simp [zero, groupSuperBlocks, groupIsSparseBackup]
    · exact Nat.zero_le _
  unfold groupWrites at mem
  unfold fmtBlocksPerGroup fmtBlockSize fmtDescSize at *
  rcases mem_append.mp mem with copy | bitmap
  · unfold copyWrites at copy
    unfold fmtBlocksPerGroup fmtBlockSize at copy
    split at copy
    next later =>
      simp only [mem_cons, not_mem_nil, or_false] at copy
      rw [if_neg (by omega)]
      rcases copy with rfl | rfl
      · rw [putUint16_length (by rw [superRaw_length]; decide), superRaw_length]
        omega
      · rw [bgdtBuf_length]
        unfold fmtDescSize
        omega
    · cases copy
  · simp only [mem_cons, not_mem_nil, or_false] at bitmap
    rcases bitmap with rfl | rfl
    · rw [blockBitmap_length]
      unfold fmtBlockSize
      omega
    · rw [inodeBitmap_length]
      unfold fmtBlockSize
      omega

/-- The root directory is written behind the bitmaps of group 0, and in that group. -/
def rootWrites (total : Nat) (cfg : Config) : List (Nat × Bytes) :=
  [(g0InodeTable total * fmtBlockSize + fmtInodeSize, rootRaw total cfg),
   (g0RootDirDataBlock total * fmtBlockSize, dirBuf)]

theorem rootWrites_inside
    (mem : write ∈ rootWrites total cfg) :
    (1 + bgdtBlocks total + 2) * fmtBlockSize ≤ write.1 ∧
      write.1 + write.2.length ≤ fmtBlocksPerGroup * fmtBlockSize := by
  have few := bgdtBlocks_le total
  simp only [rootWrites, mem_cons, not_mem_nil, or_false] at mem
  unfold g0RootDirDataBlock g0InodeTable fmtBlockSize fmtInodeTableBlocks fmtBlocksPerGroup at *
  rcases mem with rfl | rfl
  · rw [rootRaw_length]
    unfold fmtInodeSize
    omega
  · rw [dirBuf_length]
    unfold fmtBlockSize
    omega

theorem laterGroups_inside
    (mem : write ∈ (range' (g + 1) m).flatMap (groupWrites total cfg)) :
    (g * fmtBlocksPerGroup + fmtBlocksPerGroup) * fmtBlockSize ≤ write.1 := by
  obtain ⟨g', later, mem⟩ := mem_flatMap.mp mem
  have low := (groupWrites_inside mem).1
  have after := (mem_range'_1.mp later).1
  calc (g * fmtBlocksPerGroup + fmtBlocksPerGroup) * fmtBlockSize
      = (g + 1) * fmtBlocksPerGroup * fmtBlockSize := by rw [Nat.succ_mul]
    _ ≤ g' * fmtBlocksPerGroup * fmtBlockSize :=
        Nat.mul_le_mul_right _ (Nat.mul_le_mul_right _ after)
    _ ≤ _ := Nat.mul_le_mul_right _ (Nat.le_add_right _ _)
    _ ≤ write.1 := low

theorem writes_split (cfg : Config) (g m : Nat) (split : nGroups total = g + 1 + m) :
    ∃ before, writes total cfg = before ++ groupWrites total cfg g ++
      ((range' (g + 1) m).flatMap (groupWrites total cfg) ++ rootWrites total cfg) := by
  have range : range (nGroups total) = range g ++ g :: range' (g + 1) m := by
    rw [split, Nat.add_assoc, range_add]
    congr 1
    rw [Nat.add_comm 1 m, range_succ_eq_map, map_cons, map_map, range'_eq_map_range]
    simp [Function.comp_def, Nat.add_comm, Nat.add_left_comm]
  refine ⟨[(1024, superRaw total cfg), (fmtBlockSize, bgdtBuf total)] ++
    (List.range g).flatMap (groupWrites total cfg), ?_⟩
  unfold writes
  rw [range, flatMap_append, flatMap_cons]
  simp only [append_assoc]
  rfl

theorem later_outside
    (mem : write ∈ (range' (g + 1) m).flatMap (groupWrites total cfg) ++ rootWrites total cfg)
    {low high : Nat} (inside : g * fmtBlocksPerGroup ≤ low)
    (front : high ≤ g * fmtBlocksPerGroup + groupSuperBlocks total g + 2) :
    high * fmtBlockSize ≤ write.1 ∨ write.1 + write.2.length ≤ low * fmtBlockSize := by
  have copies := groupSuperBlocks_le total g
  rcases mem_append.mp mem with later | root
  · have := laterGroups_inside later
    unfold fmtBlocksPerGroup fmtBlockSize at *
    omega
  · obtain ⟨above, below⟩ := rootWrites_inside root
    rcases Nat.eq_zero_or_pos g with rfl | positive
    · have first : groupSuperBlocks total 0 = 1 + bgdtBlocks total := rfl
      unfold fmtBlocksPerGroup fmtBlockSize at *
      omega
    · unfold fmtBlocksPerGroup fmtBlockSize at *
      omega

theorem foldl_max_eq {start : Nat} {writes : List (Nat × Bytes)}
    (inside : ∀ write ∈ writes, write.1 + write.2.length ≤ start) :
    writes.foldl (fun size write => max size (write.1 + write.2.length)) start = start := by
  induction writes with
  | nil => rfl
  | cons write rest ih =>
    obtain ⟨first, later⟩ := forall_mem_cons.mp inside
    rw [foldl_cons, Nat.max_eq_left first, ih later]

theorem formatted_size (cfg : Config) (some : 0 < nGroups total)
    (whole : nGroups total * fmtBlocksPerGroup = total) :
    (formatted total cfg).size = total * fmtBlockSize := by
  refine foldl_max_eq fun write mem => ?_
  have fits := bgdtBuf_fits total
  rw [writes, mem_append, mem_append] at mem
  rcases mem with (table | group) | root
  · simp only [mem_cons, not_mem_nil, or_false] at table
    unfold fmtBlocksPerGroup fmtBlockSize fmtDescSize at *
    rcases table with rfl | rfl
    · rw [superRaw_length]
      omega
    · rw [bgdtBuf_length]
      unfold fmtDescSize
      omega
  · obtain ⟨g, present, inside⟩ := mem_flatMap.mp group
    have last := (groupWrites_inside inside).2
    have below := Nat.mul_le_mul_right fmtBlocksPerGroup (Nat.succ_le_of_lt (mem_range.mp present))
    rw [Nat.succ_mul, whole] at below
    exact last.trans (Nat.mul_le_mul_right _ below)
  · have group : fmtBlocksPerGroup ≤ total := by
      have := Nat.mul_le_mul_right fmtBlocksPerGroup some
      omega
    exact (rootWrites_inside root).2.trans (Nat.mul_le_mul_right _ group)

/-! ## What is read back -/

theorem layout_start (cfg : Config) (b : Nat) : (layout cfg).start b = b * fmtBlockSize :=
  Nat.zero_add _

theorem readAt_bitmaps (cfg : Config) (present : g < nGroups total) :
    (formatted total cfg).block (layout cfg) (g * fmtBlocksPerGroup + groupSuperBlocks total g) =
      blockBitmap total g ∧
    (formatted total cfg).block (layout cfg) (g * fmtBlocksPerGroup + groupSuperBlocks total g + 1) =
      inodeBitmap g := by
  obtain ⟨m, split⟩ := Nat.exists_eq_add_of_lt present
  obtain ⟨before, place⟩ := writes_split cfg g m (by omega : nGroups total = g + 1 + m)
  have image : (formatted total cfg).disk = Disk.writeAll (fun _ => 0) (writes total cfg) := rfl
  have size : (layout cfg).blockSize = fmtBlockSize := rfl
  rw [Vol.block, Vol.block, layout_start, layout_start, size, image, place, groupWrites]
  constructor
  · rw [append_assoc, append_assoc, ← append_assoc, cons_append]
    refine Disk.readAt_writeAll_whole blockBitmap_length fun write mem => ?_
    rw [← Nat.succ_mul]
    rcases mem_cons.mp mem with rfl | later
    · exact .inl (Nat.le_refl _)
    · exact later_outside later (Nat.le_add_right _ _) (by omega)
  · rw [append_cons, append_assoc, append_assoc, ← append_assoc, cons_append]
    refine Disk.readAt_writeAll_whole inodeBitmap_length fun write later => ?_
    rw [← Nat.succ_mul]
    exact later_outside later (by omega) (Nat.le_refl _)

theorem layout_descOff (cfg : Config) (g : Nat) :
    (layout cfg).descOff g = fmtBlockSize + g * fmtDescSize := by
  have table : (layout cfg).bgdTableBlock = 1 := rfl
  rw [Layout.descOff, layout_start, table, Nat.one_mul]
  rfl

theorem readAt_desc (cfg : Config) (present : g < nGroups total) :
    (formatted total cfg).disk.readAt ((layout cfg).descOff g) (layout cfg).descSize =
      descRaw total g := by
  have image : (formatted total cfg).disk = Disk.writeAll (fun _ => 0)
      ([(1024, superRaw total cfg)] ++ (fmtBlockSize, bgdtBuf total) ::
        ((range (nGroups total)).flatMap (groupWrites total cfg) ++ rootWrites total cfg)) := rfl
  have size : (layout cfg).descSize = fmtDescSize := rfl
  have fits := bgdtBuf_fits total
  have groups := nGroups_le total
  have inTable : g * fmtDescSize + fmtDescSize ≤ (bgdtBuf total).length := by
    rw [bgdtBuf_length, ← Nat.succ_mul]
    exact Nat.mul_le_mul_right _ present
  rw [layout_descOff, size, image, Disk.readAt_writeAll inTable]
  · have lengths : ∀ g ∈ range (nGroups total), (descRaw total g).length = fmtDescSize :=
      fun _ _ => descRaw_length
    have record := table_record lengths (by rwa [length_range] : g < (range _).length)
    rwa [getElem_range] at record
  · rw [bgdtBuf_length] at inTable
    intro write mem
    left
    rcases mem_append.mp mem with group | root
    · obtain ⟨g', _, group⟩ := mem_flatMap.mp group
      have low := (groupWrites_inside group).1
      split at low
      · unfold fmtBlocksPerGroup fmtBlockSize fmtDescSize at *
        omega
      · unfold fmtBlocksPerGroup fmtBlockSize fmtDescSize at *
        omega
    · have low := (rootWrites_inside root).1
      unfold fmtBlockSize fmtDescSize at *
      omega

/-! ## The descriptors -/

theorem metaStart_lt (present : g < nGroups total) :
    g * fmtBlocksPerGroup + groupSuperBlocks total g + 2 < 256 ^ 4 := by
  have groups := nGroups_le total
  have copies := groupSuperBlocks_le total g
  unfold fmtBlocksPerGroup
  omega

theorem groupBlocks_le (addressable : total + fmtBlocksPerGroup ≤ 2 ^ 32) (present : g < nGroups total) :
    groupBlocks total g ≤ fmtBlocksPerGroup := by
  unfold groupBlocks nGroups fmtBlocksPerGroup at *
  split <;> omega

theorem field_descRaw (mem : ⟨off, width, value⟩ ∈ descSlots total g) :
    field (descRaw total g) off width = value % 256 ^ width := by
  have apart := @descSlots_apart total g
  rw [← length_replicate (n := fmtDescSize) (a := (0 : UInt8))] at apart
  exact field_putSlots apart mem

theorem wideField_layout (cfg : Config) (raw : Bytes) (low high n : Nat) :
    wideField (layout cfg) raw low high n = field raw low n := by
  have narrow : (layout cfg).wide = false := by simp [Layout.wide, layout]
  simp [wideField, narrow]

theorem formatted_desc (cfg : Config) (addressable : total + fmtBlocksPerGroup ≤ 2 ^ 32)
    (present : g < nGroups total) :
    (formatted total cfg).desc (layout cfg) g =
      { raw := descRaw total g
        blockBitmap := g * fmtBlocksPerGroup + groupSuperBlocks total g
        inodeBitmap := g * fmtBlocksPerGroup + groupSuperBlocks total g + 1
        inodeTable := g * fmtBlocksPerGroup + groupSuperBlocks total g + 2
        freeBlocks := groupBlocks total g - groupMetaBlocks total g
        freeInodes := if g = 0 then fmtInodesPerGroup - fmtReservedInodes else fmtInodesPerGroup
        usedDirs := if g = 0 then 1 else 0 } := by
  have place := metaStart_lt present
  have size := groupBlocks_le addressable present
  have short : groupBlocks total g - groupMetaBlocks total g < 256 ^ 2 := by
    unfold fmtBlocksPerGroup at size
    omega
  rw [Vol.desc, readAt_desc cfg present, decodeBGD]
  simp only [wideField_layout, Desc.mk.injEq, true_and]
  refine ⟨?_, ?_, ?_, ?_, ?_, ?_⟩
  · rw [field_descRaw (.head _), Nat.mod_eq_of_lt (by omega)]
  · rw [field_descRaw (.tail _ (.head _)), Nat.mod_eq_of_lt (by omega)]
  · rw [field_descRaw (.tail _ (.tail _ (.head _))), Nat.mod_eq_of_lt place]
  · rw [field_descRaw (.tail _ (.tail _ (.tail _ (.head _)))), Nat.mod_eq_of_lt short]
  · rw [field_descRaw (.tail _ (.tail _ (.tail _ (.tail _ (.head _))))), Nat.mod_eq_of_lt]
    split <;> decide
  · rw [field_descRaw (.tail _ (.tail _ (.tail _ (.tail _ (.tail _ (.head _)))))), Nat.mod_eq_of_lt]
    split <;> decide

/-! ## The bitmaps -/

theorem bitAt_zero (n i : Nat) : bitAt (replicate n 0) i = false := by
  unfold bitAt
  rw [getElem?_replicate]
  split <;> exact Nat.zero_testBit _

theorem bitAt_blockBitmap (inside : groupMetaBlocks total g ≤ 8 * fmtBlockSize) {i : Nat}
    (bound : i < 8 * fmtBlockSize) :
    bitAt (blockBitmap total g) i =
      (decide (i < groupMetaBlocks total g) || decide (groupBlocks total g ≤ i)) := by
  unfold blockBitmap
  rw [bitAt_setRange (by simp), bitAt_setRange (by simpa using inside), bitAt_zero]
  simp [bound, Bool.or_comm]

theorem bitAt_inodeBitmap {i : Nat} (bound : i < 8 * fmtBlockSize) :
    bitAt (inodeBitmap g) i =
      (decide (i < if g = 0 then fmtReservedInodes else 0) || decide (fmtInodesPerGroup ≤ i)) := by
  have few : (if g = 0 then fmtReservedInodes else 0) ≤ 8 * fmtBlockSize := by
    split <;> decide
  unfold inodeBitmap
  rw [bitAt_setRange (by simp), bitAt_setRange (by simpa using few), bitAt_zero]
  simp [bound, Bool.or_comm]

/-! ## The counts of the superblock -/

theorem field_superRaw (mem : ⟨off, width, value⟩ ∈ superSlots total cfg) :
    field (superRaw total cfg) off width = value % 256 ^ width := by
  have apart := @superSlots_apart total cfg
  rw [← length_replicate (n := superblockSize) (a := (0 : UInt8))] at apart
  exact field_putSlots apart mem

theorem field_zero (size off n : Nat) : field (replicate size 0) off n = 0 := by
  have zero : ∀ k, uintOf (replicate k 0) = 0 := fun k => by
    induction k with
    | zero => rfl
    | succ k ih => rw [replicate_succ, uintOf, ih]; rfl
  rw [field, drop_replicate, take_replicate, zero]

theorem field_superRaw_zero {n : Nat} (present : off + n ≤ superblockSize)
    (outside : ∀ span ∈ superSpans, off + n ≤ span.1 ∨ span.2 ≤ off) :
    field (superRaw total cfg) off n = 0 := by
  rw [← @superSlots_span total cfg] at outside
  have inside := (@superSlots_apart total cfg).inside
  rw [superRaw, field_putSlots_outside (by rwa [length_replicate])
    (by rwa [length_replicate]) fun slot mem => outside _ (mem_map_of_mem mem)]
  exact field_zero _ _ _

theorem totalFreeBlocks_lt (addressable : total + fmtBlocksPerGroup ≤ 2 ^ 32) :
    totalFreeBlocks total < 2 ^ 32 := by
  have each : ∀ free ∈ (range (nGroups total)).map
      (fun g => groupBlocks total g - groupMetaBlocks total g), free ≤ 32750 := by
    intro free mem
    obtain ⟨g, inRange, rfl⟩ := mem_map.mp mem
    have size := groupBlocks_le addressable (mem_range.mp inRange)
    unfold groupMetaBlocks fmtInodeTableBlocks fmtBlocksPerGroup at *
    omega
  have sum := sum_le_card_nsmul _ _ each
  have groups := nGroups_le total
  rw [length_map, length_range, smul_eq_mul] at sum
  unfold totalFreeBlocks
  omega

theorem formatted_blocksCount (cfg : Config) (small : total < 2 ^ 32) :
    (formatted total cfg).sb.blocksCount = total := by
  have read : (formatted total cfg).sb = decode (superRaw total cfg) := rfl
  rw [read, decode]
  dsimp only
  rw [field_superRaw_zero (by decide) (by decide), field_superRaw (.tail _ (.head _))]
  omega

theorem formatted_counts (cfg : Config) (addressable : total + fmtBlocksPerGroup ≤ 2 ^ 32) :
    (formatted total cfg).sb.blocksCount = total ∧
      (formatted total cfg).sb.freeBlocks = totalFreeBlocks total ∧
      (formatted total cfg).sb.freeInodes =
        (2 ^ 32 + fmtInodesPerGroup * nGroups total - fmtReservedInodes) % 2 ^ 32 := by
  have free := totalFreeBlocks_lt addressable
  have read : (formatted total cfg).sb = decode (superRaw total cfg) := rfl
  have inodes : ⟨16, 4, 2 ^ 32 + fmtInodesPerGroup * nGroups total - fmtReservedInodes⟩ ∈
      superSlots total cfg := .tail _ (.tail _ (.tail _ (.head _)))
  have small : total < 2 ^ 32 := by
    unfold fmtBlocksPerGroup at addressable
    omega
  refine ⟨formatted_blocksCount cfg small, ?_, ?_⟩
  all_goals
    rw [read, decode]
    dsimp only
  · rw [field_superRaw_zero (by decide) (by decide), field_superRaw (.tail _ (.tail _ (.head _)))]
    omega
  · exact (field_superRaw inodes).trans (by norm_num)

/-! ## The root directory -/

def rootBlock (v : Layout) (s : Vol) : Nat :=
  field (s.disk.readAt (v.inodeOff (s.desc v 0) 2) v.inodeSize) 60 4

theorem nGroups_pos (accepted : accepts total)
    (addressable : total + fmtBlocksPerGroup ≤ 2 ^ 32) : 0 < nGroups total := by
  simp only [accepts, Bool.and_eq_true, decide_eq_true_eq] at accepted
  unfold nGroups Volume.fmtMinBlocks fmtBlocksPerGroup fmtInodeTableBlocks at *
  omega

theorem formatted_root (cfg : Config) (accepted : accepts total)
    (addressable : total + fmtBlocksPerGroup ≤ 2 ^ 32) :
    rootBlock (layout cfg) (formatted total cfg) = g0RootDirDataBlock total := by
  have place : (layout cfg).inodeOff ((formatted total cfg).desc (layout cfg) 0) 2 =
      g0InodeTable total * fmtBlockSize + fmtInodeSize := by
    rw [formatted_desc cfg addressable (nGroups_pos accepted addressable), Layout.inodeOff,
      layout_start]
    have first : groupSuperBlocks total 0 = 1 + bgdtBlocks total := rfl
    have inodes : (layout cfg).inodesPerGroup = 256 := rfl
    have size : (layout cfg).inodeSize = fmtInodeSize := rfl
    rw [first, inodes, size, Nat.zero_mul, Nat.zero_add, g0InodeTable, Nat.one_mod, Nat.one_mul]
  have image : (formatted total cfg).disk = Disk.writeAll (fun _ => 0)
      (([(1024, superRaw total cfg), (fmtBlockSize, bgdtBuf total)] ++
        (range (nGroups total)).flatMap (groupWrites total cfg)) ++
        (g0InodeTable total * fmtBlockSize + fmtInodeSize, rootRaw total cfg) ::
          [(g0RootDirDataBlock total * fmtBlockSize, dirBuf)]) := rfl
  have read : (formatted total cfg).disk.readAt (g0InodeTable total * fmtBlockSize + fmtInodeSize)
      fmtInodeSize = rootRaw total cfg := by
    rw [image]
    refine Disk.readAt_writeAll_whole rootRaw_length fun write mem => .inl ?_
    rw [mem_singleton.mp mem]
    unfold g0RootDirDataBlock fmtInodeTableBlocks fmtBlockSize fmtInodeSize
    omega
  have size : (layout cfg).inodeSize = fmtInodeSize := rfl
  have few := bgdtBlocks_le total
  have apart := @rootSlots_apart total cfg
  rw [← length_replicate (n := fmtInodeSize) (a := (0 : UInt8))] at apart
  have mem : ⟨60, 4, g0RootDirDataBlock total⟩ ∈ rootSlots total cfg := by simp [rootSlots]
  rw [rootBlock, place, size, read, rootRaw, field_putSlots apart mem]
  apply Nat.mod_eq_of_lt
  dsimp only
  unfold g0RootDirDataBlock g0InodeTable fmtInodeTableBlocks
  omega

end Ext4.Resize.Format

namespace Ext4.Resize
open Octets Format List
open Volume (fmtBlockSize fmtBlocksPerGroup fmtInodesPerGroup fmtInodeTableBlocks fmtReservedInodes)

/-- The blocks of the structures of a group: the copies of the superblock and of the descriptors,
the bitmaps and the inode table. -/
def Vol.groupMeta (v : Layout) (s : Vol) (g : Nat) : List Nat :=
  range' (v.groupStart g) (v.superBlocks (v.gdtBlocks (s.numBlockGroups v)) g) ++
    (s.desc v g).blockBitmap :: (s.desc v g).inodeBitmap ::
      range' (s.desc v g).inodeTable v.inodeTableBlocks

def Vol.freeIn (v : Layout) (s : Vol) (g : Nat) : Nat :=
  Alloc.clearCount v.blocksPerGroup (bitAt (s.block v (s.desc v g).blockBitmap))

def Vol.freeInodesIn (v : Layout) (s : Vol) (g : Nat) : Nat :=
  Alloc.clearCount v.inodesPerGroup (bitAt (s.block v (s.desc v g).inodeBitmap))

/-- A new filesystem: every structure in its place, and the bitmaps and counts to match. -/
structure WellFormed (v : Layout) (s : Vol) : Prop where
  distinct : ∀ g < s.numBlockGroups v, (s.groupMeta v g).Nodup
  inside : ∀ g < s.numBlockGroups v, ∀ b ∈ s.groupMeta v g,
    v.groupStart g ≤ b ∧ b < v.groupStart g + v.blocksPerGroup ∧ b < s.sb.blocksCount
  marked : ∀ g < s.numBlockGroups v, ∀ i < 8 * v.blockSize,
    bitAt (s.block v (s.desc v g).blockBitmap) i ↔
      v.groupStart g + i ∈ s.groupMeta v g ∨ v.groupStart g + i = rootBlock v s ∨
        v.present s.sb.blocksCount g ≤ i
  freeBlocks : ∀ g < s.numBlockGroups v, (s.desc v g).freeBlocks = s.freeIn v g
  freeInodes : ∀ g < s.numBlockGroups v, (s.desc v g).freeInodes = s.freeInodesIn v g
  totalBlocks : s.sb.freeBlocks = ((range (s.numBlockGroups v)).map (s.freeIn v)).sum
  totalInodes : s.sb.freeInodes = ((range (s.numBlockGroups v)).map (s.freeInodesIn v)).sum

section
variable {total g : Nat} (cfg : Config)

/-- The number of groups fits in 32 bits, and the last group has room for its metadata. -/
def Format.Fits (total : Nat) : Prop :=
  total + fmtBlocksPerGroup ≤ 2 ^ 32 ∧
    (total % fmtBlocksPerGroup = 0 ∨
      groupMetaBlocks total (total / fmtBlocksPerGroup) ≤ total % fmtBlocksPerGroup)

instance (total : Nat) : Decidable (Format.Fits total) := inferInstanceAs (Decidable (_ ∧ _))

theorem formatted_groups (addressable : total + fmtBlocksPerGroup ≤ 2 ^ 32) :
    (formatted total cfg).numBlockGroups (layout cfg) = nGroups total := by
  have size : (layout cfg).blocksPerGroup = fmtBlocksPerGroup := rfl
  rw [Vol.numBlockGroups, Layout.groupsOf, (formatted_counts cfg addressable).1, size]
  unfold nGroups fmtBlocksPerGroup at *
  omega

theorem layout_groupStart : (layout cfg).groupStart g = g * fmtBlocksPerGroup := Nat.add_zero _

theorem layout_superBlocks :
    (layout cfg).superBlocks ((layout cfg).gdtBlocks (nGroups total)) g = groupSuperBlocks total g := by
  have sparse : (layout cfg).isSparseSuperGroup g = Volume.groupIsSparseBackup g := by
    simp [Layout.isSparseSuperGroup, layout]
  rw [Layout.superBlocks, groupSuperBlocks, sparse]
  rfl

theorem layout_inodeTableBlocks : (layout cfg).inodeTableBlocks = fmtInodeTableBlocks := by
  simp [Layout.inodeTableBlocks, layout, fmtInodeSize, fmtInodesPerGroup, fmtBlockSize,
    fmtInodeTableBlocks]

theorem formatted_groupMeta (addressable : total + fmtBlocksPerGroup ≤ 2 ^ 32)
    (present : g < nGroups total) :
    (formatted total cfg).groupMeta (layout cfg) g =
      range' (g * fmtBlocksPerGroup) (groupSuperBlocks total g + 2 + fmtInodeTableBlocks) := by
  have tail : ∀ start n, range' start (2 + n) =
      start :: (start + 1) :: range' (start + 2) n := fun start n => by
    rw [Nat.add_comm 2 n, range'_succ, range'_succ]
  rw [Vol.groupMeta, formatted_desc cfg addressable present, formatted_groups cfg addressable,
    layout_groupStart, layout_superBlocks, layout_inodeTableBlocks, Nat.add_assoc (groupSuperBlocks _ _),
    ← range'_append_1, tail]

theorem Format.Fits.group (fits : Format.Fits total) (present : g < nGroups total) :
    groupSuperBlocks total g + 2 + fmtInodeTableBlocks ≤ groupBlocks total g := by
  obtain ⟨addressable, last⟩ := fits
  have copies := groupSuperBlocks_le total g
  have head : groupSuperBlocks total g + 2 + fmtInodeTableBlocks ≤ groupMetaBlocks total g :=
    Nat.le_add_right _ _
  unfold groupBlocks
  by_cases short : g = nGroups total - 1
  · rw [if_pos short]
    rcases last with whole | room
    · unfold nGroups fmtBlocksPerGroup fmtInodeTableBlocks at *
      omega
    · have place : g = total / fmtBlocksPerGroup := by
        have meta_pos : 0 < groupMetaBlocks total (total / fmtBlocksPerGroup) := by
          unfold groupMetaBlocks
          omega
        unfold nGroups fmtBlocksPerGroup at *
        omega
      rw [← place] at room
      refine head.trans (room.trans ?_)
      unfold fmtBlocksPerGroup at *
      omega
  · rw [if_neg short]
    unfold fmtInodeTableBlocks fmtBlocksPerGroup
    omega

section
variable (addressable : total + fmtBlocksPerGroup ≤ 2 ^ 32) (present : g < nGroups total)
include addressable present

theorem present_groupBlocks :
    (layout cfg).present (formatted total cfg).sb.blocksCount g = groupBlocks total g := by
  have size : (layout cfg).blocksPerGroup = fmtBlocksPerGroup := rfl
  rw [Layout.present, layout_groupStart, (formatted_counts cfg addressable).1, size]
  unfold groupBlocks nGroups fmtBlocksPerGroup at *
  split <;> omega

theorem formatted_freeIn :
    (formatted total cfg).freeIn (layout cfg) g = groupBlocks total g - groupMetaBlocks total g := by
  have copies := groupSuperBlocks_le total g
  have size := groupBlocks_le addressable present
  have inside : groupMetaBlocks total g ≤ 8 * fmtBlockSize := by
    unfold groupMetaBlocks fmtInodeTableBlocks fmtBlockSize
    split <;> omega
  have bits : (layout cfg).blocksPerGroup = 8 * fmtBlockSize := rfl
  rw [Vol.freeIn, formatted_desc cfg addressable present, (readAt_bitmaps cfg present).1,
    Alloc.clearCount_window fun i bound => bitAt_blockBitmap inside (by rwa [bits] at bound), bits]
  unfold fmtBlocksPerGroup at size
  unfold fmtBlockSize
  omega

theorem formatted_freeInodesIn :
    (formatted total cfg).freeInodesIn (layout cfg) g =
      fmtInodesPerGroup - if g = 0 then fmtReservedInodes else 0 := by
  have bits : (layout cfg).inodesPerGroup = fmtInodesPerGroup := rfl
  rw [Vol.freeInodesIn, formatted_desc cfg addressable present, (readAt_bitmaps cfg present).2,
    Alloc.clearCount_window fun i bound => bitAt_inodeBitmap (by
      rw [bits] at bound
      unfold fmtInodesPerGroup at bound
      unfold fmtBlockSize
      omega), bits, Nat.min_self]

end

theorem sum_freeInodes (n : Nat) : ((range (n + 1)).map fun g =>
    fmtInodesPerGroup - if g = 0 then fmtReservedInodes else 0).sum =
      fmtInodesPerGroup * (n + 1) - fmtReservedInodes := by
  rw [range_succ_eq_map, map_cons, sum_cons, map_map]
  simp only [Function.comp_def, Nat.succ_ne_zero, if_true, if_false, map_const',
    length_range, sum_replicate, smul_eq_mul]
  unfold fmtInodesPerGroup fmtReservedInodes
  omega

theorem formatted_marked (accepted : accepts total) (fits : Format.Fits total)
    (present : g < nGroups total) {i : Nat} (bound : i < 8 * fmtBlockSize) :
    bitAt ((formatted total cfg).block (layout cfg)
        ((formatted total cfg).desc (layout cfg) g).blockBitmap) i ↔
      (layout cfg).groupStart g + i ∈ (formatted total cfg).groupMeta (layout cfg) g ∨
        (layout cfg).groupStart g + i = rootBlock (layout cfg) (formatted total cfg) ∨
        (layout cfg).present (formatted total cfg).sb.blocksCount g ≤ i := by
  have addressable := fits.1
  have copies := groupSuperBlocks_le total g
  have inside : groupMetaBlocks total g ≤ 8 * fmtBlockSize := by
    unfold groupMetaBlocks fmtInodeTableBlocks fmtBlockSize
    split <;> omega
  rw [formatted_groupMeta cfg addressable present, formatted_root cfg accepted addressable,
    formatted_desc cfg addressable present, (readAt_bitmaps cfg present).1, bitAt_blockBitmap inside bound,
    layout_groupStart, present_groupBlocks cfg addressable present, mem_range'_1]
  -- The block of the root directory is the one behind the inode table of group 0.
  have first : groupSuperBlocks total 0 = 1 + bgdtBlocks total := rfl
  have few := bgdtBlocks_le total
  rw [Bool.or_eq_true, decide_eq_true_eq, decide_eq_true_eq]
  unfold groupMetaBlocks g0RootDirDataBlock g0InodeTable fmtBlockSize fmtBlocksPerGroup
    fmtInodeTableBlocks at *
  by_cases zero : g = 0
  · subst zero
    rw [if_pos rfl]
    omega
  · rw [if_neg zero]
    omega

theorem formatted_wellFormed (accepted : accepts total) (fits : Format.Fits total) :
    WellFormed (layout cfg) (formatted total cfg) := by
  have addressable := fits.1
  have groups := formatted_groups cfg addressable
  constructor
  all_goals rw [groups]
  case distinct =>
    intro g present
    rw [formatted_groupMeta cfg addressable present]
    exact nodup_range'
  case inside =>
    intro g present b mem
    have room := fits.group present
    have whole := present_groupBlocks cfg addressable present
    rw [formatted_groupMeta cfg addressable present, mem_range'_1] at mem
    have size : (layout cfg).blocksPerGroup = fmtBlocksPerGroup := rfl
    rw [Layout.present, layout_groupStart, size] at whole
    rw [layout_groupStart, size]
    omega
  case marked =>
    exact fun g present i bound => formatted_marked cfg accepted fits present bound
  case freeBlocks =>
    intro g present
    rw [formatted_freeIn cfg addressable present, formatted_desc cfg addressable present]
  case freeInodes =>
    intro g present
    rw [formatted_freeInodesIn cfg addressable present, formatted_desc cfg addressable present]
    split <;> rfl
  case totalBlocks =>
    rw [(formatted_counts cfg addressable).2.1, totalFreeBlocks]
    refine congrArg sum (map_congr_left fun g mem => ?_)
    exact (formatted_freeIn cfg addressable (mem_range.mp mem)).symm
  case totalInodes =>
    have some := nGroups_pos accepted addressable
    have few := nGroups_le total
    rw [(formatted_counts cfg addressable).2.2, map_congr_left fun g mem =>
      formatted_freeInodesIn cfg addressable (mem_range.mp mem)]
    obtain ⟨n, eq⟩ := Nat.exists_eq_succ_of_ne_zero some.ne'
    rw [eq, sum_freeInodes, ← Nat.succ_eq_add_one, ← eq]
    unfold fmtInodesPerGroup fmtReservedInodes
    omega

/-! ## The sizes that do not fit -/

theorem formatted_desc_none (none : nGroups total = 0) :
    ((formatted total cfg).desc (layout cfg) 0).blockBitmap =
      ((formatted total cfg).desc (layout cfg) 0).inodeBitmap := by
  have image : writes total cfg = [(1024, superRaw total cfg), (fmtBlockSize, []),
      (3 * fmtBlockSize + fmtInodeSize, rootRaw total cfg), (19 * fmtBlockSize, dirBuf)] := by
    have table : bgdtBlocks total = 0 := by
      rw [bgdtBlocks, none]
      decide
    simp only [writes, bgdtBuf, none, range_zero, flatMap_nil, append_nil,
      g0RootDirDataBlock, g0InodeTable, table]
    rfl
  have zero : (formatted total cfg).disk.readAt ((layout cfg).descOff 0) fmtDescSize =
      replicate fmtDescSize 0 := by
    have disk : (formatted total cfg).disk = Overlay.Disk.writeAll (fun _ => 0) (writes total cfg) := rfl
    rw [Overlay.Disk.readAt, disk, image, layout_descOff, eq_replicate_iff]
    refine ⟨by rw [length_map, length_range], fun octet mem => ?_⟩
    obtain ⟨i, inRange, rfl⟩ := mem_map.mp mem
    have bound := mem_range.mp inRange
    refine Overlay.Disk.writeAll_outside fun write written => ?_
    have super := @superRaw_length total cfg
    unfold fmtDescSize at bound
    unfold fmtBlockSize fmtInodeSize at *
    simp only [mem_cons, not_mem_nil, or_false] at written
    rcases written with rfl | rfl | rfl | rfl <;> dsimp only [length_nil] <;> omega
  have size : (layout cfg).descSize = fmtDescSize := rfl
  rw [Vol.desc, size, zero, decodeBGD]
  rw [wideField_layout, wideField_layout, field_zero, field_zero]

theorem WellFormed.addressable (accepted : accepts total)
    (formed : WellFormed (layout cfg) (formatted total cfg)) : total + fmtBlocksPerGroup ≤ 2 ^ 32 := by
  by_contra wraps
  simp only [accepts, Bool.and_eq_true, decide_eq_true_eq] at accepted
  have size : (layout cfg).blocksPerGroup = fmtBlocksPerGroup := rfl
  have groups : 0 < (formatted total cfg).numBlockGroups (layout cfg) := by
    rw [Vol.numBlockGroups, Layout.groupsOf, formatted_blocksCount cfg accepted.2, size]
    unfold fmtBlocksPerGroup at *
    omega
  have none : nGroups total = 0 := by
    unfold nGroups fmtBlocksPerGroup at *
    omega
  have twice := formed.distinct 0 groups
  rw [Vol.groupMeta, formatted_desc_none cfg none] at twice
  have pair := (nodup_append.mp twice).2.1
  exact (nodup_cons.mp pair).1 (.head _)

theorem WellFormed.fits (accepted : accepts total)
    (formed : WellFormed (layout cfg) (formatted total cfg)) : Format.Fits total := by
  have addressable := formed.addressable cfg accepted
  refine ⟨addressable, Classical.or_iff_not_imp_left.mpr fun rest => ?_⟩
  simp only [accepts, Bool.and_eq_true, decide_eq_true_eq] at accepted
  have present : total / fmtBlocksPerGroup < nGroups total := by
    unfold nGroups fmtBlocksPerGroup at *
    omega
  have inside := formed.inside (total / fmtBlocksPerGroup)
    ((formatted_groups cfg addressable).symm ▸ present)
  rw [formatted_groupMeta cfg addressable present, (formatted_counts cfg addressable).1] at inside
  by_cases first : total / fmtBlocksPerGroup = 0
  · have one : nGroups total = 1 := by
      unfold nGroups fmtBlocksPerGroup at *
      omega
    have table : bgdtBlocks total = 1 := by rw [bgdtBlocks, one]; decide
    have head : groupMetaBlocks total 0 = Volume.fmtMinBlocks := by
      have copies : groupSuperBlocks total 0 = 1 + bgdtBlocks total := rfl
      rw [groupMetaBlocks, copies, table]
      rfl
    rw [first, head]
    have := Nat.div_add_mod total fmtBlocksPerGroup
    rw [first] at this
    omega
  · -- The last block of the inode table.
    have last := (inside (total / fmtBlocksPerGroup * fmtBlocksPerGroup +
      (groupSuperBlocks total (total / fmtBlocksPerGroup) + 1 + fmtInodeTableBlocks))
      (mem_range'_1.mpr (by omega))).2.2
    have := Nat.div_add_mod total fmtBlocksPerGroup
    rw [groupMetaBlocks, if_neg first]
    rw [Nat.mul_comm] at this
    omega

/-- A size that is accepted gives a well-formed filesystem exactly when its groups can be counted in
32 bits and the last group has room for its metadata; only group 0 is checked for it. -/
theorem format_wellFormed_iff (accepted : accepts total) :
    WellFormed (layout cfg) (formatted total cfg) ↔ Format.Fits total :=
  ⟨fun formed => formed.fits cfg accepted, formatted_wellFormed cfg accepted⟩

end

theorem format_wellFormed_iff_twelve : accepts 393216 ∧
    (WellFormed (layout ⟨[], [], 0⟩) (formatted 393216 ⟨[], [], 0⟩) ↔ Format.Fits 393216) :=
  ⟨by decide, format_wellFormed_iff _ (by decide)⟩

/-- One block more than a group: nothing of the metadata of group 1 but a copy of the superblock is
below the end. -/
theorem format_short_last_group : accepts 32769 ∧
    ¬ WellFormed (layout ⟨[], [], 0⟩) (formatted 32769 ⟨[], [], 0⟩) :=
  ⟨by decide, fun formed => absurd (formed.fits _ (by decide)) (by decide)⟩

end Ext4.Resize
