import Ext4.Resize.Descriptors
import Ext4.Resize.Formatted

/-! Filesystems in good order.
`Filesystem` says where the structures may be: with flex_bg a bitmap or an inode table can be in any
group, but not on the superblock, on a copy of the descriptors or on another structure. `Consistent`
adds that the counts and checksums are right and that the structures are marked as used. -/

namespace Ext4.Resize
open Octets Overlay SuperArea List

def Vol.structures (v : Layout) (s : Vol) (g : Nat) : List Nat :=
  (s.desc v g).blockBitmap :: (s.desc v g).inodeBitmap ::
    range' (s.desc v g).inodeTable v.inodeTableBlocks

def Vol.inUse (v : Layout) (s : Vol) (b : Nat) : Bool :=
  let k := b - v.firstDataBlock
  bitAt (s.block v (s.desc v (k / v.blocksPerGroup)).blockBitmap) (k % v.blocksPerGroup)

structure Filesystem (v : Layout) (s : Vol) : Prop where
  raw : s.sb.raw.length = superblockSize
  first : v.bgdTableBlock = v.firstDataBlock + 1
  onDevice : v.start s.sb.blocksCount ≤ s.size
  /-- The groups have 32-bit numbers, and so have the inodes. -/
  groups : s.sb.blocksCount + v.blocksPerGroup ≤ 2 ^ 32 * v.blocksPerGroup
  inodes : s.numBlockGroups v * v.inodesPerGroup < 2 ^ 32
  table : v.bgdTableBlock + v.gdtBlocks (s.numBlockGroups v) + v.reservedGdt ≤ s.sb.blocksCount
  inside : ∀ g < s.numBlockGroups v, ∀ b ∈ s.structures v g,
    v.firstDataBlock ≤ b ∧ b < s.sb.blocksCount
  behind : ∀ g < s.numBlockGroups v, ∀ b ∈ s.structures v g, ∀ g' < s.numBlockGroups v,
    v.isSparseSuperGroup g' → b < v.groupStart g' ∨
      v.groupStart g' + 1 + v.gdtBlocks (s.numBlockGroups v) + v.reservedGdt ≤ b
  distinct : ((range (s.numBlockGroups v)).flatMap (s.structures v)).Nodup

structure Consistent (v : Layout) (s : Vol) : Prop extends Filesystem v s where
  freeBlocks : ∀ g < s.numBlockGroups v, (s.desc v g).freeBlocks = s.freeIn v g
  freeInodes : ∀ g < s.numBlockGroups v, (s.desc v g).freeInodes = s.freeInodesIn v g
  totalBlocks : s.sb.freeBlocks = ((range (s.numBlockGroups v)).map (s.freeIn v)).sum
  totalInodes : s.sb.freeInodes = ((range (s.numBlockGroups v)).map (s.freeInodesIn v)).sum
  descSum : ∀ g < s.numBlockGroups v, sealDesc v g (s.desc v g).raw = (s.desc v g).raw
  blockSum : ∀ g < s.numBlockGroups v, setBitmapCsum v v.blocksPerGroup 24 56
    (s.block v (s.desc v g).blockBitmap) (s.desc v g) = s.desc v g
  inodeSum : ∀ g < s.numBlockGroups v, setBitmapCsum v v.inodesPerGroup 26 58
    (s.block v (s.desc v g).inodeBitmap) (s.desc v g) = s.desc v g
  marked : ∀ g < s.numBlockGroups v, ∀ b ∈ s.structures v g, s.inUse v b

variable {v : Layout} {s t : Vol} {g b g' blocks : Nat}

theorem Layout.blockSize_le (v : Layout) : v.blockSize ≤ 65536 := by
  obtain ⟨k, small, eq⟩ := v.blockSize_eq
  have : 2 ^ k ≤ 2 ^ 6 := Nat.pow_le_pow_right (by decide) small
  rw [eq]
  omega

theorem isSparseSuperGroup_zero : v.isSparseSuperGroup 0 := by
  rw [Layout.isSparseSuperGroup, Bool.or_eq_true]
  exact .inr (by decide)

theorem blockBitmap_mem : (s.desc v g).blockBitmap ∈ s.structures v g := .head _

theorem inodeBitmap_mem : (s.desc v g).inodeBitmap ∈ s.structures v g := .tail _ (.head _)

theorem groupsOf_eq (counted : blocks + v.blocksPerGroup ≤ 2 ^ 32 * v.blocksPerGroup) :
    v.groupsOf blocks = (blocks + v.blocksPerGroup - 1) / v.blocksPerGroup := by
  have positive := v.blocksPerGroup_pos
  apply Nat.mod_eq_of_lt
  rw [Nat.div_lt_iff_lt_mul positive]
  omega

theorem lt_groupsOf (counted : blocks + v.blocksPerGroup ≤ 2 ^ 32 * v.blocksPerGroup) :
    g < v.groupsOf blocks ↔ g * v.blocksPerGroup < blocks := by
  have positive := v.blocksPerGroup_pos
  rw [groupsOf_eq counted, Nat.lt_iff_add_one_le, Nat.le_div_iff_mul_le positive, Nat.succ_mul]
  omega

theorem descOff_le {groups : Nat} (present : g < groups) :
    v.descOff g + v.descSize ≤ v.start (v.bgdTableBlock + v.gdtBlocks (groups)) := by
  have positive := v.blockSize_ge
  have records : (g + 1) * v.descSize ≤ v.gdtBlocks (groups) * v.blockSize := by
    have most : (g + 1) * v.descSize ≤ groups * v.descSize :=
      Nat.mul_le_mul_right _ present
    have rounded := Nat.lt_div_mul_add (a := groups * v.descSize + v.blockSize - 1)
      (show 0 < v.blockSize by omega)
    unfold Layout.gdtBlocks
    omega
  unfold Layout.descOff Layout.start
  rw [Nat.succ_mul] at records
  rw [Nat.add_mul]
  omega

theorem descOff_ge : v.partOffset + 2048 ≤ v.descOff g := by
  have size := v.blockSize_ge
  obtain ⟨k, -, eq⟩ := v.blockSize_eq
  have room : 2048 ≤ v.bgdTableBlock * v.blockSize := by
    unfold Geometry.bgdTableBlock
    split
    · cases k with
      | zero => omega
      | succ k =>
        rw [eq, Nat.pow_succ]
        omega
    · omega
  unfold Layout.descOff Layout.start
  omega

namespace Filesystem
variable (filesystem : Filesystem v s)
include filesystem

section
variable (present : g < s.numBlockGroups v) (mem : b ∈ s.structures v g)
include present mem

theorem tableEnd_le :
    v.bgdTableBlock + v.gdtBlocks (s.numBlockGroups v) + v.reservedGdt ≤ b := by
  have first := filesystem.first
  have low := (filesystem.inside g present b mem).1
  have start : v.groupStart 0 = v.firstDataBlock := by rw [Layout.groupStart, Nat.zero_mul, Nat.zero_add]
  rcases filesystem.behind g present b mem 0 (by omega) isSparseSuperGroup_zero with before | behind
  · omega
  · omega

theorem start_structure_ge :
    v.start (v.bgdTableBlock + v.gdtBlocks (s.numBlockGroups v)) ≤ v.start b := by
  have behind := filesystem.tableEnd_le present mem
  exact Nat.add_le_add_left (Nat.mul_le_mul_right _ (by omega)) _

theorem start_structure_le :
    v.start b + v.blockSize ≤ s.size :=
  (start_apart (filesystem.inside g present b mem).2).trans filesystem.onDevice

end

theorem desc_onDevice (present : g < s.numBlockGroups v) : v.descOff g + v.descSize ≤ s.size := by
  have table := filesystem.table
  refine (descOff_le present).trans (le_trans ?_ filesystem.onDevice)
  exact Nat.add_le_add_left (Nat.mul_le_mul_right _ (by omega)) _

end Filesystem

theorem Filesystem.structures_ne (filesystem : Filesystem v s) {b' : Nat}
    (present : g < s.numBlockGroups v) (present' : g' < s.numBlockGroups v) (other : g ≠ g')
    (mem : b ∈ s.structures v g) (mem' : b' ∈ s.structures v g') : b ≠ b' := by
  rintro rfl
  have apart := (nodup_flatMap.mp filesystem.distinct).2
  have pairs := pairwise_iff_getElem.mp apart
  have lengths := @length_range (s.numBlockGroups v)
  rcases Nat.lt_or_gt_of_ne other with less | more
  · have disjoint := pairs g g' (by omega) (by omega) less
    simp only [getElem_range] at disjoint
    exact disjoint mem mem'
  · have disjoint := pairs g' g (by omega) (by omega) more
    simp only [getElem_range] at disjoint
    exact disjoint mem' mem

/-! ## A bitmap and its descriptor -/

/-- The block bitmap of the group was written and then its descriptor, with other counts. -/
structure Rewritten (v : Layout) (s : Vol) (g : Nat) (bitmap : Bytes) (t : Vol) : Prop where
  long : bitmap.length = v.blockSize
  writes : ∃ written, SameOutside descSpans written (s.desc v g).raw ∧
    t.disk = (s.disk.writeAt (v.start (s.desc v g).blockBitmap) bitmap).writeAt (v.descOff g) written ∧
    t.size = max (max s.size (v.start (s.desc v g).blockBitmap + v.blockSize)) (v.descOff g + v.descSize)

theorem rewritten_writeBGD {bitmap : Bytes} {free : Nat} (long : bitmap.length = v.blockSize) :
    Rewritten v s g bitmap ((s.writeAt (v.start (s.desc v g).blockBitmap) bitmap).writeBGD v g
      (setBitmapCsum v v.blocksPerGroup 24 56 bitmap { s.desc v g with freeBlocks := free })) := by
  have sum : SameOutside descSpans (setBitmapCsum v v.blocksPerGroup 24 56 bitmap
      { s.desc v g with freeBlocks := free }).raw (s.desc v g).raw :=
    setBitmapCsum_same (by decide) (by decide) desc_raw_length (by decide) (by decide)
  have whole := @written_same v (s.writeAt (v.start (s.desc v g).blockBitmap) bitmap) _ g
    (sum.length.trans desc_raw_length)
  refine ⟨long, _, whole.trans sum, rfl, ?_⟩
  have length := (whole.trans sum).length.trans desc_raw_length
  rw [← length, ← long]
  rfl

namespace Rewritten
variable {bitmap : Bytes} (rewritten : Rewritten v s g bitmap t)
include rewritten

theorem outside {p : Nat}
    (apart : p < v.start (s.desc v g).blockBitmap ∨ v.start (s.desc v g).blockBitmap + v.blockSize ≤ p)
    (apart' : p < v.descOff g ∨ v.descOff g + v.descSize ≤ p) : t.disk p = s.disk p := by
  obtain ⟨written, same, disk, -⟩ := rewritten.writes
  rw [disk, Disk.writeAt_outside _ _ _ _ (by rwa [same.length, desc_raw_length]),
    Disk.writeAt_outside _ _ _ _ (by rwa [rewritten.long])]

theorem structures_self : (t.desc v g).structures = (s.desc v g).structures := by
  obtain ⟨written, same, disk, -⟩ := rewritten.writes
  have read := Disk.readAt_writeAt (s.disk.writeAt (v.start (s.desc v g).blockBitmap) bitmap)
    (v.descOff g) written
  rw [same.length.trans desc_raw_length] at read
  rw [Vol.desc, disk, read]
  exact decodeBGD_structures same

variable (filesystem : Filesystem v s) (present : g < s.numBlockGroups v)
include filesystem present

theorem size_eq : t.size = s.size := by
  have block := filesystem.start_structure_le present (@blockBitmap_mem v s g)
  have desc := filesystem.desc_onDevice present
  obtain ⟨_, -, -, size⟩ := rewritten.writes
  omega

theorem block_self : t.block v (s.desc v g).blockBitmap = bitmap := by
  have below := descOff_le (v := v) present
  have behind := filesystem.start_structure_ge present (@blockBitmap_mem v s g)
  obtain ⟨written, same, disk, -⟩ := rewritten.writes
  have long := same.length.trans desc_raw_length
  have read := Disk.readAt_writeAt s.disk (v.start (s.desc v g).blockBitmap) bitmap
  rw [rewritten.long] at read
  -- The descriptor is in front of the bitmap.
  refine (Disk.readAt_congr fun i _ => ?_).trans read
  rw [disk, Disk.writeAt_outside _ _ _ _ (by omega)]

theorem block_other (present' : g' < s.numBlockGroups v) (mem : b ∈ s.structures v g')
    (other : b ≠ (s.desc v g).blockBitmap) : t.block v b = s.block v b := by
  have below := descOff_le (v := v) present
  have behind := filesystem.start_structure_ge present' mem
  refine block_congr fun p first last => rewritten.outside ?_ (by omega)
  rcases Nat.lt_or_gt_of_ne other with less | more
  · have := start_apart (v := v) less
    omega
  · have := start_apart (v := v) more
    omega

theorem desc_other (present' : g' < s.numBlockGroups v) (other : g' ≠ g) : t.desc v g' = s.desc v g' := by
  have below := descOff_le (v := v) present'
  have behind := filesystem.start_structure_ge present (@blockBitmap_mem v s g)
  refine desc_congr fun p first last => rewritten.outside (by omega) ?_
  unfold Layout.descOff at *
  rcases Nat.lt_or_gt_of_ne other with less | more
  · have := Nat.mul_le_mul_right v.descSize (Nat.succ_le_of_lt less)
    rw [Nat.succ_mul] at this
    omega
  · have := Nat.mul_le_mul_right v.descSize (Nat.succ_le_of_lt more)
    rw [Nat.succ_mul] at this
    omega

end Rewritten

/-! ## New filesystems -/

section
open Format
open Volume (fmtBlockSize fmtBlocksPerGroup fmtInodesPerGroup fmtInodeTableBlocks)

variable {total : Nat} (cfg : Config) (fits : Format.Fits total)
include fits

theorem formatted_structures (present : g < nGroups total) : (formatted total cfg).structures (layout cfg) g =
      range' (g * fmtBlocksPerGroup + groupSuperBlocks total g) (2 + fmtInodeTableBlocks) := by
  rw [Vol.structures, formatted_desc cfg fits.1 present, layout_inodeTableBlocks, Nat.add_comm 2,
    range'_succ, range'_succ]

theorem formatted_structure_bounds (present : g < nGroups total)
    (mem : b ∈ (formatted total cfg).structures (layout cfg) g) :
    g * fmtBlocksPerGroup + groupSuperBlocks total g ≤ b ∧ b < (g + 1) * fmtBlocksPerGroup ∧ b < total := by
  have room := fits.group present
  have whole := present_groupBlocks cfg fits.1 present
  have blocks : (layout cfg).blocksPerGroup = fmtBlocksPerGroup := rfl
  rw [Layout.present, layout_groupStart, (formatted_counts cfg fits.1).1, blocks] at whole
  rw [formatted_structures cfg fits present, mem_range'_1] at mem
  rw [Nat.succ_mul]
  omega

theorem formatted_filesystem (accepted : accepts total) :
    Filesystem (layout cfg) (formatted total cfg) := by
  have groups := formatted_groups cfg fits.1
  have few := nGroups_le total
  have count := (formatted_counts cfg fits.1).1
  have blocks : (layout cfg).blocksPerGroup = fmtBlocksPerGroup := rfl
  have gdt : (layout cfg).gdtBlocks (nGroups total) = bgdtBlocks total := rfl
  have reserved : (layout cfg).reservedGdt = 0 := rfl
  constructor
  case raw => exact superRaw_length
  case first => rfl
  case onDevice =>
    have most : ∀ (writes : List (Nat × Bytes)) size,
        size ≤ writes.foldl (fun size write => max size (write.1 + write.2.length)) size := by
      intro writes
      induction writes with
      | nil => exact fun size => le_refl size
      | cons write rest ih => exact fun size => (Nat.le_max_left _ _).trans (ih _)
    rw [count, layout_start]
    exact most _ _
  case groups =>
    have below := fits.1
    rw [count, blocks]
    unfold fmtBlocksPerGroup at *
    omega
  case inodes =>
    have inodes : (layout cfg).inodesPerGroup = fmtInodesPerGroup := rfl
    rw [groups, inodes]
    unfold fmtInodesPerGroup
    omega
  case table =>
    have table : (layout cfg).bgdTableBlock = 1 := rfl
    have room := fits.group (nGroups_pos accepted fits.1)
    have first : groupSuperBlocks total 0 = 1 + bgdtBlocks total := rfl
    have whole := present_groupBlocks cfg fits.1 (nGroups_pos accepted fits.1)
    rw [Layout.present, layout_groupStart, count] at whole
    rw [groups, gdt, reserved, count, table]
    omega
  case inside =>
    intro g present b mem
    rw [groups] at present
    rw [count]
    exact ⟨Nat.zero_le _, (formatted_structure_bounds cfg fits present mem).2.2⟩
  case behind =>
    intro g present b mem g' present' sparse
    rw [groups] at present present'
    obtain ⟨low, high, -⟩ := formatted_structure_bounds cfg fits present mem
    rw [layout_groupStart, groups, gdt, reserved]
    rcases Nat.lt_trichotomy g g' with before | rfl | after
    · have := Nat.mul_le_mul_right fmtBlocksPerGroup (Nat.succ_le_of_lt before)
      rw [Nat.succ_eq_add_one] at this
      omega
    · have copies := @layout_superBlocks total g cfg
      rw [Layout.superBlocks, if_pos sparse, gdt, reserved] at copies
      omega
    · have copies := bgdtBlocks_le total
      unfold fmtBlocksPerGroup at *
      omega
  case distinct =>
    rw [groups, nodup_flatMap]
    refine ⟨fun g mem => ?_, ?_⟩
    · rw [formatted_structures cfg fits (mem_range.mp mem)]
      exact nodup_range'
    · refine pairwise_lt_range.imp_of_mem fun {g g'} mem mem' before => ?_
      intro b one two
      have first := formatted_structure_bounds cfg fits (mem_range.mp mem) one
      have second := formatted_structure_bounds cfg fits (mem_range.mp mem') two
      have := Nat.mul_le_mul_right fmtBlocksPerGroup (Nat.succ_le_of_lt before)
      rw [Nat.succ_eq_add_one] at this
      omega

theorem formatted_consistent (accepted : accepts total) :
    Consistent (layout cfg) (formatted total cfg) := by
  have groups := formatted_groups cfg fits.1
  have formed := formatted_wellFormed cfg accepted fits
  have plain : (layout cfg).metadataCsum = false := by simp [Layout.metadataCsum, layout,
    featROCompatMetadataCsum]
  refine ⟨formatted_filesystem cfg fits accepted, formed.freeBlocks, formed.freeInodes,
    formed.totalBlocks, formed.totalInodes, ?_, ?_, ?_, ?_⟩
  · exact fun g _ => by simp [sealDesc, plain]
  · exact fun g _ => by simp [setBitmapCsum, plain]
  · exact fun g _ => by simp [setBitmapCsum, plain]
  · intro g present b mem
    rw [groups] at present
    obtain ⟨low, high, -⟩ := formatted_structure_bounds cfg fits present mem
    have blocks : (layout cfg).blocksPerGroup = fmtBlocksPerGroup := rfl
    have start : (layout cfg).firstDataBlock = 0 := rfl
    -- The block is in the group whose structure it is.
    have group : b / fmtBlocksPerGroup = g := by
      rw [Nat.div_eq_iff (by decide)]
      rw [Nat.succ_mul] at high
      omega
    have place : g * fmtBlocksPerGroup + b % fmtBlocksPerGroup = b := by
      rw [← group]
      exact Nat.div_add_mod' b fmtBlocksPerGroup
    have bound : b % fmtBlocksPerGroup < 8 * fmtBlockSize := Nat.mod_lt _ (by decide)
    unfold Vol.inUse
    dsimp only
    rw [blocks, start, Nat.sub_zero, group, formatted_marked cfg accepted fits present bound,
      layout_groupStart, place]
    exact .inl (mem_append_right _ mem)

end

end Ext4.Resize
