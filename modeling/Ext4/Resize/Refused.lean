import Ext4.Resize.Growing
import Ext4.Resize.ShrinkAllocator

/-! A resize that is refused.
`Grow` publishes the new number of blocks before it looks at the groups and does not take it back;
`Shrink` cuts the bitmap of the last remaining group before it looks at the groups behind it. -/

namespace Ext4.Resize
open Octets Overlay SuperArea Format List
open Volume (fmtBlockSize)

variable {v : Layout} {s t u : Vol} {g b p : Nat}

/-! ## Allocation takes clear bits -/

structure MoreUsed (v : Layout) (s t : Vol) : Prop where
  raw : t.sb.raw.length = superblockSize
  blocksCount : t.sb.blocksCount = s.sb.blocksCount
  size : s.size ≤ t.size
  structures : ∀ g < s.numBlockGroups v, (t.desc v g).structures = (s.desc v g).structures
  used : ∀ g < s.numBlockGroups v, ∀ i, bitAt (s.block v (s.desc v g).blockBitmap) i →
    bitAt (t.block v (s.desc v g).blockBitmap) i

theorem structures_congr (same : (t.desc v g).structures = (s.desc v g).structures) :
    t.structures v g = s.structures v g := by
  obtain ⟨block, rest⟩ := Prod.mk.inj same
  obtain ⟨inode, table⟩ := Prod.mk.inj rest
  rw [Vol.structures, Vol.structures, block, inode, table]

theorem Filesystem.of_structures (filesystem : Filesystem v s) (raw : t.sb.raw.length = superblockSize)
    (blocksCount : t.sb.blocksCount = s.sb.blocksCount) (size : s.size ≤ t.size)
    (structures : ∀ g < s.numBlockGroups v, (t.desc v g).structures = (s.desc v g).structures) :
    Filesystem v t := by
  have groups : t.numBlockGroups v = s.numBlockGroups v := by
    rw [Vol.numBlockGroups, Vol.numBlockGroups, blocksCount]
  replace structures : ∀ g < s.numBlockGroups v, t.structures v g = s.structures v g :=
    fun g present => structures_congr (structures g present)
  have listed : (range (s.numBlockGroups v)).flatMap (t.structures v) =
      (range (s.numBlockGroups v)).flatMap (s.structures v) :=
    flatMap_congr fun g mem => structures g (mem_range.mp mem)
  constructor
  case raw => exact raw
  case first => exact filesystem.first
  case onDevice => exact blocksCount ▸ filesystem.onDevice.trans size
  case groups => exact blocksCount ▸ filesystem.groups
  case inodes => exact groups ▸ filesystem.inodes
  case table => exact groups ▸ blocksCount ▸ filesystem.table
  case distinct => rw [groups, listed]; exact filesystem.distinct
  case inside =>
    intro g present b mem
    rw [groups] at present
    exact blocksCount ▸ filesystem.inside g present b (structures g present ▸ mem)
  case behind =>
    intro g present b mem g' present'
    rw [groups] at present present' ⊢
    exact filesystem.behind g present b (structures g present ▸ mem) g' present'

namespace MoreUsed

theorem refl (raw : s.sb.raw.length = superblockSize) : MoreUsed v s s :=
  ⟨raw, rfl, le_refl _, fun _ _ => rfl, fun _ _ _ => id⟩

theorem groups (more : MoreUsed v s t) : t.numBlockGroups v = s.numBlockGroups v := by
  rw [Vol.numBlockGroups, Vol.numBlockGroups, more.blocksCount]

theorem blockBitmap (more : MoreUsed v s t) (present : g < s.numBlockGroups v) :
    (t.desc v g).blockBitmap = (s.desc v g).blockBitmap := (Prod.mk.inj (more.structures g present)).1

theorem trans (one : MoreUsed v s t) (two : MoreUsed v t u) : MoreUsed v s u := by
  have groups := one.groups
  refine ⟨two.raw, two.blocksCount.trans one.blocksCount, one.size.trans two.size, fun g present => ?_,
    fun g present i used => ?_⟩
  · exact (two.structures g (groups ▸ present)).trans (one.structures g present)
  · rw [← one.blockBitmap present]
    exact two.used g (groups ▸ present) i (one.blockBitmap present ▸ one.used g present i used)

theorem filesystem (more : MoreUsed v s t) (filesystem : Filesystem v s) : Filesystem v t :=
  filesystem.of_structures more.raw more.blocksCount more.size more.structures

end MoreUsed

theorem super_outside {raw : Bytes} (long : raw.length = superblockSize)
    (behind : v.partOffset + 2048 ≤ p) : (s.writeAt (v.partOffset + 1024) raw).disk p = s.disk p := by
  have size : superblockSize = 1024 := rfl
  exact writeAt_outside (by omega)

variable {bitmap : Bytes}

theorem Rewritten.moreUsed (rewritten : Rewritten v s g bitmap t) (filesystem : Filesystem v s)
    (present : g < s.numBlockGroups v) (memory : t.sb = s.sb)
    (used : ∀ i, bitAt (s.block v (s.desc v g).blockBitmap) i → bitAt bitmap i) : MoreUsed v s t := by
  constructor
  case raw => exact memory ▸ filesystem.raw
  case blocksCount => exact congrArg Super.blocksCount memory
  case size => exact (rewritten.size_eq filesystem present).ge
  case structures =>
    intro g' present'
    by_cases other : g' = g
    · exact other ▸ rewritten.structures_self
    · rw [rewritten.desc_other filesystem present present' other]
  case used =>
    intro g' present' i set
    by_cases other : g' = g
    · subst other
      rw [rewritten.block_self filesystem present]
      exact used i set
    · rw [rewritten.block_other filesystem present present' blockBitmap_mem
        (filesystem.structures_ne present' present other blockBitmap_mem blockBitmap_mem)]
      exact set

variable {sb : Super}

theorem superWritten_outside (long : sb.raw.length = superblockSize)
    (behind : v.partOffset + 2048 ≤ p) : ({ s with sb }.superWritten v).disk p = s.disk p :=
  super_outside (encoded_length long) behind

theorem superWritten_desc (long : sb.raw.length = superblockSize) (g : Nat) :
    ({ s with sb }.superWritten v).desc v g = s.desc v g :=
  desc_congr fun _ first _ => superWritten_outside long (descOff_ge.trans first)

theorem superWritten_moreUsed (filesystem : Filesystem v s) (count : sb.blocksCount = s.sb.blocksCount)
    (long : sb.raw.length = superblockSize) : MoreUsed v s ({ s with sb }.superWritten v) := by
  refine ⟨encoded_length long, count, le_max_left _ _, fun g _ => by rw [superWritten_desc long],
    fun g present i set => ?_⟩
  have behind := filesystem.start_structure_ge present (@blockBitmap_mem v s g)
  have table := @descOff_ge v 0
  have start : v.descOff 0 ≤ v.start (v.bgdTableBlock + v.gdtBlocks (s.numBlockGroups v)) := by
    have := descOff_le (v := v) (Nat.lt_of_le_of_lt (Nat.zero_le g) present)
    omega
  rw [block_congr fun p first _ => superWritten_outside long (by omega)]
  exact set

theorem takeBits_more (filesystem : Filesystem v s) (present : g < s.numBlockGroups v) {bits : List Nat}
    (inside : ∀ bit ∈ bits, bit < v.blocksPerGroup) :
    (takeBits v g (s.desc v g) (s.block v (s.desc v g).blockBitmap) bits).Meets s
      (fun blocks t => MoreUsed v s t ∧ blocks = bits.map (v.groupStart g + ·)) fun _ _ => False := by
  have room := v.blockBits
  have long : (bits.foldl setBit (s.block v (s.desc v g).blockBitmap)).length = v.blockSize := by
    rw [setBits_length, block_length]
  have rewritten : Rewritten v s g _ _ :=
    @rewritten_writeBGD v s g _ ((s.desc v g).freeBlocks - bits.length) long
  have more := rewritten.moreUsed filesystem present rfl fun i set => by
    rw [bitAt_setBits fun bit mem => by rw [block_length]; have := inside bit mem; omega, set,
      Bool.or_true]
  exact ⟨more.trans (superWritten_moreUsed (more.filesystem filesystem) rfl filesystem.raw), rfl⟩

def Vol.clearBlock (v : Layout) (s : Vol) (b : Nat) : Prop :=
  ∃ g < s.numBlockGroups v, ∃ bit < v.blocksPerGroup, b = v.groupStart g + bit ∧
    bitAt (s.block v (s.desc v g).blockBitmap) bit = false

theorem groupStart_sub (bit : Nat) :
    v.groupStart g + bit - v.firstDataBlock = bit + v.blocksPerGroup * g := by
  rw [Layout.groupStart, Nat.mul_comm]
  omega

theorem Vol.clearBlock.inUse (clear : s.clearBlock v b) : s.inUse v b = false := by
  obtain ⟨g, -, bit, inside, rfl, unset⟩ := clear
  have positive := v.blocksPerGroup_pos
  unfold Vol.inUse
  dsimp only
  rw [groupStart_sub, Nat.add_mul_div_left _ _ positive, Nat.div_eq_of_lt inside, Nat.zero_add,
    Nat.add_mul_mod_self_left, Nat.mod_eq_of_lt inside]
  exact unset

theorem MoreUsed.clearBlock (more : MoreUsed v s t) (clear : t.clearBlock v b) : s.clearBlock v b := by
  obtain ⟨g, present, bit, inside, rfl, unset⟩ := clear
  rw [more.groups] at present
  refine ⟨g, present, bit, inside, rfl, ?_⟩
  rw [more.blockBitmap present] at unset
  by_contra set
  rw [more.used g present bit (by simpa using set)] at unset
  cases unset

theorem search_clear : Search v (Filesystem v) (MoreUsed v) (Vol.clearBlock v) where
  refl filesystem := .refl filesystem.raw
  trans := .trans
  inv := MoreUsed.filesystem
  groups := MoreUsed.groups
  may := MoreUsed.clearBlock
  takes {s g bits} filesystem present clear := by
    refine (takeBits_more filesystem present fun bit mem => (clear bit mem).2).mono ?_ fun _ _ => False.elim
    rintro _ t ⟨more, rfl⟩
    refine ⟨more, fun b mem => ?_⟩
    obtain ⟨bit, inside, rfl⟩ := mem_map.mp mem
    exact ⟨g, present, bit, (clear bit inside).2, rfl, (clear bit inside).1⟩

def SpaceCall.allocates : SpaceCall → Prop
  | .allocBlocks _ _ => True
  | .allocBlocksWithTx _ _ _ => True
  | .write _ _ => False

theorem received_free (calls : List SpaceCall) (allocate : ∀ call ∈ calls, call.allocates)
    (filesystem : Filesystem v s) : ∀ b ∈ received v calls s, s.clearBlock v b :=
  search_clear.received filesystem calls fun _ _ _ mem => (allocate _ mem).elim

/-! ## The calls -/

/-- `Resize`: the size of the device decides. -/
def resize (v : Layout) (newSizeBytes : Int) : Call Unit :=
  if newSizeBytes ≤ 0 then .fail .invalidSize
  else do
    let curSize ← .read Vol.size
    if newSizeBytes.toNat = curSize then pure ()
    else if curSize < newSizeBytes.toNat then grow v newSizeBytes
    else shrink v newSizeBytes

theorem resize_run (v : Layout) {newSize : Int} (positive : ¬ newSize ≤ 0) (s : Vol) :
    resize v newSize s = (if newSize.toNat = s.size then pure () else if s.size < newSize.toNat then
      grow v newSize else shrink v newSize : Call Unit) s := by
  rw [resize, if_neg positive]
  rfl

inductive ResizeCall where
  | grow (newSize : Int)
  | shrink (newSize : Int)
  | resize (newSize : Int)

def ResizeCall.newSize : ResizeCall → Int
  | .grow newSize => newSize
  | .shrink newSize => newSize
  | .resize newSize => newSize

def ResizeCall.run (v : Layout) : ResizeCall → Call Unit
  | .grow newSize => Resize.grow v newSize
  | .shrink newSize => Resize.shrink v newSize
  | .resize newSize => Resize.resize v newSize

/-- The counts in memory, the octets of the superblock, of the descriptors and of the bitmaps are the
same, and what can be allocated was free before. -/
structure Unchanged (v : Layout) (s t : Vol) : Prop where
  blocksCount : t.sb.blocksCount = s.sb.blocksCount
  inodesCount : t.inodesCount = s.inodesCount
  freeBlocks : t.sb.freeBlocks = s.sb.freeBlocks
  freeInodes : t.sb.freeInodes = s.sb.freeInodes
  super : t.disk.readAt (v.partOffset + 1024) superblockSize =
    s.disk.readAt (v.partOffset + 1024) superblockSize
  descs : ∀ g < s.numBlockGroups v, (t.desc v g).raw = (s.desc v g).raw
  blockBitmaps : ∀ g < s.numBlockGroups v,
    t.block v (s.desc v g).blockBitmap = s.block v (s.desc v g).blockBitmap
  inodeBitmaps : ∀ g < s.numBlockGroups v,
    t.block v (s.desc v g).inodeBitmap = s.block v (s.desc v g).inodeBitmap
  allocated : ∀ calls : List SpaceCall, (∀ call ∈ calls, call.allocates) →
    ∀ b ∈ received v calls t, s.inUse v b = false

theorem Filesystem.unchanged (filesystem : Filesystem v s) : Unchanged v s s where
  blocksCount := rfl
  inodesCount := rfl
  freeBlocks := rfl
  freeInodes := rfl
  super := rfl
  descs _ _ := rfl
  blockBitmaps _ _ := rfl
  inodeBitmaps _ _ := rfl
  allocated calls allocate b mem := (received_free calls allocate filesystem b mem).inUse

def Vol.freeTail (v : Layout) (s : Vol) (newBlocks : Nat) : Prop :=
  let g := v.groupsOf newBlocks - 1
  ∀ i, v.usedIn newBlocks g ≤ i → i < v.usedIn s.sb.blocksCount g →
    bitAt (s.block v (s.desc v g).blockBitmap) i = false

/-- A `Shrink` that is refused before the cut, or whose cut changes nothing. -/
def Vol.shrinkHarmless (v : Layout) (s : Vol) (newSize : Int) : Prop :=
  ¬ Admitted v s newSize ∨ s.freeTail v (newSize.toNat / v.blockSize)

def ResizeCall.harmless (v : Layout) (s : Vol) : ResizeCall → Prop
  | .grow newSize => s.growRefused v newSize
  | .shrink newSize => s.shrinkHarmless v newSize
  | .resize newSize => newSize ≤ 0 ∨ if s.size < newSize.toNat then s.growRefused v newSize
      else s.shrinkHarmless v newSize

variable {newSize : Int} {e : Err} {low high : Nat}

theorem grow_unchanged_iff (consistent : Consistent v s)
    (failed : grow v newSize s = (.error e, t)) : Unchanged v s t ↔ s.growRefused v newSize := by
  have filesystem := consistent.toFilesystem
  rcases (grow_meets newSize filesystem.raw).error failed with ⟨refused, rfl⟩ | ⟨admitted, count⟩
  · exact iff_of_true filesystem.unchanged refused
  · refine iff_of_false (fun unchanged => ?_) admitted
    have fits : s.sb.blocksCount ≤ s.size / v.blockSize := by
      have size := v.blockSize_ge
      have onDevice := filesystem.onDevice
      rw [Nat.le_div_iff_mul_le (by omega)]
      unfold Layout.start at onDevice
      omega
    have same := unchanged.blocksCount
    refine admitted (.inr (.inr ?_))
    omega

theorem setBitmapCsum_raw {covered free : Nat} {d : Desc}
    (right : setBitmapCsum v covered low high bitmap d = d) :
    setBitmapCsum v covered low high bitmap { d with freeBlocks := free } = { d with freeBlocks := free } := by
  unfold setBitmapCsum at *
  split
  next sums =>
    rw [if_pos sums] at right
    have raw := congrArg Desc.raw right
    dsimp only at raw ⊢
    rw [raw]
  next => rfl

theorem cut_restores (consistent : Consistent v s) (present : g < s.numBlockGroups v)
    (inside : high ≤ v.blocksPerGroup)
    (clear : ∀ i, low ≤ i → i < high → bitAt (s.block v (s.desc v g).blockBitmap) i = false) :
    s.cut v low high g = s := by
  have filesystem := consistent.toFilesystem
  have room := v.blockBits
  have block := filesystem.start_structure_le present (@blockBitmap_mem v s g)
  have inode := filesystem.start_structure_le present (@inodeBitmap_mem v s g)
  have kept : clearRange (s.block v (s.desc v g).blockBitmap) low high =
      s.block v (s.desc v g).blockBitmap := clearRange_of_clear (by rw [block_length]; omega) clear
  have blocks : s.recounted v (s.desc v g).blockBitmap v.blocksPerGroup = some (s.desc v g).freeBlocks := by
    rw [Vol.recounted, if_pos block, consistent.freeBlocks g present]
    rfl
  have inodes : s.recounted v (s.desc v g).inodeBitmap v.inodesPerGroup = some (s.desc v g).freeInodes := by
    rw [Vol.recounted, if_pos inode, consistent.freeInodes g present]
    rfl
  have bitmap : s.writeAt (v.start (s.desc v g).blockBitmap) (s.block v (s.desc v g).blockBitmap) = s :=
    writeAt_same (by rw [block_length]; rfl) (by rw [block_length]; exact block)
  have written (free : Nat) : s.recount v g (sealDesc v g (({ s.desc v g with freeBlocks := free } : Desc).encode v)) =
      (s.desc v g).raw :=
    recount_restores (d := { s.desc v g with freeBlocks := free }) desc_raw_length
      (consistent.descSum g present) blocks inodes rfl rfl rfl
  unfold Vol.cut Vol.cutDesc Vol.writeBGD
  dsimp only
  rw [kept, bitmap, setBitmapCsum_raw (consistent.blockSum g present), written]
  exact writeAt_same (by rw [desc_raw_length]; rfl)
    (by rw [desc_raw_length]; exact filesystem.desc_onDevice present)

theorem shrink_unchanged_iff (consistent : Consistent v s)
    (failed : shrink v newSize s = (.error e, t)) : Unchanged v s t ↔ s.shrinkHarmless v newSize := by
  have filesystem := consistent.toFilesystem
  by_cases admitted : Admitted v s newSize
  · have fewer := Nat.le_of_lt admitted.drops
    have some : 0 < newSize.toNat / v.blockSize := Nat.lt_of_lt_of_le v.blocksPerGroup_pos admitted.keepsGroup
    have last := filesystem.last_lt fewer some
    have top : v.usedIn s.sb.blocksCount (v.groupsOf (newSize.toNat / v.blockSize) - 1) ≤ 8 * v.blockSize :=
      (Nat.min_le_left _ _).trans v.blockBits
    have cut : t = s.cutTo v (newSize.toNat / v.blockSize) := by
      rcases (shrink_meets newSize).error failed with ⟨-, no | ⟨g, present, no⟩ | no⟩ | ⟨-, stopped⟩
      · exact absurd admitted no
      · exact absurd no (filesystem.readable present)
      · exact absurd no (consistent.cuttable fewer some)
      · exact stopped.1
    refine ⟨fun unchanged => .inr fun i low high => ?_, fun harmless => ?_⟩
    · have bitmap := unchanged.blockBitmaps _ last
      rw [cut, Vol.cutTo, if_pos (Nat.lt_of_le_of_lt low high),
        (cut_rewritten _ _ _).block_self filesystem last] at bitmap
      rw [← bitmap, bitAt_clearRange (by rw [block_length]; exact top), decide_eq_false (by simpa using ⟨low, high⟩),
        Bool.false_and]
    · have tail := harmless.resolve_left (not_not.mpr admitted)
      have same : s.cutTo v (newSize.toNat / v.blockSize) = s := by
        unfold Vol.cutTo
        dsimp only
        split
        · exact cut_restores consistent last (Nat.min_le_left _ _) tail
        · rfl
      exact cut.trans same ▸ filesystem.unchanged
  · rcases (shrink_meets newSize).error failed with ⟨rfl, -⟩ | ⟨yes, -⟩
    · exact iff_of_true filesystem.unchanged (.inl admitted)
    · exact absurd yes admitted

theorem growOld_full (groups : v.groupsOf s.sb.blocksCount = g + 1)
    (full : v.blocksPerGroup ≤ s.sb.blocksCount - v.groupStart g) (newBlocks : Nat) :
    growOld v s.sb.blocksCount newBlocks = pure 0 := by
  rw [growOld, groups, if_pos (Nat.succ_pos g), Nat.add_sub_cancel, growLast]
  exact if_neg (by omega)

theorem grow_noRoom (admitted : ¬ s.growRefused v newSize) (groups : s.numBlockGroups v = g + 1)
    (next : v.groupsOf (newSize.toNat / v.blockSize) = g + 2)
    (full : v.blocksPerGroup ≤ s.sb.blocksCount - v.groupStart g)
    (few : v.groupBlocks (newSize.toNat / v.blockSize) (g + 1) < v.headBlocks (v.gdtBlocks (g + 2)) (g + 1)) :
    grow v newSize s = (.error (.noRoom (g + 1)), s.published v newSize.toNat) := by
  obtain ⟨positive, longer, more⟩ : ¬ newSize ≤ 0 ∧ ¬ newSize.toNat ≤ s.size ∧
      ¬ newSize.toNat / v.blockSize ≤ s.size / v.blockSize := by
    simpa only [Vol.growRefused, not_or] using admitted
  rw [Vol.numBlockGroups] at groups
  have last := growOld_full groups full (newSize.toNat / v.blockSize)
  have first : addGroups v (v.gdtBlocks (g + 2)) (newSize.toNat / v.blockSize) (range' (g + 1) 1) 0 =
      (.fail (.noRoom (g + 1)) : Call Nat) := by
    rw [range'_one, addGroups, addGroup, if_pos few]
    rfl
  refine Prog.Meets.fails ?_
  rw [grow, if_neg positive, meets_bind, meets_read]
  rw [if_neg longer, if_neg more, growTo]
  simp only [meets_bind, meets_read, meets_modify, last, meets_pure, groups, next]
  rw [show g + 2 - (g + 1) = 1 by omega, first]
  exact ⟨rfl, rfl⟩

def oneGroup : Vol := formatted 32768 ⟨[], [], 0⟩

theorem oneGroup_consistent : Consistent (layout ⟨[], [], 0⟩) oneGroup :=
  formatted_consistent _ (by decide) (by decide)

theorem oneGroup_blocksCount : oneGroup.sb.blocksCount = 32768 := formatted_blocksCount _ (by decide)

theorem oneGroup_grow : grow (layout ⟨[], [], 0⟩) (32769 * fmtBlockSize : Nat) oneGroup =
    (.error (.noRoom 1), oneGroup.published (layout ⟨[], [], 0⟩) (32769 * fmtBlockSize)) := by
  have size : oneGroup.size = 32768 * fmtBlockSize := formatted_size _ (by decide) (by decide)
  have groups : oneGroup.numBlockGroups (layout ⟨[], [], 0⟩) = 1 := by
    rw [Vol.numBlockGroups, oneGroup_blocksCount]
    decide
  have blocks : ((32769 * fmtBlockSize : Nat) : Int).toNat / (layout ⟨[], [], 0⟩).blockSize = 32769 := by decide
  refine grow_noRoom ?_ groups ?_ ?_ ?_
  · rw [Vol.growRefused, size]
    decide
  · rw [blocks]
    decide
  · rw [oneGroup_blocksCount]
    decide
  · rw [blocks]
    decide

theorem oneGroup_clear : bitAt (oneGroup.block (layout ⟨[], [], 0⟩)
    (oneGroup.desc (layout ⟨[], [], 0⟩) 0).blockBitmap) 21 = false := by
  unfold oneGroup
  rw [formatted_desc _ (by decide) (by decide), (readAt_bitmaps _ (by decide)).1,
    bitAt_blockBitmap (by decide) (by decide)]
  decide

/-- Cut to the blocks of its metadata, the second group keeps its count and its clear bits. -/
theorem twoGroups_cut : ∃ t, shrink plainLayout (32788 * fmtBlockSize : Nat) twoGroups = (.ok (), t) ∧
    t.sb.blocksCount = 32788 ∧ t.size = 32788 * fmtBlockSize ∧
    t.desc plainLayout 1 = twoGroups.desc plainLayout 1 ∧
    t.block plainLayout (t.desc plainLayout 1).blockBitmap = blockBitmap 65536 1 := by
  obtain ⟨t, done, shrunk⟩ : ∃ t, shrink plainLayout (32788 * fmtBlockSize : Nat) twoGroups = (.ok (), t) ∧
      Shrunk plainLayout twoGroups (32788 * fmtBlockSize) t :=
    formatted_shrinks ⟨[], [], 0⟩ (by decide) (by decide) (by decide) (by decide)
  have consistent := twoGroups_consistent
  have filesystem := consistent.toFilesystem
  have smaller := ((shrink_meets _).ok done).1.smaller
  have count : twoGroups.sb.blocksCount = 65536 := formatted_blocksCount _ (by decide)
  have blocks : 32788 * fmtBlockSize / plainLayout.blockSize = 32788 := by decide
  have present : 1 < twoGroups.numBlockGroups plainLayout := by
    rw [Vol.numBlockGroups, count]
    decide
  have bitmap : twoGroups.block plainLayout (twoGroups.desc plainLayout 1).blockBitmap = blockBitmap 65536 1 := by
    unfold twoGroups plainLayout
    rw [formatted_desc _ (by decide) (by decide)]
    exact (readAt_bitmaps _ (by decide)).1
  have same : twoGroups.cutTo plainLayout 32788 = twoGroups := by
    unfold Vol.cutTo
    dsimp only
    rw [show plainLayout.groupsOf 32788 - 1 = 1 by decide, count]
    split
    · refine cut_restores consistent present (by decide) fun i low high => ?_
      rw [bitmap, bitAt_blockBitmap (by decide)]
      · have : plainLayout.usedIn 32788 1 = 20 := by decide
        have : plainLayout.usedIn 65536 1 = 32768 := by decide
        have : groupMetaBlocks 65536 1 = 20 := by decide
        have : groupBlocks 65536 1 = 32768 := by decide
        simp
        omega
      · have : plainLayout.usedIn 65536 1 = 32768 := by decide
        have : 8 * fmtBlockSize = 32768 := rfl
        omega
    · rfl
  have desc : t.desc plainLayout 1 = twoGroups.desc plainLayout 1 := by
    rw [shrunk.desc filesystem smaller (by rw [blocks, count]; decide) (by decide) (by decide), blocks, same]
  refine ⟨t, done, by rw [shrunk.blocksCount, blocks], shrunk.size, desc, ?_⟩
  rw [desc, shrunk.block filesystem smaller (by rw [blocks, count]; decide) (by decide) present blockBitmap_mem
    (by rw [twoGroups_bitmap]; decide), blocks, same, bitmap]

end Ext4.Resize
