import Ext4.Resize.Growing

/-! What `Grow` leaves alone.
The blocks of the old groups keep their octets but for the bitmap of the last one, as long as the
lengthened table of descriptors does not reach them. With a resize inode this includes its record and
its double indirect block, so that both can be followed after the groups were added. -/

namespace Ext4.Resize
open Octets Overlay SuperArea List

variable {v : Layout} {s t u : Vol} {g b newSize : Nat}

/-! ## Spans of a new group -/

theorem start_le {b b' : Nat} (le : b ≤ b') : v.start b ≤ v.start b' :=
  Nat.add_le_add_left (Nat.mul_le_mul_right _ le) _

theorem start_succ (b : Nat) : v.start b + v.blockSize = v.start (b + 1) := by
  rw [Layout.start, Layout.start, Nat.succ_mul, Nat.add_assoc]

theorem blocksSpan_end (b count : Nat) : (v.blocksSpan b count).2 = v.start (b + count) := by
  rw [Layout.blocksSpan, Layout.start, Layout.start, Nat.add_mul, Nat.add_assoc]

theorem superblockSize_le : superblockSize ≤ v.blockSize := v.blockSize_ge

theorem superSpan_le (gdt : Nat) : v.superSpan.2 ≤ v.start (v.bgdTableBlock + gdt) := by
  have table := @descOff_ge v 0
  have size : superblockSize = 1024 := rfl
  have := start_le (v := v) (Nat.le_add_right v.bgdTableBlock gdt)
  unfold Layout.descOff at table
  unfold Layout.superSpan
  omega

theorem inodeTableBlocks_pos : 0 < v.inodeTableBlocks := by
  have size := v.blockSize_ge
  have records := Nat.mul_le_mul v.inodeSize_ge (Nat.succ_le_of_lt v.inodesPerGroup_pos)
  exact Nat.div_pos (by omega) (by omega)

theorem inodeTable_mem : (s.desc v g).inodeTable ∈ s.structures v g :=
  .tail _ (.tail _ (mem_range'_1.mpr ⟨le_refl _, Nat.lt_add_of_pos_right inodeTableBlocks_pos⟩))

theorem mem_groupSpans {gdt : Nat} {span : Nat × Nat} (mem : span ∈ v.groupSpans gdt g) :
    span = v.descSpan g ∨
      v.start (v.groupStart g) ≤ span.1 ∧ span.2 ≤ v.start (v.groupStart g + v.headBlocks gdt g) := by
  have copy := @superblockSize_le v
  have block := @start_succ v
  unfold Layout.groupSpans at mem
  simp only [mem_append, mem_cons, not_mem_nil, or_false, mem_map, mem_range] at mem
  unfold Layout.headBlocks
  rcases mem with ((super | bitmap | bitmap) | ⟨i, inside, rfl⟩) | desc
  · split at super
    next sparse =>
      rw [mem_singleton.mp super]
      refine .inr ⟨le_refl _, ?_⟩
      have room : v.start (v.groupStart g + 1) ≤
          v.start (v.groupStart g + (v.superBlocks gdt g + 2 + v.inodeTableBlocks)) := start_le (by omega)
      have := block (v.groupStart g)
      unfold Layout.copySpan
      omega
    next => cases super
  · subst bitmap
    refine .inr ⟨start_le (Nat.le_add_right _ _), ?_⟩
    rw [Layout.blockSpan, block]
    exact start_le (by unfold Layout.bitmapOf; omega)
  · subst bitmap
    refine .inr ⟨start_le (by unfold Layout.bitmapOf; omega), ?_⟩
    rw [Layout.blockSpan, block]
    exact start_le (by unfold Layout.bitmapOf; omega)
  · refine .inr ⟨start_le (by unfold Layout.bitmapOf; omega), ?_⟩
    rw [Layout.blockSpan, block]
    exact start_le (by unfold Layout.bitmapOf; omega)
  · exact .inl desc

theorem groupSpans_end {gdt n : Nat} (inside : ∀ span ∈ v.groupSpans gdt g, span.2 ≤ n) :
    v.start (v.groupStart g + v.headBlocks gdt g) ≤ n := by
  have some := @inodeTableBlocks_pos v
  have last := inside (v.blockSpan (v.bitmapOf gdt g + 2 + (v.inodeTableBlocks - 1))) (by
    unfold Layout.groupSpans
    simp only [mem_append, mem_map, mem_range]
    exact .inl (.inr ⟨_, by omega, rfl⟩))
  rw [Layout.blockSpan, start_succ] at last
  refine le_trans (start_le ?_) last
  unfold Layout.bitmapOf Layout.headBlocks
  omega

theorem AddedAll.disk {gdt newBlocks p : Nat} {groups : List Nat} (all : AddedAll v gdt newBlocks groups s t)
    (descs : ∀ g ∈ groups, p < v.descOff g ∨ v.descOff g + v.descSize ≤ p)
    (blocks : ∀ g ∈ groups, p < v.start (v.groupStart g)) : t.disk p = s.disk p := by
  refine all.wrote.disk p fun span mem => ?_
  obtain ⟨g, listed, inside⟩ := mem_flatMap.mp mem
  rcases mem_groupSpans inside with rfl | ⟨low, -⟩
  · exact descs g listed
  · exact .inl (Nat.lt_of_lt_of_le (blocks g listed) low)

/-! ## The old groups -/

theorem Filesystem.blocksCount_le (filesystem : Filesystem v s) :
    s.sb.blocksCount ≤ v.groupStart (s.numBlockGroups v) := by
  have covered := mt (lt_groupsOf (g := s.numBlockGroups v) filesystem.groups).mpr (Nat.lt_irrefl _)
  unfold Layout.groupStart
  omega

theorem mem_fresh : g ∈ s.fresh v newSize ↔ s.numBlockGroups v ≤ g ∧ g < v.newGroups newSize := by
  rw [Vol.fresh, mem_range'_1]
  omega

theorem published_disk (longer : s.size ≤ newSize) {p : Nat} (old : p < s.size) :
    (s.published v newSize).disk p = s.disk p :=
  if_pos (by omega)

theorem descOff_apart {g' : Nat} (less : g < g') : v.descOff g + v.descSize ≤ v.descOff g' := by
  have := Nat.mul_le_mul_right v.descSize (Nat.succ_le_of_lt less)
  unfold Layout.descOff
  rw [Nat.succ_mul] at this
  omega

section
variable {lasted added extended : Vol} (filesystem : Filesystem v s) (longer : s.size ≤ newSize)
  (grew : Grew v s newSize lasted added extended t)
include filesystem longer

theorem published_desc (present : g < s.numBlockGroups v) :
    (s.published v newSize).desc v g = s.desc v g := by
  have onDevice := filesystem.desc_onDevice present
  exact desc_congr fun p _ last => published_disk longer (by omega)

include grew

theorem Grew.lasted_disk {p : Nat} (old : p < s.size)
    (bitmap : p < v.start (s.desc v (s.numBlockGroups v - 1)).blockBitmap ∨
      v.start (s.desc v (s.numBlockGroups v - 1)).blockBitmap + v.blockSize ≤ p)
    (desc : p < v.descOff (s.numBlockGroups v - 1) ∨ v.descOff (s.numBlockGroups v - 1) + v.descSize ≤ p) :
    lasted.disk p = s.disk p := by
  have last := grew.last
  split at last
  next some =>
    unfold GrewLast at last
    split at last
    · refine (last.2.2.outside ?_ desc).trans (published_disk longer old)
      rw [published_desc filesystem longer (by omega)]
      exact bitmap
    · rw [last]
      exact published_disk longer old
  next =>
    rw [last]
    exact published_disk longer old

/-- An octet of an old block that is neither in a descriptor of the last group or of a new one nor in
the bitmap of the last group. -/
theorem Grew.added_disk {p : Nat} (old : p < v.start s.sb.blocksCount)
    (bitmap : p < v.start (s.desc v (s.numBlockGroups v - 1)).blockBitmap ∨
      v.start (s.desc v (s.numBlockGroups v - 1)).blockBitmap + v.blockSize ≤ p)
    (desc : p < v.descOff (s.numBlockGroups v - 1) ∨ v.descOff (s.numBlockGroups v - 1) + v.descSize ≤ p)
    (descs : ∀ g ∈ s.fresh v newSize, p < v.descOff g ∨ v.descOff g + v.descSize ≤ p) :
    added.disk p = s.disk p := by
  have covered := filesystem.blocksCount_le
  rw [grew.groups.disk descs fun g mem => ?_]
  · exact grew.lasted_disk filesystem longer (Nat.lt_of_lt_of_le old filesystem.onDevice) bitmap desc
  · refine Nat.lt_of_lt_of_le old (start_le (covered.trans ?_))
    exact Nat.add_le_add_right (Nat.mul_le_mul_right _ (mem_fresh.mp mem).1) _

section
variable (old : b < s.sb.blocksCount)
  (behind : v.bgdTableBlock + v.gdtBlocks (s.numBlockGroups v) ≤ b)
  (behind' : v.bgdTableBlock + v.newGdt newSize ≤ b)
  (other : b ≠ (s.desc v (s.numBlockGroups v - 1)).blockBitmap)
include old behind behind' other

theorem Grew.added_octet {p : Nat} (low : v.start b ≤ p)
    (high : p < v.start b + v.blockSize) : added.disk p = s.disk p := by
  have apart := @start_apart v
  have table := start_le (v := v) behind
  have table' := start_le (v := v) behind'
  have here := apart old
  refine grew.added_disk filesystem longer (by omega) ?_ ?_ fun g mem => ?_
  · rcases Nat.lt_or_gt_of_ne other with less | more
    · have := apart less
      omega
    · have := apart more
      omega
  · have some : 0 < s.numBlockGroups v :=
      (lt_groupsOf filesystem.groups).mpr (by rw [Nat.zero_mul]; omega)
    have := descOff_le (v := v) (Nat.sub_lt some Nat.one_pos)
    omega
  · have := descOff_le (v := v) (mem_fresh.mp mem).2
    unfold Layout.newGdt at table'
    omega

theorem Grew.added_block : added.block v b = s.block v b :=
  block_congr fun _ low high => grew.added_octet filesystem longer old behind behind' other low high

end

theorem Grew.added_structures (present : g < s.numBlockGroups v) :
    (added.desc v g).structures = (s.desc v g).structures := by
  have apart := @descOff_apart v
  have inTable := descOff_le (v := v) present
  have covered := filesystem.blocksCount_le
  have table := filesystem.table
  have behind := filesystem.start_structure_ge (g := s.numBlockGroups v - 1) (by omega) blockBitmap_mem
  have onDevice := filesystem.desc_onDevice present
  have front : v.descOff g + v.descSize ≤ v.start (v.groupStart (s.numBlockGroups v)) :=
    inTable.trans (start_le (by omega))
  have later : added.desc v g = lasted.desc v g := by
    refine desc_congr fun p low high => grew.groups.disk (fun g' mem => .inl ?_) fun g' mem => ?_
    · have := apart (Nat.lt_of_lt_of_le present (mem_fresh.mp mem).1)
      omega
    · have first := start_le (v := v) (Nat.add_le_add_right (Nat.mul_le_mul_right v.blocksPerGroup
        (mem_fresh.mp mem).1) v.firstDataBlock)
      unfold Layout.groupStart at front ⊢
      omega
  rw [later]
  by_cases other : g = s.numBlockGroups v - 1
  · have last := grew.last
    rw [if_pos (by omega), ← other] at last
    have before := published_desc filesystem longer present
    unfold GrewLast at last
    split at last
    · rw [last.2.2.structures_self, before]
    · rw [last, before]
  · have same : lasted.desc v g = s.desc v g := by
      refine desc_congr fun p low high => grew.lasted_disk filesystem longer (by omega) (by omega) (.inl ?_)
      have := apart (show g < s.numBlockGroups v - 1 by omega)
      omega
    rw [same]

end

/-! ## The resize inode -/

/-- The resize inode of a filesystem with reserved descriptor blocks: its double indirect block is a
block of its own behind them, and names some of them. -/
structure ResizeInode (v : Layout) (s : Vol) : Prop where
  group : (resizeIno - 1) / v.inodesPerGroup < s.numBlockGroups v
  dind : s.dindBlock v < s.sb.blocksCount
  dindBehind : v.bgdTableBlock + v.gdtBlocks (s.numBlockGroups v) + v.reservedGdt ≤ s.dindBlock v
  dindApart : ∀ g < s.numBlockGroups v, s.dindBlock v ∉ s.structures v g
  entries : ∀ i < v.blockSize / 4, field (s.block v (s.dindBlock v)) (i * 4) 4 ≠ 0 →
    v.bgdTableBlock + v.gdtBlocks (s.numBlockGroups v) ≤ field (s.block v (s.dindBlock v)) (i * 4) 4 ∧
    field (s.block v (s.dindBlock v)) (i * 4) 4 <
      v.bgdTableBlock + v.gdtBlocks (s.numBlockGroups v) + v.reservedGdt

/-- The lengthened table does not reach the record of the resize inode or its double indirect block. -/
structure ResizeInode.Clear (v : Layout) (s : Vol) (newSize : Nat) : Prop where
  record : v.bgdTableBlock + v.newGdt newSize ≤ (s.desc v ((resizeIno - 1) / v.inodesPerGroup)).inodeTable
  dind : v.bgdTableBlock + v.newGdt newSize ≤ s.dindBlock v

theorem inodeOff_lt {num : Nat} {d : Desc} :
    v.inodeOff d num + v.inodeSize ≤ v.start (d.inodeTable + v.inodeTableBlocks) := by
  have size := v.blockSize_ge
  have local_lt := Nat.mod_lt (num - 1) v.inodesPerGroup_pos
  have records := Nat.mul_le_mul_right v.inodeSize (Nat.succ_le_of_lt local_lt)
  have rounded := Nat.lt_div_mul_add (a := v.inodeSize * v.inodesPerGroup + v.blockSize - 1)
    (show 0 < v.blockSize by omega)
  rw [Nat.succ_mul, Nat.mul_comm v.inodesPerGroup] at records
  unfold Layout.inodeOff Layout.start Layout.inodeTableBlocks
  rw [Nat.add_mul]
  omega

theorem octet_in_block {first count p : Nat} (low : v.start first ≤ p) (high : p < v.start (first + count)) :
    ∃ b, first ≤ b ∧ b < first + count ∧ v.start b ≤ p ∧ p < v.start b + v.blockSize := by
  have size := v.blockSize_ge
  have positive : 0 < v.blockSize := by omega
  have split := Nat.div_add_mod (p - v.partOffset) v.blockSize
  have rest := Nat.mod_lt (p - v.partOffset) positive
  refine ⟨(p - v.partOffset) / v.blockSize, ?_, ?_, ?_, ?_⟩
  · rw [Nat.le_div_iff_mul_le positive]
    unfold Layout.start at low
    omega
  · rw [Nat.div_lt_iff_lt_mul positive]
    unfold Layout.start at low high
    omega
  all_goals
    unfold Layout.start at *
    rw [Nat.mul_comm]
    omega

theorem Filesystem.bitmap_ne_table (filesystem : Filesystem v s) {g' : Nat} (present : g < s.numBlockGroups v)
    (present' : g' < s.numBlockGroups v)
    (mem : b ∈ range' (s.desc v g').inodeTable v.inodeTableBlocks) : b ≠ (s.desc v g).blockBitmap := by
  have listed : b ∈ s.structures v g' := .tail _ (.tail _ mem)
  by_cases other : g' = g
  · subst other
    have once := (nodup_flatMap.mp filesystem.distinct).1 g' (mem_range.mpr present)
    rintro rfl
    exact (nodup_cons.mp once).1 (.tail _ mem)
  · exact filesystem.structures_ne present' present other listed blockBitmap_mem

section
variable {lasted added extended : Vol} (filesystem : Filesystem v s) (longer : s.size ≤ newSize)
  (grew : Grew v s newSize lasted added extended t) (inode : ResizeInode v s)
  (clear : ResizeInode.Clear v s newSize)
include filesystem longer grew inode

theorem Grew.added_resizeInodeOff : added.resizeInodeOff v = s.resizeInodeOff v := by
  have same := grew.added_structures filesystem longer inode.group
  unfold Vol.resizeInodeOff Layout.inodeOff
  rw [(Prod.mk.inj (Prod.mk.inj same).2).2]

include clear

theorem Grew.added_resizeInode : added.resizeInode v = s.resizeInode v := by
  unfold Vol.resizeInode
  rw [grew.added_resizeInodeOff filesystem longer inode]
  refine Disk.readAt_congr fun i inside => ?_
  have last := @inodeOff_lt v resizeIno (s.desc v ((resizeIno - 1) / v.inodesPerGroup))
  have first : v.start (s.desc v ((resizeIno - 1) / v.inodesPerGroup)).inodeTable ≤ s.resizeInodeOff v :=
    Nat.le_add_right _ _
  obtain ⟨b, low, high, here, here'⟩ := @octet_in_block v _ _ (s.resizeInodeOff v + i)
    (first.trans (Nat.le_add_right _ _)) (Nat.lt_of_lt_of_le (Nat.add_lt_add_left inside _) last)
  have mem : b ∈ range' (s.desc v ((resizeIno - 1) / v.inodesPerGroup)).inodeTable v.inodeTableBlocks :=
    mem_range'_1.mpr ⟨low, high⟩
  have listed : b ∈ s.structures v ((resizeIno - 1) / v.inodesPerGroup) := .tail _ (.tail _ mem)
  have group := inode.group
  have some : 0 < s.numBlockGroups v := Nat.zero_lt_of_lt group
  have behind := filesystem.tableEnd_le group listed
  refine grew.added_octet filesystem longer (filesystem.inside _ group _ listed).2 (by omega)
    (clear.record.trans low) (filesystem.bitmap_ne_table (by omega) group mem) here here'

theorem Grew.added_dindBlock : added.dindBlock v = s.dindBlock v := by
  unfold Vol.dindBlock
  rw [grew.added_resizeInode filesystem longer inode clear]

theorem Grew.added_dind : added.block v (added.dindBlock v) = s.block v (s.dindBlock v) := by
  have behind := inode.dindBehind
  have some : 0 < s.numBlockGroups v := Nat.zero_lt_of_lt inode.group
  rw [grew.added_dindBlock filesystem longer inode clear]
  refine grew.added_block filesystem longer inode.dind (by omega) clear.dind ?_
  intro same
  exact inode.dindApart _ (show s.numBlockGroups v - 1 < s.numBlockGroups v by omega)
    (same ▸ blockBitmap_mem)

end

/-! ## Its extension -/

theorem slotPairs_lt {oldGroups newGroups g i : Nat} (mem : (g, i) ∈ v.slotPairs oldGroups newGroups) :
    i < v.blockSize / 4 := by
  obtain ⟨g', -, listed⟩ := mem_flatMap.mp mem
  obtain ⟨i', inside, same⟩ := mem_map.mp listed
  rw [← (Prod.mk.inj same).2]
  exact mem_range.mp inside

theorem Slotted.size {gdt : Nat} {dind : Bytes} {pairs : List (Nat × Nat)}
    (slotted : Slotted v gdt dind pairs s t) : t.size = s.size := by
  induction slotted with
  | nil => rfl
  | skip _ _ ih => exact ih
  | write _ _ inside slot _ ih =>
    rw [ih]
    refine Nat.max_eq_left ?_
    rw [putUint32, putUint_length_of_le block_length slot]
    exact inside

theorem Slotted.disk {gdt p : Nat} {dind : Bytes} {pairs : List (Nat × Nat)}
    (slotted : Slotted v gdt dind pairs s t) (outside : ∀ pair ∈ pairs, field dind (pair.2 * 4) 4 ≠ 0 →
      p < v.start (field dind (pair.2 * 4) 4) ∨ v.start (field dind (pair.2 * 4) 4) + v.blockSize ≤ p) :
    t.disk p = s.disk p := by
  induction slotted with
  | nil => rfl
  | skip _ _ ih => exact ih (forall_mem_cons.mp outside).2
  | write named used inside slot _ ih =>
    obtain ⟨here, later⟩ := forall_mem_cons.mp outside
    rw [ih later]
    refine writeAt_outside ?_
    rw [putUint32, putUint_length_of_le block_length slot, ← named]
    exact here (named ▸ used)

/-- The descriptor that names the record is in front of the reserved blocks, so the record is written
where it was read. -/
theorem ResizeInode.resizeInodeOff_kept (inode : ResizeInode v s) {gdt : Nat} {pairs : List (Nat × Nat)}
    {before after : Vol} (slotted : Slotted v gdt (s.block v (s.dindBlock v)) pairs before after)
    (listed : ∀ pair ∈ pairs, pair.2 < v.blockSize / 4) :
    after.resizeInodeOff v = before.resizeInodeOff v := by
  have inTable := descOff_le (v := v) inode.group
  have same : after.desc v ((resizeIno - 1) / v.inodesPerGroup) =
      before.desc v ((resizeIno - 1) / v.inodesPerGroup) := by
    refine desc_congr fun p low high => slotted.disk fun pair mem used => .inl ?_
    have := start_le (v := v) (inode.entries pair.2 (listed pair mem) used).1
    omega
  rw [Vol.resizeInodeOff, same, Vol.resizeInodeOff]

section
variable {lasted added extended : Vol} (filesystem : Filesystem v s) (longer : s.size ≤ newSize)
  (grew : Grew v s newSize lasted added extended t) (inode : 0 < v.reservedGdt → ResizeInode v s)
  (clear : 0 < v.reservedGdt → ResizeInode.Clear v s newSize)
include filesystem longer grew inode clear

theorem Grew.extended_wrote : extended.size = added.size ∧ ∀ p,
    (p < v.start (v.bgdTableBlock + v.gdtBlocks (s.numBlockGroups v)) ∨
      v.start (v.bgdTableBlock + v.gdtBlocks (s.numBlockGroups v) + v.reservedGdt) ≤ p) →
    (p < s.resizeInodeOff v ∨ s.resizeInodeOff v + v.inodeSize ≤ p) → extended.disk p = added.disk p := by
  have step := grew.inode
  unfold ExtendedReserved at step
  split at step
  next reserved =>
    have inode := inode reserved
    obtain ⟨record, -, -, after, slotted, final⟩ := step
    rw [grew.added_dind filesystem longer inode (clear reserved)] at slotted final
    have entry : ∀ pair ∈ v.slotPairs (s.numBlockGroups v) (v.newGroups newSize),
        pair.2 < v.blockSize / 4 := fun pair mem => slotPairs_lt mem
    have place := (inode.resizeInodeOff_kept slotted entry).trans
      (grew.added_resizeInodeOff filesystem longer inode)
    rw [grew.added_resizeInodeOff filesystem longer inode] at record
    have size := slotted.size
    -- The blocks that are named are reserved ones.
    have slots : ∀ p, (p < v.start (v.bgdTableBlock + v.gdtBlocks (s.numBlockGroups v)) ∨
        v.start (v.bgdTableBlock + v.gdtBlocks (s.numBlockGroups v) + v.reservedGdt) ≤ p) →
        after.disk p = added.disk p := by
      intro p outside
      refine slotted.disk fun pair mem used => ?_
      obtain ⟨low, high⟩ := inode.entries pair.2 (entry pair mem) used
      have := start_le (v := v) low
      have := start_apart (v := v) high
      omega
    split at final
    · subst final
      exact ⟨size, fun p outside _ => slots p outside⟩
    · obtain ⟨raw, long, rfl⟩ := final
      refine ⟨?_, fun p outside outside' => ?_⟩
      · rw [Vol.writeAt, place, long, size]
        exact Nat.max_eq_left record
      · rw [writeAt_outside (by rw [place, long]; exact outside')]
        exact slots p outside
  next => exact ⟨by rw [step], fun p _ _ => by rw [step]⟩

end

end Ext4.Resize
