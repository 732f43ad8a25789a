import Ext4.Resize.Consistency
import Ext4.Resize.Grow

/-! What `Grow` writes.
The new number of blocks is published before anything is looked at. The spans of octets that are
written are the block bitmap of the last group, the descriptors, the structures of the new groups,
blocks and record of the resize inode, the superblock, and the copies of superblock and descriptors
in the table's new length. -/

namespace Ext4.Resize
open Octets Overlay SuperArea List

variable {v : Layout} {s t u : Vol} {g b added : Nat} {spans : List (Nat × Nat)} {dind : Bytes}

/-! ## Spans -/

/-- Only the octets in the spans are written, and the device reaches to the last of them. -/
structure Wrote (spans : List (Nat × Nat)) (s t : Vol) : Prop where
  disk : ∀ p, (∀ span ∈ spans, p < span.1 ∨ span.2 ≤ p) → t.disk p = s.disk p
  size : ∀ n, t.size ≤ n ↔ s.size ≤ n ∧ ∀ span ∈ spans, span.2 ≤ n

theorem Wrote.refl (s : Vol) : Wrote [] s s := ⟨fun _ _ => rfl, fun _ => (and_iff_left nofun).symm⟩

theorem Wrote.trans {first second : List (Nat × Nat)} (one : Wrote first s t) (two : Wrote second t u) :
    Wrote (first ++ second) s u := by
  refine ⟨fun p outside => ?_, fun n => ?_⟩
  · rw [two.disk p fun span mem => outside span (mem_append_right _ mem),
      one.disk p fun span mem => outside span (mem_append_left _ mem)]
  · rw [two.size, one.size, forall_mem_append, and_assoc]

theorem wrote_writeAt (s : Vol) (off : Nat) (data : Bytes) :
    Wrote [(off, off + data.length)] s (s.writeAt off data) := by
  refine ⟨fun p outside => ?_, fun n => ?_⟩
  · exact writeAt_outside (outside _ (.head _))
  · rw [Vol.writeAt, forall_mem_singleton]
    exact Nat.max_le

theorem Wrote.of_eq (wrote : Wrote spans s t) (disk : u.disk = t.disk)
    (size : u.size = t.size) : Wrote spans s u :=
  ⟨fun p outside => by rw [disk]; exact wrote.disk p outside, fun n => by rw [size]; exact wrote.size n⟩

theorem Wrote.size_ge (wrote : Wrote spans s t) : s.size ≤ t.size :=
  ((wrote.size t.size).mp (le_refl _)).1

def Layout.blockSpan (v : Layout) (b : Nat) : Nat × Nat := (v.start b, v.start b + v.blockSize)

def Layout.descSpan (v : Layout) (g : Nat) : Nat × Nat := (v.descOff g, v.descOff g + v.descSize)

def SameMemory (s t : Vol) : Prop := t.sb = s.sb ∧ t.inodesCount = s.inodesCount

theorem SameMemory.trans (one : SameMemory s t) (two : SameMemory t u) : SameMemory s u :=
  ⟨two.1.trans one.1, two.2.trans one.2⟩

theorem desc_writeAt {raw : Bytes} (length : raw.length = v.descSize) :
    (s.writeAt (v.descOff g) raw).desc v g = decodeBGD v raw := by
  have there := Disk.readAt_writeAt s.disk (v.descOff g) raw
  rw [length] at there
  exact congrArg (decodeBGD v) there

/-! ## The last group -/

def Layout.grownFrom (v : Layout) (oldBlocks g : Nat) : Nat := oldBlocks - v.groupStart g

def Layout.grownTo (v : Layout) (newBlocks g : Nat) : Nat :=
  min v.blocksPerGroup (newBlocks - v.groupStart g)

def GrewLast (v : Layout) (s : Vol) (oldBlocks newBlocks g : Nat) (t : Vol) : Prop :=
  if v.grownFrom oldBlocks g < v.grownTo newBlocks g then
    v.start (s.desc v g).blockBitmap + v.blockSize ≤ s.size ∧ v.descOff g + v.descSize ≤ s.size ∧
    Rewritten v s g (clearRange (s.block v (s.desc v g).blockBitmap) (v.grownFrom oldBlocks g)
      (v.grownTo newBlocks g)) t
  else t = s

theorem growLast_meets (oldBlocks newBlocks g : Nat) : (growLast v oldBlocks newBlocks g).Meets s
    (fun _ t => SameMemory s t ∧ GrewLast v s oldBlocks newBlocks g t)
    fun e t => t = s ∧ e = .shortRead ∧ v.grownFrom oldBlocks g < v.grownTo newBlocks g ∧
      (s.size < v.descOff g + v.descSize ∨
        s.size < v.start (s.desc v g).blockBitmap + v.blockSize) := by
  change (if v.grownFrom oldBlocks g < v.grownTo newBlocks g then _ else _ : Call Nat).Meets s _ _
  unfold GrewLast
  by_cases more : v.grownFrom oldBlocks g < v.grownTo newBlocks g
  · simp only [if_pos more]
    refine .seq (readBGD_meets s g) ?_ ?_
    · rintro d t ⟨rfl, rfl, desc⟩
      refine .seq (readBlock_meets t _) ?_ ?_
      · rintro bitmap t' ⟨rfl, rfl, block⟩
        refine ⟨⟨rfl, rfl⟩, block, desc, ?_⟩
        exact rewritten_writeBGD (by rw [clearRange_length, block_length])
      · rintro e t' ⟨rfl, rfl, short⟩
        exact ⟨rfl, rfl, more, .inr short⟩
    · rintro e t ⟨rfl, rfl, short⟩
      exact ⟨rfl, rfl, more, .inl short⟩
  · simp only [if_neg more]
    exact ⟨⟨rfl, rfl⟩, rfl⟩

/-! ## New groups -/

def Layout.copySpan (v : Layout) (g : Nat) : Nat × Nat :=
  (v.start (v.groupStart g), v.start (v.groupStart g) + superblockSize)

def Layout.bitmapOf (v : Layout) (gdt g : Nat) : Nat := v.groupStart g + v.superBlocks gdt g

def Layout.groupSpans (v : Layout) (gdt g : Nat) : List (Nat × Nat) :=
  (if v.isSparseSuperGroup g then [v.copySpan g] else []) ++
    [v.blockSpan (v.bitmapOf gdt g), v.blockSpan (v.bitmapOf gdt g + 1)] ++
    (range v.inodeTableBlocks).map (fun i => v.blockSpan (v.bitmapOf gdt g + 2 + i)) ++ [v.descSpan g]

def Layout.pointerSlots (v : Layout) (b : Nat) : List Slot :=
  if v.wide then
    [⟨0, 4, b⟩, ⟨4, 4, b + 1⟩, ⟨8, 4, b + 2⟩, ⟨32, 4, b / 2 ^ 32⟩, ⟨36, 4, (b + 1) / 2 ^ 32⟩,
      ⟨40, 4, (b + 2) / 2 ^ 32⟩]
  else [⟨0, 4, b⟩, ⟨4, 4, b + 1⟩, ⟨8, 4, b + 2⟩]

theorem newDescRaw_eq (b : Nat) :
    newDescRaw v b = putSlots (replicate v.descSize 0) (v.pointerSlots b) := by
  unfold newDescRaw Layout.pointerSlots
  split <;> rfl

theorem pointerSlots_apart (b : Nat) :
    Apart (replicate v.descSize (0 : UInt8)).length ((v.pointerSlots b).map Slot.span) := by
  have room := v.descSize_ge
  have more := @Layout.descSize_of_wide v
  rw [length_replicate]
  unfold Layout.pointerSlots Apart
  split
  next wide =>
    have := more wide
    simp only [map_cons, map_nil, Slot.span, forall_mem_cons, not_mem_nil, IsEmpty.forall_iff,
      implies_true, and_true]
    exact ⟨by omega, by decide⟩
  next =>
    simp only [map_cons, map_nil, Slot.span, forall_mem_cons, not_mem_nil, IsEmpty.forall_iff,
      implies_true, and_true]
    exact ⟨by omega, by decide⟩

theorem newDescRaw_length (b : Nat) : (newDescRaw v b).length = v.descSize := by
  rw [newDescRaw_eq, putSlots_length (pointerSlots_apart b).inside, length_replicate]

theorem newDesc_written (blockBitmap free : Nat) (one two : Bytes) :
    SameOutside descSpans (s.recount v g (sealDesc v g ((setBitmapCsum v v.inodesPerGroup 26 58 two
      (setBitmapCsum v v.blocksPerGroup 24 56 one (newDesc v blockBitmap free))).encode v)))
      (newDescRaw v blockBitmap) := by
  have length : (newDesc v blockBitmap free).raw.length = v.descSize := newDescRaw_length blockBitmap
  have first := @setBitmapCsum_same v (newDesc v blockBitmap free) 24 56 v.blocksPerGroup one (by decide)
    (by decide) length (by decide) (by decide)
  have second := @setBitmapCsum_same v (setBitmapCsum v v.blocksPerGroup 24 56 one (newDesc v blockBitmap free))
    26 58 v.inodesPerGroup two (by decide) (by decide) (first.length.trans length) (by decide) (by decide)
  exact (written_same (second.length.trans (first.length.trans length))).trans (second.trans first)

theorem setBitmapCsum_inodeBitmap (covered low high : Nat) (bitmap : Bytes) (d : Desc) :
    (setBitmapCsum v covered low high bitmap d).inodeBitmap = d.inodeBitmap := by
  unfold setBitmapCsum
  split <;> rfl

theorem setBitmapCsum_inodeTable (covered low high : Nat) (bitmap : Bytes) (d : Desc) :
    (setBitmapCsum v covered low high bitmap d).inodeTable = d.inodeTable := by
  unfold setBitmapCsum
  split <;> rfl

theorem newBlockBitmap_length (head groupBlocks : Nat) :
    (newBlockBitmap v head groupBlocks).length = v.blockSize := by
  rw [newBlockBitmap, setRange_length, setRange_length, length_replicate]

theorem newInodeBitmap_length : (newInodeBitmap v).length = v.blockSize := by
  rw [newInodeBitmap, setRange_length, length_replicate]

theorem block_writeAt {data : Bytes} (long : data.length = v.blockSize) (b : Nat) :
    (s.writeAt (v.start b) data).block v b = data := by
  have there := Disk.readAt_writeAt s.disk (v.start b) data
  rwa [long] at there

theorem writeBitmap_meets {covered low high : Nat} {d : Desc} {bitmap : Bytes}
    (length : bitmap.length = v.blockSize) :
    (do writeBlock v b bitmap; pure (setBitmapCsum v covered low high bitmap d) : Call Desc).Meets s
      (fun d' t => d' = setBitmapCsum v covered low high bitmap d ∧ SameMemory s t ∧
        Wrote [v.blockSpan b] s t ∧ t.block v b = bitmap) fun _ _ => False := by
  have here := wrote_writeAt s (v.start b) bitmap
  rw [length] at here
  exact ⟨rfl, ⟨rfl, rfl⟩, here, block_writeAt length b⟩

theorem Wrote.block (wrote : Wrote spans s t)
    (outside : ∀ span ∈ spans, v.start b + v.blockSize ≤ span.1 ∨ span.2 ≤ v.start b) :
    t.block v b = s.block v b := by
  refine block_congr fun p low high => wrote.disk p fun span mem => ?_
  have := outside span mem
  omega

theorem blockSpan_apart {b' : Nat} (other : b ≠ b') :
    v.start b + v.blockSize ≤ (v.blockSpan b').1 ∨ (v.blockSpan b').2 ≤ v.start b := by
  rcases Nat.lt_or_gt_of_ne other with less | more
  · exact .inl (start_apart less)
  · exact .inr (start_apart more)

theorem writeTable_meets (first : Nat) (blocks : List Nat) :
    (Prog.forEach (fun i => writeBlock v (first + i) (replicate v.blockSize 0)) blocks).Meets s
      (fun _ t => SameMemory s t ∧ Wrote (blocks.map fun i => v.blockSpan (first + i)) s t ∧
        ∀ b, s.block v b = replicate v.blockSize 0 ∨ (∃ i ∈ blocks, b = first + i) →
          t.block v b = replicate v.blockSize 0)
      fun _ _ => False := by
  induction blocks generalizing s with
  | nil => exact ⟨⟨rfl, rfl⟩, Wrote.refl s, fun b clear => clear.resolve_right nofun⟩
  | cons i rest ih =>
    rw [Prog.forEach, meets_bind]
    have here := wrote_writeAt s (v.start (first + i)) (replicate v.blockSize 0)
    rw [length_replicate] at here
    refine (ih (s := s.writeAt (v.start (first + i)) (replicate v.blockSize 0))).imp ?_
    rintro - t ⟨memory, later, clear⟩
    refine ⟨memory, here.trans later, fun b was => clear b ?_⟩
    by_cases same : b = first + i
    · exact .inl (same ▸ block_writeAt length_replicate _)
    · rcases was with was | ⟨i', mem, equal⟩
      · refine .inl ((here.block fun span mem => ?_).trans was)
        rw [mem_singleton.mp mem]
        exact blockSpan_apart same
      · exact .inr ⟨i', (mem_cons.mp mem).resolve_left (fun no => same (no ▸ equal)), equal⟩

structure Vol.HoldsGroup (v : Layout) (s : Vol) (gdt newBlocks g : Nat) : Prop where
  blockBitmap : s.block v (v.bitmapOf gdt g) =
    newBlockBitmap v (v.headBlocks gdt g) (v.groupBlocks newBlocks g)
  inodeBitmap : s.block v (v.bitmapOf gdt g + 1) = newInodeBitmap v
  inodeTable : ∀ i < v.inodeTableBlocks,
    s.block v (v.bitmapOf gdt g + 2 + i) = replicate v.blockSize 0

/-- A group that has room for its metadata is written, and its descriptor last. -/
structure Added (v : Layout) (s : Vol) (gdt newBlocks g : Nat) (t : Vol) : Prop where
  room : v.headBlocks gdt g ≤ v.groupBlocks newBlocks g
  memory : SameMemory s t
  wrote : Wrote (v.groupSpans gdt g) s t
  desc : SameOutside descSpans (t.desc v g).raw (newDescRaw v (v.bitmapOf gdt g))
  /-- Unless the descriptor is in the group itself. -/
  holds : v.descOff g + v.descSize ≤ v.start (v.groupStart g) → t.HoldsGroup v gdt newBlocks g

theorem stampSuper_meets (g : Nat) (raw : s.sb.raw.length = superblockSize) : (stampSuper v g).Meets s
    (fun _ t => SameMemory s t ∧ Wrote (if v.isSparseSuperGroup g then [v.copySpan g] else []) s t)
    fun _ _ => False := by
  unfold stampSuper
  split
  next =>
    have long : (putUint16 s.sb.raw 90 g).length = superblockSize := by
      rw [putUint16, writeAt_length, putUint_length, raw]
      decide
    have here := wrote_writeAt s (v.start (v.groupStart g)) (putUint16 s.sb.raw 90 g)
    rw [long] at here
    exact ⟨⟨rfl, rfl⟩, here⟩
  next => exact ⟨⟨rfl, rfl⟩, Wrote.refl s⟩

theorem writeGroup_meets (gdt newBlocks g : Nat) :
    (writeGroup v (newDesc v (v.bitmapOf gdt g) (v.groupBlocks newBlocks g - v.headBlocks gdt g))
      (v.headBlocks gdt g) (v.groupBlocks newBlocks g)).Meets s
      (fun d t => SameMemory s t ∧ t.HoldsGroup v gdt newBlocks g ∧
        Wrote ([v.blockSpan (v.bitmapOf gdt g), v.blockSpan (v.bitmapOf gdt g + 1)] ++
          (range v.inodeTableBlocks).map fun i => v.blockSpan (v.bitmapOf gdt g + 2 + i)) s t ∧
        SameOutside descSpans (t.recount v g (sealDesc v g (d.encode v))) (newDescRaw v (v.bitmapOf gdt g)))
      fun _ _ => False := by
  have length := newBlockBitmap_length (v := v) (v.headBlocks gdt g) (v.groupBlocks newBlocks g)
  refine .seq (writeBitmap_meets length) ?_ fun _ _ => False.elim
  rintro - s1 ⟨rfl, memory1, wrote1, block⟩
  refine .seq (writeBitmap_meets newInodeBitmap_length) ?_ fun _ _ => False.elim
  rintro - s2 ⟨rfl, memory2, wrote2, inode⟩
  refine .seq (writeTable_meets _ _) ?_ fun _ _ => False.elim
  rintro - t ⟨memory3, wrote3, clear⟩
  rw [meets_pure]
  simp only [setBitmapCsum_inodeBitmap, setBitmapCsum_inodeTable] at wrote2 inode wrote3 clear
  have table : ∀ b < v.bitmapOf gdt g + 2, t.block v b = s2.block v b := by
    intro b front
    refine wrote3.block fun span mem => ?_
    obtain ⟨i, -, rfl⟩ := mem_map.mp mem
    exact blockSpan_apart (by change b ≠ v.bitmapOf gdt g + 2 + i; omega)
  refine ⟨(memory1.trans memory2).trans memory3, ⟨?_, ?_, fun i inside => ?_⟩, ?_, newDesc_written _ _ _ _⟩
  · rw [table _ (by omega), ← block]
    refine wrote2.block fun span mem => ?_
    rw [mem_singleton.mp mem]
    exact blockSpan_apart (by change v.bitmapOf gdt g ≠ v.bitmapOf gdt g + 1; omega)
  · rw [table _ (by omega)]
    exact inode
  · exact clear _ (.inr ⟨i, mem_range.mpr inside, rfl⟩)
  · exact (wrote1.trans wrote2).trans wrote3

theorem addGroup_meets (gdt newBlocks g : Nat) (raw : s.sb.raw.length = superblockSize) :
    (addGroup v gdt newBlocks g).Meets s (fun _ t => Added v s gdt newBlocks g t)
      fun e t => t = s ∧ e = .noRoom g ∧ v.groupBlocks newBlocks g < v.headBlocks gdt g := by
  unfold addGroup
  dsimp only
  split
  next few => exact ⟨rfl, rfl, few⟩
  next room =>
    refine .seq (stampSuper_meets g raw) ?_ fun _ _ => False.elim
    rintro - s1 ⟨memory1, wrote1⟩
    refine .seq (writeGroup_meets gdt newBlocks g) ?_ fun _ _ => False.elim
    rintro d s2 ⟨memory2, holds, wrote2, same⟩
    rw [meets_bind, writeBGD, meets_modify, meets_pure]
    have last := wrote_writeAt s2 (v.descOff g) (s2.recount v g (sealDesc v g (d.encode v)))
    have there := desc_writeAt (s := s2) (g := g) (same.length.trans (newDescRaw_length _))
    rw [same.length, newDescRaw_length] at last
    have kept : v.descOff g + v.descSize ≤ v.start (v.groupStart g) → ∀ b, v.groupStart g ≤ b →
        (s2.writeBGD v g d).block v b = s2.block v b := by
      intro front b inside
      refine last.block fun span mem => .inr ?_
      rw [mem_singleton.mp mem]
      exact front.trans (Nat.add_le_add_left (Nat.mul_le_mul_right _ inside) _)
    have inGroup : v.groupStart g ≤ v.bitmapOf gdt g := Nat.le_add_right _ _
    constructor
    case room => exact not_lt.mp room
    case memory => exact memory1.trans memory2
    case wrote =>
      have all := (wrote1.trans wrote2).trans last
      unfold Layout.groupSpans
      simp only [append_assoc] at all ⊢
      exact all
    case desc => exact (congrArg Desc.raw there).symm ▸ same
    case holds =>
      intro front
      have kept := kept front
      refine ⟨?_, ?_, fun i inside => ?_⟩
      · rw [kept _ inGroup, holds.blockBitmap]
      · rw [kept _ (by omega), holds.inodeBitmap]
      · rw [kept _ (by omega), holds.inodeTable i inside]

inductive AddedAll (v : Layout) (gdt newBlocks : Nat) : List Nat → Vol → Vol → Prop
  | nil {s : Vol} : AddedAll v gdt newBlocks [] s s
  | cons {g : Nat} {rest : List Nat} {s t u : Vol} (first : Added v s gdt newBlocks g t)
      (later : AddedAll v gdt newBlocks rest t u) : AddedAll v gdt newBlocks (g :: rest) s u

section
variable {gdt newBlocks : Nat} {groups : List Nat}

section
variable (all : AddedAll v gdt newBlocks groups s t)
include all

theorem AddedAll.memory : SameMemory s t := by
  induction all with
  | nil => exact ⟨rfl, rfl⟩
  | cons first _ ih => exact first.memory.trans ih

theorem AddedAll.room :
    ∀ g ∈ groups, v.headBlocks gdt g ≤ v.groupBlocks newBlocks g := by
  induction all with
  | nil => nofun
  | cons first _ ih => exact forall_mem_cons.mpr ⟨first.room, ih⟩

theorem AddedAll.wrote :
    Wrote (groups.flatMap (v.groupSpans gdt)) s t := by
  induction all with
  | nil => exact Wrote.refl _
  | cons first _ ih => exact first.wrote.trans ih

end

theorem addGroups_meets (groups : List Nat) (total : Nat) (raw : s.sb.raw.length = superblockSize) :
    (addGroups v gdt newBlocks groups total).Meets s (fun _ t => AddedAll v gdt newBlocks groups s t)
      fun _ t => SameMemory s t ∧ ∃ g ∈ groups, v.groupBlocks newBlocks g < v.headBlocks gdt g := by
  induction groups generalizing s total with
  | nil => exact .nil
  | cons g rest ih =>
    rw [addGroups, meets_bind]
    refine (addGroup_meets gdt newBlocks g raw).mono ?_ ?_
    · intro added s1 first
      refine (ih (total + added) (by rw [first.memory.1, raw])).mono ?_ ?_
      · exact fun _ _ later => .cons first later
      · rintro _ t ⟨memory, g', mem, few⟩
        exact ⟨first.memory.trans memory, g', .tail _ mem, few⟩
    · rintro _ _ ⟨rfl, -, few⟩
      exact ⟨⟨rfl, rfl⟩, g, .head _, few⟩

end

/-! ## The resize inode -/

def Vol.resizeInodeOff (v : Layout) (s : Vol) : Nat :=
  v.inodeOff (s.desc v ((resizeIno - 1) / v.inodesPerGroup)) resizeIno

def Vol.resizeInode (v : Layout) (s : Vol) : Bytes := s.disk.readAt (s.resizeInodeOff v) v.inodeSize

def Vol.dindBlock (v : Layout) (s : Vol) : Nat := field (s.resizeInode v) (40 + 13 * 4) 4

/-- The loop over the entries of the double indirect block, for every new group with a copy. -/
inductive Slotted (v : Layout) (gdt : Nat) (dind : Bytes) : List (Nat × Nat) → Vol → Vol → Prop
  | nil {s : Vol} : Slotted v gdt dind [] s s
  | skip {g i : Nat} {rest : List (Nat × Nat)} {s t : Vol} (empty : field dind (i * 4) 4 = 0)
      (later : Slotted v gdt dind rest s t) : Slotted v gdt dind ((g, i) :: rest) s t
  | write {g i b : Nat} {rest : List (Nat × Nat)} {s t : Vol} (named : field dind (i * 4) 4 = b)
      (used : b ≠ 0) (inside : v.start b + v.blockSize ≤ s.size)
      (slot : backupOrdinal v g * 4 + 4 ≤ v.blockSize)
      (later : Slotted v gdt dind rest (s.writeAt (v.start b) (putUint32 (s.block v b)
        (backupOrdinal v g * 4) (v.groupStart g + 1 + gdt + i - 1))) t) :
      Slotted v gdt dind ((g, i) :: rest) s t

theorem extendSlots_meets {gdt : Nat} (pairs : List (Nat × Nat)) (total : Nat) :
    (extendSlots v gdt dind pairs total).Meets s
      (fun added t => Slotted v gdt dind pairs s t ∧
        added = total + pairs.countP fun pair => field dind (pair.2 * 4) 4 ≠ 0)
      fun _ t => SameMemory s t := by
  induction pairs generalizing s total with
  | nil => exact ⟨.nil, rfl⟩
  | cons pair rest ih =>
    obtain ⟨g, i⟩ := pair
    rw [extendSlots, meets_bind, extendSlot]
    dsimp only
    split
    next empty =>
      refine (ih (total + 0)).imp ?_
      rintro added t ⟨later, rfl⟩
      refine ⟨.skip empty later, ?_⟩
      rw [countP_cons_of_neg (by simpa using empty)]
      rfl
    next used =>
      refine .seq (readBlock_meets s _) ?_ ?_
      · rintro ind s1 ⟨rfl, rfl, inside⟩
        split
        next => exact ⟨rfl, rfl⟩
        next slot =>
          refine (ih (s := s1.writeAt _ _) (total + 1)).imp ?_
          rintro added t ⟨later, rfl⟩
          refine ⟨.write rfl used inside (not_lt.mp slot) later, ?_⟩
          rw [countP_cons_of_pos (by simpa using used)]
          omega
      · rintro e s1 ⟨rfl, -⟩
        exact ⟨rfl, rfl⟩

theorem putUint_length_of_le {raw : Bytes} {off n value len : Nat} (length : raw.length = len)
    (inside : off + n ≤ len) : (Octets.writeAt raw off (putUint n value)).length = len := by
  rw [writeAt_length, putUint_length, length]
  omega

theorem sealInode_length {num : Nat} {raw : Bytes} (length : raw.length = v.inodeSize) :
    (sealInode v num raw).length = v.inodeSize := by
  have room := v.inodeSize_ge
  have put : ∀ (raw : Bytes) (off value : Nat), raw.length = v.inodeSize → off + 2 ≤ v.inodeSize →
      (putUint16 raw off value).length = v.inodeSize := fun _ _ _ => putUint_length_of_le
  unfold sealInode
  split
  next =>
    dsimp only
    split
    next long =>
      have more : 0x82 + 2 ≤ v.inodeSize := by
        have := of_decide_eq_true long
        omega
      exact put _ _ _ (put _ _ _ (put _ _ _ (put _ _ _ length (by omega)) more) (by omega)) more
    next => exact put _ _ _ (put _ _ _ length (by omega)) (by omega)
  next => exact length

theorem addSectors_length {raw : Bytes} (length : raw.length = v.inodeSize) :
    (addSectors v added raw).length = v.inodeSize := by
  have room := v.inodeSize_ge
  exact putUint_length_of_le (putUint_length_of_le length (by omega)) (by omega)

/-- The new groups with a copy, each with every entry of the double indirect block. -/
def Layout.slotPairs (v : Layout) (oldGroups newGroups : Nat) : List (Nat × Nat) :=
  ((range' oldGroups (newGroups - oldGroups)).filter v.isSparseSuperGroup).flatMap fun g =>
    (range (v.blockSize / 4)).map fun i => (g, i)

/-- The blocks that the double indirect block names are extended, then the inode is written anew, where
its group's descriptor names it then. -/
structure Extended (v : Layout) (s : Vol) (oldGroups newGroups gdt : Nat) (t : Vol) : Prop where
  record : s.resizeInodeOff v + v.inodeSize ≤ s.size
  dind : s.dindBlock v ≠ 0
  dindInside : v.start (s.dindBlock v) + v.blockSize ≤ s.size
  slots : ∃ u, Slotted v gdt (s.block v (s.dindBlock v)) (v.slotPairs oldGroups newGroups) s u ∧
    if (v.slotPairs oldGroups newGroups).countP
        (fun pair => field (s.block v (s.dindBlock v)) (pair.2 * 4) 4 ≠ 0) = 0 then t = u
    else ∃ raw : Bytes, raw.length = v.inodeSize ∧ t = u.writeAt (u.resizeInodeOff v) raw

theorem Slotted.memory {gdt : Nat} {pairs : List (Nat × Nat)}
    (slotted : Slotted v gdt dind pairs s t) : SameMemory s t := by
  induction slotted with
  | nil => exact ⟨rfl, rfl⟩
  | skip _ _ ih => exact ih
  | write _ _ _ _ _ ih => exact ih

theorem extendResizeInode_meets (oldGroups newGroups gdt : Nat) :
    (extendResizeInode v oldGroups newGroups gdt).Meets s
      (fun _ t => SameMemory s t ∧ Extended v s oldGroups newGroups gdt t) fun _ t => SameMemory s t := by
  have still : SameMemory s s := ⟨rfl, rfl⟩
  unfold extendResizeInode readInode
  simp only [meets_bind, meets_read]
  split
  next => exact still
  next =>
    refine .seq (readBGD_meets s _) ?_ fun _ _ bad => bad.1 ▸ still
    rintro d t ⟨rfl, rfl, -⟩
    refine (readAt_meets t _ _).mono ?_ fun _ _ bad => bad.1 ▸ still
    rintro raw t' ⟨rfl, rfl, record⟩
    split
    next => exact still
    next dind =>
      refine .seq (readBlock_meets t' _) ?_ fun _ _ bad => bad.1 ▸ still
      rintro block t ⟨rfl, rfl, dindInside⟩
      refine .seq (extendSlots_meets _ _) ?_ fun _ _ => id
      rintro added u ⟨slotted, rfl⟩
      rw [Nat.zero_add]
      split
      next none => exact ⟨slotted.memory, record, dind, dindInside, u, slotted, (if_pos none).mpr rfl⟩
      next some =>
        rw [writeInode, meets_bind]
        refine (readBGD_meets u _).mono ?_ fun _ _ bad => bad.1 ▸ slotted.memory
        rintro d u' ⟨rfl, rfl, -⟩
        refine ⟨slotted.memory, record, dind, dindInside, u', slotted, ?_⟩
        refine (if_neg some).mpr ?_
        exact ⟨_, sealInode_length (addSectors_length (Disk.readAt_length _ _ _)), rfl⟩

/-- With reserved descriptor blocks the resize inode is extended, without them nothing is done. -/
def ExtendedReserved (v : Layout) (s : Vol) (oldGroups newGroups gdt : Nat) (t : Vol) : Prop :=
  if 0 < v.reservedGdt then Extended v s oldGroups newGroups gdt t else t = s

theorem extendReserved_meets (oldGroups newGroups gdt : Nat) :
    (extendReserved v oldGroups newGroups gdt).Meets s
      (fun _ t => SameMemory s t ∧ ExtendedReserved v s oldGroups newGroups gdt t)
      fun _ t => SameMemory s t := by
  unfold extendReserved ExtendedReserved
  split
  next => exact extendResizeInode_meets oldGroups newGroups gdt
  next => exact ⟨⟨rfl, rfl⟩, rfl⟩

/-! ## The copies -/

def Layout.copies (v : Layout) (groups : Nat) : List Nat :=
  (range' 1 (groups - 1)).filter v.isSparseSuperGroup

def Layout.blocksSpan (v : Layout) (b count : Nat) : Nat × Nat := (v.start b, v.start b + count * v.blockSize)

def Layout.copySpans (v : Layout) (gdt g : Nat) : List (Nat × Nat) :=
  [v.copySpan g, v.blocksSpan (v.groupStart g + 1) gdt]

theorem backupSuper_length (raw : s.sb.raw.length = superblockSize) :
    (putUint16 s.sb.raw 90 g).length = superblockSize :=
  putUint_length_of_le raw (by decide)

theorem refreshCopies_meets {gdt : Nat} {table : Bytes} (groups : List Nat)
    (raw : s.sb.raw.length = superblockSize) (long : table.length = gdt * v.blockSize) :
    (Prog.forEach (fun g => do writeBackupSuper v g; writeAt (v.start (v.groupStart g + 1)) table)
      groups).Meets s
      (fun _ t => SameMemory s t ∧ Wrote (groups.flatMap (v.copySpans gdt)) s t) fun _ _ => False := by
  induction groups generalizing s with
  | nil => exact ⟨⟨rfl, rfl⟩, Wrote.refl s⟩
  | cons g rest ih =>
    rw [Prog.forEach, meets_bind, meets_bind, writeBackupSuper, meets_bind]
    have super := wrote_writeAt s (v.start (v.groupStart g)) (putUint16 s.sb.raw 90 g)
    have descs := wrote_writeAt (s.writeAt (v.start (v.groupStart g)) (putUint16 s.sb.raw 90 g))
      (v.start (v.groupStart g + 1)) table
    rw [backupSuper_length raw] at super
    rw [long] at descs
    refine (ih (s := (s.writeAt (v.start (v.groupStart g)) (putUint16 s.sb.raw 90 g)).writeAt
      (v.start (v.groupStart g + 1)) table) raw).imp ?_
    rintro - t ⟨memory, later⟩
    exact ⟨memory, (super.trans descs).trans later⟩

theorem refreshSuperBackups_meets {gdt : Nat} (groups : Nat) (raw : s.sb.raw.length = superblockSize) :
    (refreshSuperBackups v groups gdt).Meets s
      (fun _ t => SameMemory s t ∧ (v.blocksSpan v.bgdTableBlock gdt).2 ≤ s.size ∧
        Wrote ((v.copies groups).flatMap (v.copySpans gdt)) s t)
      fun _ t => SameMemory s t ∧ s.size < (v.blocksSpan v.bgdTableBlock gdt).2 := by
  rw [refreshSuperBackups, meets_bind]
  refine (readAt_meets s _ _).mono ?_ ?_
  · rintro table t ⟨rfl, rfl, inside⟩
    refine (refreshCopies_meets _ raw (Disk.readAt_length _ _ _)).mono ?_ fun _ _ => False.elim
    exact fun _ u done => ⟨done.1, inside, done.2⟩
  · rintro _ t ⟨rfl, -, short⟩
    exact ⟨⟨rfl, rfl⟩, short⟩

/-! ## Grow -/

/-- The device is longer and the new number of blocks is in memory, before anything is looked at. -/
def Vol.published (v : Layout) (s : Vol) (newSize : Nat) : Vol :=
  (s.resized newSize).withBlocksCount (newSize / v.blockSize)

def Layout.superSpan (v : Layout) : Nat × Nat := (v.partOffset + 1024, v.partOffset + 1024 + superblockSize)

/-- The groups that a volume of the new size has, and the blocks of their descriptors. -/
def Layout.newGroups (v : Layout) (newSize : Nat) : Nat := v.groupsOf (newSize / v.blockSize)

def Layout.newGdt (v : Layout) (newSize : Nat) : Nat := v.gdtBlocks (v.newGroups newSize)

def Vol.fresh (v : Layout) (s : Vol) (newSize : Nat) : List Nat :=
  range' (s.numBlockGroups v) (v.newGroups newSize - s.numBlockGroups v)

structure Grew (v : Layout) (s : Vol) (newSize : Nat) (lasted added extended t : Vol) : Prop where
  last : if 0 < s.numBlockGroups v then
      GrewLast v (s.published v newSize) s.sb.blocksCount (newSize / v.blockSize) (s.numBlockGroups v - 1)
        lasted
    else lasted = s.published v newSize
  groups : AddedAll v (v.newGdt newSize) (newSize / v.blockSize) (s.fresh v newSize) lasted added
  inode : ExtendedReserved v added (s.numBlockGroups v) (v.newGroups newSize) (v.newGdt newSize) extended
  table : (v.blocksSpan v.bgdTableBlock (v.newGdt newSize)).2 ≤ max extended.size v.superSpan.2
  wrote : Wrote (v.superSpan :: (v.copies (v.newGroups newSize)).flatMap (v.copySpans (v.newGdt newSize)))
    extended t
  blocksCount : t.sb.blocksCount = newSize / v.blockSize

theorem grown_blocksCount (blocks addedBlocks addedInodes : Nat) :
    (s.grown blocks addedBlocks addedInodes).sb.blocksCount = blocks := by
  unfold Vol.grown
  split <;> rfl

theorem grown_disk (blocks addedBlocks addedInodes : Nat) :
    (s.grown blocks addedBlocks addedInodes).disk = s.disk := by
  unfold Vol.grown
  split <;> rfl

theorem grown_size (blocks addedBlocks addedInodes : Nat) :
    (s.grown blocks addedBlocks addedInodes).size = s.size := by
  unfold Vol.grown
  split <;> rfl

section
variable (raw : s.sb.raw.length = superblockSize)
include raw

theorem grown_raw_length (blocks addedBlocks addedInodes : Nat) :
    (s.grown blocks addedBlocks addedInodes).sb.raw.length = superblockSize := by
  unfold Vol.grown
  split
  · exact putUint_length_of_le raw (by decide)
  · exact raw

theorem writeSuperblock_meets : (writeSuperblock v).Meets s
    (fun _ t => t.sb = s.sb.encodeRaw v.toGeometry ∧ Wrote [v.superSpan] s t) fun _ _ => False := by
  have here := wrote_writeAt s (v.partOffset + 1024) (s.sb.encodeRaw v.toGeometry).raw
  rw [show (s.sb.encodeRaw v.toGeometry).raw.length = superblockSize from encoded_length raw] at here
  exact ⟨rfl, here.of_eq rfl rfl⟩

theorem publish_meets {blocks groups gdt inodes : Nat} :
    (do
      .modify fun s => s.grown blocks added inodes
      writeSuperblock v
      refreshSuperBackups v groups gdt : Call Unit).Meets s
      (fun _ t => t.sb.blocksCount = blocks ∧
        (v.blocksSpan v.bgdTableBlock gdt).2 ≤ max s.size v.superSpan.2 ∧
        Wrote (v.superSpan :: (v.copies groups).flatMap (v.copySpans gdt)) s t)
      fun _ t => t.sb.blocksCount = blocks ∧ s.size < (v.blocksSpan v.bgdTableBlock gdt).2 := by
  have long := grown_raw_length raw blocks added inodes
  rw [meets_bind, meets_modify, meets_bind]
  refine (writeSuperblock_meets long).mono ?_ fun _ _ => False.elim
  rintro - s1 ⟨sb, super⟩
  have count : s1.sb.blocksCount = blocks := by
    rw [sb]
    exact grown_blocksCount blocks added inodes
  have long' : s1.sb.raw.length = superblockSize := by
    rw [sb]
    exact encoded_length long
  have size := super.size
  rw [grown_size] at size
  refine (refreshSuperBackups_meets groups long').mono ?_ fun _ t bad => ⟨by rw [bad.1.1, count], ?_⟩
  swap
  · exact Nat.lt_of_le_of_lt ((size _).mp (le_refl _)).1 bad.2
  rintro - t ⟨memory, table, copies⟩
  refine ⟨by rw [memory.1, count], ?_, ?_⟩
  · exact table.trans ((size _).mpr ⟨le_max_left _ _, forall_mem_singleton.mpr (le_max_right _ _)⟩)
  · refine Wrote.trans ⟨fun p outside => ?_, size⟩ copies
    rw [super.disk p outside, grown_disk]

end

theorem growOld_meets (oldBlocks newBlocks : Nat) : (growOld v oldBlocks newBlocks).Meets s
    (fun _ t => SameMemory s t ∧ if 0 < v.groupsOf oldBlocks then
      GrewLast v s oldBlocks newBlocks (v.groupsOf oldBlocks - 1) t else t = s)
    fun _ t => SameMemory s t := by
  unfold growOld
  split
  next => exact (growLast_meets _ _ _).mono (fun _ _ => id) fun _ _ bad => bad.1 ▸ ⟨rfl, rfl⟩
  next => exact ⟨⟨rfl, rfl⟩, rfl⟩

theorem growTo_meets (newSize : Nat) (raw : s.sb.raw.length = superblockSize) :
    (growTo v newSize).Meets s (fun _ t => ∃ lasted added extended, Grew v s newSize lasted added extended t)
      fun _ t => t.sb.blocksCount = newSize / v.blockSize := by
  have count : ∀ {t : Vol}, SameMemory (s.published v newSize) t →
      t.sb.blocksCount = newSize / v.blockSize := fun memory => congrArg Super.blocksCount memory.1
  have long : ∀ {t : Vol}, SameMemory (s.published v newSize) t → t.sb.raw.length = superblockSize :=
    fun memory => by rw [memory.1]; exact raw
  unfold growTo
  rw [meets_bind, meets_read, meets_bind, meets_modify, meets_bind, meets_modify,
    meets_bind]
  -- The three steps that may fail keep what is in memory.
  refine (growOld_meets _ _).mono ?_ fun _ _ => count
  rintro inLast lasted ⟨memory, last⟩
  refine .seq (addGroups_meets _ inLast (long memory)) ?_ fun _ _ bad => count (memory.trans bad.1)
  intro total added groups
  have memory' := memory.trans groups.memory
  refine .seq (extendReserved_meets _ _ _) ?_ fun _ _ bad => count (memory'.trans bad)
  rintro - extended ⟨memory'', inode⟩
  refine (publish_meets (long (memory'.trans memory''))).mono ?_ fun _ _ => And.left
  rintro - t ⟨blocksCount, table, wrote⟩
  exact ⟨lasted, added, extended, last, groups, inode, table, wrote, blocksCount⟩

/-- The checks before anything is changed: a positive size, and a longer device by a whole block. -/
def Vol.growRefused (v : Layout) (s : Vol) (newSize : Int) : Prop :=
  newSize ≤ 0 ∨ newSize.toNat ≤ s.size ∨ newSize.toNat / v.blockSize ≤ s.size / v.blockSize

theorem grow_meets (newSize : Int) (raw : s.sb.raw.length = superblockSize) : (grow v newSize).Meets s
    (fun _ t => ¬ s.growRefused v newSize ∧
      ∃ lasted added extended, Grew v s newSize.toNat lasted added extended t)
    fun _ t => (s.growRefused v newSize ∧ t = s) ∨
      (¬ s.growRefused v newSize ∧ t.sb.blocksCount = newSize.toNat / v.blockSize) := by
  unfold grow
  split
  next negative => exact .inl ⟨.inl negative, rfl⟩
  next positive =>
    rw [meets_bind, meets_read]
    dsimp only
    split
    next shorter => exact .inl ⟨.inr (.inl shorter), rfl⟩
    next longer =>
    split
    next same => exact .inl ⟨.inr (.inr same), rfl⟩
    next more =>
      have admitted : ¬ s.growRefused v newSize := by
        rintro (no | no | no)
        · exact positive no
        · exact longer no
        · exact more no
      refine (growTo_meets newSize.toNat raw).mono (fun _ _ done => ⟨admitted, done⟩) ?_
      exact fun _ _ count => .inr ⟨admitted, count⟩

end Ext4.Resize
