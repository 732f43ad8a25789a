import Ext4.Volume.ExtentCodec

/-! Where the target of a symbolic link is kept.
`makeSymlink` and `readSymlink` go by the length: up to 60 octets are in `i_block`. The format goes by
the extents flag and the map. -/

namespace Ext4.InodeData
open Octets Overlay Volume List

def linkInode (inodeSize now size : Nat) : Bytes :=
  putSlots (replicate inodeSize 0) [⟨0, 2, 0o777 ||| 0xA000⟩, ⟨26, 2, 1⟩, ⟨4, 4, size⟩,
    ⟨108, 4, size / 2 ^ 32⟩, ⟨8, 4, now⟩, ⟨12, 4, now⟩, ⟨16, 4, now⟩]

def setBlocks512 (n : Nat) (s : Site) : Site := { s with raw := writeAt s.raw 28 (putUint 4 n) }

/-- The part of `makeSymlink` that fills the inode. -/
def makeSymlink (v : Resize.Layout) (cursor inodeSize now : Nat) (tgt : Bytes) : Prog Site WriteErr Unit :=
  if tgt.length = 0 then .fail .emptyTarget
  else if v.blockSize < tgt.length then .fail .targetTooLong
  else do
    .modify fun s => { s with raw := linkInode inodeSize now tgt.length }
    if tgt.length ≤ 60 then
      .modify fun s => setBlocks512 0 { s with raw := writeAt s.raw 40 tgt }
    else do
      let physBlock ← allocBlock v none cursor
      .modify fun s => s.writeRawBlock v physBlock (tgt ++ replicate (v.blockSize - tgt.length) 0)
      setInlineExtents [⟨0, physBlock, 1⟩]
      .modify (setBlocks512 (v.blockSize / 512))

section
variable [Safeio] (v : Geometry)

def readSymlink (dev : Device) (x : Inode) : Except Err Bytes :=
  if x.size ≤ 60 then .ok (x.iblock.take x.size) else readFileData v dev x

structure Maps (dev : Device) (x : Inode) (leaves : List Extent) : Prop where
  extents : x.isMapped
  plain : x.isInline = false
  parsed : parseExtentRoot v dev x.iblock = .ok leaves
  block : leafBlocks leaves ≠ []

/-- The target as the format stores it. The data blocks are those of the filesystem and of the
device, and the size is within the read limit. -/
inductive Target (dev : Device) (x : Inode) : Bytes → Prop
  | blocks {leaves : List Extent} (maps : Maps v dev x leaves) (small : x.size < maxInt64)
      (fits : x.size ≤ fileSizeCeiling v (mappedEnd v leaves))
      (backed : ∀ b ∈ leafBlocks leaves, (v.blocksCount ≠ 0 → b.2 < v.blocksCount) ∧
        v.fsOffset + b.2 * v.blockSize + v.blockSize ≤ dev.length) :
      Target dev x ((range x.size).map (content v dev leaves))
  | inside (unmapped : ∀ leaves, ¬ Maps v dev x leaves) (short : x.size ≤ 60) :
      Target dev x (x.iblock.take x.size)

end

theorem copyBlocks_backed {v : Geometry} {dev : Device} (size : Nat) {blocks : List (Nat × Nat)}
    (backed : ∀ b ∈ blocks, (v.blocksCount ≠ 0 → b.2 < v.blocksCount) ∧
      v.fsOffset + b.2 * v.blockSize + v.blockSize ≤ dev.length) (out : Bytes) :
    ∃ data, copyBlocks v dev size blocks out = .ok data := by
  induction blocks generalizing out with
  | nil => exact ⟨out, rfl⟩
  | cons b rest ih =>
    obtain ⟨⟨valid, present⟩, later⟩ := forall_mem_cons.mp backed
    rw [copyBlocks, if_neg fun beyond => by have := valid beyond.1; omega]
    split
    · exact ih later out
    · rw [Device.readAt, if_pos (.inr (by omega))]
      exact ih later _

theorem Target.read [Safeio] {v : Geometry} {dev : Device} {x : Inode} {want : Bytes}
    (target : Target v dev x want) (long : 60 < x.size) :
    readSymlink v dev x = .ok want := by
  cases target with
  | inside _ short => omega
  | @blocks leaves maps small fits backed =>
    obtain ⟨data, copied⟩ := copyBlocks_backed x.size backed (replicate x.size 0)
    have some : leaves ≠ [] := by
      rintro rfl
      exact maps.block rfl
    rw [readSymlink, if_neg (by omega), readFileData, maps.plain, if_neg Bool.false_ne_true, if_pos maps.extents,
      extentData, maps.parsed]
    have made : makeBytes x.size (fileSizeCeiling v (mappedEnd v leaves)) = .ok (replicate x.size 0) := by
      rw [makeBytes, Nat.min_eq_left small.le, Safeio.makeBytes_fits fits small]
    simp only [bind, Except.bind, made, some, and_false, if_false, copied]
    rw [(copyBlocks_content (parseExtentRoot_disjoint maps.parsed).1 copied).1]

/-! ## New links -/

section
variable {raw data tgt : Bytes} {off num inodeSize : Nat} {v : Resize.Layout} {cursor limit : Nat}

theorem linkInode_length (large : 128 ≤ inodeSize) (now size : Nat) :
    (linkInode inodeSize now size).length = inodeSize := by
  rw [linkInode, putSlots_length] <;> simp
  omega

theorem linkInode_fields (num : Nat) (large : 128 ≤ inodeSize) (now : Nat) {size : Nat}
    (small : size < 2 ^ 32) : (Inode.decode num (linkInode inodeSize now size)).size = size ∧
      field (linkInode inodeSize now size) 32 4 = 0 := by
  have apart : Apart (replicate inodeSize (0 : UInt8)).length ([⟨0, 2, 0o777 ||| 0xA000⟩, ⟨26, 2, 1⟩,
      ⟨4, 4, size⟩, ⟨108, 4, size / 2 ^ 32⟩, ⟨8, 4, now⟩, ⟨12, 4, now⟩, ⟨16, 4, now⟩].map Slot.span) :=
    ⟨by simp [Slot.span]; omega, by simp [Slot.span]⟩
  have put (slot : Octets.Slot) (mem : slot ∈ _) := field_putSlots apart mem
  have low := put ⟨4, 4, size⟩ (by simp)
  have high := put ⟨108, 4, size / 2 ^ 32⟩ (by simp)
  rw [← linkInode] at low high
  rw [Nat.mod_eq_of_lt (by simpa using small)] at low
  rw [Nat.div_eq_of_lt small, Nat.zero_mod] at high
  refine ⟨by simp [Inode.decode, low, high], ?_⟩
  rw [linkInode, field_putSlots_outside (by simp; omega) apart.inside (by simp), field, drop_replicate,
    take_replicate, Nat.min_eq_left (by omega)]
  rfl

theorem decode_writeAt (long : 112 ≤ raw.length) (low : 8 ≤ off) (high : off + data.length ≤ 108) :
    (Inode.decode num (writeAt raw off data)).size = (Inode.decode num raw).size := by
  rw [Inode.decode, field_writeAt_outside (by omega) (.inr high), field_writeAt_outside (by omega) (.inl low),
    Inode.decode]

theorem makeSymlink_short [Safeio] (large : 128 ≤ inodeSize) (now : Nat) (some : tgt ≠ [])
    (short : tgt.length ≤ 60) (fits : tgt.length ≤ v.blockSize) (s : Site) :
    ∃ t, makeSymlink v cursor inodeSize now tgt s = (.ok (), t) ∧
      readSymlink (t.geometry v limit) t.dev (.decode num t.raw) = .ok tgt := by
  have length := linkInode_length large now tgt.length
  set raw := linkInode inodeSize now tgt.length with new
  have stored : 100 ≤ (writeAt raw 40 tgt).length := by
    rw [writeAt_length]
    omega
  refine ⟨⟨writeAt (writeAt raw 40 tgt) 28 (putUint 4 0), s.vol⟩, ?_, ?_⟩
  · rw [makeSymlink, if_neg (by simpa using some), if_neg (by omega), if_pos short]
    rfl
  have size : (Inode.decode num (writeAt (writeAt raw 40 tgt) 28 (putUint 4 0))).size = tgt.length := by
    rw [decode_writeAt (by rw [writeAt_length]; omega) (by omega) (by rw [putUint_length]; omega),
      decode_writeAt (by omega) (by omega) (by omega), new, (linkInode_fields num large now (by omega)).1]
  have inside : (Inode.decode num (writeAt (writeAt raw 40 tgt) 28 (putUint 4 0))).iblock.take tgt.length = tgt := by
    rw [Inode.iblock, Inode.decode, iblock_writeAt stored (by rw [putUint_length]; omega), take_take,
      Nat.min_eq_left short, writeAt_window]
  rw [readSymlink]
  simp only [size, inside, short, if_true]

theorem block_fits {v : Geometry} (small : v.blockSize ≤ 65536) (limit : v.blockSize ≤ v.readLimit) (b : Nat) :
    v.blockSize ≤ fileSizeCeiling v (mappedEnd v [⟨0, b, 1⟩]) := by
  have declared : v.blockSize ≤ (declaredBytes v).getD (mappedEnd v [⟨0, b, 1⟩]) := by
    unfold declaredBytes
    split
    · simp [mappedEnd]
    · split
      · unfold maxInt64
        simp only [Option.getD_some]
        omega
      · exact Nat.le_mul_of_pos_left _ (by omega)
  unfold fileSizeCeiling
  dsimp only
  split <;> omega

theorem makeSymlink_long [Safeio] (num : Nat) (large : 128 ≤ inodeSize) (now : Nat) (long : 60 < tgt.length)
    (fits : tgt.length ≤ v.blockSize) (allowed : v.blockSize ≤ limit)
    {s t : Site} {b : Nat} (allocated : allocBlock v none cursor ⟨linkInode inodeSize now tgt.length, s.vol⟩ = (.ok b, t))
    (addressable : b < 2 ^ 48) (inside : b < t.vol.sb.blocksCount) :
    (makeSymlink v cursor inodeSize now tgt).Meets s
      (fun _ t => Target (t.geometry v limit) t.dev (.decode num t.raw) tgt ∧
        60 < (Inode.decode num t.raw).size) fun _ _ => False := by
  have small := v.blockSize_le
  have same : t.raw = linkInode inodeSize now tgt.length :=
    ((allocBlock_meets Resize.search_inside trivial).ok allocated).1
  have length := linkInode_length large now tgt.length
  set written := t.writeRawBlock v b (tgt ++ replicate (v.blockSize - tgt.length) 0) with block
  have encodable : Encodable [⟨0, b, 1⟩] :=
    ⟨by simp, by simp, by simpa using addressable, by simp [disjointRuns]⟩
  obtain ⟨u, ran, parsed⟩ := setInlineExtents_encodes encodable (by simp)
  rw [makeSymlink, if_neg (by omega), if_neg (by omega), if_neg (by omega)]
  rw [meets_bind, meets_modify, meets_bind]
  refine Prog.Meets.of_ok allocated ?_
  rw [meets_bind, meets_modify, meets_bind]
  refine Prog.Meets.of_ok ran ?_
  rw [meets_modify]
  obtain rfl : { written with raw := setRoot written.raw (leafNode 60 4 [⟨0, b, 1⟩]) } = u := (Prod.mk.inj ran).2
  have node : (leafNode 60 4 [⟨0, b, 1⟩]).length = 60 := by simp [leafNode, nodeHeader_length, encodeLeaf_length]
  have kept : written.raw = linkInode inodeSize now tgt.length := same
  have stored : 112 ≤ (setRoot written.raw (leafNode 60 4 [⟨0, b, 1⟩])).length := by
    simp only [setRoot, writeAt_length, kept, length, node]
    omega
  set x := Inode.decode num (setBlocks512 (v.blockSize / 512)
    { written with raw := setRoot written.raw (leafNode 60 4 [⟨0, b, 1⟩]) }).raw with made
  have size : x.size = tgt.length := by
    simp only [made, setBlocks512]
    rw [decode_writeAt stored (by omega) (by simp), setRoot, decode_writeAt (by simp [kept, length]; omega) (by omega)
      (by simp), decode_writeAt (by rw [kept]; omega) (by omega) (by omega), kept,
      (linkInode_fields num large now (by omega)).1]
  have flags : x.flags = 0x80000 := by
    simp only [made, setBlocks512, Inode.flags, Inode.decode]
    rw [field_writeAt_outside (by omega) (by simp), setRoot, field_writeAt,
      field_writeAt_outside (by rw [kept]; omega) (by simp), kept, (linkInode_fields num large now (by omega)).2]
    rfl
  have maps : Maps (written.geometry v limit) written.dev x [⟨0, b, 1⟩] := by
    refine ⟨by rw [Inode.isMapped, flags]; rfl, by rw [Inode.isInline, flags]; rfl, ?_, by simp [leafBlocks]⟩
    simp only [Inode.iblock, made, Inode.decode, setBlocks512]
    rw [iblock_writeAt (by omega) (by simp)]
    exact parsed
  have data : (range x.size).map (content (written.geometry v limit) written.dev [⟨0, b, 1⟩]) = tgt := by
    refine ext_getElem (by simp [size]) fun p less inside => ?_
    have within : p < (written.geometry v limit).blockSize := Nat.lt_of_lt_of_le inside fits
    have first := Nat.div_eq_of_lt within
    rw [getElem_map, getElem_range, content_covered (pairwise_singleton _ _) (mem_singleton_self _)
      (by rw [first]; exact ⟨Nat.le_refl _, Nat.one_pos⟩), first, Nat.mod_eq_of_lt within]
    change (t.vol.disk.writeAt (v.start b) (tgt ++ replicate (v.blockSize - tgt.length) 0)) (v.start b + p) = _
    rw [Disk.writeAt_inside _ _ _ _ (by rw [length_append]; omega), getElem_append_left inside]
  refine ⟨data ▸ Target.blocks maps (by rw [size]; unfold maxInt64; omega) ?_ ?_, by omega⟩
  · rw [size]
    exact fits.trans (block_fits (v := written.geometry v limit) small allowed b)
  · -- The device reaches as far as the block that was written.
    have padded : (tgt ++ replicate (v.blockSize - tgt.length) 0).length = v.blockSize := by
      rw [length_append, length_replicate]
      omega
    have backed : v.start b + (tgt ++ replicate (v.blockSize - tgt.length) 0).length ≤ written.dev.length :=
      Nat.le_max_right _ _
    rw [padded] at backed
    simpa [leafBlocks] using ⟨fun _ => inside, backed⟩

end

def sampleLink : Inode :=
  .decode 12 (putUint 4 0xA1FF ++ putUint 4 60 ++ replicate 24 0 ++ putUint 4 0x80000 ++ replicate 4 0 ++
    sampleTree [⟨0, 5, 1⟩] ++ replicate 64 0)

end Ext4.InodeData
