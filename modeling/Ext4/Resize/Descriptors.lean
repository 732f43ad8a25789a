import Ext4.Resize.Disk

/-! What the writes of the driver leave alone.
A descriptor is written with new counts and checksums; the block numbers in it never change. A write
to the device changes what is read where the two meet, and nothing else. -/

namespace Ext4.Resize
open Octets Overlay SuperArea List

variable {v : Layout} {s t : Vol} {d : Desc} {raw other data : Bytes} {g b off low high : Nat}

/-! ## The octets of a descriptor -/

def descSpans : List (Nat × Nat) :=
  [(12, 14), (14, 16), (16, 18), (24, 26), (26, 28), (30, 32), (44, 46), (46, 48), (48, 50), (56, 58),
    (58, 60)]

theorem Layout.descSize_of_wide (wide : v.wide) : 64 ≤ v.descSize := by
  simp only [Layout.wide, Bool.and_eq_true, decide_eq_true_eq] at wide
  exact wide.2

def Desc.countSlots (v : Layout) (d : Desc) : List Slot :=
  if v.wide then
    [⟨12, 2, d.freeBlocks⟩, ⟨44, 2, d.freeBlocks / 2 ^ 16⟩, ⟨14, 2, d.freeInodes⟩,
      ⟨46, 2, d.freeInodes / 2 ^ 16⟩, ⟨16, 2, d.usedDirs⟩, ⟨48, 2, d.usedDirs / 2 ^ 16⟩]
  else [⟨12, 2, d.freeBlocks⟩, ⟨14, 2, d.freeInodes⟩, ⟨16, 2, d.usedDirs⟩]

theorem encode_eq (d : Desc) : d.encode v = putSlots d.raw (d.countSlots v) := by
  unfold Desc.encode putWide16 Desc.countSlots
  by_cases wide : v.wide
  · simp only [wide, if_true]
    rfl
  · simp only [wide]
    rfl

def countSpans (v : Layout) : List (Nat × Nat) :=
  if v.wide then [(12, 14), (44, 46), (14, 16), (46, 48), (16, 18), (48, 50)]
  else [(12, 14), (14, 16), (16, 18)]

theorem countSlots_span (d : Desc) : (d.countSlots v).map Slot.span = countSpans v := by
  unfold Desc.countSlots countSpans
  split <;> rfl

theorem countSpans_apart : Apart v.descSize (countSpans v) := by
  have room := v.descSize_ge
  have more := @Layout.descSize_of_wide v
  unfold countSpans Apart
  split
  next wide =>
    have more := more wide
    simp
    omega
  next =>
    simp
    omega

theorem countSpans_subset : countSpans v ⊆ descSpans := by
  unfold countSpans
  split <;> decide

theorem encode_counts (length : d.raw.length = v.descSize) :
    SameOutside (countSpans v) (d.encode v) d.raw := by
  have apart := @countSpans_apart v
  rw [encode_eq, ← countSlots_span d]
  rw [← countSlots_span d, ← length] at apart
  exact SameOutside.putSlots apart.inside

theorem encode_same (length : d.raw.length = v.descSize) : SameOutside descSpans (d.encode v) d.raw :=
  (encode_counts length).mono countSpans_subset

theorem putUint16_same (value : Nat) (listed : (off, off + 2) ∈ descSpans)
    (inside : off + 2 ≤ raw.length) : SameOutside descSpans (putUint16 raw off value) raw :=
  SameOutside.writeAt value listed inside

theorem sealDesc_sum (length : raw.length = v.descSize) : SameOutside [(30, 32)] (sealDesc v g raw) raw := by
  have room := v.descSize_ge
  unfold sealDesc
  split
  next =>
    have first : SameOutside [(30, 32)] (putUint16 raw 30 0) raw := .writeAt 0 (.head _) (by omega)
    have second : ∀ value, SameOutside [(30, 32)] (putUint16 (putUint16 raw 30 0) 30 value)
        (putUint16 raw 30 0) := fun value => .writeAt value (.head _) (by rw [first.length]; omega)
    exact (second _).trans first
  next => exact SameOutside.refl _ _

theorem sealDesc_same (length : raw.length = v.descSize) : SameOutside descSpans (sealDesc v g raw) raw :=
  (sealDesc_sum length).mono (by decide)

theorem setBitmapCsum_same {covered : Nat} {bitmap : Bytes} (listed : (low, low + 2) ∈ descSpans)
    (listed' : (high, high + 2) ∈ descSpans) (length : d.raw.length = v.descSize) (inside : low + 2 ≤ 32)
    (inside' : high + 2 ≤ 64) :
    SameOutside descSpans (setBitmapCsum v covered low high bitmap d).raw d.raw := by
  have room := v.descSize_ge
  unfold setBitmapCsum
  split
  next =>
    have first := @putUint16_same d.raw low
      (crc32c v.csumSeed (bitmap.take ((covered + 7) / 8))).toNat listed (by omega)
    split
    next => exact (putUint16_same _ listed' (by rw [first.length]; omega)).trans first
    next => exact first
  next => exact SameOutside.refl _ _

theorem recount_same (length : raw.length = v.descSize) : SameOutside descSpans (s.recount v g raw) raw := by
  unfold Vol.recount
  dsimp only
  split
  next => exact SameOutside.refl _ _
  next =>
    have counted := @encode_same v { decodeBGD v raw with
      freeBlocks := (s.recounted v (decodeBGD v raw).blockBitmap v.blocksPerGroup).getD
        (decodeBGD v raw).freeBlocks
      freeInodes := (s.recounted v (decodeBGD v raw).inodeBitmap v.inodesPerGroup).getD
        (decodeBGD v raw).freeInodes } length
    exact (sealDesc_same (counted.length.trans length)).trans counted

def Layout.countBits (v : Layout) : Nat := if v.wide then 32 else 16

theorem wideField_lt (raw : Bytes) (low high : Nat) : wideField v raw low high 2 < 2 ^ v.countBits := by
  have lower := field_lt raw low 2
  have upper := field_lt raw high 2
  unfold wideField Layout.countBits
  split <;> omega

theorem wideField_encode (length : d.raw.length = v.descSize) {value : Nat}
    (lower : ⟨low, 2, value⟩ ∈ d.countSlots v)
    (upper : v.wide → ⟨high, 2, value / 2 ^ 16⟩ ∈ d.countSlots v) :
    wideField v (d.encode v) low high 2 = value % 2 ^ v.countBits := by
  have apart := @countSpans_apart v
  rw [← countSlots_span d, ← length] at apart
  have below := field_putSlots apart lower
  rw [wideField, encode_eq, below, Layout.countBits]
  split
  next wide =>
    have above := field_putSlots apart (upper wide)
    rw [above]
    dsimp only
    omega
  next => norm_num

theorem decodeBGD_encode (length : d.raw.length = v.descSize) :
    (decodeBGD v (d.encode v)).freeBlocks = d.freeBlocks % 2 ^ v.countBits ∧
      (decodeBGD v (d.encode v)).freeInodes = d.freeInodes % 2 ^ v.countBits ∧
      (decodeBGD v (d.encode v)).usedDirs = d.usedDirs % 2 ^ v.countBits := by
  refine ⟨wideField_encode length ?_ ?_, wideField_encode length ?_ ?_, wideField_encode length ?_ ?_⟩
  all_goals
    unfold Desc.countSlots
    split <;> simp_all

theorem sealDesc_counts (length : raw.length = v.descSize)
    (outside : low + 2 ≤ 30 ∨ 32 ≤ low) (outside' : high + 2 ≤ 30 ∨ 32 ≤ high) :
    wideField v (sealDesc v g raw) low high 2 = wideField v raw low high 2 := by
  have same := @sealDesc_sum v raw g length
  rw [wideField, wideField, same.field (by simpa using outside), same.field (by simpa using outside')]

theorem written_same (length : d.raw.length = v.descSize) :
    SameOutside descSpans (s.recount v g (sealDesc v g (d.encode v))) d.raw := by
  have counted := encode_same length
  have closed := @sealDesc_same v _ g (counted.length.trans length)
  exact (recount_same (closed.length.trans (counted.length.trans length))).trans (closed.trans counted)

def Desc.structures (d : Desc) : Nat × Nat × Nat := (d.blockBitmap, d.inodeBitmap, d.inodeTable)

theorem decodeBGD_structures (same : SameOutside descSpans raw other) :
    (decodeBGD v raw).structures = (decodeBGD v other).structures := by
  have kept : ∀ low high, (∀ span ∈ descSpans, low + 4 ≤ span.1 ∨ span.2 ≤ low) →
      (∀ span ∈ descSpans, high + 4 ≤ span.1 ∨ span.2 ≤ high) →
      wideField v raw low high 4 = wideField v other low high 4 := by
    intro low high outside outside'
    rw [wideField, wideField, same.field outside, same.field outside']
  simp only [Desc.structures, decodeBGD, kept 0 32 (by decide) (by decide),
    kept 4 36 (by decide) (by decide), kept 8 40 (by decide) (by decide)]

/-! ## A descriptor that is written as it was -/

theorem countSpans_fields (blocks : (decodeBGD v raw).freeBlocks = (decodeBGD v other).freeBlocks)
    (inodes : (decodeBGD v raw).freeInodes = (decodeBGD v other).freeInodes)
    (dirs : (decodeBGD v raw).usedDirs = (decodeBGD v other).usedDirs) : ∀ span ∈ countSpans v,
      field raw span.1 (span.2 - span.1) = field other span.1 (span.2 - span.1) := by
  have halves : ∀ low high, wideField v raw low high 2 = wideField v other low high 2 →
      field raw low 2 = field other low 2 ∧
        (v.wide → field raw high 2 = field other high 2) := by
    intro low high same
    have one := field_lt raw low 2
    have two := field_lt other low 2
    unfold wideField at same
    split at same
    next wide => omega
    next narrow => exact ⟨by omega, fun wide => absurd wide narrow⟩
  have first := halves 12 44 blocks
  have second := halves 14 46 inodes
  have third := halves 16 48 dirs
  unfold countSpans
  split
  next wide => simp [first.1, second.1, third.1, first.2 wide, second.2 wide, third.2 wide]
  next => simp [first.1, second.1, third.1]

theorem sealDesc_congr (length : other.length = v.descSize)
    (same : SameOutside ((30, 32) :: countSpans v) raw other) (counts : ∀ span ∈ countSpans v,
      field raw span.1 (span.2 - span.1) = field other span.1 (span.2 - span.1))
    (plain : v.metadataCsum = false → field raw 30 2 = field other 30 2) :
    sealDesc v g raw = sealDesc v g other := by
  have room := v.descSize_ge
  unfold sealDesc
  split
  next =>
    have cleared : putUint16 raw 30 0 = putUint16 other 30 0 := by
      have one : SameOutside ((30, 32) :: countSpans v) (putUint16 raw 30 0) raw :=
        .writeAt 0 (.head _) (by rw [same.length]; omega)
      have two : SameOutside ((30, 32) :: countSpans v) (putUint16 other 30 0) other :=
        .writeAt 0 (.head _) (by omega)
      refine (one.trans (same.trans two.symm)).eq fun span mem => ?_
      rcases mem_cons.mp mem with rfl | mem
      · exact (field_writeAt raw 30 2 0).trans (field_writeAt other 30 2 0).symm
      · have apart : span.2 ≤ v.descSize ∧ span.1 ≤ span.2 ∧ (span.2 ≤ 30 ∨ 32 ≤ span.1) := by
          refine ⟨countSpans_apart.1 span mem, ?_⟩
          have ordered : ∀ span ∈ descSpans, span.1 ≤ span.2 ∧
              (span.2 ≤ 30 ∨ 32 ≤ span.1 ∨ span = (30, 32)) := by decide
          have other : (30, 32) ∉ countSpans v := by
            unfold countSpans
            split <;> decide
          obtain ⟨order, place⟩ := ordered span (countSpans_subset mem)
          refine ⟨order, ?_⟩
          rcases place with low | high | rfl
          · exact .inl low
          · exact .inr high
          · exact absurd mem other
        unfold putUint16
        rw [field_writeAt_outside (by rw [same.length]; omega) (by rw [putUint_length]; omega),
          field_writeAt_outside (by omega) (by rw [putUint_length]; omega)]
        exact counts span mem
    rw [cleared]
  next checked =>
    refine same.eq fun span mem => ?_
    rcases mem_cons.mp mem with rfl | mem
    · exact plain (by simpa using checked)
    · exact counts span mem

/-- A descriptor whose counts are those of its bitmaps and whose checksum is right: whatever count
of free blocks it is written with, the commit worker writes it as it was. -/
theorem recount_restores (length : raw.length = v.descSize) (checked : sealDesc v g raw = raw)
    (blocks : s.recounted v (decodeBGD v raw).blockBitmap v.blocksPerGroup =
      some (decodeBGD v raw).freeBlocks)
    (inodes : s.recounted v (decodeBGD v raw).inodeBitmap v.inodesPerGroup =
      some (decodeBGD v raw).freeInodes)
    (from_raw : d.raw = raw) (inodeCount : d.freeInodes = (decodeBGD v raw).freeInodes)
    (dirCount : d.usedDirs = (decodeBGD v raw).usedDirs) :
    s.recount v g (sealDesc v g (d.encode v)) = raw := by
  have small : ∀ low high, wideField v raw low high 2 % 2 ^ v.countBits = wideField v raw low high 2 :=
    fun low high => Nat.mod_eq_of_lt (wideField_lt raw low high)
  have encoded : SameOutside (countSpans v) (d.encode v) raw := from_raw ▸ encode_counts (from_raw ▸ length)
  have long : (d.encode v).length = v.descSize := encoded.length.trans length
  obtain ⟨-, encodedInodes, encodedDirs⟩ := @decodeBGD_encode v d (from_raw ▸ length)
  rw [inodeCount] at encodedInodes
  rw [dirCount] at encodedDirs
  replace encodedInodes := encodedInodes.trans (small 14 46)
  replace encodedDirs := encodedDirs.trans (small 16 48)
  -- Writing the descriptor touches its counts and its checksum only.
  have closed := @sealDesc_sum v (d.encode v) g long
  have sealed_long := closed.length.trans long
  have same : SameOutside ((30, 32) :: countSpans v) (sealDesc v g (d.encode v)) raw :=
    (closed.mono (by simp)).trans (encoded.mono (subset_cons_self _ _))
  have places := @decodeBGD_structures v _ _ ((closed.mono (by decide)).trans
    (encoded.mono (@countSpans_subset v)))
  obtain ⟨blockPlace, rest⟩ := Prod.mk.inj places
  obtain ⟨inodePlace, -⟩ := Prod.mk.inj rest
  have outside : ∀ span ∈ countSpans v, 30 + 2 ≤ span.1 ∨ span.2 ≤ 30 := by
    unfold countSpans
    split <;> decide
  unfold Vol.recount
  dsimp only
  rw [blockPlace, inodePlace, blocks, inodes, Option.getD_some, Option.getD_some]
  split
  next counted =>
    have blockCount : (decodeBGD v (d.encode v)).freeBlocks = (decodeBGD v raw).freeBlocks :=
      (sealDesc_counts long (.inl (by decide)) (.inr (by decide))).symm.trans counted.1.symm
    rw [sealDesc_congr length (encoded.mono (subset_cons_self _ _))
      (countSpans_fields blockCount encodedInodes encodedDirs) fun _ => encoded.field outside, checked]
  next =>
    have again := @encode_counts v { decodeBGD v (sealDesc v g (d.encode v)) with
      freeBlocks := (decodeBGD v raw).freeBlocks, freeInodes := (decodeBGD v raw).freeInodes } sealed_long
    obtain ⟨blockCount, inodeCount', dirCount'⟩ := @decodeBGD_encode v
      { decodeBGD v (sealDesc v g (d.encode v)) with
        freeBlocks := (decodeBGD v raw).freeBlocks, freeInodes := (decodeBGD v raw).freeInodes } sealed_long
    have dirs : (decodeBGD v (sealDesc v g (d.encode v))).usedDirs = (decodeBGD v raw).usedDirs :=
      (sealDesc_counts long (.inl (by decide)) (.inr (by decide))).trans encodedDirs
    refine (sealDesc_congr length ((again.mono (subset_cons_self _ _)).trans same)
      (countSpans_fields ?_ ?_ ?_) fun plain => ?_).trans checked
    · exact blockCount.trans (small 12 44)
    · exact inodeCount'.trans (small 14 46)
    · refine dirCount'.trans ?_
      rw [dirs]
      exact small 16 48
    · have unsealed : sealDesc v g (d.encode v) = d.encode v := by simp [sealDesc, plain]
      refine (again.field outside).trans ?_
      exact (congrArg (fun raw => field raw 30 2) unsealed).trans (encoded.field outside)

/-! ## Reading what was written -/

theorem start_apart {b' : Nat} (less : b < b') : v.start b + v.blockSize ≤ v.start b' := by
  have := Nat.mul_le_mul_right v.blockSize (Nat.succ_le_of_lt less)
  unfold Layout.start
  rw [Nat.succ_mul] at this
  omega

theorem desc_congr (same : ∀ p, v.descOff g ≤ p → p < v.descOff g + v.descSize → t.disk p = s.disk p) :
    t.desc v g = s.desc v g := by
  unfold Vol.desc
  rw [Disk.readAt_congr fun i below => same _ (by omega) (by omega)]

theorem block_congr (same : ∀ p, v.start b ≤ p → p < v.start b + v.blockSize → t.disk p = s.disk p) :
    t.block v b = s.block v b :=
  Disk.readAt_congr fun i below => same _ (by omega) (by omega)

@[simp] theorem block_length : (s.block v b).length = v.blockSize := Disk.readAt_length _ _ _

@[simp] theorem desc_raw_length : (s.desc v g).raw.length = v.descSize := Disk.readAt_length _ _ _

theorem writeAt_outside {p : Nat} (outside : p < off ∨ off + data.length ≤ p) :
    (s.writeAt off data).disk p = s.disk p := Disk.writeAt_outside _ _ _ _ outside

theorem writeAt_same (there : s.disk.readAt off data.length = data)
    (inside : off + data.length ≤ s.size) : s.writeAt off data = s := by
  have disk : s.disk.writeAt off data = s.disk := by
    funext p
    by_cases outside : p < off ∨ off + data.length ≤ p
    · exact Disk.writeAt_outside _ _ _ _ outside
    · obtain ⟨i, rfl⟩ := Nat.exists_eq_add_of_le (show off ≤ p by omega)
      have bound : i < data.length := by omega
      have octet := congrArg (fun part : Bytes => part[i]?) there
      simp only [Disk.readAt_getElem? _ _ _ _ bound, getElem?_eq_getElem bound,
        Option.some.injEq] at octet
      rw [Disk.writeAt_inside _ _ _ _ bound, octet]
  unfold Vol.writeAt
  rw [disk, Nat.max_eq_left inside]

/-! ## Reading programs -/

theorem readAt_meets (s : Vol) (off len : Nat) : (readAt off len).Meets s
    (fun raw t => t = s ∧ raw = s.disk.readAt off len ∧ off + len ≤ s.size)
    fun e t => t = s ∧ e = .shortRead ∧ s.size < off + len := by
  rw [readAt, meets_tryRead]
  refine ⟨fun raw read => ?_, fun e read => ?_⟩
  · split at read
    next inside => exact ⟨rfl, (Except.ok.inj read).symm, inside⟩
    next => cases read
  · split at read
    next => cases read
    next outside => exact ⟨rfl, (Except.error.inj read).symm, by omega⟩

theorem readBlock_meets (s : Vol) (b : Nat) : (readBlock v b).Meets s
    (fun raw t => t = s ∧ raw = s.block v b ∧ v.start b + v.blockSize ≤ s.size)
    fun e t => t = s ∧ e = .shortRead ∧ s.size < v.start b + v.blockSize :=
  readAt_meets s _ _

theorem readBGD_meets (s : Vol) (g : Nat) : (readBGD v g).Meets s
    (fun d t => t = s ∧ d = s.desc v g ∧ v.descOff g + v.descSize ≤ s.size)
    fun e t => t = s ∧ e = .shortRead ∧ s.size < v.descOff g + v.descSize := by
  rw [readBGD, meets_bind]
  refine (readAt_meets s _ _).imp fun raw t read => ?_
  obtain ⟨rfl, rfl, inside⟩ := read
  exact ⟨rfl, rfl, inside⟩

end Ext4.Resize
