import Ext4.Resize.Allocation
import Ext4.Resize.ShrinkSafety

/-! The allocator after `Shrink`.
The bits behind the new end are left clear, so a new end inside a group leaves bits that the
allocator may take and that `CheckImage` counts. Groups that are dropped are taken out of the total
with what is free behind their heads only. -/

namespace Ext4.Resize
open Octets Overlay SuperArea List

variable {v : Layout} {s t : Vol} {g b : Nat}

/-! ## CheckImage -/

structure Checked (v : Layout) (s : Vol) : Prop where
  readable : ∀ g < s.numBlockGroups v, ¬ s.unreadable v g
  freeBlocks : ∀ g < s.numBlockGroups v, s.freeIn v g = (s.desc v g).freeBlocks
  freeInodes : ∀ g < s.numBlockGroups v, s.freeInodesIn v g = (s.desc v g).freeInodes
  totalBlocks : ((range (s.numBlockGroups v)).map (s.freeIn v)).sum % 2 ^ 64 = s.sb.freeBlocks
  totalInodes : ((range (s.numBlockGroups v)).map (s.freeInodesIn v)).sum % 2 ^ 32 = s.sb.freeInodes

def Vol.agrees (v : Layout) (s : Vol) (g : Nat) : Prop :=
  s.freeIn v g = (s.desc v g).freeBlocks ∧ s.freeInodesIn v g = (s.desc v g).freeInodes

theorem checkGroups_meets (groups : List Nat) (agree : Bool) {blocks inodes : Nat} (small : blocks < 2 ^ 64)
    (small' : inodes < 2 ^ 32) : (checkGroups v groups agree blocks inodes).Meets s
      (fun counts t => t = s ∧ (∀ g ∈ groups, ¬ s.unreadable v g) ∧
        (counts.1 ↔ agree ∧ ∀ g ∈ groups, s.agrees v g) ∧
        counts.2 = ((blocks + (groups.map (s.freeIn v)).sum) % 2 ^ 64,
          (inodes + (groups.map (s.freeInodesIn v)).sum) % 2 ^ 32))
      fun _ t => t = s ∧ ∃ g ∈ groups, s.unreadable v g := by
  induction groups generalizing agree blocks inodes with
  | nil =>
    refine ⟨rfl, nofun, by simp, ?_⟩
    rw [map_nil, map_nil, sum_nil, Nat.add_zero, Nat.add_zero, Nat.mod_eq_of_lt small,
      Nat.mod_eq_of_lt small']
  | cons g rest ih =>
    rw [checkGroups, meets_bind]
    refine (readBGD_meets s g).mono ?_ ?_
    · rintro d t ⟨rfl, rfl, desc⟩
      refine .seq (readBlock_meets t _) ?_ ?_
      · rintro bitmap t' ⟨rfl, rfl, block⟩
        refine .seq (readBlock_meets t' _) ?_ ?_
        · rintro inodeBitmap t ⟨rfl, rfl, inode⟩
          refine (ih _ (Nat.mod_lt _ (by decide)) (Nat.mod_lt _ (by decide))).mono ?_ ?_
          · rintro counts t' ⟨rfl, readable, agreed, sums⟩
            have here : ¬ t'.unreadable v g := by unfold Vol.unreadable; omega
            refine ⟨rfl, forall_mem_cons.mpr ⟨here, readable⟩, ?_, ?_⟩
            · rw [agreed, Bool.and_eq_true, Bool.and_eq_true, decide_eq_true_eq, decide_eq_true_eq,
                forall_mem_cons, Vol.agrees, and_assoc, and_assoc, and_assoc]
              rfl
            · rw [sums, map_cons, map_cons, sum_cons, sum_cons, Prod.mk.injEq]
              unfold Vol.freeIn Vol.freeInodesIn
              omega
          · rintro e t' ⟨rfl, g', mem, bad⟩
            exact ⟨rfl, g', mem_cons_of_mem _ mem, bad⟩
        · rintro e t ⟨rfl, -, short⟩
          exact ⟨rfl, g, mem_cons_self, .inr (.inr short)⟩
      · rintro e t' ⟨rfl, -, short⟩
        exact ⟨rfl, g, mem_cons_self, .inr (.inl short)⟩
    · rintro e t ⟨rfl, -, short⟩
      exact ⟨rfl, g, mem_cons_self, .inl short⟩

theorem checkImage_ok_iff : checkImage v s = (.ok (), s) ↔ Checked v s := by
  have meets : (checkImage v).Meets s (fun _ t => t = s ∧ Checked v s) fun _ _ => ¬ Checked v s := by
    rw [checkImage, meets_bind, meets_read, meets_bind]
    refine (checkGroups_meets _ true (Nat.two_pow_pos 64) (Nat.two_pow_pos 32)).mono ?_ ?_
    · rintro ⟨agree, blocks, inodes⟩ t ⟨rfl, readable, agreed, sums⟩
      rw [Nat.zero_add, Nat.zero_add, Prod.mk.injEq] at sums
      dsimp only [id] at readable agreed sums ⊢
      obtain ⟨rfl, rfl⟩ := sums
      split
      next good =>
        have agrees := (agreed.mp good.1).2
        refine ⟨rfl, ⟨?_, ?_, ?_, good.2.1, good.2.2⟩⟩
        · exact fun g present => readable g (mem_range.mpr present)
        · exact fun g present => (agrees g (mem_range.mpr present)).1
        · exact fun g present => (agrees g (mem_range.mpr present)).2
      next bad =>
        intro checked
        refine bad ⟨agreed.mpr ⟨rfl, fun g mem => ?_⟩, checked.totalBlocks, checked.totalInodes⟩
        have present := mem_range.mp mem
        exact ⟨checked.freeBlocks g present, checked.freeInodes g present⟩
    · rintro e t ⟨rfl, g, mem, bad⟩ checked
      exact checked.readable g (mem_range.mp mem) bad
  rcases ran : checkImage v s with ⟨e | _, t⟩
  · have failed := meets.error ran
    exact ⟨nofun, fun checked => absurd checked failed⟩
  · obtain ⟨rfl, checked⟩ := meets.ok ran
    exact ⟨fun _ => checked, fun _ => rfl⟩

/-! ## The volume after the call -/

section
variable {newSize : Nat}

theorem shrunk_raw_length (long : s.sb.raw.length = superblockSize) (blocks freed inodes freedInodes : Nat) :
    (s.shrunk blocks freed inodes freedInodes).sb.raw.length = superblockSize := by
  unfold Vol.shrunk
  split
  · exact putUint32_length long (by decide)
  · exact long

theorem Shrunk.size (shrunk : Shrunk v s newSize t) : t.size = newSize := by
  obtain ⟨-, _, -, rfl⟩ := shrunk
  rfl

variable (filesystem : Filesystem v s) (shrunk : Shrunk v s newSize t) (smaller : newSize < s.size)
  (fewer : newSize / v.blockSize ≤ s.sb.blocksCount) (some : 0 < newSize / v.blockSize)
include filesystem shrunk smaller fewer some

theorem Shrunk.disk {p : Nat} (inside : p < newSize)
    (outside : p < v.partOffset + 1024 ∨ v.partOffset + 2048 ≤ p) :
    t.disk p = (s.cutTo v (newSize / v.blockSize)).disk p := by
  obtain ⟨-, freedInodes, -, rfl⟩ := shrunk
  have size := cutTo_size filesystem fewer some
  have long : ∀ freed inodes, (((s.cutTo v (newSize / v.blockSize)).shrunk (newSize / v.blockSize) freed
      inodes freedInodes).sb.encoded v.toGeometry).length = 1024 := fun freed inodes =>
    encoded_length (shrunk_raw_length (by rw [cutTo_sb]; exact filesystem.raw) _ _ _ _)
  unfold Vol.shrunkTo Vol.resized Vol.superWritten Vol.writeAt
  dsimp only
  have kept : ∀ freed inodes, (((s.cutTo v (newSize / v.blockSize)).shrunk (newSize / v.blockSize) freed
      inodes freedInodes)).size = s.size ∧ (((s.cutTo v (newSize / v.blockSize)).shrunk
      (newSize / v.blockSize) freed inodes freedInodes)).disk = (s.cutTo v (newSize / v.blockSize)).disk := by
    intro freed inodes
    unfold Vol.shrunk
    split <;> exact ⟨size, rfl⟩
  rw [(kept _ _).1, (kept _ _).2, if_pos (by omega), Disk.writeAt_outside _ _ _ _ (by rw [long]; omega)]

theorem Shrunk.desc (readable : v.descOff g + v.descSize ≤ newSize) :
    t.desc v g = (s.cutTo v (newSize / v.blockSize)).desc v g := by
  have low := @descOff_ge v g
  exact desc_congr fun p first last =>
    shrunk.disk filesystem smaller fewer some (by omega) (.inr (by omega))

theorem Shrunk.block (present : g < s.numBlockGroups v) (mem : b ∈ s.structures v g)
    (readable : v.start b + v.blockSize ≤ newSize) :
    t.block v b = (s.cutTo v (newSize / v.blockSize)).block v b := by
  have low := @descOff_ge v g
  have behind := (descOff_le present).trans (filesystem.start_structure_ge present mem)
  exact block_congr fun p first last =>
    shrunk.disk filesystem smaller fewer some (by omega) (.inr (by omega))

end

/-! ## Counting -/

theorem clearIn_eq_iff {bitmap : Bytes} {low high n : Nat} (inside : high ≤ n) :
    clearIn bitmap low high = Alloc.clearCount n (bitAt bitmap) ↔
      ∀ i < n, bitAt bitmap i = false → low ≤ i ∧ i < high := by
  have once : ((range' low (high - low)).filter fun i => !bitAt bitmap i).Nodup := by
    have all : (range' low (high - low)).Nodup := nodup_range'
    exact all.filter _
  have once' : ((range n).filter fun i => bitAt bitmap i = false).Nodup := nodup_range.filter _
  have mem : ∀ i, i ∈ (range' low (high - low)).filter (fun i => !bitAt bitmap i) ↔
      (low ≤ i ∧ i < high) ∧ bitAt bitmap i = false := fun i => by
    rw [mem_filter, mem_span, Bool.not_eq_true']
  have mem' : ∀ i, i ∈ (range n).filter (fun i => bitAt bitmap i = false) ↔
      i < n ∧ bitAt bitmap i = false := fun i => by
    rw [mem_filter, mem_range, decide_eq_true_eq]
  rw [clearIn, Alloc.clearCount, countP_eq_length_filter, countP_eq_length_filter]
  constructor
  · intro equal i below clear
    have sub : (range' low (high - low)).filter (fun i => !bitAt bitmap i) ⊆
        (range n).filter fun i => bitAt bitmap i = false := fun i listed => by
      have := (mem i).mp listed
      exact (mem' i).mpr ⟨by omega, this.2⟩
    have perm := (once.subperm sub).perm_of_length_le equal.ge
    exact ((mem i).mp (perm.mem_iff.mpr ((mem' i).mpr ⟨below, clear⟩))).1
  · intro spanned
    refine ((perm_ext_iff_of_nodup once once').mpr fun i => ?_).length_eq
    rw [mem, mem']
    exact ⟨fun found => ⟨by omega, found.2⟩, fun found => ⟨spanned i found.1 found.2, found.2⟩⟩

theorem eq_of_sum_eq {f h : Nat → Nat} {groups : List Nat} (below : ∀ g ∈ groups, f g ≤ h g)
    (equal : (groups.map f).sum = (groups.map h).sum) : ∀ g ∈ groups, f g = h g := by
  induction groups with
  | nil => exact nofun
  | cons g rest ih =>
    obtain ⟨here, later⟩ := forall_mem_cons.mp below
    have sums := sum_le_sum later
    rw [map_cons, map_cons, sum_cons, sum_cons] at equal
    exact forall_mem_cons.mpr ⟨by omega, ih later (by omega)⟩

theorem sum_split {count groups : Nat} (f : Nat → Nat) (fewer : count ≤ groups) :
    ((range groups).map f).sum = ((range count).map f).sum +
      ((range' count (groups - count)).map f).sum := by
  have split : range groups = range count ++ range' count (groups - count) := by
    rw [range_eq_range', range_eq_range']
    have joined := @range'_append_1 0 count (groups - count)
    rw [Nat.zero_add, Nat.add_sub_cancel' fewer] at joined
    exact joined.symm
  rw [split, map_append, sum_append]

theorem sum_freeIn_lt (s : Vol) {groups : List Nat} (few : groups.length ≤ s.numBlockGroups v) :
    (groups.map (s.freeIn v)).sum < 2 ^ 64 := by
  have each : ∀ free ∈ groups.map (s.freeIn v), free ≤ 524288 := by
    intro free mem
    obtain ⟨g, -, rfl⟩ := mem_map.mp mem
    have := Alloc.clearCount_le v.blocksPerGroup (bitAt (s.block v (s.desc v g).blockBitmap))
    have := v.blockBits
    have := v.blockSize_le
    unfold Vol.freeIn
    omega
  have most := sum_le_card_nsmul _ _ each
  have small : s.numBlockGroups v < 2 ^ 32 := Nat.mod_lt _ (by decide)
  rw [length_map, smul_eq_mul] at most
  omega

theorem Consistent.checked (consistent : Consistent v s) : Checked v s := by
  constructor
  case readable => exact fun g present => consistent.readable present
  case freeBlocks => exact fun g present => (consistent.freeBlocks g present).symm
  case freeInodes => exact fun g present => (consistent.freeInodes g present).symm
  case totalBlocks =>
    rw [consistent.totalBlocks]
    exact Nat.mod_eq_of_lt (sum_freeIn_lt s length_range.le)
  case totalInodes =>
    have each : ∀ free ∈ (range (s.numBlockGroups v)).map (s.freeInodesIn v),
        free ≤ v.inodesPerGroup := by
      intro free mem
      obtain ⟨g, -, rfl⟩ := mem_map.mp mem
      exact Alloc.clearCount_le _ _
    have most := sum_le_card_nsmul _ _ each
    have few := consistent.inodes
    rw [length_map, length_range, smul_eq_mul] at most
    rw [consistent.totalInodes, Nat.mod_eq_of_lt (by omega)]

open Format in
/-- `CheckImage` passes every image that `Format` makes. -/
theorem format_checks (cfg : Config) {total : Nat} (accepted : accepts total) (fits : Fits total) :
    checkImage (layout cfg) (formatted total cfg) = (.ok (), formatted total cfg) :=
  checkImage_ok_iff.mpr (formatted_consistent cfg fits accepted).checked

theorem format_checks_twoGroups : (checkImage plainLayout twoGroups).1 = .ok () :=
  congrArg Prod.fst (format_checks ⟨[], [], 0⟩ (by decide) (by decide))

/-! ## The condition -/

/-- The new end is that of a group, no block of a dropped group is free in its head or behind its end,
and the descriptors and bitmaps of the groups that remain are on the device that is left. -/
structure CleanCut (v : Layout) (s : Vol) (newSize : Nat) : Prop where
  whole : newSize / v.blockSize = v.groupStart (v.groupsOf (newSize / v.blockSize))
  heads : ∀ g ∈ s.gone v (newSize / v.blockSize), ∀ i < v.blocksPerGroup,
    bitAt (s.block v (s.desc v g).blockBitmap) i = false →
      v.headBlocks (v.gdtBlocks (s.numBlockGroups v)) g ≤ i ∧ i < v.groupRange s.sb.blocksCount g
  onDevice : ∀ g < v.groupsOf (newSize / v.blockSize), v.descOff g + v.descSize ≤ newSize ∧
    v.start (s.desc v g).blockBitmap + v.blockSize ≤ newSize ∧
    v.start (s.desc v g).inodeBitmap + v.blockSize ≤ newSize

theorem groupRange_le_group (blocks g : Nat) : v.groupRange blocks g ≤ v.blocksPerGroup := by
  unfold Layout.groupRange
  omega

section
variable {newBlocks : Nat} (some : 0 < v.groupsOf newBlocks)
  (whole : newBlocks = v.groupStart (v.groupsOf newBlocks))
include some whole

theorem usedIn_whole (blocks : Nat) : v.usedIn blocks (v.groupsOf newBlocks - 1) ≤
    v.usedIn newBlocks (v.groupsOf newBlocks - 1) := by
  have last : v.groupStart (v.groupsOf newBlocks - 1) + v.blocksPerGroup = newBlocks := by
    obtain ⟨n, eq⟩ := Nat.exists_eq_succ_of_ne_zero some.ne'
    rw [eq] at whole ⊢
    unfold Layout.groupStart at *
    rw [Nat.succ_mul] at whole
    rw [Nat.succ_sub_one]
    omega
  unfold Layout.usedIn
  omega

theorem cutTo_whole : s.cutTo v newBlocks = s := by
  have ends := usedIn_whole some whole s.sb.blocksCount
  unfold Vol.cutTo
  rw [if_neg (by omega)]

theorem cutFree_whole : s.cutFree v newBlocks = 0 := clearIn_empty (usedIn_whole some whole s.sb.blocksCount)

end

section
variable {newSize : Nat}

def Vol.goneFree (v : Layout) (s : Vol) (newBlocks : Nat) : Nat :=
  ((s.gone v newBlocks).map (s.droppedFree v s.sb.blocksCount (v.gdtBlocks (s.numBlockGroups v)))).sum

variable (filesystem : Filesystem v s) (shrunk : Shrunk v s newSize t)
  (fewer : newSize / v.blockSize ≤ s.sb.blocksCount) (some : 0 < newSize / v.blockSize)
include filesystem shrunk fewer some

theorem Shrunk.freeBlocks : t.sb.freeBlocks = lessBy 64
    (s.cutFree v (newSize / v.blockSize) + s.goneFree v (newSize / v.blockSize)) s.sb.freeBlocks := by
  obtain ⟨-, freedInodes, -, rfl⟩ := shrunk
  rw [Vol.goneFree, map_congr_left fun g gone =>
    (cutTo_droppedFree filesystem fewer some gone s.sb.blocksCount _).symm]
  unfold Vol.shrunkTo Vol.shrunk
  dsimp only [Vol.resized, Vol.superWritten, Vol.writeAt, Super.encodeRaw]
  split
  all_goals
    rw [cutTo_sb]

theorem Shrunk.freeInodes : t.sb.freeInodes = lessBy 32
    ((s.gone v (newSize / v.blockSize)).map fun g => (s.desc v g).freeInodes).sum s.sb.freeInodes ∨
      s.gone v (newSize / v.blockSize) = [] ∧ t.sb.freeInodes = s.sb.freeInodes := by
  obtain ⟨-, freedInodes, sum, rfl⟩ := shrunk
  rw [map_congr_left fun g gone =>
    congrArg Desc.freeInodes (cutTo_gone filesystem fewer some gone).1] at sum
  have few : (s.gone v (newSize / v.blockSize)).length * v.inodesPerGroup < 2 ^ 32 := by
    refine Nat.lt_of_le_of_lt (Nat.mul_le_mul_right _ ?_) filesystem.inodes
    rw [Vol.gone, length_range']
    exact Nat.sub_le _ _
  unfold Vol.shrunkTo Vol.shrunk
  dsimp only [Vol.resized, Vol.superWritten, Vol.writeAt, Super.encodeRaw]
  rw [Nat.mod_eq_of_lt few]
  split
  next dropped =>
    refine .inl ?_
    dsimp only
    rw [cutTo_sb, lessBy, lessBy, sum]
  next none =>
    refine .inr ⟨?_, by rw [cutTo_sb]⟩
    have positive := v.inodesPerGroup_pos
    by_contra more
    exact none (Nat.mul_pos (length_pos_iff.mpr more) positive)

end

theorem Shrunk.received_behind {newSize : Nat} (filesystem : Filesystem v s) (shrunk : Shrunk v s newSize t)
    (smaller : newSize < s.size) (fewer : newSize / v.blockSize < s.sb.blocksCount)
    (some : 0 < newSize / v.blockSize) (checked : Checked v t)
    (partly : newSize / v.blockSize < v.groupStart (v.groupsOf (newSize / v.blockSize))) :
    ∃ calls, newSize / v.blockSize ∈ received v calls t := by
  have fewer' := Nat.le_of_lt fewer
  have counted := filesystem.groups
  have last := filesystem.last_lt fewer' some
  have groups : t.numBlockGroups v = v.groupsOf (newSize / v.blockSize) := by
    rw [Vol.numBlockGroups, shrunk.blocksCount]
  have least := filesystem.groupsOf_pos fewer' some
  set nb := newSize / v.blockSize with hnb
  set g := v.groupsOf nb - 1 with hg
  have present : g < t.numBlockGroups v := by omega
  -- The new end is in the last group.
  have start : v.groupStart g ≤ nb := by
    have before : g < v.groupsOf nb := by omega
    rw [lt_groupsOf (by omega)] at before
    have := v.firstDataBlock_le
    unfold Layout.groupStart
    omega
  have ends : nb < v.groupStart g + v.blocksPerGroup := by
    have step : v.groupsOf nb = g + 1 := by omega
    rw [step] at partly
    unfold Layout.groupStart at *
    rw [Nat.succ_mul] at partly
    omega
  have low : v.usedIn nb g = nb - v.groupStart g := by
    unfold Layout.usedIn
    omega
  have shorter : v.usedIn nb g < v.usedIn s.sb.blocksCount g := by
    unfold Layout.usedIn at *
    omega
  have cut : s.cutTo v nb = s.cut v (v.usedIn nb g) (v.usedIn s.sb.blocksCount g) g := by
    exact if_pos shorter
  -- What is read there is what the cut has left.
  have readable := checked.readable g present
  unfold Vol.unreadable at readable
  rw [shrunk.size] at readable
  have desc := shrunk.desc filesystem smaller fewer' some (g := g) (by omega)
  have rewritten := @cut_rewritten v s (v.usedIn nb g) (v.usedIn s.sb.blocksCount g) g
  have place : (t.desc v g).blockBitmap = (s.desc v g).blockBitmap := by
    rw [desc, ← hnb, cut]
    exact (Prod.mk.inj rewritten.structures_self).1
  have bits := shrunk.block filesystem smaller fewer' some last (@blockBitmap_mem v s g) (by
    rw [← place]
    omega)
  rw [← hnb, cut, rewritten.block_self filesystem last] at bits
  have clear : bitAt (t.block v (t.desc v g).blockBitmap) (v.usedIn nb g) = false := by
    have fits : v.usedIn s.sb.blocksCount g ≤ 8 * (s.block v (s.desc v g).blockBitmap).length := by
      rw [block_length]
      exact (Nat.min_le_left _ _).trans v.blockBits
    rw [place, bits, bitAt_clearRange fits]
    simp [shorter]
  have inside : v.usedIn nb g < v.blocksPerGroup := by omega
  have mem := received_all (by rw [shrunk.size]; omega) (by rw [shrunk.size]; omega)
    (checked.freeBlocks g present).symm inside clear present []
  rw [low, Nat.add_sub_cancel' start] at mem
  exact ⟨_, mem⟩

section
variable {newSize : Nat} (filesystem : Filesystem v s) (checked : Checked v s) (shrunk : Shrunk v s newSize t)
  (smaller : newSize < s.size) (fewer : newSize / v.blockSize ≤ s.sb.blocksCount)
  (some : 0 < newSize / v.blockSize)
  (whole : newSize / v.blockSize = v.groupStart (v.groupsOf (newSize / v.blockSize)))
include filesystem shrunk smaller fewer some whole

theorem Shrunk.kept (present : g < v.groupsOf (newSize / v.blockSize))
    (onDevice : v.descOff g + v.descSize ≤ newSize ∧
      v.start (s.desc v g).blockBitmap + v.blockSize ≤ newSize ∧
      v.start (s.desc v g).inodeBitmap + v.blockSize ≤ newSize) :
    t.desc v g = s.desc v g ∧ t.freeIn v g = s.freeIn v g ∧ t.freeInodesIn v g = s.freeInodesIn v g := by
  have there := Nat.lt_of_lt_of_le present (filesystem.groupsOf_le fewer)
  have uncut := @cutTo_whole v s _ (filesystem.groupsOf_pos fewer some) whole
  have desc := shrunk.desc filesystem smaller fewer some onDevice.1
  have blocks := shrunk.block filesystem smaller fewer some there blockBitmap_mem onDevice.2.1
  have inodes := shrunk.block filesystem smaller fewer some there inodeBitmap_mem onDevice.2.2
  rw [uncut] at desc blocks inodes
  refine ⟨desc, ?_, ?_⟩
  · rw [Vol.freeIn, desc, blocks, Vol.freeIn]
  · rw [Vol.freeInodesIn, desc, inodes, Vol.freeInodesIn]

include checked

/-- The total is right exactly when the dropped groups have no free block outside the counted part. -/
theorem Shrunk.total_iff (onDevice : ∀ g < v.groupsOf (newSize / v.blockSize),
      v.descOff g + v.descSize ≤ newSize ∧ v.start (s.desc v g).blockBitmap + v.blockSize ≤ newSize ∧
      v.start (s.desc v g).inodeBitmap + v.blockSize ≤ newSize) :
    ((range (v.groupsOf (newSize / v.blockSize))).map (t.freeIn v)).sum % 2 ^ 64 = t.sb.freeBlocks ↔
      ∀ g ∈ s.gone v (newSize / v.blockSize), ∀ i < v.blocksPerGroup,
        bitAt (s.block v (s.desc v g).blockBitmap) i = false →
          v.headBlocks (v.gdtBlocks (s.numBlockGroups v)) g ≤ i ∧ i < v.groupRange s.sb.blocksCount g := by
  have least := filesystem.groupsOf_pos fewer some
  have kept : (range (v.groupsOf (newSize / v.blockSize))).map (t.freeIn v) =
      (range (v.groupsOf (newSize / v.blockSize))).map (s.freeIn v) :=
    map_congr_left fun g mem => (shrunk.kept filesystem smaller fewer some whole
      (mem_range.mp mem) (onDevice g (mem_range.mp mem))).2.1
  have split := sum_split (s.freeIn v) (filesystem.groupsOf_le fewer)
  have total := checked.totalBlocks
  rw [split] at total
  have free := shrunk.freeBlocks filesystem fewer some
  rw [cutFree_whole least whole, Nat.zero_add] at free
  have below : ∀ g ∈ s.gone v (newSize / v.blockSize),
      s.droppedFree v s.sb.blocksCount (v.gdtBlocks (s.numBlockGroups v)) g ≤ s.freeIn v g :=
    fun g _ => clearIn_le (groupRange_le_group _ _)
  have less : s.goneFree v (newSize / v.blockSize) ≤
      ((s.gone v (newSize / v.blockSize)).map (s.freeIn v)).sum := sum_le_sum below
  have bounded : ((s.gone v (newSize / v.blockSize)).map (s.freeIn v)).sum < 2 ^ 64 := by
    refine sum_freeIn_lt s ?_
    rw [Vol.gone, length_range']
    exact Nat.sub_le _ _
  rw [kept, free, ← total, lessBy]
  have sums : ((range (v.groupsOf (newSize / v.blockSize))).map (s.freeIn v)).sum % 2 ^ 64 =
      ((((range (v.groupsOf (newSize / v.blockSize))).map (s.freeIn v)).sum +
        ((s.gone v (newSize / v.blockSize)).map (s.freeIn v)).sum) % 2 ^ 64 +
        (2 ^ 64 - s.goneFree v (newSize / v.blockSize) % 2 ^ 64)) % 2 ^ 64 ↔
      s.goneFree v (newSize / v.blockSize) =
        ((s.gone v (newSize / v.blockSize)).map (s.freeIn v)).sum := by
    omega
  refine sums.trans ⟨fun equal g gone => ?_, fun heads => ?_⟩
  · exact (clearIn_eq_iff (groupRange_le_group _ _)).mp (eq_of_sum_eq below equal g gone)
  · refine congrArg sum (map_congr_left fun g gone => ?_)
    exact (clearIn_eq_iff (groupRange_le_group _ _)).mpr (heads g gone)

end

/-- `CheckImage` succeeds after a call and no block behind the new end is ever received exactly when
the cut is clean. -/
theorem shrink_consistent_iff {newSize : Int} (filesystem : Filesystem v s)
    (checked : checkImage v s = (.ok (), s)) (done : shrink v newSize s = (.ok (), t)) :
    (checkImage v t = (.ok (), t) ∧ ∀ calls, ∀ b ∈ received v calls t, b < t.sb.blocksCount) ↔
      CleanCut v s newSize.toNat := by
  obtain ⟨admitted, shrunk⟩ := (shrink_meets newSize).ok done
  replace checked := checkImage_ok_iff.mp checked
  have smaller := admitted.smaller
  have fewer := Nat.le_of_lt admitted.drops
  have some := Nat.lt_of_lt_of_le v.blocksPerGroup_pos admitted.keepsGroup
  have least := filesystem.groupsOf_pos fewer some
  have groups : t.numBlockGroups v = v.groupsOf (newSize.toNat / v.blockSize) := by
    rw [Vol.numBlockGroups, shrunk.blocksCount]
  rw [checkImage_ok_iff, shrunk.blocksCount]
  constructor
  · rintro ⟨after, below⟩
    have whole : newSize.toNat / v.blockSize = v.groupStart (v.groupsOf (newSize.toNat / v.blockSize)) := by
      by_contra other
      have most : newSize.toNat / v.blockSize ≤
          v.groupStart (v.groupsOf (newSize.toNat / v.blockSize)) := by
        have counted := filesystem.groups
        have ends := Nat.lt_irrefl (v.groupsOf (newSize.toNat / v.blockSize))
        rw [lt_groupsOf (by omega)] at ends
        unfold Layout.groupStart
        omega
      obtain ⟨calls, mem⟩ := shrunk.received_behind filesystem smaller admitted.drops some after
        (Nat.lt_of_le_of_ne most other)
      exact Nat.lt_irrefl _ (below calls _ mem)
    have onDevice : ∀ g < v.groupsOf (newSize.toNat / v.blockSize),
        v.descOff g + v.descSize ≤ newSize.toNat ∧
        v.start (s.desc v g).blockBitmap + v.blockSize ≤ newSize.toNat ∧
        v.start (s.desc v g).inodeBitmap + v.blockSize ≤ newSize.toNat := by
      intro g present
      have readable := after.readable g (groups ▸ present)
      unfold Vol.unreadable at readable
      rw [shrunk.size] at readable
      have desc := shrunk.desc filesystem smaller fewer some (g := g) (by omega)
      rw [cutTo_whole least whole] at desc
      rw [desc] at readable
      omega
    refine ⟨whole, ?_, onDevice⟩
    rw [← shrunk.total_iff filesystem checked smaller fewer some whole onDevice, ← groups]
    exact after.totalBlocks
  · rintro ⟨whole, heads, onDevice⟩
    have kept := fun g present => shrunk.kept filesystem smaller fewer some whole present (onDevice g present)
    have there := filesystem.groupsOf_le fewer
    refine ⟨?_, fun calls b mem => ?_⟩
    · constructor
      all_goals rw [groups]
      case readable =>
        intro g present
        have inside := onDevice g present
        unfold Vol.unreadable
        rw [shrunk.size, (kept g present).1]
        omega
      case freeBlocks =>
        intro g present
        rw [(kept g present).2.1, (kept g present).1]
        exact checked.freeBlocks g (by omega)
      case freeInodes =>
        intro g present
        rw [(kept g present).2.2, (kept g present).1]
        exact checked.freeInodes g (by omega)
      case totalBlocks =>
        exact (shrunk.total_iff filesystem checked smaller fewer some whole onDevice).mpr heads
      case totalInodes =>
        have same : (range (v.groupsOf (newSize.toNat / v.blockSize))).map (t.freeInodesIn v) =
            (range (v.groupsOf (newSize.toNat / v.blockSize))).map (s.freeInodesIn v) :=
          map_congr_left fun g mem => (kept g (mem_range.mp mem)).2.2
        have split := sum_split (s.freeInodesIn v) there
        have total := checked.totalInodes
        have dropped : ((s.gone v (newSize.toNat / v.blockSize)).map fun g => (s.desc v g).freeInodes).sum =
            ((s.gone v (newSize.toNat / v.blockSize)).map (s.freeInodesIn v)).sum :=
          congrArg sum (map_congr_left fun g gone =>
            (checked.freeInodes g ((filesystem.mem_gone fewer).mp gone).2).symm)
        change _ = _ + ((s.gone v (newSize.toNat / v.blockSize)).map (s.freeInodesIn v)).sum at split
        rw [same]
        rcases shrunk.freeInodes filesystem fewer some with less | ⟨none, equal⟩
        · rw [less, dropped, lessBy, ← total]
          omega
        · rw [none, map_nil, sum_nil] at split
          rw [equal, ← total, split, Nat.add_zero]
    · have inside := received_lt calls t b mem
      rwa [groups, ← whole] at inside

section
open Volume (fmtBlockSize)

theorem twoGroups_shrinks_behind : ∃ t,
    shrink plainLayout (32789 * fmtBlockSize : Nat) twoGroups = (.ok (), t) ∧
    Shrunk plainLayout twoGroups (32789 * fmtBlockSize) t :=
  formatted_shrinks ⟨[], [], 0⟩ (by decide) (by decide) (by decide) (by decide)

theorem shrink_consistent_iff_two : ∃ t,
    shrink plainLayout (32789 * fmtBlockSize : Nat) twoGroups = (.ok (), t) ∧
    ((checkImage plainLayout t = (.ok (), t) ∧
        ∀ calls, ∀ b ∈ received plainLayout calls t, b < t.sb.blocksCount) ↔
      CleanCut plainLayout twoGroups ((32789 * fmtBlockSize : Nat) : Int).toNat) := by
  obtain ⟨t, done, -⟩ := twoGroups_shrinks_behind
  exact ⟨t, done, shrink_consistent_iff twoGroups_consistent.toFilesystem
    (checkImage_ok_iff.mpr twoGroups_consistent.checked) done⟩

/-- A filesystem on which `CheckImage` succeeds, cut to 32789 blocks: `CheckImage` fails, or block
32789 is received. -/
theorem shrink_leaves_tail : checkImage plainLayout twoGroups = (.ok (), twoGroups) ∧ ∃ t,
    shrink plainLayout (32789 * fmtBlockSize : Nat) twoGroups = (.ok (), t) ∧
    ¬ (checkImage plainLayout t = (.ok (), t) ∧
      ∀ calls, ∀ b ∈ received plainLayout calls t, b < t.sb.blocksCount) := by
  obtain ⟨t, done, shrunk⟩ := twoGroups_shrinks_behind
  have filesystem := twoGroups_consistent.toFilesystem
  have count : twoGroups.sb.blocksCount = 65536 := Format.formatted_blocksCount _ (by decide)
  have blocks : 32789 * fmtBlockSize / plainLayout.blockSize = 32789 := by decide
  refine ⟨checkImage_ok_iff.mpr twoGroups_consistent.checked, t, done, fun ⟨after, below⟩ => ?_⟩
  have smaller := ((shrink_meets _).ok done).1.smaller
  obtain ⟨calls, mem⟩ := shrunk.received_behind filesystem smaller (by rw [blocks, count]; decide)
    (by decide) (checkImage_ok_iff.mp after) (by decide)
  have less := below calls _ mem
  rw [shrunk.blocksCount] at less
  exact Nat.lt_irrefl _ less

end

end Ext4.Resize
