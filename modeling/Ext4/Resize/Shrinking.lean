import Ext4.Resize.Consistency
import Ext4.Resize.Shrink

/-! What `Shrink` does.
It refuses without a write, or cuts the last remaining group off its bitmap and then looks at the
groups to be dropped; a refusal there comes after the cut. -/

namespace Ext4.Resize
open Octets Overlay SuperArea List

variable {v : Layout} {s t : Vol} {g n i low high : Nat}

/-! ## The minimum -/

section
variable {bitmap : Bytes} {head range : Nat} (fits : range ≤ bitmap.length * 8)
include fits

theorem mem_searched (i : Nat) : i ∈ (range' (min head (min range (bitmap.length * 8)))
    (min range (bitmap.length * 8) - min head (min range (bitmap.length * 8)))).reverse ↔
      min head range ≤ i ∧ i < range := by
  rw [mem_reverse, mem_range'_1]
  omega

theorem highestUsed_none (none : highestUsed bitmap head range = none) (low : head ≤ i)
    (high : i < range) : bitAt bitmap i = false := by
  have clear := find?_eq_none.mp none i ((mem_searched fits i).mpr ⟨by omega, high⟩)
  simpa using clear

theorem highestUsed_some (found : highestUsed bitmap head range = some i) :
    (head ≤ i ∧ i < range ∧ bitAt bitmap i) ∧ ∀ j, head ≤ j → j < range → bitAt bitmap j → j ≤ i := by
  have inside := (mem_searched fits i).mp (mem_of_find?_eq_some found)
  obtain ⟨used, before, after, split, clear⟩ := find?_eq_some_iff_append.mp found
  refine ⟨⟨by omega, inside.2, used⟩, fun j low high used' => ?_⟩
  have mem : j ∈ before ++ i :: after := split ▸ (mem_searched fits j).mpr ⟨by omega, high⟩
  have sorted : (before ++ i :: after).Pairwise (· > ·) := by
    rw [← split, pairwise_reverse]
    exact pairwise_lt_range'
  rcases mem_append.mp mem with early | late
  · have := clear j early
    simp [used'] at this
  · rcases mem_cons.mp late with rfl | later
    · exact le_refl j
    · exact Nat.le_of_lt (rel_of_pairwise_cons (pairwise_append.mp sorted).2.1 later)

end

def Vol.usedBelow (v : Layout) (s : Vol) (blocks gdt n g : Nat) : Prop :=
  ∀ i, v.headBlocks gdt g ≤ i → i < v.groupRange blocks g →
    bitAt (s.block v (s.desc v g).blockBitmap) i → v.groupStart g + i < n

theorem groupRange_le (blocks g : Nat) : v.groupRange blocks g ≤ 8 * v.blockSize := by
  have := v.blockBits
  unfold Layout.groupRange
  omega

theorem highestBlock_meets (blocks gdt : Nat) (groups : List Nat) (highest : Nat) :
    (highestBlock v blocks gdt groups highest).Meets s (fun least t => t = s ∧ ∀ n, least ≤ n ↔
        highest ≤ n ∧ ∀ g ∈ groups, s.usedBelow v blocks gdt n g)
      fun e t => t = s ∧ e = .shortRead ∧ ∃ g ∈ groups, s.size < v.descOff g + v.descSize ∨
        s.size < v.start (s.desc v g).blockBitmap + v.blockSize := by
  induction groups generalizing highest with
  | nil => simp [highestBlock]
  | cons g rest ih =>
    rw [highestBlock, meets_bind]
    refine (readBGD_meets s g).mono ?_ ?_
    · rintro d t ⟨rfl, rfl, -⟩
      refine .seq (readBlock_meets t _) ?_ ?_
      · rintro bitmap t' ⟨rfl, rfl, -⟩
        have fits : v.groupRange blocks g ≤ (t'.block v (t'.desc v g).blockBitmap).length * 8 := by
          rw [block_length, Nat.mul_comm]
          exact groupRange_le blocks g
        -- The group counts with its highest used block.
        have joined : ∀ highest', (∀ n, highest' ≤ n ↔ highest ≤ n ∧ t'.usedBelow v blocks gdt n g) →
            (highestBlock v blocks gdt rest highest').Meets t' (fun least t => t = t' ∧ ∀ n, least ≤ n ↔
              highest ≤ n ∧ ∀ g' ∈ g :: rest, t'.usedBelow v blocks gdt n g') fun e t => t = t' ∧
              e = .shortRead ∧ ∃ g' ∈ g :: rest, t'.size < v.descOff g' + v.descSize ∨
                t'.size < v.start (t'.desc v g').blockBitmap + v.blockSize := by
          intro highest' here
          refine (ih highest').mono ?_ ?_
          · rintro least t ⟨rfl, least_iff⟩
            refine ⟨rfl, fun n => ?_⟩
            rw [least_iff, here, forall_mem_cons, and_assoc]
          · rintro e t ⟨rfl, rfl, g', mem, bad⟩
            exact ⟨rfl, rfl, g', mem_cons_of_mem _ mem, bad⟩
        cases found : highestUsed (t'.block v (t'.desc v g).blockBitmap) (v.headBlocks gdt g)
            (v.groupRange blocks g) with
        | some i =>
          obtain ⟨⟨low, high, used⟩, top⟩ := highestUsed_some fits found
          refine joined _ fun n => ?_
          rw [Nat.max_le]
          refine and_congr_right fun _ => ⟨fun below j low' high' used' => ?_, fun below => ?_⟩
          · have := top j low' high' used'
            omega
          · exact below i low high used
        | none =>
          refine joined _ fun n => (and_iff_left fun i low high used => ?_).symm
          rw [highestUsed_none fits found low high] at used
          cases used
      · rintro e t' ⟨rfl, rfl, short⟩
        exact ⟨rfl, rfl, g, mem_cons_self, .inr short⟩
    · rintro e t ⟨rfl, rfl, short⟩
      exact ⟨rfl, rfl, g, mem_cons_self, .inl short⟩

/-! ## The last group -/

def Layout.usedIn (v : Layout) (blocks g : Nat) : Nat := min v.blocksPerGroup (blocks - v.groupStart g)

def Vol.cutDesc (v : Layout) (s : Vol) (low high g : Nat) : Desc :=
  let d := s.desc v g
  let bitmap := s.block v d.blockBitmap
  setBitmapCsum v v.blocksPerGroup 24 56 (clearRange bitmap low high)
    { d with freeBlocks := d.freeBlocks - clearIn bitmap low high }

def Vol.cut (v : Layout) (s : Vol) (low high g : Nat) : Vol :=
  let d := s.desc v g
  (s.writeAt (v.start d.blockBitmap) (clearRange (s.block v d.blockBitmap) low high)).writeBGD v g
    (s.cutDesc v low high g)

def Vol.cutTo (v : Layout) (s : Vol) (newBlocks : Nat) : Vol :=
  let g := v.groupsOf newBlocks - 1
  if v.usedIn newBlocks g < v.usedIn s.sb.blocksCount g then
    s.cut v (v.usedIn newBlocks g) (v.usedIn s.sb.blocksCount g) g
  else s

theorem shrinkLast_meets (old new g : Nat) : (shrinkLast v old new g).Meets s
    (fun prevFree t => if v.usedIn new g < v.usedIn old g then
        prevFree = clearIn (s.block v (s.desc v g).blockBitmap) (v.usedIn new g) (v.usedIn old g) ∧
          t = s.cut v (v.usedIn new g) (v.usedIn old g) g else prevFree = 0 ∧ t = s)
    fun e t => t = s ∧ v.usedIn new g < v.usedIn old g ∧
      ((e = .shortRead ∧ (s.size < v.descOff g + v.descSize ∨
          s.size < v.start (s.desc v g).blockBitmap + v.blockSize)) ∨
        (e = .tailCount ∧ (s.desc v g).freeBlocks <
          clearIn (s.block v (s.desc v g).blockBitmap) (v.usedIn new g) (v.usedIn old g))) := by
  change (if v.usedIn new g < v.usedIn old g then _ else _ : Call Nat).Meets s _ _
  by_cases shorter : v.usedIn new g < v.usedIn old g
  · simp only [if_pos shorter]
    refine .seq (readBGD_meets s g) ?_ ?_
    · rintro d t ⟨rfl, rfl, -⟩
      refine .seq (readBlock_meets t _) ?_ ?_
      · rintro bitmap t' ⟨rfl, rfl, -⟩
        by_cases few : (t'.desc v g).freeBlocks <
            clearIn (t'.block v (t'.desc v g).blockBitmap) (v.usedIn new g) (v.usedIn old g)
        · exact (if_pos few).symm ▸ ⟨rfl, shorter, .inr ⟨rfl, few⟩⟩
        · exact (if_neg few).symm ▸ ⟨rfl, rfl⟩
      · rintro e t' ⟨rfl, rfl, short⟩
        exact ⟨rfl, shorter, .inl ⟨rfl, .inr short⟩⟩
    · rintro e t ⟨rfl, rfl, short⟩
      exact ⟨rfl, shorter, .inl ⟨rfl, .inl short⟩⟩
  · simp only [if_neg shorter]
    exact ⟨rfl, rfl⟩

/-! ## The groups behind it -/

def Vol.droppable (v : Layout) (s : Vol) (old gdt g : Nat) : Prop :=
  (∀ i, v.headBlocks gdt g ≤ i → i < v.groupRange old g →
    bitAt (s.block v (s.desc v g).blockBitmap) i = false) ∧
  ∀ i < v.inodesPerGroup, bitAt (s.block v (s.desc v g).inodeBitmap) i = false

def Vol.droppedFree (v : Layout) (s : Vol) (old gdt g : Nat) : Nat :=
  clearIn (s.block v (s.desc v g).blockBitmap) (v.headBlocks gdt g) (v.groupRange old g)

def Vol.unreadable (v : Layout) (s : Vol) (g : Nat) : Prop :=
  s.size < v.descOff g + v.descSize ∨ s.size < v.start (s.desc v g).blockBitmap + v.blockSize ∨
    s.size < v.start (s.desc v g).inodeBitmap + v.blockSize

theorem dropGroup_meets (old gdt g : Nat) : (dropGroup v old gdt g).Meets s
    (fun dropped t => t = s ∧ s.droppable v old gdt g ∧
      dropped = (s.droppedFree v old gdt g, (s.desc v g).freeInodes))
    fun e t => t = s ∧ (e = .shortRead → s.unreadable v g) ∧
      (e ≠ .shortRead → ¬ s.droppable v old gdt g) := by
  rw [dropGroup, meets_bind]
  refine (readBGD_meets s g).mono ?_ ?_
  · rintro d t ⟨rfl, rfl, -⟩
    refine .seq (readBlock_meets t _) ?_ ?_
    · rintro bitmap t' ⟨rfl, rfl, -⟩
      have top : min (v.groupRange old g) ((t'.block v (t'.desc v g).blockBitmap).length * 8) =
          v.groupRange old g := by
        rw [block_length, Nat.mul_comm]
        exact Nat.min_eq_left (groupRange_le old g)
      dsimp only
      rw [top]
      split
      next used =>
        refine ⟨rfl, nofun, fun _ droppable => ?_⟩
        obtain ⟨i, mem, set⟩ := any_eq_true.mp used
        obtain ⟨low, high⟩ := mem_span.mp mem
        rw [droppable.1 i low high] at set
        cases set
      next unused =>
        have clear : ∀ i, v.headBlocks gdt g ≤ i → i < v.groupRange old g →
            bitAt (t'.block v (t'.desc v g).blockBitmap) i = false := by
          intro i low high
          by_contra set
          exact unused (any_eq_true.mpr ⟨i, mem_span.mpr ⟨low, high⟩, by simpa using set⟩)
        refine .seq (readBlock_meets t' _) ?_ ?_
        · rintro inodes t ⟨rfl, rfl, -⟩
          split
          next used =>
            refine ⟨rfl, nofun, fun _ droppable => ?_⟩
            obtain ⟨i, mem, set⟩ := any_eq_true.mp used
            rw [droppable.2 i (mem_range.mp mem)] at set
            cases set
          next unused =>
            refine ⟨rfl, ⟨clear, fun i low => ?_⟩, rfl⟩
            by_contra set
            exact unused (any_eq_true.mpr ⟨i, mem_range.mpr low, by simpa using set⟩)
        · rintro e t ⟨rfl, rfl, short⟩
          exact ⟨rfl, fun _ => .inr (.inr short), fun no => absurd rfl no⟩
    · rintro e t' ⟨rfl, rfl, short⟩
      exact ⟨rfl, fun _ => .inr (.inl short), fun no => absurd rfl no⟩
  · rintro e t ⟨rfl, rfl, short⟩
    exact ⟨rfl, fun _ => .inl short, fun no => absurd rfl no⟩

theorem dropGroups_meets (old gdt : Nat) (groups : List Nat) (blocks inodes : Nat) :
    (dropGroups v old gdt groups blocks inodes).Meets s
      (fun freed t => t = s ∧ (∀ g ∈ groups, s.droppable v old gdt g) ∧
        freed.1 = blocks + (groups.map (s.droppedFree v old gdt)).sum ∧
        freed.2 % 2 ^ 32 = (inodes + (groups.map fun g => (s.desc v g).freeInodes).sum) % 2 ^ 32)
      fun e t => t = s ∧ (e = .shortRead → ∃ g ∈ groups, s.unreadable v g) ∧
        (e ≠ .shortRead → ∃ g ∈ groups, ¬ s.droppable v old gdt g) := by
  induction groups generalizing blocks inodes with
  | nil => simp [dropGroups]
  | cons g rest ih =>
    rw [dropGroups, meets_bind]
    refine (dropGroup_meets old gdt g).mono ?_ ?_
    · rintro dropped t ⟨rfl, droppable, rfl⟩
      refine (ih _ _).mono ?_ ?_
      · rintro freed t' ⟨rfl, all, blocksSum, inodesSum⟩
        refine ⟨rfl, forall_mem_cons.mpr ⟨droppable, all⟩, ?_, ?_⟩
        · rw [blocksSum, map_cons, sum_cons]
          omega
        · rw [inodesSum, map_cons, sum_cons]
          omega
      · rintro e t' ⟨rfl, short, bad⟩
        refine ⟨rfl, fun cut => ?_, fun other => ?_⟩
        · obtain ⟨g', mem, unreadable⟩ := short cut
          exact ⟨g', mem_cons_of_mem _ mem, unreadable⟩
        · obtain ⟨g', mem, used⟩ := bad other
          exact ⟨g', mem_cons_of_mem _ mem, used⟩
    · rintro e t ⟨rfl, short, bad⟩
      exact ⟨rfl, fun cut => ⟨g, mem_cons_self, short cut⟩, fun other => ⟨g, mem_cons_self, bad other⟩⟩

/-! ## The call -/

/-- The request passes the checks: a shorter device of whole blocks that drops some, keeps a whole
group's worth and everything in use behind the heads of the groups. -/
structure Admitted (v : Layout) (s : Vol) (newSize : Int) : Prop where
  positive : 0 < newSize
  smaller : newSize.toNat < s.size
  whole : newSize.toNat % v.blockSize = 0
  drops : newSize.toNat / v.blockSize < s.sb.blocksCount
  keepsGroup : v.blocksPerGroup ≤ newSize.toNat / v.blockSize
  keepsUsed : ∀ g < s.numBlockGroups v, s.usedBelow v s.sb.blocksCount
    (v.gdtBlocks (s.numBlockGroups v)) (newSize.toNat / v.blockSize) g

def Vol.gone (v : Layout) (s : Vol) (newBlocks : Nat) : List Nat :=
  range' (v.groupsOf newBlocks) (s.numBlockGroups v - v.groupsOf newBlocks)

def Vol.cutFree (v : Layout) (s : Vol) (newBlocks : Nat) : Nat :=
  let g := v.groupsOf newBlocks - 1
  clearIn (s.block v (s.desc v g).blockBitmap) (v.usedIn newBlocks g) (v.usedIn s.sb.blocksCount g)

def Vol.superWritten (v : Layout) (s : Vol) : Vol :=
  { s with sb := s.sb.encodeRaw v.toGeometry }.writeAt (v.partOffset + 1024) (s.sb.encoded v.toGeometry)

def Vol.shrunkTo (v : Layout) (s : Vol) (newSize freed freedInodes : Nat) : Vol :=
  let newBlocks := newSize / v.blockSize
  (((s.cutTo v newBlocks).shrunk newBlocks freed
    ((s.gone v newBlocks).length * v.inodesPerGroup % 2 ^ 32) freedInodes).superWritten v).resized newSize

theorem cutTo_sb (newBlocks : Nat) : (s.cutTo v newBlocks).sb = s.sb := by
  unfold Vol.cutTo
  dsimp only
  split <;> rfl

theorem clearIn_empty {bitmap : Bytes} (empty : high ≤ low) : clearIn bitmap low high = 0 := by
  rw [clearIn, Nat.sub_eq_zero_of_le empty]
  rfl

/-- Every group behind the new end was found droppable, and the counts were lowered by what is free
there and in the part that was cut off. -/
def Shrunk (v : Layout) (s : Vol) (newSize : Nat) (t : Vol) : Prop :=
  let newBlocks := newSize / v.blockSize
  let gdt := v.gdtBlocks (s.numBlockGroups v)
  let cut := s.cutTo v newBlocks
  (∀ g ∈ s.gone v newBlocks, cut.droppable v s.sb.blocksCount gdt g) ∧ ∃ freedInodes,
    freedInodes % 2 ^ 32 = ((s.gone v newBlocks).map fun g => (cut.desc v g).freeInodes).sum % 2 ^ 32 ∧
    t = s.shrunkTo v newSize (s.cutFree v newBlocks +
      ((s.gone v newBlocks).map (cut.droppedFree v s.sb.blocksCount gdt)).sum) freedInodes

def Vol.uncuttable (v : Layout) (s : Vol) (newBlocks : Nat) : Prop :=
  let g := v.groupsOf newBlocks - 1
  v.groupsOf newBlocks = 0 ∨ v.usedIn newBlocks g < v.usedIn s.sb.blocksCount g ∧
    (s.unreadable v g ∨ (s.desc v g).freeBlocks < s.cutFree v newBlocks)

def Stopped (v : Layout) (s : Vol) (newBlocks : Nat) (e : Err) (t : Vol) : Prop :=
  t = s.cutTo v newBlocks ∧ ∃ g ∈ s.gone v newBlocks,
    if e = .shortRead then t.unreadable v g
    else ¬ t.droppable v s.sb.blocksCount (v.gdtBlocks (s.numBlockGroups v)) g

theorem shrinkTo_meets (newSize : Nat) : (shrinkTo v newSize).Meets s (fun _ t => Shrunk v s newSize t)
    fun e t => (t = s ∧ s.uncuttable v (newSize / v.blockSize)) ∨
      Stopped v s (newSize / v.blockSize) e t := by
  rw [shrinkTo, meets_bind, meets_read]
  dsimp only
  split
  next none => exact .inl ⟨rfl, .inl none⟩
  next some =>
    refine .seq (shrinkLast_meets s.sb.blocksCount (newSize / v.blockSize) _) ?_ ?_
    · intro prevFree t cut
      have after : prevFree = s.cutFree v (newSize / v.blockSize) ∧ t = s.cutTo v (newSize / v.blockSize) := by
        unfold Vol.cutFree Vol.cutTo
        split at cut
        next shorter => exact ⟨cut.1, (if_pos shorter).symm ▸ cut.2⟩
        next longer =>
          rw [clearIn_empty (Nat.le_of_not_lt longer), if_neg longer]
          exact cut
      obtain ⟨rfl, rfl⟩ := after
      refine .seq (dropGroups_meets _ _ _ _ _) ?_ ?_
      · rintro ⟨freed, freedInodes⟩ t ⟨rfl, droppable, freedSum, inodesSum⟩
        rw [Nat.zero_add] at inodesSum
        subst freedSum
        exact ⟨droppable, freedInodes, inodesSum, rfl⟩
      · rintro e t ⟨rfl, short, used⟩
        refine .inr ⟨rfl, ?_⟩
        by_cases cut : e = .shortRead
        · simp only [if_pos cut]
          exact short cut
        · simp only [if_neg cut]
          exact used cut
    · rintro e t ⟨rfl, shorter, bad⟩
      refine .inl ⟨rfl, .inr ⟨shorter, ?_⟩⟩
      rcases bad with ⟨-, low | high⟩ | ⟨-, few⟩
      · exact .inl (.inl low)
      · exact .inl (.inr (.inl high))
      · exact .inr few

theorem shrink_meets (newSize : Int) : (shrink v newSize).Meets s
    (fun _ t => Admitted v s newSize ∧ Shrunk v s newSize.toNat t)
    fun e t => (t = s ∧ (¬ Admitted v s newSize ∨ (∃ g < s.numBlockGroups v, s.unreadable v g) ∨
        s.uncuttable v (newSize.toNat / v.blockSize))) ∨
      (Admitted v s newSize ∧ Stopped v s (newSize.toNat / v.blockSize) e t) := by
  rw [shrink]
  split
  next negative => exact .inl ⟨rfl, .inl fun admitted => absurd admitted.positive (by omega)⟩
  next positive =>
    rw [meets_bind, meets_read]
    dsimp only [id]
    split
    next longer => exact .inl ⟨rfl, .inl fun admitted => absurd admitted.smaller (by omega)⟩
    next smaller =>
    split
    next rest => exact .inl ⟨rfl, .inl fun admitted => absurd admitted.whole rest⟩
    next whole =>
    split
    next more => exact .inl ⟨rfl, .inl fun admitted => absurd admitted.drops (by omega)⟩
    next drops =>
    rw [shrinkMinimumBlocks]
    simp only [meets_bind, meets_read, meets_pure]
    refine (highestBlock_meets _ _ _ _).mono ?_ ?_
    · rintro least t ⟨rfl, least_iff⟩
      have least_le := least_iff (newSize.toNat / v.blockSize)
      split
      next below =>
        refine .inl ⟨rfl, .inl fun admitted => ?_⟩
        have := least_le.mpr ⟨Nat.zero_le _, fun g mem =>
          admitted.keepsUsed g (mem_range.mp mem)⟩
        have := admitted.keepsGroup
        omega
      next above =>
        have admitted : Admitted v t newSize := by
          refine ⟨by omega, by omega, by omega, by omega, by omega, fun g present => ?_⟩
          exact (least_le.mp (by omega)).2 g (mem_range.mpr present)
        refine (shrinkTo_meets newSize.toNat).mono ?_ ?_
        · exact fun _ t' done => ⟨admitted, done⟩
        · rintro e t' (⟨rfl, bad⟩ | stopped)
          · exact .inl ⟨rfl, .inr (.inr bad)⟩
          · exact .inr ⟨admitted, stopped⟩
    · rintro e t ⟨rfl, -, g, mem, short⟩
      refine .inl ⟨rfl, .inr (.inl ⟨g, mem_range.mp mem, ?_⟩)⟩
      rcases short with low | high
      · exact .inl low
      · exact .inr (.inl high)

/-! ## The cut -/

theorem cut_rewritten (low high g : Nat) : Rewritten v s g
    (clearRange (s.block v (s.desc v g).blockBitmap) low high) (s.cut v low high g) :=
  rewritten_writeBGD (by rw [clearRange_length, block_length])

/-! ## The groups that are dropped -/

section
variable (filesystem : Filesystem v s) {newBlocks : Nat} (fewer : newBlocks ≤ s.sb.blocksCount)
include filesystem fewer

theorem Filesystem.groupsOf_le : v.groupsOf newBlocks ≤ s.numBlockGroups v := by
  have counted := filesystem.groups
  rw [Vol.numBlockGroups, groupsOf_eq counted, groupsOf_eq (by omega)]
  exact Nat.div_le_div_right (by omega)

theorem Filesystem.mem_gone : g ∈ s.gone v newBlocks ↔ v.groupsOf newBlocks ≤ g ∧ g < s.numBlockGroups v := by
  have := filesystem.groupsOf_le fewer
  rw [Vol.gone, mem_range'_1]
  omega

variable (some : 0 < newBlocks)
include some

theorem Filesystem.groupsOf_pos : 0 < v.groupsOf newBlocks := by
  have counted := filesystem.groups
  rw [lt_groupsOf (by omega), Nat.zero_mul]
  exact some

theorem Filesystem.last_lt : v.groupsOf newBlocks - 1 < s.numBlockGroups v := by
  have := filesystem.groupsOf_le fewer
  have := filesystem.groupsOf_pos fewer some
  omega

theorem cutTo_size : (s.cutTo v newBlocks).size = s.size := by
  unfold Vol.cutTo
  dsimp only
  split
  · exact (cut_rewritten _ _ _).size_eq filesystem (filesystem.last_lt fewer some)
  · rfl

theorem cutTo_desc (present : g < s.numBlockGroups v) (other : g ≠ v.groupsOf newBlocks - 1) :
    (s.cutTo v newBlocks).desc v g = s.desc v g := by
  unfold Vol.cutTo
  dsimp only
  split
  · exact (cut_rewritten _ _ _).desc_other filesystem (filesystem.last_lt fewer some) present other
  · rfl

theorem cutTo_block {b : Nat} (present : g < s.numBlockGroups v) (mem : b ∈ s.structures v g)
    (other : b ≠ (s.desc v (v.groupsOf newBlocks - 1)).blockBitmap) :
    (s.cutTo v newBlocks).block v b = s.block v b := by
  unfold Vol.cutTo
  dsimp only
  split
  · exact (cut_rewritten _ _ _).block_other filesystem (filesystem.last_lt fewer some) present mem other
  · rfl

theorem cutTo_gone (gone : g ∈ s.gone v newBlocks) : (s.cutTo v newBlocks).desc v g = s.desc v g ∧
      ∀ b ∈ s.structures v g, (s.cutTo v newBlocks).block v b = s.block v b := by
  obtain ⟨behind, present⟩ := (filesystem.mem_gone fewer).mp gone
  have last := filesystem.groupsOf_pos fewer some
  have other : g ≠ v.groupsOf newBlocks - 1 := by omega
  refine ⟨cutTo_desc filesystem fewer some present other, fun b mem => ?_⟩
  refine cutTo_block filesystem fewer some present mem ?_
  exact filesystem.structures_ne present (filesystem.last_lt fewer some) other mem blockBitmap_mem

theorem cutTo_droppable (gone : g ∈ s.gone v newBlocks) (old gdt : Nat) :
    (s.cutTo v newBlocks).droppable v old gdt g ↔ s.droppable v old gdt g := by
  obtain ⟨desc, blocks⟩ := cutTo_gone filesystem fewer some gone
  unfold Vol.droppable
  rw [desc, blocks _ blockBitmap_mem, blocks _ inodeBitmap_mem]

theorem cutTo_droppedFree (gone : g ∈ s.gone v newBlocks) (old gdt : Nat) :
    (s.cutTo v newBlocks).droppedFree v old gdt g = s.droppedFree v old gdt g := by
  obtain ⟨desc, blocks⟩ := cutTo_gone filesystem fewer some gone
  unfold Vol.droppedFree
  rw [desc, blocks _ blockBitmap_mem]

end

theorem Filesystem.readable (filesystem : Filesystem v s) (present : g < s.numBlockGroups v) :
    ¬ s.unreadable v g := by
  have desc := filesystem.desc_onDevice present
  have blocks := filesystem.start_structure_le present (@blockBitmap_mem v s g)
  have inodes := filesystem.start_structure_le present (@inodeBitmap_mem v s g)
  unfold Vol.unreadable
  omega

theorem clearIn_le {bitmap : Bytes} (inside : high ≤ n) :
    clearIn bitmap low high ≤ Alloc.clearCount n (bitAt bitmap) := by
  have listed : (range' low (high - low)).filter (fun i => !bitAt bitmap i) ⊆
      (range n).filter fun i => bitAt bitmap i = false := by
    intro i mem
    obtain ⟨span, clear⟩ := mem_filter.mp mem
    have := mem_span.mp span
    exact mem_filter.mpr ⟨mem_range.mpr (by omega), by simpa using clear⟩
  rw [clearIn, Alloc.clearCount, countP_eq_length_filter, countP_eq_length_filter]
  have once : (range' low (high - low)).Nodup := nodup_range'
  exact ((once.filter _).subperm listed).length_le

theorem Consistent.cuttable (consistent : Consistent v s) {newBlocks : Nat}
    (fewer : newBlocks ≤ s.sb.blocksCount) (some : 0 < newBlocks) : ¬ s.uncuttable v newBlocks := by
  have filesystem := consistent.toFilesystem
  have last := filesystem.last_lt fewer some
  have positive := filesystem.groupsOf_pos fewer some
  rintro (none | ⟨-, short | few⟩)
  · omega
  · exact filesystem.readable last short
  · refine absurd few (Nat.not_lt.mpr ?_)
    rw [consistent.freeBlocks _ last]
    exact clearIn_le (Nat.min_le_left _ _)

/-- In a consistent filesystem a request that is admitted and drops nothing in use succeeds. -/
theorem shrink_succeeds {newSize : Int} (consistent : Consistent v s) (admitted : Admitted v s newSize)
    (droppable : ∀ g ∈ s.gone v (newSize.toNat / v.blockSize),
      s.droppable v s.sb.blocksCount (v.gdtBlocks (s.numBlockGroups v)) g) :
    ∃ t, shrink v newSize s = (.ok (), t) ∧ Shrunk v s newSize.toNat t := by
  have filesystem := consistent.toFilesystem
  have fewer := Nat.le_of_lt admitted.drops
  have some := Nat.lt_of_lt_of_le v.blocksPerGroup_pos admitted.keepsGroup
  have meets := @shrink_meets v s newSize
  rcases ran : shrink v newSize s with ⟨e | _, t⟩
  · rcases meets.error ran with ⟨-, refused | ⟨g, present, short⟩ | uncut⟩ | ⟨-, stopped⟩
    · exact absurd admitted refused
    · exact absurd short (filesystem.readable present)
    · exact absurd uncut (consistent.cuttable fewer some)
    · obtain ⟨rfl, g, gone, bad⟩ := stopped
      have present := ((filesystem.mem_gone fewer).mp gone).2
      split at bad
      · have desc := (cutTo_gone filesystem fewer some gone).1
        refine absurd ?_ (filesystem.readable present)
        rwa [Vol.unreadable, desc, cutTo_size filesystem fewer some] at bad
      · exact absurd ((cutTo_droppable filesystem fewer some gone _ _).mpr (droppable g gone)) bad
  · exact ⟨t, rfl, (meets.ok ran).2⟩

/-! ## New filesystems -/

section
open Format
open Volume (fmtBlockSize fmtBlocksPerGroup fmtInodesPerGroup fmtReservedInodes)

theorem g0RootDirDataBlock_lt (total : Nat) : g0RootDirDataBlock total < fmtBlocksPerGroup := by
  have few := bgdtBlocks_le total
  unfold g0RootDirDataBlock g0InodeTable Volume.fmtInodeTableBlocks fmtBlocksPerGroup
  omega

variable {total : Nat} (cfg : Config) (accepted : accepts total) (fits : Format.Fits total)
include accepted fits

theorem formatted_used_behind (present : g < nGroups total)
    (behind : (layout cfg).headBlocks ((layout cfg).gdtBlocks (nGroups total)) g ≤ i)
    (inside : i < (layout cfg).groupRange (formatted total cfg).sb.blocksCount g)
    (used : bitAt ((formatted total cfg).block (layout cfg)
      ((formatted total cfg).desc (layout cfg) g).blockBitmap) i) :
    g * fmtBlocksPerGroup + i = g0RootDirDataBlock total := by
  have bound : i < 8 * fmtBlockSize := Nat.lt_of_lt_of_le inside (groupRange_le _ _)
  rcases (formatted_marked cfg accepted fits present bound).mp used with mem | root | past
  · rw [formatted_groupMeta cfg fits.1 present, layout_groupStart, mem_range'_1] at mem
    rw [Layout.headBlocks, layout_superBlocks, layout_inodeTableBlocks] at behind
    omega
  · rwa [formatted_root cfg accepted fits.1, layout_groupStart] at root
  · unfold Layout.present at past
    unfold Layout.groupRange at inside
    omega

theorem formatted_shrinks {newBlocks : Nat} (least : fmtBlocksPerGroup ≤ newBlocks)
    (fewer : newBlocks < total) :
    ∃ t, shrink (layout cfg) (newBlocks * fmtBlockSize : Nat) (formatted total cfg) = (.ok (), t) ∧
      Shrunk (layout cfg) (formatted total cfg) (newBlocks * fmtBlockSize) t := by
  have consistent := formatted_consistent cfg fits accepted
  have groups := formatted_groups cfg fits.1
  have count := (formatted_counts cfg fits.1).1
  have root := g0RootDirDataBlock_lt total
  have size : (layout cfg).blockSize = fmtBlockSize := rfl
  have perGroup : (layout cfg).blocksPerGroup = fmtBlocksPerGroup := rfl
  have blocks : newBlocks * fmtBlockSize / (layout cfg).blockSize = newBlocks :=
    Nat.mul_div_cancel _ (by decide)
  have device := consistent.onDevice
  rw [count, layout_start] at device
  have admitted : Admitted (layout cfg) (formatted total cfg) (newBlocks * fmtBlockSize : Nat) := by
    constructor
    case positive => unfold fmtBlockSize fmtBlocksPerGroup at *; omega
    case smaller => rw [Int.toNat_natCast]; unfold fmtBlockSize at *; omega
    case whole => rw [Int.toNat_natCast, size, Nat.mul_mod_left]
    case drops => rwa [Int.toNat_natCast, blocks, count]
    case keepsGroup => rwa [Int.toNat_natCast, blocks, perGroup]
    case keepsUsed =>
      intro g present i behind inside used
      rw [groups] at present behind
      have := formatted_used_behind cfg accepted fits present behind inside used
      rw [Int.toNat_natCast, blocks, layout_groupStart]
      omega
  refine shrink_succeeds consistent admitted fun g gone => ?_
  rw [Int.toNat_natCast, blocks, consistent.mem_gone (by omega), groups] at gone
  obtain ⟨behind, present⟩ := gone
  have later : 0 < g := by
    have some : 0 < newBlocks := Nat.lt_of_lt_of_le (by decide) least
    have := consistent.groupsOf_pos (by omega) some
    omega
  refine ⟨fun i low inside => ?_, fun i inside => ?_⟩
  · by_contra used
    rw [groups] at low
    have := formatted_used_behind cfg accepted fits present low inside (by simpa using used)
    have := Nat.mul_le_mul_right fmtBlocksPerGroup later
    omega
  · have bits : (layout cfg).inodesPerGroup = fmtInodesPerGroup := rfl
    rw [bits] at inside
    rw [formatted_desc cfg fits.1 present, (readAt_bitmaps cfg present).2, bitAt_inodeBitmap (by
      unfold fmtInodesPerGroup at inside
      unfold fmtBlockSize
      omega), if_neg (by omega)]
    simp [inside]

end

end Ext4.Resize
