import Mathlib.Data.Bool.Basic
import Ext4.Volume.Space

/-! What allocating and freeing do to the view of the image, inside a transaction and outside. -/

namespace Ext4.Volume
open Octets Alloc Store List Function FS

variable (v : Shape)

/-! ## What the writes do to the view -/

section
variable {v} {s : FS} {inTx : Bool}

theorem FS.write_now (via : s.tx.isSome = inTx) (write : Write Content) :
    (s.write inTx write).now = update s.now write.1 write.2 := by
  cases inTx with
  | true => exact s.put_now write
  | false => exact s.direct_now write (by simpa using via)

theorem Outer.write (via : s.tx.isSome = inTx) (write : Write Content)
    (seen : Covered s → ∀ key i, update s.now write.1 write.2 (.bitmap key) i →
      s.visible key i) : Outer s (s.write inTx write) := by
  cases inTx with
  | true => exact Outer.put s write seen
  | false => exact Outer.direct s write (by simpa using via)

theorem Frame.write (via : s.tx.isSome = inTx) (write : Write Content)
    (seen : Covered s → ∀ key i, update s.now write.1 write.2 (.bitmap key) i →
      s.visible key i) (other : ∀ g, Addr.bitmap ⟨g, false⟩ ≠ write.1) :
    Frame s (s.write inTx write) where
  toOuter := Outer.write via write seen
  reserved g := by
    cases inTx with
    | true => exact congrFun (s.put_reserved write) _
    | false => rfl
  unstaged := by
    cases inTx with
    | true => exact unstaged_put write other
    | false =>
      have closed : s.tx = none := by simpa using via
      exact fun _ => unstaged_of_none (s := s.direct write) closed

theorem Frame.write_other (via : s.tx.isSome = inTx) (write : Write Content)
    (other : ∀ key, Addr.bitmap key ≠ write.1) : Frame s (s.write inTx write) :=
  Frame.write via write (fun covered key i marked =>
    covered key i (by rwa [update_of_ne (other key)] at marked)) fun g => other ⟨g, false⟩

theorem Frame.put_other (s : FS) (write : Write Content)
    (other : ∀ key, Addr.bitmap key ≠ write.1) : Frame s (s.put write) where
  toOuter := Outer.put s write fun covered key i marked =>
    covered key i (by rwa [update_of_ne (other key)] at marked)
  reserved g := congrFun (s.put_reserved write) _
  unstaged := unstaged_put write fun g => other ⟨g, false⟩

theorem FS.writeDesc_spec (via : s.tx.isSome = inTx) (g : Nat) (change : Desc → Desc) :
    view v (s.writeDesc v inTx g change).now = view v s.now ∧ Frame s (s.writeDesc v inTx g change) := by
  refine ⟨?_, Frame.write_other via _ (by simp)⟩
  rw [writeDesc, write_now via, view_descs]

theorem FS.recount_spec (via : s.tx.isSome = inTx) (g : Nat) (change : Desc → Desc)
    (counters : Counters → Counters) (inodes : ∀ sb, (counters sb).inodesCount = sb.inodesCount)
    (blocks : ∀ sb, (counters sb).blocksCount = sb.blocksCount) :
    view v (s.recount v inTx g change counters).now = view v s.now ∧
      Frame s (s.recount v inTx g change counters) := by
  obtain ⟨sameView, framed⟩ := writeDesc_spec via g change
  exact ⟨sameView, framed.trans ⟨⟨rfl, rfl, inodes _, blocks _, fun _ => rfl, id⟩, fun _ => rfl, id⟩⟩

theorem FS.writeSuper_spec (via : s.tx.isSome = inTx) :
    view v (s.writeSuper inTx).now = view v s.now ∧ Frame s (s.writeSuper inTx) := by
  refine ⟨?_, Frame.write_other via _ (by simp)⟩
  rw [writeSuper, write_now via, view_super]

theorem FS.writeStray_spec (via : s.tx.isSome) :
    view v (s.writeStray v).now = view v s.now ∧ Frame s (s.writeStray v) := by
  unfold writeStray
  split
  · exact writeSuper_spec via
  · refine ⟨?_, Frame.put_other s _ (by simp)⟩
    rw [put_now, view_super]

theorem Outer.reserve (key : Key) (bits : List Nat) : Outer s (s.reserve key bits) where
  journal := rfl
  inTx := rfl
  inodesCount := rfl
  blocksCount := rfl
  still _ := rfl
  covered covered := by
    intro other i marked
    have := covered other i marked
    simp only [visible, Bool.or_eq_true, decide_eq_true_eq] at this ⊢
    refine this.imp id fun mem => ?_
    by_cases same : other = key
    · subst same
      simp [FS.reserve, mem]
    · simpa [FS.reserve, same] using mem

theorem Outer.unreserve (closed : s.tx = none) (key : Key) (bits : List Nat) :
    Outer s (s.unreserve key bits) :=
  ⟨rfl, rfl, rfl, rfl, fun _ => rfl, fun _ => covered_of_none closed⟩

theorem Frame.unreserve_blocks (closed : s.tx = none) (g : Nat) (bits : List Nat) :
    Frame s (s.unreserve ⟨g, true⟩ bits) where
  toOuter := Outer.unreserve closed _ _
  reserved h := by simp [unreserve]
  unstaged _ := unstaged_of_none closed

theorem Outer.cleanup (closed : s.tx = none) (held : Cleanup) : Outer s (s.cleanup held) := by
  induction held generalizing s with
  | nil => exact (Frame.refl s).toOuter
  | cons part held ih => exact (Outer.unreserve closed part.1 part.2).trans (ih closed)

theorem FS.cleanup_device (held : Cleanup) : (s.cleanup held).device = s.device := by
  induction held generalizing s with
  | nil => rfl
  | cons part held ih => exact ih

end

/-! ## The specifications of allocation and release -/

structure View.Takes (x y : View) (blocks : List Nat) : Prop where
  inode : y.inode = x.inode
  block : y.block = x.block
  live : y.live = x.live
  grown : ∀ b, x.used b → y.used b
  marked : ∀ b ∈ blocks, y.used b
  fresh : ∀ b ∈ blocks, x.used b = false
  once : blocks.Nodup

structure View.Releases (x y : View) (blocks : List Nat) : Prop where
  inode : y.inode = x.inode
  block : y.block = x.block
  live : y.live = x.live
  kept : ∀ b, x.used b → b ∉ blocks → y.used b

section
variable {v} {s t : FS} {inTx : Bool} {n g bit : Nat} {bits : List Nat} {held : Cleanup}

theorem FS.mem_order (mem : g ∈ s.order v) : g < s.groups v := by
  obtain ⟨i, inRange, rfl⟩ := mem_map.mp mem
  exact Nat.mod_lt _ (Nat.zero_lt_of_lt (mem_range.mp inRange))

theorem FS.findRun_spec (found : s.findRun v inTx n g = some bits) : bits.Nodup ∧ bits.length = n ∧
      ∀ b ∈ bits, s.visible ⟨g, true⟩ b = false ∧ b < v.blocksPerGroup := by
  unfold findRun at found
  split at found
  · exact Staging.findFreeRunForTx_spec (Option.join_eq_some_iff.mp found)
  · exact findFreeRun_spec found

theorem FS.chooseBlocks_spec (chosen : s.chooseBlocks v inTx n = some (g, bits)) :
    bits.Nodup ∧ bits.length = n ∧ g < s.groups v ∧
      ∀ b ∈ bits, s.visible ⟨g, true⟩ b = false ∧ b < v.blocksPerGroup := by
  obtain ⟨h, mem, found⟩ := exists_of_findSome?_eq_some chosen
  split at found
  · cases found
  · obtain ⟨run, search, same⟩ := Option.map_eq_some_iff.mp found
    cases same
    obtain ⟨nodup, long, clear⟩ := findRun_spec search
    exact ⟨nodup, long, mem_order mem, clear⟩

theorem FS.chooseBlocks_le (chosen : s.chooseBlocks v inTx n = some (g, bits)) : n ≤ v.blocksPerGroup := by
  obtain ⟨nodup, long, _, clear⟩ := chooseBlocks_spec chosen
  calc n = bits.length := long.symm
    _ ≤ clearCount v.blocksPerGroup (s.visible ⟨g, true⟩) := length_le_clearCount nodup clear
    _ ≤ v.blocksPerGroup := clearCount_le _ _

theorem Shape.map_blockOf_range (g start : Nat) :
    (range' start n).map (v.blockOf g) = range' (v.blockOf g start) n := by
  have shift : v.blockOf g = fun bit => (g * v.blocksPerGroup + v.firstDataBlock) + bit := rfl
  rw [shift, map_add_range']

theorem Shape.nodup_blockOf (nodup : bits.Nodup) (g : Nat) : (bits.map (v.blockOf g)).Nodup :=
  nodup.map fun a b same => by
    unfold Shape.blockOf at same
    omega

theorem Frame.advanceCursor : Frame s s.advanceCursor :=
  ⟨⟨rfl, rfl, rfl, rfl, fun _ => rfl, id⟩, fun _ => rfl, id⟩

/-- The bits that are taken are reserved first, so staging them in the bitmap hides nothing. -/
theorem FS.mark_spec (via : s.tx.isSome = inTx) (key : Key) (bits : List Nat) :
    ((s.reserve key bits).write inTx ⟨.bitmap key, setBits bits (s.visible key)⟩).now =
        update s.now (.bitmap key) (setBits bits (s.visible key)) ∧
      Outer s ((s.reserve key bits).write inTx ⟨.bitmap key, setBits bits (s.visible key)⟩) := by
  have via' : (s.reserve key bits).tx.isSome = inTx := via
  refine ⟨write_now via' _, (Outer.reserve key bits).trans (Outer.write via' _ ?_)⟩
  intro covered other i marked
  by_cases same : other = key
  · subst same
    rw [update_self, setBits_apply] at marked
    simp only [visible, Bool.or_eq_true, decide_eq_true_eq] at marked ⊢
    have held : i ∈ (s.reserve other bits).reserved other ↔ i ∈ bits ∨ i ∈ s.reserved other := by
      simp [reserve]
    rcases marked with taken | onDisk | before
    · exact .inr (held.mpr (.inl taken))
    · exact .inl onDisk
    · exact .inr (held.mpr (.inr before))
  · rw [update_of_ne (fun eq => same (Addr.bitmap.inj eq))] at marked
    exact covered other i marked

theorem FS.write_reserved (write : Write Content) : (s.write inTx write).reserved = s.reserved := by
  cases inTx with
  | true => exact s.put_reserved write
  | false => rfl

theorem FS.account_spec (via : s.tx.isSome = inTx) (g : Nat) (change : Desc → Desc)
    (counters : Counters → Counters) (inodes : ∀ sb, (counters sb).inodesCount = sb.inodesCount)
    (blocks : ∀ sb, (counters sb).blocksCount = sb.blocksCount) (stray : Bool) (staged : stray → inTx) :
    let s' := s.recount v inTx g change counters
    let t := if stray then s'.writeStray v else s'.writeSuper inTx
    view v t.now = view v s.now ∧ Frame s t := by
  obtain ⟨sameView, framed⟩ := recount_spec via g change counters inodes blocks
  intro s' t
  have via' : s'.tx.isSome = inTx := framed.inTx.trans via
  have written : view v t.now = view v s'.now ∧ Frame s' t := by
    cases stray with
    | true => exact writeStray_spec (via'.trans (staged rfl))
    | false => exact writeSuper_spec via'
  exact ⟨written.1.trans sameView, framed.trans written.2⟩

/-- The group's descriptor as `takeInode` writes it. -/
def FS.inodeTaken (s : FS) (v : Shape) (g : Nat) (isDir : Bool) (d : Desc) : Desc := { d with
  freeInodes := (descAt v s.image g).freeInodes - 1
  usedDirs := if isDir then plusOne v.descBits (descAt v s.image g).usedDirs
    else (descAt v s.image g).usedDirs }

/-- The group's descriptor as `freeBlock` writes it. -/
def FS.blockFreed (s : FS) (v : Shape) (b : Nat) (d : Desc) : Desc :=
  { d with freeBlocks := plusOne v.descBits (descAt v s.image (v.blockKey b).group).freeBlocks }

theorem FS.takeBlocks_spec (via : s.tx.isSome = inTx) (g : Nat) (bits : List Nat) :
    view v (s.takeBlocks v inTx g bits).now =
        view v (update s.now (.bitmap ⟨g, true⟩) (setBits bits (s.visible ⟨g, true⟩))) ∧
      Frame s (s.takeBlocks v inTx g bits) := by
  obtain ⟨marks, outer⟩ := mark_spec via ⟨g, true⟩ bits
  have framed : Frame s ((s.reserve ⟨g, true⟩ bits).write inTx
      ⟨.bitmap ⟨g, true⟩, setBits bits (s.visible ⟨g, true⟩)⟩) := by
    refine ⟨outer, fun h => ?_, fun unstaged => ?_⟩
    · rw [write_reserved]
      simp [reserve]
    · cases inTx with
      | true => exact unstaged_put (s := s.reserve ⟨g, true⟩ bits) _ (by simp) unstaged
      | false =>
        exact unstaged_of_none (by simpa using outer.inTx.trans via)
  obtain ⟨sameView, framed'⟩ := account_spec (v := v) (framed.inTx.trans via) g
    (fun d => { d with freeBlocks := (descAt v s.image g).freeBlocks - bits.length })
    (fun sb => { sb with freeBlocks := minus 64 bits.length sb.freeBlocks })
    (fun _ => rfl) (fun _ => rfl) inTx id
  rw [← marks]
  cases inTx with
  | true => exact ⟨sameView, framed.trans framed'⟩
  | false =>
    have closed := Outer.closed (framed.trans framed').toOuter (by simpa using via)
    exact ⟨sameView, (framed.trans framed').trans (Frame.unreserve_blocks closed g bits)⟩

theorem FS.used_visible (covered : Covered s) {b : Nat} (inUse : (view v s.now).used b)
    (low : v.firstDataBlock ≤ b) : s.visible (v.blockKey b) (v.blockBit b) := by
  have : decide (b < v.firstDataBlock) = false := by simpa using low
  change (decide (b < v.firstDataBlock) || _) = true at inUse
  rw [this, Bool.false_or] at inUse
  exact covered _ _ inUse

structure View.Enlists (x y : View) (i : Nat) : Prop where
  inode : y.inode = x.inode
  block : y.block = x.block
  used : y.used = x.used
  grown : ∀ j, x.live j → y.live j
  marked : y.live i
  fresh : x.live i = false

theorem FS.takeInode_spec (via : s.tx.isSome = inTx) (g bit : Nat) (isDir : Bool) :
    view v (s.takeInode v inTx g bit isDir).now =
        view v (update s.now (.bitmap ⟨g, false⟩) (setBits [bit] (s.visible ⟨g, false⟩))) ∧
      Outer s (s.takeInode v inTx g bit isDir) := by
  obtain ⟨marks, outer⟩ := mark_spec via ⟨g, false⟩ [bit]
  obtain ⟨sameView, framed⟩ := account_spec (v := v) (outer.inTx.trans via) g
    (s.inodeTaken v g isDir) (fun sb => { sb with freeInodes := minus 32 1 sb.freeInodes })
    (fun _ => rfl) (fun _ => rfl) false (fun no => by cases no)
  rw [← marks]
  cases inTx with
  | true => exact ⟨sameView, outer.trans framed.toOuter⟩
  | false =>
    have closed := Outer.closed (outer.trans framed.toOuter) (by simpa using via)
    exact ⟨sameView, (outer.trans framed.toOuter).trans (Outer.unreserve closed _ _)⟩

theorem FS.chooseInode_spec (chosen : s.chooseInode v = some (g, bit)) :
    g < s.groups v ∧ s.visible ⟨g, false⟩ bit = false ∧ bit < v.inodesPerGroup := by
  obtain ⟨h, mem, found⟩ := exists_of_findSome?_eq_some chosen
  split at found
  · cases found
  · obtain ⟨b, search, same⟩ := Option.map_eq_some_iff.mp found
    cases same
    exact ⟨mem_order mem, findFreeBit_spec search⟩

def Unreserved (s : FS) : Prop := ∀ g, s.reserved ⟨g, false⟩ = []

/-- The cleanup gives back the reservations of inodes that `s` had. -/
def Restores (s t : FS) (held : Cleanup) : Prop :=
  ∀ g, (t.cleanup held).reserved ⟨g, false⟩ = s.reserved ⟨g, false⟩

theorem FS.cleanup_reserved (held : Cleanup) (key : Key) :
    (s.cleanup held).reserved key = (s.reserved key).filter fun bit =>
      decide (∀ part ∈ held, part.1 = key → bit ∉ part.2) := by
  induction held generalizing s with
  | nil => simp [cleanup]
  | cons part held ih =>
    rw [cleanup, foldl_cons, ← cleanup, ih]
    by_cases same : key = part.1
    · subst same
      simp only [unreserve, update_self, filter_filter]
      congr 1
      funext bit
      rw [Bool.eq_iff_iff]
      simp [and_comm]
    · simp only [unreserve, update_of_ne same]
      congr 1
      funext bit
      rw [Bool.eq_iff_iff]
      simp [Ne.symm same]

theorem Restores.frame {u : FS} (restores : Restores s t held)
    (frame : Frame t u) : Restores s u held := by
  intro h
  rw [cleanup_reserved, frame.reserved, ← cleanup_reserved, restores]

def OfBlocks (held : Cleanup) : Prop := ∀ part ∈ held, part.1.isBlock

theorem Restores.blocks (frame : Frame s t) (blocks : OfBlocks held) : Restores s t held := by
  intro g
  rw [cleanup_reserved, frame.reserved g]
  refine filter_eq_self.mpr fun bit _ => decide_eq_true fun part mem key => ?_
  have := blocks part mem
  rw [key] at this
  cases this

theorem allocBlocks_meets (via : s.tx.isSome = inTx) (covered : Covered s) : (allocBlocks v inTx n).Meets s
      (fun r t => (view v s.now).Takes (view v t.now) r.1 ∧ Frame s t ∧ r.1.length = n ∧ OfBlocks r.2)
      (fun _ t => t.now = s.now ∧ Frame s t) := by
  have cursor := Frame.advanceCursor (s := s)
  refine allocBlocks_rule (fun _ => ⟨rfl, cursor⟩) fun g bits chosen => ?_
  obtain ⟨nodup, long, _, clear⟩ := chooseBlocks_spec chosen
  obtain ⟨sameView, framed⟩ := takeBlocks_spec (s := s.advanceCursor) via g bits
  refine ⟨?_, cursor.trans framed, by simp [long], by simp [OfBlocks]⟩
  rw [sameView, view_bitmap_block]
  constructor
  case inode | block | live => rfl
  case once => exact Shape.nodup_blockOf nodup g
  case grown =>
    intro b inUse
    dsimp only
    split
    next here =>
      rw [Bool.or_eq_true, setBits_apply, decide_eq_true_eq]
      rcases Nat.lt_or_ge b v.firstDataBlock with below | low
      · exact .inl below
      · rw [← here]
        exact .inr (.inr (used_visible (cursor.covered covered) inUse low))
    · exact inUse
  case marked =>
    intro b mem
    obtain ⟨bit, taken, rfl⟩ := mem_map.mp mem
    have inGroup := (clear bit taken).2
    simp [Shape.blockKey_blockOf inGroup, Shape.blockBit_blockOf inGroup, taken]
  case fresh =>
    intro b mem
    obtain ⟨bit, taken, rfl⟩ := mem_map.mp mem
    obtain ⟨free, inGroup⟩ := clear bit taken
    by_contra inUse
    have visible := used_visible (cursor.covered covered) (Bool.eq_true_of_not_eq_false inUse)
      (by unfold Shape.blockOf; omega)
    rw [Shape.blockKey_blockOf inGroup, Shape.blockBit_blockOf inGroup, free] at visible
    cases visible

theorem FS.recount_reserved (g : Nat) (change : Desc → Desc) (counters : Counters → Counters) :
    (s.recount v inTx g change counters).reserved = s.reserved := write_reserved _

theorem FS.takeInode_reserved (g bit : Nat) (isDir : Bool) : (s.takeInode v inTx g bit isDir).reserved =
      (if inTx then s.reserve ⟨g, false⟩ [bit]
        else (s.reserve ⟨g, false⟩ [bit]).unreserve ⟨g, false⟩ [bit]).reserved := by
  cases inTx with
  | true =>
    simp only [takeInode, writeSuper, write_reserved, recount_reserved, if_true]
  | false =>
    simp only [takeInode, writeSuper, unreserve, write_reserved, recount_reserved,
      Bool.false_eq_true, if_false]

theorem FS.takeInode_restores (inTx : Bool) (free : s.visible ⟨g, false⟩ bit = false)
    (isDir : Bool) : Restores s (s.takeInode v inTx g bit isDir) [(⟨g, false⟩, [bit])] ∧
      (inTx = false → ∀ h, (s.takeInode v inTx g bit isDir).reserved ⟨h, false⟩ = s.reserved ⟨h, false⟩) := by
  have absent : bit ∉ s.reserved ⟨g, false⟩ := by
    intro mem
    simp [visible, mem] at free
  have kept : (s.reserved ⟨g, false⟩).filter (fun b => decide (b ≠ bit)) = s.reserved ⟨g, false⟩ :=
    filter_eq_self.mpr fun b mem => by
      have : b ≠ bit := fun same => absent (same ▸ mem)
      simpa using this
  constructor
  · intro h
    rw [cleanup_reserved, takeInode_reserved]
    by_cases same : h = g
    · subst same
      cases inTx <;> simpa [reserve, unreserve] using kept
    · cases inTx <;> simp [reserve, unreserve, same, Ne.symm same]
  · rintro rfl h
    rw [takeInode_reserved]
    by_cases same : h = g
    · subst same
      simpa [reserve, unreserve] using kept
    · simp [reserve, unreserve, same]

theorem FS.live_visible (covered : Covered s) {j : Nat} (marked : (view v s.now).live j) :
    0 < j ∧ s.visible (v.inodeKey j) (v.inodeBit j) := by
  change (decide (0 < j) && _) = true at marked
  rw [Bool.and_eq_true, decide_eq_true_eq] at marked
  exact ⟨marked.1, covered _ _ marked.2⟩

theorem allocInode_meets (via : s.tx.isSome = inTx) (covered : Covered s) (isDir : Bool) :
    (allocInode v inTx isDir).Meets s
      (fun r t => (view v s.now).Enlists (view v t.now) r.1 ∧ Outer s t ∧ Restores s t r.2 ∧
        (inTx = false → Frame s t) ∧ (Unreserved s → Unstaged s → ∀ j, (view v t.now).live j →
          (view v s.now).live j ∨ j = r.1)) (fun _ t => t.now = s.now ∧ Frame s t) := by
  have cursor := Frame.advanceCursor (s := s)
  refine allocInode_rule (fun _ => ⟨rfl, cursor⟩) fun g bit chosen => ?_
  obtain ⟨_, free, inGroup⟩ := chooseInode_spec chosen
  obtain ⟨sameView, outer⟩ := takeInode_spec (s := s.advanceCursor) via g bit isDir
  have covered' := cursor.covered covered
  have key : v.inodeKey (v.inodeOf g bit) = ⟨g, false⟩ := Shape.inodeKey_inodeOf inGroup
  have place : v.inodeBit (v.inodeOf g bit) = bit := Shape.inodeBit_inodeOf inGroup
  have positive : 0 < v.inodeOf g bit := Nat.succ_pos _
  obtain ⟨restores, direct⟩ := takeInode_restores inTx free isDir
  have wide := cursor.toOuter.trans outer
  refine ⟨?_, wide, restores, fun alone => ⟨wide, direct alone, fun _ => ?_⟩, ?_⟩
  · dsimp only
    rw [sameView, view_bitmap_inode]
    constructor
    case inode | block | used => rfl
    case grown =>
      intro j marked
      obtain ⟨low, seen⟩ := live_visible covered' marked
      dsimp only
      split
      next here =>
        rw [here] at seen
        simp [low, seen]
      · exact marked
    case marked => simp [key, place, positive]
    case fresh =>
      by_contra marked
      obtain ⟨_, seen⟩ := live_visible covered' (Bool.eq_true_of_not_eq_false marked)
      rw [key, place, free] at seen
      cases seen
  · have closed : s.tx = none := by simpa [alone] using via
    exact unstaged_of_none (wide.closed closed)
  · intro unreserved unstaged j marked
    dsimp only at marked ⊢
    rw [sameView, view_bitmap_inode] at marked
    dsimp only at marked
    split at marked
    next here =>
      rw [Bool.and_eq_true, decide_eq_true_eq, setBits_apply, mem_singleton] at marked
      obtain ⟨low, taken | onDisk⟩ := marked
      · exact .inr (Shape.inodeBit_inj low positive (here.trans key.symm) (taken.trans place.symm))
      · left
        have onImage : s.advanceCursor.image (.bitmap ⟨g, false⟩) (v.inodeBit j) := by
          have empty : s.advanceCursor.reserved ⟨g, false⟩ = [] := unreserved g
          simpa [visible, empty] using onDisk
        change (decide (0 < j) && s.now (.bitmap (v.inodeKey j)) (v.inodeBit j))
        rw [here, unstaged g, Bool.and_eq_true, decide_eq_true_eq]
        exact ⟨low, onImage⟩
    · exact .inl marked

theorem FS.freeBlock_spec (closed : s.tx = none) (b : Nat) :
    (view v s.now).Releases (view v (s.freeBlock v b).now) [b] ∧ Frame s (s.freeBlock v b) := by
  by_cases low : b < v.firstDataBlock
  · rw [freeBlock, if_pos low]
    exact ⟨⟨rfl, rfl, rfl, fun _ inUse _ => inUse⟩, Frame.refl s⟩
  · have written : Frame s (s.direct ⟨.bitmap (v.blockKey b),
        clearBit (v.blockBit b) (s.visible (v.blockKey b))⟩) :=
      ⟨Outer.direct s _ closed, fun _ => rfl, fun _ => unstaged_of_none (s := s.direct _) closed⟩
    obtain ⟨sameView, framed⟩ := account_spec (written.inTx.trans (by simp [closed]))
      (v.blockKey b).group
      (s.blockFreed v b) (fun sb => { sb with freeBlocks := plusOne 64 sb.freeBlocks })
      (fun _ => rfl) (fun _ => rfl) false (fun no => no)
    have framed' := written.trans framed
    have released := Frame.unreserve_blocks (framed'.toOuter.closed closed)
      ((b - v.firstDataBlock) / v.blocksPerGroup) [v.blockBit b]
    have shown : view v (s.freeBlock v b).now =
        view v (update s.now (.bitmap ⟨(b - v.firstDataBlock) / v.blocksPerGroup, true⟩)
          (clearBit (v.blockBit b) (s.visible (v.blockKey b)))) := by
      rw [freeBlock, if_neg low]
      exact sameView.trans (congrArg (view v) (direct_now s _ closed))
    refine ⟨?_, by rw [freeBlock, if_neg low]; exact framed'.trans released⟩
    rw [shown, view_bitmap_block]
    refine ⟨rfl, rfl, rfl, fun c inUse other => ?_⟩
    dsimp only
    split
    next here =>
      rw [Bool.or_eq_true, decide_eq_true_eq]
      rcases Nat.lt_or_ge c v.firstDataBlock with below | low'
      · exact .inl below
      · right
        have bit : v.blockBit c ≠ v.blockBit b := fun bit =>
          other (mem_singleton.mpr (Shape.block_inj low' (by omega) here bit))
        rw [clearBit_ne bit]
        have seen := used_visible (covered_of_none closed) inUse low'
        rwa [here] at seen
    · exact inUse

structure View.Retires (x y : View) (i : Nat) : Prop where
  inode : y.inode = x.inode
  block : y.block = x.block
  used : y.used = x.used
  kept : ∀ j, j ≠ i → x.live j → y.live j
  gone : y.live i = false

theorem FS.freeInodeSlot_spec (closed : s.tx = none) {i : Nat} (low : 0 < i) :
    (view v s.now).Retires (view v (s.freeInodeSlot v i).now) i ∧ Frame s (s.freeInodeSlot v i) ∧
      (Unreserved s → ∀ j, (view v (s.freeInodeSlot v i).now).live j → (view v s.now).live j) := by
  have written : Frame s (s.put ⟨.bitmap (v.inodeKey i),
      clearBit (v.inodeBit i) (s.visible (v.inodeKey i))⟩) :=
    ⟨⟨s.put_journal _, s.put_tx_isSome _, by rw [put_sb], by rw [put_sb],
        s.put_device _, fun _ => covered_of_none (put_closed _ closed)⟩,
      fun g => congrFun (s.put_reserved _) _,
      fun _ => unstaged_of_none (put_closed _ closed)⟩
  obtain ⟨sameView, framed⟩ := account_spec
    (written.inTx.trans (by rw [closed]; rfl : s.tx.isSome = false)) (v.inodeKey i).group
    (fun d => { d with
      freeInodes := plusOne v.descBits (descAt v s.image (v.inodeKey i).group).freeInodes })
    (fun sb => { sb with freeInodes := plusOne 32 sb.freeInodes })
    (fun _ => rfl) (fun _ => rfl) false (fun no => no)
  have shown : view v (s.freeInodeSlot v i).now = { view v s.now with
      live := fun j => if v.inodeKey j = ⟨(i - 1) / v.inodesPerGroup, false⟩ then
        decide (0 < j) && clearBit (v.inodeBit i) (s.visible (v.inodeKey i)) (v.inodeBit j)
        else (view v s.now).live j } := by
    rw [← view_bitmap_inode s.now]
    exact sameView.trans (congrArg (view v) (put_now s _))
  rw [shown]
  refine ⟨⟨rfl, rfl, rfl, fun j other marked => ?_, ?_⟩, written.trans framed, ?_⟩
  · dsimp only
    split
    next here =>
      obtain ⟨low', seen⟩ := live_visible (covered_of_none closed) marked
      have bit : v.inodeBit j ≠ v.inodeBit i := fun bit =>
        other (Shape.inodeBit_inj low' low here bit)
      rw [clearBit_ne bit, Bool.and_eq_true, decide_eq_true_eq]
      exact ⟨low', by rwa [here] at seen⟩
    · exact marked
  · simp [Shape.inodeKey, Alloc.clearBit]
  · intro unreserved j marked
    dsimp only at marked
    split at marked
    next here =>
      rw [Bool.and_eq_true, decide_eq_true_eq] at marked
      change (decide (0 < j) && s.now (.bitmap (v.inodeKey j)) (v.inodeBit j))
      rw [Bool.and_eq_true, decide_eq_true_eq, here, now_of_none s closed]
      refine ⟨marked.1, ?_⟩
      have bit : v.inodeBit j ≠ v.inodeBit i := by
        intro bit
        simp [Alloc.clearBit, bit] at marked
      have empty : s.reserved (v.inodeKey i) = [] := unreserved _
      have onDisk : s.image (.bitmap (v.inodeKey i)) (v.inodeBit j) := by
        have := marked.2
        rw [clearBit_ne bit, visible, empty] at this
        simpa using this
      exact onDisk
    · exact marked

end

end Ext4.Volume
