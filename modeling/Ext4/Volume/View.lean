import Mathlib.Logic.Function.Basic
import Ext4.Volume.Storage

/-! What an image means: its inodes, its blocks and the two usage maps.
Each write of the storage layer is one change of the view; `Frame` is what every step of an
operation keeps. -/

namespace Ext4.Volume
open Octets Alloc Store Function FS

structure View where
  inode : Nat → Inode
  block : Nat → Block
  used : Nat → Bool
  live : Nat → Bool

variable {v : Shape} {s t r : FS}

def view (v : Shape) (img : Image) : View :=
  ⟨inodeAt v img, fun b => img (.block b), used v img, live v img⟩

def setInode (v : Shape) (i : Nat) (x : Inode) (table : Nat → Inode) : Nat → Inode :=
  update table (v.inodeIndex i) x

section
variable (img : Image)

@[simp] theorem view_super (c : SuperBlock) : view v (update img .super c) = view v img := by
  simp [view, inodeAt, used, live, funext_iff]

@[simp] theorem view_descs (k : Nat) (c : Nat → Desc) : view v (update img (.descs k) c) = view v img := by
  simp [view, inodeAt, used, live, funext_iff]

@[simp] theorem view_block (b : Nat) (c : Block) : view v (update img (.block b) c) =
      { view v img with block := update (view v img).block b c } := by
  have blocks : ∀ x, update img (.block b) c (.block x) =
      update (fun x => img (.block x)) b c x := by
    intro x
    by_cases same : x = b
    · subst same
      simp only [update_self]
    · rw [update_of_ne same, update_of_ne (by simpa using same)]
  simp [view, inodeAt, used, live, funext_iff, blocks]

theorem view_itable {i : Nat} (low : 0 < i) (x : Inode) :
    view v (update img (.itable (v.inodeGroup i) (v.inodeTableBlock i))
      (setInode v i x (img (.itable (v.inodeGroup i) (v.inodeTableBlock i))))) =
      { view v img with inode := update (view v img).inode i x } := by
  have inodes : ∀ j, inodeAt v (update img (.itable (v.inodeGroup i) (v.inodeTableBlock i))
      (setInode v i x (img (.itable (v.inodeGroup i) (v.inodeTableBlock i))))) j =
      update (inodeAt v img) i x j := by
    intro j
    rcases Nat.eq_zero_or_pos j with rfl | low'
    · simp [inodeAt, update_of_ne low.ne]
    · by_cases same : j = i
      · subst same
        simp [inodeAt, setInode, low'.ne']
      · rw [update_of_ne same, inodeAt, inodeAt, if_neg low'.ne', if_neg low'.ne']
        -- Another inode is in another table block, or elsewhere in the same one.
        by_cases addr : Addr.itable (v.inodeGroup j) (v.inodeTableBlock j) =
            .itable (v.inodeGroup i) (v.inodeTableBlock i)
        · obtain ⟨group, k⟩ := Addr.itable.inj addr
          have index : v.inodeIndex j ≠ v.inodeIndex i := fun index =>
            same (Shape.inodeIndex_inj low' low group k index)
          rw [group, k, update_self, setInode, update_of_ne index]
        · rw [update_of_ne addr]
  rw [view, funext inodes]
  simp [view, used, live, funext_iff]

theorem view_bitmap_block (g : Nat) (bits : Bits) : view v (update img (.bitmap ⟨g, true⟩) bits) =
      { view v img with
        used := fun b => if v.blockKey b = ⟨g, true⟩ then
          decide (b < v.firstDataBlock) || bits (v.blockBit b) else (view v img).used b } := by
  simp only [view, View.mk.injEq]
  refine ⟨?_, ?_, ?_, ?_⟩ <;> funext x
  · simp [inodeAt]
  · simp
  · by_cases here : v.blockKey x = ⟨g, true⟩
    · rw [used, if_pos here, here, update_self]
    · rw [used, if_neg here, update_of_ne (fun same => here (Addr.bitmap.inj same)), used]
  · simp [live, Shape.inodeKey]

theorem view_bitmap_inode (g : Nat) (bits : Bits) : view v (update img (.bitmap ⟨g, false⟩) bits) =
      { view v img with
        live := fun i => if v.inodeKey i = ⟨g, false⟩ then decide (0 < i) && bits (v.inodeBit i) else
          (view v img).live i } := by
  simp only [view, View.mk.injEq]
  refine ⟨?_, ?_, ?_, ?_⟩ <;> funext x
  · simp [inodeAt]
  · simp
  · simp [used, Shape.blockKey]
  · by_cases here : v.inodeKey x = ⟨g, false⟩
    · rw [live, if_pos here, here, update_self]
    · rw [live, if_neg here, update_of_ne (fun same => here (Addr.bitmap.inj same)), live]

end

theorem live_pos {img : Image} {j : Nat} (alive : (view v img).live j) : 0 < j := by
  change (decide (0 < j) && _) = true at alive
  rw [Bool.and_eq_true, decide_eq_true_eq] at alive
  exact alive.1

/-! ## What every step keeps -/

/-- `readBitmap`: the bitmap of the device with the reservations merged. -/
def FS.visible (s : FS) (key : Key) : Bits := fun i =>
  s.image (.bitmap key) i || decide (i ∈ s.reserved key)

/-- Whatever the open transaction marks used is visible to the next allocation. -/
def Covered (s : FS) : Prop := ∀ key i, s.now (.bitmap key) i → s.visible key i

structure Outer (s t : FS) : Prop where
  journal : t.journal = s.journal
  inTx : t.tx.isSome = s.tx.isSome
  inodesCount : t.sb.inodesCount = s.sb.inodesCount
  blocksCount : t.sb.blocksCount = s.sb.blocksCount
  /-- A transaction keeps its writes to itself. -/
  still : s.tx.isSome → t.device = s.device
  covered : Covered s → Covered t

def Unstaged (s : FS) : Prop := ∀ g, s.now (.bitmap ⟨g, false⟩) = s.image (.bitmap ⟨g, false⟩)

structure Frame (s t : FS) : Prop extends Outer s t where
  reserved : ∀ g, t.reserved ⟨g, false⟩ = s.reserved ⟨g, false⟩
  unstaged : Unstaged s → Unstaged t

theorem Outer.trans (first : Outer r s) (second : Outer s t) : Outer r t where
  journal := second.journal.trans first.journal
  inTx := second.inTx.trans first.inTx
  inodesCount := second.inodesCount.trans first.inodesCount
  blocksCount := second.blocksCount.trans first.blocksCount
  still inTx := (second.still (first.inTx ▸ inTx)).trans (first.still inTx)
  covered := second.covered ∘ first.covered

theorem Outer.closed (outer : Outer s t) (closed : s.tx = none) : t.tx = none := by
  have := outer.inTx
  rwa [closed, Option.isSome_none, Option.isSome_eq_false_iff, Option.isNone_iff_eq_none] at this

theorem Frame.refl (s : FS) : Frame s s := ⟨⟨rfl, rfl, rfl, rfl, fun _ => rfl, id⟩, fun _ => rfl, id⟩

theorem Frame.trans (first : Frame r s) (second : Frame s t) : Frame r t where
  toOuter := first.toOuter.trans second.toOuter
  reserved g := (second.reserved g).trans (first.reserved g)
  unstaged := second.unstaged ∘ first.unstaged

theorem covered_of_none (closed : s.tx = none) : Covered s := by
  intro key i marked
  rw [now_of_none s closed] at marked
  simp [visible, marked]

theorem unstaged_of_none (closed : s.tx = none) : Unstaged s := fun g => by
  rw [now_of_none s closed]

theorem FS.put_closed (write : Write Content) (closed : s.tx = none) : (s.put write).tx = none := by
  have := s.put_tx_isSome write
  rwa [closed, Option.isSome_none, Option.isSome_eq_false_iff, Option.isNone_iff_eq_none] at this

theorem Outer.put (s : FS) (write : Write Content)
    (seen : Covered s → ∀ key i, update s.now write.1 write.2 (.bitmap key) i →
      s.visible key i) : Outer s (s.put write) where
  journal := s.put_journal write
  inTx := s.put_tx_isSome write
  inodesCount := by rw [put_sb]
  blocksCount := by rw [put_sb]
  still inTx := s.put_device write inTx
  covered covered := by
    cases opened : s.tx with
    | none => exact covered_of_none (put_closed write opened)
    | some staged =>
      intro key i marked
      have device := s.put_device write (by rw [opened]; rfl)
      rw [put_now] at marked
      have := seen covered key i marked
      rwa [visible, image, device, put_reserved]

theorem Outer.direct (s : FS) (write : Write Content) (closed : s.tx = none) : Outer s (s.direct write) where
  journal := rfl
  inTx := rfl
  inodesCount := rfl
  blocksCount := rfl
  still inTx := by simp [closed] at inTx
  covered _ := covered_of_none closed

theorem unstaged_put (write : Write Content) (other : ∀ g, Addr.bitmap ⟨g, false⟩ ≠ write.1)
    (unstaged : Unstaged s) : Unstaged (s.put write) := by
  cases opened : s.tx with
  | none => exact unstaged_of_none (put_closed write opened)
  | some staged =>
    intro g
    rw [put_now, update_of_ne (other g), unstaged g, image, image,
      s.put_device write (by rw [opened]; rfl)]

end Ext4.Volume
