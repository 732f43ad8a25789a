import Mathlib.Algebra.BigOperators.Group.Finset.Basic
import Ext4.Volume.Counters

/-! Allocations and releases without a transaction, one after another.
Each call writes a bitmap, lets the dispatcher count the group anew, and writes the superblock from
the counters in memory. Bitmaps, descriptors and both copies of the totals stay in step, whatever
the order of the calls. -/

namespace Ext4.Volume.Direct
open Octets Alloc Store Machine List Function FS

structure Tables where
  start : Nat → Nat
  blocks : Nat

inductive Refusal where
  | noFreeBlocks
  | noFreeInodes
  /-- The blocks are taken by then. -/
  | insideTable
  deriving DecidableEq, Repr

inductive Call where
  | allocInode (isDir : Bool)
  | allocBlocks (n : Nat)
  | freeBlock (b : Nat)
  | freeInodeSlot (i : Nat)
  deriving DecidableEq, Repr

section
variable (v : Shape) (tables : Tables)

/-- The safety check at the end of `allocBlocks`. -/
def Tables.holds (s : FS) (b : Nat) : Bool :=
  let g := (v.blockKey b).group
  decide (v.firstDataBlock ≤ b) && decide (g < s.groups v) &&
    (decide (tables.start g ≤ b) && decide (b < tables.start g + tables.blocks))

/-- The search of `lockedAllocBlocks`, group by group from the first. -/
def chooseLocked (s : FS) (n : Nat) : Option (Nat × List Nat) :=
  (range (s.groups v)).findSome? fun g =>
    if (descAt v s.image g).freeBlocks < n then none
    else (findFreeRun (s.visible ⟨g, true⟩) v.blocksPerGroup n).map fun bits => (g, bits)

/-- `allocBlocks` with its last pass and its safety check. -/
def allocBlocks (n : Nat) : Prog FS Refusal (List Nat) := fun s =>
  let s := s.advanceCursor
  match s.chooseBlocks v false n with
  | some (g, bits) =>
      let blocks := bits.map (v.blockOf g)
      let t := s.takeBlocks v false g bits
      if blocks.any (tables.holds v t) then (.error .insideTable, t) else (.ok blocks, t)
  | none =>
      match chooseLocked v s n with
      -- `lockedAllocBlocks` does not look at the inode tables.
      | some (g, bits) => (.ok (bits.map (v.blockOf g)), s.takeBlocks v false g bits)
      | none => (.error .noFreeBlocks, s)

def allocInode (isDir : Bool) : Prog FS Refusal Nat := fun s =>
  let s := s.advanceCursor
  match s.chooseInode v with
  | some (g, bit) => (.ok (v.inodeOf g bit), s.takeInode v false g bit isDir)
  | none => (.error .noFreeInodes, s)

def Call.run : Call → Prog FS Refusal (List Nat)
  | .allocInode isDir => do
      let i ← Direct.allocInode v isDir
      pure [i]
  | .allocBlocks n => Direct.allocBlocks v tables n
  | .freeBlock b => do
      .modify fun s => s.freeBlock v b
      pure [b]
  | .freeInodeSlot i => do
      .modify fun s => s.freeInodeSlot v i
      pure [i]

def Call.step (call : Call) (s : FS) : Option FS := some (call.run v tables s).2

end

/-! ## What the calls are about -/

def keyOf (v : Shape) (isBlock : Bool) (k : Nat) : Key := if isBlock then v.blockKey k else v.inodeKey k

def bitOf (v : Shape) (isBlock : Bool) (k : Nat) : Nat := if isBlock then v.blockBit k else v.inodeBit k

def lowest (v : Shape) (isBlock : Bool) : Nat := if isBlock then v.firstDataBlock else 1

def width (isBlock : Bool) : Nat := if isBlock then 64 else 32

variable {v : Shape} {tables : Tables} {s t m start : FS} {key : Key} {bits : Bits}

@[simp] theorem width_true : width true = 64 := rfl

@[simp] theorem width_false : width false = 32 := rfl

def clearIn (v : Shape) (img : Image) (key : Key) : Nat :=
  clearCount (v.perGroup key.isBlock) (img (.bitmap key))

structure InStep (v : Shape) (s : FS) : Prop where
  closed : s.tx = none
  unreserved : ∀ key, s.reserved key = []
  counts : Exact v (s.groups v) s.image
  fits : ∀ key : Key, key.group < s.groups v → clearIn v s.image key < 2 ^ v.descBits
  totals : ∀ isBlock, s.sb.free isBlock =
    ∑ g ∈ Finset.range (s.groups v), clearIn v s.image ⟨g, isBlock⟩
  disk : ∀ isBlock, (s.image .super).primary.free isBlock = s.sb.free isBlock
  wide : ∀ isBlock, s.sb.free isBlock < 2 ^ width isBlock

/-- The items were free and are marked now, and nothing else is; the totals in memory and on the
device went down by their number. -/
structure Taken (v : Shape) (isBlock : Bool) (s t : FS) (items : List Nat) : Prop where
  once : items.Nodup
  inRange : ∀ k ∈ items, lowest v isBlock ≤ k ∧ (keyOf v isBlock k).group < s.groups v
  clear : ∀ k ∈ items, s.image (.bitmap (keyOf v isBlock k)) (bitOf v isBlock k) = false
  marks : ∀ key bit, t.image (.bitmap key) bit = (s.image (.bitmap key) bit ||
    decide (∃ k ∈ items, keyOf v isBlock k = key ∧ bitOf v isBlock k = bit))
  memory : ∀ kind, t.sb.free kind + (if kind = isBlock then items.length else 0) = s.sb.free kind
  device : ∀ kind, (t.image .super).primary.free kind + (if kind = isBlock then items.length else 0) =
    (s.image .super).primary.free kind

structure Released (v : Shape) (isBlock : Bool) (s t : FS) (k : Nat) : Prop where
  marks : ∀ key bit, t.image (.bitmap key) bit = (s.image (.bitmap key) bit &&
    !decide (keyOf v isBlock k = key ∧ bitOf v isBlock k = bit))
  memory : ∀ kind, t.sb.free kind = s.sb.free kind + if kind = isBlock then 1 else 0
  device : ∀ kind, (t.image .super).primary.free kind =
    (s.image .super).primary.free kind + if kind = isBlock then 1 else 0

def Call.Done (v : Shape) (call : Call) (s t : FS) (items : List Nat) : Prop :=
  match call with
  | .allocInode _ => items.length = 1 ∧ Taken v false s t items
  | .allocBlocks n => items.length = n ∧ Taken v true s t items
  | .freeBlock b => items = [b] ∧ Released v true s t b
  | .freeInodeSlot i => items = [i] ∧ Released v false s t i

structure Allocated (v : Shape) (isBlock : Bool) (s : FS) (k : Nat) : Prop where
  low : lowest v isBlock ≤ k
  inRange : (keyOf v isBlock k).group < s.groups v
  marked : s.image (.bitmap (keyOf v isBlock k)) (bitOf v isBlock k)
  fits : clearIn v s.image (keyOf v isBlock k) + 1 < 2 ^ v.descBits
  wide : s.sb.free isBlock + 1 < 2 ^ width isBlock

def Call.Allowed (v : Shape) (call : Call) (s : FS) : Prop :=
  match call with
  | .allocInode _ | .allocBlocks _ => True
  | .freeBlock b => Allocated v true s b
  | .freeInodeSlot i => Allocated v false s i

/-! ## One bitmap is rewritten -/

/-- The bitmap was written, its group counted anew by the dispatcher, and the superblock written
from memory. -/
structure Rewritten (v : Shape) (s t : FS) (key : Key) (bits : Bits) (sb : Counters) : Prop where
  closed : t.tx = none
  unreserved : ∀ k, t.reserved k = []
  marks : ∀ k, t.image (.bitmap k) = if k = key then bits else s.image (.bitmap k)
  counts : ∀ k : Key, (descAt v t.image k.group).free k.isBlock =
    if k.group = key.group then clearIn v t.image k % 2 ^ v.descBits
    else (descAt v s.image k.group).free k.isBlock
  memory : t.sb = sb
  disk : (t.image .super).primary = sb

theorem counted_free (g : Nat) (d : Desc) (isBlock : Bool) :
    (m.counted v g d).free isBlock = clearIn v m.image ⟨g, isBlock⟩ % 2 ^ v.descBits := by
  cases isBlock <;> rfl

theorem rewritten_of_writes (change : Desc → Desc) (counters : Counters → Counters)
    (shown : m.image = update s.image (.bitmap key) bits) (closed : m.tx = none)
    (device : t.device = ((m.recount v false key.group change counters).writeSuper false).device)
    (ended : t.tx = none) (unreserved : ∀ k, t.reserved k = []) (memory : t.sb = counters m.sb) :
    Rewritten v s t key bits (counters m.sb) := by
  let last := (m.recount v false key.group change counters).writeSuper false
  have same : t.image = last.image := congrArg Device.image device
  obtain ⟨bitmaps, descs⟩ := account_now (by rw [closed]; rfl : m.tx.isSome = false)
    key.group change counters
  have quiet : last.now = last.image := now_of_none last closed
  simp only [Bool.false_eq_true, if_false] at descs
  have marks : ∀ k, t.image (.bitmap k) = m.image (.bitmap k) := fun k => by
    rw [same, ← quiet, ← now_of_none m closed]
    exact bitmaps k
  constructor
  case closed => exact ended
  case unreserved => exact unreserved
  case marks =>
    intro k
    rw [marks, shown]
    split
    next here => rw [here, update_self]
    next other => rw [update_of_ne (by simpa using other)]
  case counts =>
    intro k
    have desc := congrArg (Desc.free · k.isBlock) (descs k.group)
    rw [same, ← quiet]
    refine desc.trans ?_
    split
    next here =>
      rw [counted_free, clearIn, clearIn, ← marks, same, quiet, ← here]
    · rw [now_of_none m closed, shown, descAt_bitmap]
  case memory => exact memory
  case disk =>
    have written : last.image = update (m.recount v false key.group change counters).image
        .super { (m.recount v false key.group change counters).now .super with
          primary := counters m.sb } := direct_image _ _
    rw [same, written, update_self]

theorem sum_change (f f' : Nat → Nat) {n g : Nat} (inRange : g < n) (same : ∀ h, h ≠ g → f' h = f h) :
    ∑ h ∈ Finset.range n, f' h + f g = ∑ h ∈ Finset.range n, f h + f' g := by
  have mem := Finset.mem_range.mpr inRange
  have others : ∑ h ∈ (Finset.range n).erase g, f' h = ∑ h ∈ (Finset.range n).erase g, f h :=
    Finset.sum_congr rfl fun h inside => same h (Finset.ne_of_mem_erase inside)
  rw [← Finset.add_sum_erase _ f' mem, ← Finset.add_sum_erase _ f mem, others]
  omega

/-- What every call has to show: the total of its kind moved with the clear bits of its bitmap. -/
theorem InStep.rewritten {sb : Counters} (inStep : InStep v s) (rewritten : Rewritten v s t key bits sb)
    (inRange : key.group < s.groups v) (size : sb.blocksCount = s.sb.blocksCount)
    (fits : clearCount (v.perGroup key.isBlock) bits < 2 ^ v.descBits)
    (moved : sb.free key.isBlock + clearIn v s.image key =
      s.sb.free key.isBlock + clearCount (v.perGroup key.isBlock) bits)
    (other : ∀ kind, kind ≠ key.isBlock → sb.free kind = s.sb.free kind)
    (wide : sb.free key.isBlock < 2 ^ width key.isBlock) : InStep v t := by
  have groups : t.groups v = s.groups v := by rw [groups, rewritten.memory, size, groups]
  have here : clearIn v t.image key = clearCount (v.perGroup key.isBlock) bits := by
    rw [clearIn, rewritten.marks, if_pos rfl]
  have elsewhere : ∀ k, k ≠ key → clearIn v t.image k = clearIn v s.image k := fun k different => by
    rw [clearIn, rewritten.marks, if_neg different, clearIn]
  have fits' : ∀ k : Key, k.group < s.groups v → clearIn v t.image k < 2 ^ v.descBits := by
    intro k inside
    by_cases same : k = key
    · rw [same, here]
      exact fits
    · rw [elsewhere k same]
      exact inStep.fits k inside
  constructor
  case closed => exact rewritten.closed
  case unreserved => exact rewritten.unreserved
  case counts =>
    intro k inside
    rw [groups] at inside
    rw [rewritten.counts]
    split
    · rw [Nat.mod_eq_of_lt (fits' k inside), clearIn]
    next outside =>
      have different : k ≠ key := fun same => outside (by rw [same])
      rw [rewritten.marks, if_neg different]
      exact inStep.counts k inside
  case fits => rwa [groups]
  case totals =>
    intro kind
    rw [groups, rewritten.memory]
    by_cases same : kind = key.isBlock
    · subst same
      have sums := sum_change (fun g => clearIn v s.image ⟨g, key.isBlock⟩)
        (fun g => clearIn v t.image ⟨g, key.isBlock⟩) inRange fun h different =>
          elsewhere _ fun same => different (congrArg Key.group same)
      have before := inStep.totals key.isBlock
      change _ + clearIn v s.image key = _ + clearIn v t.image key at sums
      omega
    · rw [other kind same, inStep.totals]
      refine Finset.sum_congr rfl fun g _ => (elsewhere _ fun equal => same ?_).symm
      exact congrArg Key.isBlock equal
  case disk =>
    intro kind
    rw [rewritten.disk, rewritten.memory]
  case wide =>
    intro kind
    rw [rewritten.memory]
    by_cases same : kind = key.isBlock
    · rw [same]
      exact wide
    · rw [other kind same]
      exact inStep.wide kind

/-! ## Taking and releasing -/

def numberOf (v : Shape) (isBlock : Bool) (g bit : Nat) : Nat :=
  if isBlock then v.blockOf g bit else v.inodeOf g bit

section
variable {isBlock : Bool} {g : Nat} {taken : List Nat} {k : Nat} {sb : Counters}

theorem keyOf_isBlock (k : Nat) : (keyOf v isBlock k).isBlock = isBlock := by
  cases isBlock <;> rfl

theorem keyOf_numberOf {bit : Nat} (inGroup : bit < v.perGroup isBlock) :
    keyOf v isBlock (numberOf v isBlock g bit) = ⟨g, isBlock⟩ := by
  cases isBlock with
  | true => exact Shape.blockKey_blockOf inGroup
  | false => exact Shape.inodeKey_inodeOf inGroup

theorem bitOf_numberOf {bit : Nat} (inGroup : bit < v.perGroup isBlock) :
    bitOf v isBlock (numberOf v isBlock g bit) = bit := by
  cases isBlock with
  | true => exact Shape.blockBit_blockOf inGroup
  | false => exact Shape.inodeBit_inodeOf inGroup

theorem lowest_le_numberOf (bit : Nat) : lowest v isBlock ≤ numberOf v isBlock g bit := by
  cases isBlock with
  | true =>
    change v.firstDataBlock ≤ g * v.blocksPerGroup + v.firstDataBlock + bit
    omega
  | false => exact Nat.succ_pos _

theorem bitOf_lt (k : Nat) : bitOf v isBlock k < v.perGroup isBlock := by
  cases isBlock with
  | true => exact Nat.mod_lt _ v.blocksPerGroup_pos
  | false => exact Nat.mod_lt _ v.inodesPerGroup_pos

theorem InStep.seen (inStep : InStep v s) (key : Key) : s.visible key = s.image (.bitmap key) := by
  funext bit
  simp [visible, inStep.unreserved]

theorem InStep.part (inStep : InStep v s) (inRange : g < s.groups v) :
    clearIn v s.image ⟨g, isBlock⟩ ≤ s.sb.free isBlock := by
  rw [inStep.totals, ← Finset.add_sum_erase _ (fun h => clearIn v s.image ⟨h, isBlock⟩)
    (Finset.mem_range.mpr inRange)]
  exact Nat.le_add_right _ _

theorem InStep.take (inStep : InStep v s) (inRange : g < s.groups v) (once : taken.Nodup)
    (clear : ∀ b ∈ taken, s.image (.bitmap ⟨g, isBlock⟩) b = false ∧ b < v.perGroup isBlock)
    (rewritten : Rewritten v s t ⟨g, isBlock⟩ (setBits taken (s.image (.bitmap ⟨g, isBlock⟩))) sb)
    (size : sb.blocksCount = s.sb.blocksCount)
    (charged : sb.free isBlock = minus (width isBlock) taken.length (s.sb.free isBlock))
    (other : ∀ kind, kind ≠ isBlock → sb.free kind = s.sb.free kind) :
    InStep v t ∧ Taken v isBlock s t (taken.map (numberOf v isBlock g)) := by
  have counted : clearCount (v.perGroup isBlock) (setBits taken (s.image (.bitmap ⟨g, isBlock⟩))) =
      clearIn v s.image ⟨g, isBlock⟩ - taken.length := clearCount_setBits once clear
  have enough : taken.length ≤ clearIn v s.image ⟨g, isBlock⟩ := length_le_clearCount once clear
  have part : clearIn v s.image ⟨g, isBlock⟩ ≤ s.sb.free isBlock := inStep.part inRange
  have wide := inStep.wide isBlock
  have fits := inStep.fits ⟨g, isBlock⟩ inRange
  -- The subtraction in memory does not wrap.
  have total : sb.free isBlock + taken.length = s.sb.free isBlock := by
    rw [charged, minus, Nat.sub_add_comm (by omega), Nat.add_mod_right, Nat.mod_eq_of_lt (by omega)]
    omega
  have memory : ∀ kind, sb.free kind + (if kind = isBlock then taken.length else 0) = s.sb.free kind := by
    intro kind
    split
    next same => rw [same, total]
    next different => rw [other kind different, Nat.add_zero]
  refine ⟨inStep.rewritten rewritten inRange size ?_ ?_ other ?_, ?_⟩
  · change clearCount (v.perGroup isBlock) _ < _
    omega
  · change sb.free isBlock + _ = s.sb.free isBlock + clearCount (v.perGroup isBlock) _
    omega
  · change sb.free isBlock < 2 ^ width isBlock
    omega
  constructor
  case once =>
    refine List.Nodup.map_on (fun a first b second same => ?_) once
    rw [← bitOf_numberOf (clear a first).2, same, bitOf_numberOf (clear b second).2]
  case inRange =>
    intro k mem
    obtain ⟨bit, inside, rfl⟩ := mem_map.mp mem
    rw [keyOf_numberOf (clear bit inside).2]
    exact ⟨lowest_le_numberOf bit, inRange⟩
  case clear =>
    intro k mem
    obtain ⟨bit, inside, rfl⟩ := mem_map.mp mem
    rw [keyOf_numberOf (clear bit inside).2, bitOf_numberOf (clear bit inside).2]
    exact (clear bit inside).1
  case marks =>
    intro key bit
    have named : (∃ k ∈ taken.map (numberOf v isBlock g), keyOf v isBlock k = key ∧
        bitOf v isBlock k = bit) ↔ key = ⟨g, isBlock⟩ ∧ bit ∈ taken := by
      constructor
      · rintro ⟨k, mem, rfl, rfl⟩
        obtain ⟨b, inside, rfl⟩ := mem_map.mp mem
        rw [keyOf_numberOf (clear b inside).2, bitOf_numberOf (clear b inside).2]
        exact ⟨rfl, inside⟩
      · rintro ⟨rfl, inside⟩
        exact ⟨_, mem_map_of_mem inside, keyOf_numberOf (clear bit inside).2,
          bitOf_numberOf (clear bit inside).2⟩
    rw [rewritten.marks]
    simp only [named]
    by_cases here : key = ⟨g, isBlock⟩
    · subst here
      simp [setBits, Bool.or_comm]
    · simp [here]
  case memory =>
    intro kind
    rw [rewritten.memory, length_map]
    exact memory kind
  case device =>
    intro kind
    rw [rewritten.disk, length_map, inStep.disk]
    exact memory kind

theorem InStep.release (inStep : InStep v s) (allocated : Allocated v isBlock s k)
    (rewritten : Rewritten v s t (keyOf v isBlock k)
      (clearBit (bitOf v isBlock k) (s.image (.bitmap (keyOf v isBlock k)))) sb)
    (size : sb.blocksCount = s.sb.blocksCount)
    (credited : sb.free isBlock = plusOne (width isBlock) (s.sb.free isBlock))
    (other : ∀ kind, kind ≠ isBlock → sb.free kind = s.sb.free kind) :
    InStep v t ∧ Released v isBlock s t k := by
  have kind : (keyOf v isBlock k).isBlock = isBlock := keyOf_isBlock k
  have counted : clearCount (v.perGroup isBlock)
      (clearBit (bitOf v isBlock k) (s.image (.bitmap (keyOf v isBlock k)))) =
      clearIn v s.image (keyOf v isBlock k) + 1 := by
    rw [clearCount_clearBit (bitOf_lt k) allocated.marked, clearIn, kind]
  have total : sb.free isBlock = s.sb.free isBlock + 1 := by
    rw [credited, plusOne, Nat.mod_eq_of_lt allocated.wide]
  have memory : ∀ other, sb.free other = s.sb.free other + if other = isBlock then 1 else 0 := by
    intro sort
    split
    next same => rw [same, total]
    next different => rw [other sort different, Nat.add_zero]
  refine ⟨inStep.rewritten rewritten allocated.inRange size ?_ ?_ (by rwa [kind]) ?_, ?_, ?_, ?_⟩
  · rw [kind, counted]
    exact allocated.fits
  · rw [kind, counted, total]
    omega
  · rw [kind, total]
    exact allocated.wide
  · intro key bit
    rw [rewritten.marks]
    by_cases here : key = keyOf v isBlock k
    · subst here
      by_cases same : bit = bitOf v isBlock k
      · simp [same, Alloc.clearBit]
      · simp [clearBit_ne same, Ne.symm same]
    · simp [here, Ne.symm here]
  · intro sort
    rw [rewritten.memory]
    exact memory sort
  · intro sort
    rw [rewritten.disk, inStep.disk]
    exact memory sort

end

/-! ## The calls -/

section
variable {n g : Nat} {taken : List Nat} {items : List Nat}

section
variable (inStep : InStep v s)
include inStep

theorem takeBlocks_rewritten (g : Nat) (taken : List Nat) :
    Rewritten v s (s.takeBlocks v false g taken) ⟨g, true⟩ (setBits taken (s.image (.bitmap ⟨g, true⟩)))
      { s.sb with freeBlocks := minus 64 taken.length s.sb.freeBlocks } := by
  refine rewritten_of_writes (m := (s.reserve ⟨g, true⟩ taken).write false
    ⟨.bitmap ⟨g, true⟩, setBits taken (s.visible ⟨g, true⟩)⟩)
    (fun d => { d with freeBlocks := (descAt v s.image g).freeBlocks - taken.length })
    (fun sb => { sb with freeBlocks := minus 64 taken.length sb.freeBlocks }) ?_ inStep.closed rfl
    inStep.closed ?_ rfl
  · rw [inStep.seen]
    rfl
  · intro key
    change ((s.reserve ⟨g, true⟩ taken).unreserve ⟨g, true⟩ taken).reserved key = []
    by_cases here : key = ⟨g, true⟩ <;> simp [reserve, unreserve, here, inStep.unreserved]

theorem takeInode_rewritten (g bit : Nat) (isDir : Bool) :
    Rewritten v s (s.takeInode v false g bit isDir) ⟨g, false⟩ (setBits [bit] (s.image (.bitmap ⟨g, false⟩)))
      { s.sb with freeInodes := minus 32 1 s.sb.freeInodes } := by
  refine rewritten_of_writes (m := (s.reserve ⟨g, false⟩ [bit]).write false
    ⟨.bitmap ⟨g, false⟩, setBits [bit] (s.visible ⟨g, false⟩)⟩)
    (s.inodeTaken v g isDir) (fun sb => { sb with freeInodes := minus 32 1 sb.freeInodes }) ?_ inStep.closed rfl
    inStep.closed ?_ rfl
  · rw [inStep.seen]
    rfl
  · intro key
    change ((s.reserve ⟨g, false⟩ [bit]).unreserve ⟨g, false⟩ [bit]).reserved key = []
    by_cases here : key = ⟨g, false⟩ <;> simp [reserve, unreserve, here, inStep.unreserved]

theorem freeBlock_rewritten {b : Nat} (low : v.firstDataBlock ≤ b) :
    Rewritten v s (s.freeBlock v b) (v.blockKey b)
      (clearBit (v.blockBit b) (s.image (.bitmap (v.blockKey b))))
      { s.sb with freeBlocks := plusOne 64 s.sb.freeBlocks } := by
  rw [freeBlock, if_neg (Nat.not_lt.mpr low)]
  refine rewritten_of_writes (m := s.direct ⟨.bitmap (v.blockKey b),
    clearBit (v.blockBit b) (s.visible (v.blockKey b))⟩)
    (s.blockFreed v b) (fun sb => { sb with freeBlocks := plusOne 64 sb.freeBlocks }) ?_ inStep.closed rfl
    inStep.closed ?_ rfl
  · rw [inStep.seen]
    rfl
  · intro key
    change (s.unreserve (v.blockKey b) [v.blockBit b]).reserved key = []
    by_cases here : key = v.blockKey b <;> simp [unreserve, here, inStep.unreserved]

theorem freeInodeSlot_rewritten (i : Nat) :
    Rewritten v s (s.freeInodeSlot v i) (v.inodeKey i)
      (clearBit (v.inodeBit i) (s.image (.bitmap (v.inodeKey i))))
      { s.sb with freeInodes := plusOne 32 s.sb.freeInodes } := by
  set write : Write Content := ⟨.bitmap (v.inodeKey i),
    clearBit (v.inodeBit i) (s.visible (v.inodeKey i))⟩ with written
  have closed : (s.put write).tx = none := by
    apply Option.not_isSome_iff_eq_none.mp
    rw [s.put_tx_isSome, inStep.closed]
    simp
  have shown : (s.put write).image = update s.image (.bitmap (v.inodeKey i))
      (clearBit (v.inodeBit i) (s.image (.bitmap (v.inodeKey i)))) := by
    rw [← now_of_none _ closed, put_now, now_of_none s inStep.closed, written, inStep.seen]
  have memory : (s.put write).sb = s.sb := s.put_sb write
  have rewritten := rewritten_of_writes (t := s.freeInodeSlot v i)
    (fun d => { d with
      freeInodes := plusOne v.descBits (descAt v s.image (v.inodeKey i).group).freeInodes })
    (fun sb => { sb with freeInodes := plusOne 32 sb.freeInodes }) shown closed rfl closed
    (fun key => (congrFun (s.put_reserved write) key).trans (inStep.unreserved key)) rfl
  rwa [memory] at rewritten

theorem InStep.advance : InStep v s.advanceCursor :=
  ⟨inStep.closed, inStep.unreserved, inStep.counts, inStep.fits, inStep.totals, inStep.disk, inStep.wide⟩

end

theorem Taken.before_cursor {isBlock : Bool} (taken : Taken v isBlock s.advanceCursor t items) :
    Taken v isBlock s t items :=
  ⟨taken.once, taken.inRange, taken.clear, taken.marks, taken.memory, taken.device⟩

theorem chooseLocked_spec (chosen : chooseLocked v s n = some (g, taken)) :
    taken.Nodup ∧ taken.length = n ∧ g < s.groups v ∧
      ∀ b ∈ taken, s.visible ⟨g, true⟩ b = false ∧ b < v.blocksPerGroup := by
  obtain ⟨h, mem, found⟩ := exists_of_findSome?_eq_some chosen
  split at found
  · cases found
  · obtain ⟨run, search, same⟩ := Option.map_eq_some_iff.mp found
    cases same
    obtain ⟨nodup, long, clear⟩ := findFreeRun_spec search
    exact ⟨nodup, long, mem_range.mp mem, clear⟩

theorem takeBlocks_done (inStep : InStep v s) (chosen : taken.Nodup ∧ taken.length = n ∧ g < s.groups v ∧
      ∀ b ∈ taken, s.visible ⟨g, true⟩ b = false ∧ b < v.blocksPerGroup) :
    InStep v (s.takeBlocks v false g taken) ∧ (taken.map (v.blockOf g)).length = n ∧
      Taken v true s (s.takeBlocks v false g taken) (taken.map (v.blockOf g)) := by
  obtain ⟨once, long, inRange, clear⟩ := chosen
  rw [inStep.seen] at clear
  obtain ⟨after, marked⟩ := inStep.take inRange once clear (takeBlocks_rewritten inStep g taken) rfl
    (by rw [Counters.free_true, Counters.free_true, width_true]) (by simp)
  exact ⟨after, by rw [length_map, long], marked⟩

theorem allocBlocks_done (inStep : InStep v s) (n : Nat) : (allocBlocks v tables n).Meets s
      (fun items t => (items.length = n ∧ Taken v true s t items) ∧ InStep v t) fun _ t => InStep v t := by
  have advanced := inStep.advance
  unfold Prog.Meets allocBlocks
  dsimp only
  cases chosen : s.advanceCursor.chooseBlocks v false n with
  | some choice =>
    obtain ⟨after, long, marked⟩ := takeBlocks_done advanced (chooseBlocks_spec chosen)
    dsimp only
    -- The safety check changes what is returned, not what is taken.
    by_cases inside : (choice.2.map (v.blockOf choice.1)).any
        (tables.holds v (s.advanceCursor.takeBlocks v false choice.1 choice.2))
    · rw [if_pos inside]
      exact after
    · rw [if_neg inside]
      exact ⟨⟨long, marked.before_cursor⟩, after⟩
  | none =>
    cases locked : chooseLocked v s.advanceCursor n with
    | some choice =>
      obtain ⟨after, long, marked⟩ := takeBlocks_done advanced (chooseLocked_spec locked)
      exact ⟨⟨long, marked.before_cursor⟩, after⟩
    | none => exact advanced

theorem allocInode_done (inStep : InStep v s) (isDir : Bool) :
    (allocInode v isDir).Meets s (fun i t => Taken v false s t [i] ∧ InStep v t) fun _ t => InStep v t := by
  have advanced := inStep.advance
  unfold Prog.Meets allocInode
  dsimp only
  cases chosen : s.advanceCursor.chooseInode v with
  | none => exact advanced
  | some choice =>
    obtain ⟨g, bit⟩ := choice
    obtain ⟨inRange, clear, inGroup⟩ := chooseInode_spec chosen
    rw [advanced.seen] at clear
    obtain ⟨after, marked⟩ := advanced.take inRange (nodup_singleton bit)
      (fun b mem => mem_singleton.mp mem ▸ ⟨clear, inGroup⟩)
      (takeInode_rewritten advanced g bit isDir) rfl
      (by rw [Counters.free_false, Counters.free_false, width_false, length_singleton]) (by simp)
    exact ⟨marked.before_cursor, after⟩

theorem Call.run_done (tables : Tables) (inStep : InStep v s) (call : Call) (allowed : call.Allowed v s) :
    (call.run v tables).Meets s (fun items t => call.Done v s t items ∧ InStep v t)
      fun _ t => InStep v t := by
  cases call with
  | allocInode isDir =>
    refine (allocInode_done inStep isDir).step ?_
    rintro i t ⟨marked, after⟩
    exact ⟨⟨rfl, marked⟩, after⟩
  | allocBlocks n => exact allocBlocks_done inStep n
  | freeBlock b =>
    have allocated : Allocated v true s b := allowed
    obtain ⟨after, released⟩ := inStep.release allocated
      (freeBlock_rewritten inStep allocated.low) rfl (by rw [Counters.free_true, Counters.free_true, width_true])
      (by simp)
    exact ⟨⟨rfl, released⟩, after⟩
  | freeInodeSlot i =>
    have allocated : Allocated v false s i := allowed
    obtain ⟨after, released⟩ := inStep.release allocated
      (freeInodeSlot_rewritten inStep i) rfl (by rw [Counters.free_false, Counters.free_false, width_false]) (by simp)
    exact ⟨⟨rfl, released⟩, after⟩

theorem Call.step_inStep {call : Call} (inStep : InStep v s) (allowed : call.Allowed v s)
    (taken : call.step v tables s = some t) : InStep v t := by
  have done := Call.run_done tables inStep call allowed
  cases taken
  cases ran : call.run v tables s with
  | mk outcome u =>
    cases outcome with
    | ok items => exact (done.ok ran).2
    | error e => exact done.error ran

end

/-! ## A small volume -/

def noTables : Tables := ⟨fun _ => 0, 0⟩

theorem crowded_inStep : InStep crowdedShape crowded := by
  have only : ∀ key : Key, key.group < crowded.groups crowdedShape → key.group = 0 := fun key inRange => by
    have one : crowded.groups crowdedShape = 1 := by decide
    omega
  constructor
  case closed => rfl
  case unreserved => exact fun _ => rfl
  case counts => exact crowded_sound.counts
  case fits =>
    rintro ⟨g, isBlock⟩ inRange
    obtain rfl : g = 0 := only _ inRange
    cases isBlock <;> decide
  case totals => decide
  case disk => decide
  case wide => decide

end Ext4.Volume.Direct
