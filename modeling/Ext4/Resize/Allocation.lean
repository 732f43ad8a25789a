import Ext4.Resize.Descriptors
import Ext4.Resize.Shrink

/-! Allocation of blocks from the bitmaps on the device.
The groups are tried in turn from the one a cursor names; the cursor is shared by all filesystems of
the process. Bits are searched up to the size of a group, whatever `BlocksCount` is. -/

namespace Ext4.Resize
open Octets Overlay SuperArea List

variable (v : Layout)

/-- `findFreeRunForTx`; with a transaction the blocks it has writes for are passed over. -/
def findRun (tx : Option (List Nat)) (n g : Nat) (bitmap : Bytes) : Option (List Nat) :=
  match tx with
  | none => Alloc.findFreeRun (bitAt bitmap) v.blocksPerGroup n
  | some staged => (Staging.findFreeRunForTx (fun bit => decide (v.groupStart g + bit ∈ staged))
      v.blocksPerGroup n (v.blocksPerGroup + 1) (bitAt bitmap)).join

/-- The bits of a group are taken: bitmap, descriptor and superblock are written. -/
def takeBits (g : Nat) (d : Desc) (bitmap : Bytes) (bits : List Nat) : Call (List Nat) := do
  let d ← writeBlockBitmap v { d with freeBlocks := d.freeBlocks - bits.length }
    (bits.foldl setBit bitmap)
  writeBGD v g d
  .modify fun s => { s with sb := { s.sb with freeBlocks := lessBy 64 bits.length s.sb.freeBlocks } }
  writeSuperblock v
  pure (bits.map (v.groupStart g + ·))

def tryGroup (tx : Option (List Nat)) (n g : Nat) : Call (Option (List Nat)) := do
  let d ← readBGD v g
  if d.freeBlocks < n then pure none
  else do
    let bitmap ← readBlock v d.blockBitmap
    match findRun v tx n g bitmap with
    | none => pure none
    | some bits => do
        let blocks ← takeBits v g d bitmap bits
        pure (some blocks)

def tryGroups (tx : Option (List Nat)) (n : Nat) : List Nat → Call (Option (List Nat))
  | [] => pure none
  | g :: rest => do
      match ← tryGroup v tx n g with
      | some blocks => pure (some blocks)
      | none => tryGroups tx n rest

/-- `g := (start + i) % nGroups` for every `i`. -/
def orderFrom (groups cursor : Nat) : List Nat :=
  (range groups).map fun i => (cursor % groups + i) % 2 ^ 32 % groups

/-- The search from the cursor and then, as `lockedAllocBlocks` and `lockedAllocBlocksWithTx` do it,
from the first group; they do not ask what the transaction has writes for. -/
def searchGroups (tx : Option (List Nat)) (cursor n : Nat) : Call (List Nat × Bool) := do
  let groups ← .read fun s => s.numBlockGroups v
  match ← tryGroups v tx n (orderFrom groups cursor) with
  | some blocks => pure (blocks, false)
  | none =>
      match ← tryGroups v none n (range groups) with
      | some blocks => pure (blocks, true)
      | none => .fail .noFreeBlocks

/-- `allocBlocksWithTx`; what a transaction stages is taken for written. -/
def allocBlocksWithTx (tx : Option (List Nat)) (cursor n : Nat) : Call (List Nat) := do
  let (blocks, _) ← searchGroups v tx cursor n
  pure blocks

/-- The safety check of `allocBlocks`: the bits are taken by then. -/
def checkTable (b : Nat) : Call Unit := do
  let groups ← .read fun s => s.numBlockGroups v
  let g := (b - v.firstDataBlock) / v.blocksPerGroup
  if b < v.firstDataBlock ∨ groups ≤ g then pure ()
  else do
    let d ← readBGD v g
    if d.inodeTable ≤ b ∧ b < d.inodeTable + v.inodeTableBlocks then .fail (.insideTable b) else pure ()

/-- `allocBlocks`; the last resort does not look at the inode tables. -/
def allocBlocks (cursor n : Nat) : Call (List Nat) := do
  let (blocks, locked) ← searchGroups v none cursor n
  if locked then pure blocks
  else do
    Prog.forEach (checkTable v) blocks
    pure blocks

/-- What is asked of the volume: blocks, or the octets of a file at some place. -/
inductive SpaceCall where
  | allocBlocks (cursor n : Nat)
  | allocBlocksWithTx (tx : Option (List Nat)) (cursor n : Nat)
  | write (off : Nat) (data : Bytes)

def SpaceCall.run : SpaceCall → Call (List Nat)
  | .allocBlocks cursor n => Resize.allocBlocks v cursor n
  | .allocBlocksWithTx tx cursor n => Resize.allocBlocksWithTx v tx cursor n
  | .write off data => do
      writeAt off data
      pure []

def received : List SpaceCall → Vol → List Nat
  | [], _ => []
  | call :: rest, s =>
      match call.run v s with
      | (.ok blocks, t) => blocks ++ received rest t
      | (.error _, t) => received rest t

/-! ## A search of the groups -/

variable {v} {s : Vol} {bits : List Nat} {groups maxBits : Nat} {bitmap : Alloc.Bits}

theorem findRun_spec {tx : Option (List Nat)} {n g : Nat} {bitmap : Bytes}
    (found : findRun v tx n g bitmap = some bits) :
    ∀ bit ∈ bits, bitAt bitmap bit = false ∧ bit < v.blocksPerGroup := by
  cases tx with
  | none => exact (Alloc.findFreeRun_spec found).2.2
  | some staged => exact (Staging.findFreeRunForTx_spec (Option.join_eq_some_iff.mp found)).2.2

theorem mem_orderFrom {cursor g : Nat} (mem : g ∈ orderFrom groups cursor) : g < groups := by
  obtain ⟨i, inRange, rfl⟩ := mem_map.mp mem
  exact Nat.mod_lt _ (Nat.lt_of_le_of_lt (Nat.zero_le i) (mem_range.mp inRange))

theorem checkTable_meets (b : Nat) : (checkTable v b).Meets s (fun _ t => t = s) fun _ t => t = s := by
  rw [checkTable, meets_bind, meets_read]
  dsimp only
  split
  next => exact rfl
  next =>
    refine .seq (readBGD_meets s _) ?_ fun _ _ bad => bad.1
    rintro d t ⟨rfl, -⟩
    split <;> exact rfl

theorem checkTables_meets (blocks : List Nat) :
    (Prog.forEach (checkTable v) blocks).Meets s (fun _ t => t = s) fun _ t => t = s := by
  refine meets_forEach blocks rfl ?_
  rintro b - t rfl
  exact checkTable_meets b

/-- What the search keeps of a volume, and which blocks it may take from it. It is enough that to
take clear bits of a group keeps the one and hands out only the other. -/
structure Search (v : Layout) (Inv : Vol → Prop) (Kept : Vol → Vol → Prop) (May : Vol → Nat → Prop) :
    Prop where
  refl : ∀ {s}, Inv s → Kept s s
  trans : ∀ {s t u}, Kept s t → Kept t u → Kept s u
  inv : ∀ {s t}, Kept s t → Inv s → Inv t
  groups : ∀ {s t}, Kept s t → t.numBlockGroups v = s.numBlockGroups v
  may : ∀ {s t b}, Kept s t → May t b → May s b
  takes : ∀ {s g} {bits : List Nat}, Inv s → g < s.numBlockGroups v →
    (∀ bit ∈ bits, bitAt (s.block v (s.desc v g).blockBitmap) bit = false ∧ bit < v.blocksPerGroup) →
    (takeBits v g (s.desc v g) (s.block v (s.desc v g).blockBitmap) bits).Meets s
      (fun blocks t => Kept s t ∧ ∀ b ∈ blocks, May s b) fun _ => Kept s

namespace Search

variable {Inv : Vol → Prop} {Kept : Vol → Vol → Prop} {May : Vol → Nat → Prop}

section
variable (search : Search v Inv Kept May) (inv : Inv s)
include search inv

theorem tryGroup {g : Nat} (present : g < s.numBlockGroups v)
    (tx : Option (List Nat)) (n : Nat) : (tryGroup v tx n g).Meets s
    (fun found t => Kept s t ∧ ∀ b ∈ found.getD [], May s b) fun _ => Kept s := by
  have still := search.refl inv
  rw [Resize.tryGroup, meets_bind]
  refine (readBGD_meets s g).mono ?_ fun _ _ bad => bad.1 ▸ still
  rintro d t ⟨rfl, rfl, -⟩
  split
  next => exact ⟨still, nofun⟩
  next =>
    refine .seq (readBlock_meets t _) ?_ fun _ _ bad => bad.1 ▸ still
    rintro bitmap t' ⟨rfl, rfl, -⟩
    split
    next => exact ⟨still, nofun⟩
    next bits found => exact .seq (search.takes inv present (findRun_spec found)) (fun _ _ => id) fun _ _ => id

theorem tryGroups (tx : Option (List Nat)) (n : Nat)
    (groups : List Nat) (present : ∀ g ∈ groups, g < s.numBlockGroups v) :
    (tryGroups v tx n groups).Meets s (fun found t => Kept s t ∧ ∀ b ∈ found.getD [], May s b)
      fun _ => Kept s := by
  induction groups generalizing s with
  | nil => exact ⟨search.refl inv, nofun⟩
  | cons g rest ih =>
    obtain ⟨here, later⟩ := forall_mem_cons.mp present
    rw [tryGroups, meets_bind]
    refine (search.tryGroup inv here tx n).imp ?_
    rintro (_ | blocks) t ⟨kept, taken⟩
    · refine (ih (search.inv kept inv) (search.groups kept ▸ later)).mono ?_ fun _ _ => search.trans kept
      exact fun found t' after => ⟨search.trans kept after.1, fun b mem => search.may kept (after.2 b mem)⟩
    · exact ⟨kept, taken⟩

theorem searchGroups (tx : Option (List Nat))
    (cursor n : Nat) : (searchGroups v tx cursor n).Meets s
    (fun found t => Kept s t ∧ ∀ b ∈ found.1, May s b) fun _ => Kept s := by
  rw [Resize.searchGroups, meets_bind, meets_read, meets_bind]
  refine (search.tryGroups inv tx n _ fun g => mem_orderFrom).imp ?_
  rintro (_ | blocks) t ⟨kept, taken⟩
  · refine .seq (search.tryGroups (search.inv kept inv) none n _ fun g mem => ?_) ?_
      fun _ _ => search.trans kept
    · exact (search.groups kept).symm ▸ mem_range.mp mem
    · rintro (_ | blocks) t' ⟨kept', taken'⟩
      · exact search.trans kept kept'
      · exact ⟨search.trans kept kept', fun b mem => search.may kept (taken' b mem)⟩
  · exact ⟨kept, taken⟩

theorem call (call : SpaceCall)
    (writes : ∀ off data, call = .write off data → Kept s (writeAt off data s).2) : (call.run v).Meets s
    (fun blocks t => Kept s t ∧ ∀ b ∈ blocks, May s b) fun _ => Kept s := by
  cases call with
  | allocBlocks cursor n =>
    rw [SpaceCall.run, allocBlocks, meets_bind]
    refine (search.searchGroups inv none cursor n).imp ?_
    rintro ⟨blocks, locked⟩ t after
    cases locked with
    | true => exact after
    | false =>
      dsimp only
      rw [if_neg Bool.false_ne_true, meets_bind]
      refine (checkTables_meets blocks).mono ?_ fun _ _ same => same ▸ after.1
      rintro - t' rfl
      exact after
  | allocBlocksWithTx tx cursor n =>
    rw [SpaceCall.run, allocBlocksWithTx, meets_bind]
    exact (search.searchGroups inv tx cursor n).imp fun _ _ => id
  | write off data => exact ⟨writes off data rfl, nofun⟩

theorem received (calls : List SpaceCall)
    (writes : ∀ s off data, .write off data ∈ calls → Kept s (writeAt off data s).2) :
    ∀ b ∈ Resize.received v calls s, May s b := by
  induction calls generalizing s with
  | nil => exact nofun
  | cons call rest ih =>
    have later {t} (kept : Kept s t) : ∀ b ∈ received v rest t, May s b := fun b mem =>
      search.may kept (ih (search.inv kept inv)
        (fun u off data mem => writes u off data (mem_cons_of_mem _ mem)) b mem)
    have first := search.call inv call fun off data eq => writes s off data (eq ▸ mem_cons_self)
    rw [received]
    rcases ran : call.run v s with ⟨e | blocks, t⟩
    · exact later (first.error ran)
    · obtain ⟨kept, taken⟩ := first.ok ran
      exact forall_mem_append.mpr ⟨taken, later kept⟩

end

end Search

/-! ## Where the blocks are -/

theorem groupStart_le {g : Nat} (present : g < groups) :
    v.groupStart g + v.blocksPerGroup ≤ v.groupStart groups := by
  have := Nat.mul_le_mul_right v.blocksPerGroup (Nat.succ_le_of_lt present)
  unfold Layout.groupStart
  rw [Nat.succ_mul] at this
  omega

theorem search_inside : Search v (fun _ => True) (fun s t => t.sb.blocksCount = s.sb.blocksCount)
    fun s b => b < v.groupStart (s.numBlockGroups v) := by
  have groups {s t : Vol} (same : t.sb.blocksCount = s.sb.blocksCount) :
      t.numBlockGroups v = s.numBlockGroups v := by
    rw [Vol.numBlockGroups, Vol.numBlockGroups, same]
  refine ⟨fun _ => rfl, fun first later => later.trans first, fun _ _ => trivial, groups,
    fun same below => groups same ▸ below, fun _ present clear => ⟨rfl, fun b mem => ?_⟩⟩
  obtain ⟨bit, inside, rfl⟩ := mem_map.mp mem
  exact Nat.lt_of_lt_of_le (Nat.add_lt_add_left (clear bit inside).2 _) (groupStart_le present)

theorem received_lt (calls : List SpaceCall) (s : Vol) :
    ∀ b ∈ received v calls s, b < v.groupStart (s.numBlockGroups v) :=
  search_inside.received trivial calls fun _ _ _ _ => rfl

/-! ## A group that is emptied -/

theorem mem_of_clearCount {i : Nat} (once : bits.Nodup)
    (each : ∀ b ∈ bits, bitmap b = false ∧ b < maxBits) (all : bits.length = Alloc.clearCount maxBits bitmap)
    (inside : i < maxBits) (clear : bitmap i = false) : i ∈ bits := by
  by_contra missing
  have more := Alloc.length_le_clearCount (nodup_cons.mpr ⟨missing, once⟩)
    (forall_mem_cons.mpr ⟨⟨clear, inside⟩, each⟩)
  rw [length_cons] at more
  omega

theorem findFreeRun_all {i : Nat}
    (found : Alloc.findFreeRun bitmap maxBits (Alloc.clearCount maxBits bitmap) = some bits)
    (inside : i < maxBits) (clear : bitmap i = false) : i ∈ bits := by
  obtain ⟨once, length, each⟩ := Alloc.findFreeRun_spec found
  exact mem_of_clearCount once each length inside clear

theorem orderFrom_cursor {g : Nat} (present : g < groups) (small : g < 2 ^ 32) :
    ∃ rest, orderFrom groups g = g :: rest := by
  obtain ⟨m, eq⟩ := Nat.exists_eq_succ_of_ne_zero (Nat.ne_zero_of_lt present)
  rw [orderFrom, eq, Nat.succ_eq_add_one, range_succ_eq_map, map_cons, Nat.add_zero,
    Nat.mod_eq_of_lt (by omega : g < m + 1), Nat.mod_eq_of_lt small, Nat.mod_eq_of_lt (by omega)]
  exact ⟨_, rfl⟩

theorem group_lt {g : Nat} (present : g < s.numBlockGroups v) : g < 2 ^ 32 :=
  Nat.lt_trans present (Nat.mod_lt _ (by decide))

section
variable {g i n : Nat} {tx : Option (List Nat)} (desc : v.descOff g + v.descSize ≤ s.size)
  (block : v.start (s.desc v g).blockBitmap + v.blockSize ≤ s.size)
include desc block

section
variable (enough : n ≤ (s.desc v g).freeBlocks)
  (found : findRun v tx n g (s.block v (s.desc v g).blockBitmap) = some bits)
include enough found

theorem tryGroup_takes : (tryGroup v tx n g).Meets s
    (fun taken _ => taken = some (bits.map (v.groupStart g + ·))) fun _ _ => False := by
  rw [tryGroup, meets_bind]
  refine (readBGD_meets s g).mono ?_ fun e t bad => by omega
  rintro d t ⟨rfl, rfl, -⟩
  rw [if_neg (by omega), meets_bind]
  refine (readBlock_meets t _).mono ?_ fun e t bad => by omega
  rintro bitmap t' ⟨rfl, rfl, -⟩
  rw [found]
  exact rfl

theorem allocBlocksWithTx_takes (present : g < s.numBlockGroups v) : (allocBlocksWithTx v tx g n).Meets s
    (fun blocks _ => blocks = bits.map (v.groupStart g + ·)) fun _ _ => False := by
  obtain ⟨rest, order⟩ := orderFrom_cursor present (group_lt present)
  rw [allocBlocksWithTx, searchGroups]
  simp only [meets_bind, meets_read]
  rw [order, tryGroups, meets_bind]
  refine (tryGroup_takes desc block enough found).imp ?_
  rintro _ t rfl
  exact rfl

end

theorem received_all (count : (s.desc v g).freeBlocks =
      Alloc.clearCount v.blocksPerGroup (bitAt (s.block v (s.desc v g).blockBitmap)))
    (inside : i < v.blocksPerGroup) (clear : bitAt (s.block v (s.desc v g).blockBitmap) i = false)
    (present : g < s.numBlockGroups v) (later : List SpaceCall) :
    v.groupStart g + i ∈ received v (.allocBlocksWithTx none g (s.desc v g).freeBlocks :: later) s := by
  obtain ⟨bits, found⟩ := Option.isSome_iff_exists.mp (Alloc.findFreeRun_isSome count.le)
  have call : (allocBlocksWithTx v none g _).Meets s _ _ := allocBlocksWithTx_takes desc block (le_refl _) found present
  rw [received, SpaceCall.run]
  rcases ran : Resize.allocBlocksWithTx v none g (s.desc v g).freeBlocks s with ⟨e | blocks, t⟩
  · exact (call.error ran).elim
  · rw [count] at found
    exact mem_append_left _ (call.ok ran ▸ mem_map_of_mem (findFreeRun_all found inside clear))

end

end Ext4.Resize
