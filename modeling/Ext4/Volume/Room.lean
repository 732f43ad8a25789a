import Ext4.Volume.Steps

/-! When an allocation of blocks succeeds.
It needs one group whose descriptor counts enough free blocks and whose bitmap, merged with the
reservations, has enough clear bits; a run of clear bits is preferred. Blocks that are released first
count as free. -/

namespace Ext4.Volume
open Octets Alloc Store List Function FS

variable {v : Shape} {s t : FS} {n g : Nat} {own : List Nat}

def Shape.inGroup (v : Shape) (g b : Nat) : Bool :=
  decide (v.firstDataBlock ≤ b) && decide ((v.blockKey b).group = g)

theorem Shape.inGroup_blockOf {bit : Nat} (inRange : bit < v.blocksPerGroup) :
    v.inGroup g (v.blockOf g bit) := by
  have key : v.blockKey (v.blockOf g bit) = ⟨g, true⟩ := Shape.blockKey_blockOf inRange
  have low : v.firstDataBlock ≤ v.blockOf g bit := by unfold Shape.blockOf; omega
  simp [Shape.inGroup, key, low]

/-- The bits of a group that an allocation sees once the blocks `own` are released. -/
def FS.freed (v : Shape) (s : FS) (own : List Nat) (g : Nat) : Bits := fun bit =>
  s.visible ⟨g, true⟩ bit && decide (v.blockOf g bit ∉ own)

/-- The free blocks that a descriptor counts then: a release makes the dispatcher count them anew. -/
def FS.counts (v : Shape) (s : FS) (own : List Nat) (g : Nat) : Nat :=
  if own.any (v.inGroup g) then clearCount v.blocksPerGroup (s.freed v own g) % 2 ^ v.descBits
  else (descAt v s.image g).freeBlocks

/-- The group has room for `n` blocks when the blocks `own` are released. -/
def FS.Offers (v : Shape) (s : FS) (n : Nat) (own : List Nat) (g : Nat) : Prop :=
  n ≤ s.counts v own g ∧ n ≤ clearCount v.blocksPerGroup (s.freed v own g)

def FS.HasRoom (v : Shape) (s : FS) (n : Nat) (own : List Nat) : Prop :=
  ∃ g < s.groups v, s.Offers v n own g

/-- Every group that has room for `n` blocks has it in one piece. -/
def FS.InOnePiece (v : Shape) (s : FS) (n : Nat) (own : List Nat) : Prop :=
  ∀ g < s.groups v, s.Offers v n own g →
    ∃ start, start + n ≤ v.blocksPerGroup ∧ ∀ bit, start ≤ bit → bit < start + n →
      s.freed v own g bit = false

/-- Wherever `n` blocks are taken, the four extents of an inode map them: there are at most four, or
they are consecutive. -/
def FS.Inlines (v : Shape) (s : FS) (n : Nat) (own : List Nat) : Prop :=
  n ≤ 4 ∨ n ≤ 4 * 0x7FFF ∧ s.InOnePiece v n own

/-! ## Released blocks -/

theorem descAt_update (img : Image) (g h : Nat) (d : Desc) :
    descAt v (update img (.descs (g / v.descsPerBlock))
      (update (img (.descs (g / v.descsPerBlock))) (g % v.descsPerBlock) d)) h =
      if h = g then d else descAt v img h := by
  unfold descAt
  by_cases block : h / v.descsPerBlock = g / v.descsPerBlock
  · rw [block, update_self]
    split
    next same =>
      subst same
      rw [update_self]
    next other =>
      rw [update_of_ne fun index => other (div_mod_inj block index)]
  · rw [update_of_ne (by simpa using block), if_neg]
    rintro rfl
    exact block rfl

theorem descAt_bitmap (img : Image) (key : Key) (bits : Bits) (g : Nat) :
    descAt v (update img (.bitmap key) bits) g = descAt v img g := by
  simp [descAt]

variable {inTx : Bool} {b : Nat}

theorem FS.account_now (via : s.tx.isSome = inTx) (g : Nat) (change : Desc → Desc)
    (counters : Counters → Counters) :
    let t := (s.recount v inTx g change counters).writeSuper inTx
    (∀ key, t.now (.bitmap key) = s.now (.bitmap key)) ∧
      ∀ h, descAt v t.now h = if h = g then
        (if inTx then change (descAt v s.now g) else s.counted v g (change (descAt v s.now g)))
        else descAt v s.now h := by
  intro t
  have counted : (s.recount v inTx g change counters).now =
      update s.now (.descs (g / v.descsPerBlock))
        (update (s.now (.descs (g / v.descsPerBlock))) (g % v.descsPerBlock)
          (if inTx then change (descAt v s.now g) else s.counted v g (change (descAt v s.now g)))) :=
    write_now via _
  have via' : (s.recount v inTx g change counters).tx.isSome = inTx := by
    cases inTx with
    | true => exact (s.put_tx_isSome _).trans via
    | false => exact via
  have written : t.now = update (s.recount v inTx g change counters).now .super _ :=
    write_now via' _
  rw [written, counted]
  constructor
  · intro key
    rw [update_of_ne (by simp), update_of_ne (by simp)]
  · intro h
    rw [← descAt_update]
    simp [descAt]

theorem FS.freeBlock_room (closed : s.tx = none) (low : v.firstDataBlock ≤ b) :
    (∀ key bit, (s.freeBlock v b).visible key bit =
        (s.visible key bit && !decide (key = v.blockKey b ∧ bit = v.blockBit b))) ∧
      ∀ g, (descAt v (s.freeBlock v b).image g).freeBlocks = if g = (v.blockKey b).group then
          clearCount v.blocksPerGroup ((s.freeBlock v b).visible ⟨g, true⟩) % 2 ^ v.descBits
        else (descAt v s.image g).freeBlocks := by
  let s' := s.direct ⟨.bitmap (v.blockKey b), clearBit (v.blockBit b) (s.visible (v.blockKey b))⟩
  have closed' : s'.tx = none := closed
  obtain ⟨bitmaps, descs⟩ := account_now
    (by rw [closed']; rfl : s'.tx.isSome = false) (v.blockKey b).group
    (s.blockFreed v b) (fun sb => { sb with freeBlocks := plusOne 64 sb.freeBlocks })
  have shown : s'.now = update s.image (.bitmap (v.blockKey b))
      (clearBit (v.blockBit b) (s.visible (v.blockKey b))) := by
    rw [now_of_none s' closed', direct_image]
  have quiet : (s.freeBlock v b).now = (s.freeBlock v b).image :=
    now_of_none _ ((freeBlock_spec closed b).2.toOuter.closed closed)
  rw [shown] at bitmaps descs
  have high : ¬ b < v.firstDataBlock := Nat.not_lt.mpr low
  have marks : ∀ key, (s.freeBlock v b).image (.bitmap key) =
      update s.image (.bitmap (v.blockKey b))
        (clearBit (v.blockBit b) (s.visible (v.blockKey b))) (.bitmap key) := fun key => by
    rw [← quiet, freeBlock, if_neg high]
    exact bitmaps key
  have reserved : (s.freeBlock v b).reserved = update s.reserved (v.blockKey b)
      ((s.reserved (v.blockKey b)).filter fun bit => decide (bit ∉ [v.blockBit b])) := by
    rw [freeBlock, if_neg high]
    rfl
  have seen : ∀ key bit, (s.freeBlock v b).visible key bit =
      (s.visible key bit && !decide (key = v.blockKey b ∧ bit = v.blockBit b)) := by
    intro key bit
    rw [visible, marks, reserved]
    by_cases here : key = v.blockKey b
    · subst here
      simp only [update_self]
      by_cases same : bit = v.blockBit b
      · simp [same, Alloc.clearBit]
      · simp [clearBit_ne same, visible, same]
    · simp only [update_of_ne here, here, false_and, decide_false, Bool.not_false, Bool.and_true]
      rw [update_of_ne (by simpa using here), visible]
  refine ⟨seen, fun g => ?_⟩
  have count : (descAt v (s.freeBlock v b).image g).freeBlocks =
      if g = (v.blockKey b).group then
        clearCount v.blocksPerGroup (s'.image (.bitmap ⟨(v.blockKey b).group, true⟩)) %
          2 ^ v.descBits
      else (descAt v s.image g).freeBlocks := by
    rw [← quiet, freeBlock, if_neg high]
    refine (congrArg Desc.freeBlocks (descs g)).trans ?_
    split <;> rfl
  rw [count]
  split
  next here =>
    -- The reservations that are left are set in the bitmap that was written.
    have written : s'.image (.bitmap ⟨(v.blockKey b).group, true⟩) =
        (s.freeBlock v b).visible ⟨g, true⟩ := by
      funext bit
      rw [seen, here, direct_image]
      change update s.image (.bitmap (v.blockKey b)) _ (.bitmap (v.blockKey b)) bit =
        (s.visible (v.blockKey b) bit && !decide (v.blockKey b = v.blockKey b ∧ bit = v.blockBit b))
      rw [update_self]
      by_cases same : bit = v.blockBit b
      · simp [same, Alloc.clearBit]
      · simp [clearBit_ne same, same]
    rw [written]
  · rfl

theorem FS.freeBlocks_room (closed : s.tx = none) (own : List Nat) : (∀ g bit, bit < v.blocksPerGroup →
        (own.foldl (freeBlock v) s).visible ⟨g, true⟩ bit = s.freed v own g bit) ∧
      ∀ g, (descAt v (own.foldl (freeBlock v) s).image g).freeBlocks = if own.any (v.inGroup g) then
          clearCount v.blocksPerGroup ((own.foldl (freeBlock v) s).visible ⟨g, true⟩) % 2 ^ v.descBits
        else (descAt v s.image g).freeBlocks := by
  induction own generalizing s with
  | nil => exact ⟨fun g bit _ => by simp [freed], fun g => rfl⟩
  | cons b rest ih =>
    have closed' := (freeBlock_spec (v := v) closed b).2.toOuter.closed closed
    obtain ⟨seen, counted⟩ := ih closed'
    rw [foldl_cons]
    by_cases low : v.firstDataBlock ≤ b
    · obtain ⟨seen', counted'⟩ := freeBlock_room closed low
      constructor
      · intro g bit inRange
        have here : ((⟨g, true⟩ : Key) = v.blockKey b ∧ bit = v.blockBit b) ↔ v.blockOf g bit = b := by
          constructor
          · rintro ⟨key, rfl⟩
            apply Shape.block_inj (by unfold Shape.blockOf; omega) low
            · rw [Shape.blockKey_blockOf inRange, key]
            · rw [Shape.blockBit_blockOf inRange]
          · rintro rfl
            exact ⟨(Shape.blockKey_blockOf inRange).symm, (Shape.blockBit_blockOf inRange).symm⟩
        rw [seen g bit inRange, freed, freed, seen']
        simp only [here]
        simp [Bool.and_assoc]
      · intro g
        rw [counted, counted', any_cons]
        by_cases here : g = (v.blockKey b).group
        · have inside : v.inGroup g b := by simp [Shape.inGroup, low, here]
          rw [inside, Bool.true_or, if_pos rfl, if_pos here]
          split
          · rfl
          next none =>
            rw [clearCount_congr fun bit inRange => ?_]
            -- No later block is in the group, so its bits stay as they are.
            have absent : v.blockOf g bit ∉ rest := fun mem => none <| any_eq_true.mpr
              ⟨_, mem, Shape.inGroup_blockOf inRange⟩
            rw [seen g bit inRange, freed, decide_eq_true absent, Bool.and_true]
        · have outside : v.inGroup g b = false := by simp [Shape.inGroup, Ne.symm here]
          rw [if_neg here, outside, Bool.false_or]
    · have skipped : s.freeBlock v b = s := by rw [freeBlock, if_pos (Nat.lt_of_not_le low)]
      rw [skipped] at seen counted ⊢
      constructor
      · intro g bit inRange
        have other : v.blockOf g bit ≠ b := by unfold Shape.blockOf; omega
        rw [seen g bit inRange, freed, freed]
        simp [other]
      · intro g
        have outside : v.inGroup g b = false := by simp [Shape.inGroup, low]
        rw [counted, any_cons, outside, Bool.false_or]

theorem FS.freed_nil (g : Nat) : s.freed v [] g = s.visible ⟨g, true⟩ := by
  funext bit
  simp [freed]

theorem FS.offers_released (own : List Nat) (closed : s.tx = none) :
    (own.foldl (freeBlock v) s).groups v = s.groups v ∧ (∀ g bit, bit < v.blocksPerGroup →
        (own.foldl (freeBlock v) s).freed v [] g bit = s.freed v own g bit) ∧
      ∀ g, (own.foldl (freeBlock v) s).Offers v n [] g ↔ s.Offers v n own g := by
  obtain ⟨seen, counted⟩ := freeBlocks_room closed own
  have frame := (freeBlocks_spec (v := v) closed own).2
  simp only [FS.Offers, freed_nil]
  refine ⟨?_, seen, fun g => ?_⟩
  · rw [groups, frame.blocksCount]
    rfl
  · have counts : (own.foldl (freeBlock v) s).counts v [] g = s.counts v own g := by
      change (descAt v (own.foldl (freeBlock v) s).image g).freeBlocks = _
      rw [counted, clearCount_congr (seen g)]
      rfl
    rw [counts, clearCount_congr (seen g)]

theorem FS.hasRoom_released (closed : s.tx = none) :
    (own.foldl (freeBlock v) s).HasRoom v n [] ↔ s.HasRoom v n own := by
  obtain ⟨groups, _, offers⟩ := offers_released (v := v) (n := n) own closed
  simp only [FS.HasRoom, groups, offers]

theorem FS.HasRoom.released (room : s.HasRoom v n own) (closed : s.tx = none) :
    (own.foldl (freeBlock v) s).HasRoom v n [] :=
  (hasRoom_released closed).mpr room

theorem FS.Inlines.released (inlines : s.Inlines v n own) (closed : s.tx = none) :
    (own.foldl (freeBlock v) s).Inlines v n [] := by
  obtain ⟨groups, seen, offers⟩ := offers_released own closed
  refine inlines.imp_right fun ⟨few, whole⟩ => ⟨few, fun g inRange offered => ?_⟩
  obtain ⟨start, fits, free⟩ := whole g (groups ▸ inRange) ((offers g).mp offered)
  refine ⟨start, fits, fun bit low high => ?_⟩
  rw [seen g bit (by omega)]
  exact free bit low high

theorem FS.freeBlocks_free (closed : s.tx = none) (mem : b ∈ own)
    (low : v.firstDataBlock ≤ b) : (view v (own.foldl (freeBlock v) s).now).used b = false := by
  have inGroup : v.blockBit b < v.blocksPerGroup := Nat.mod_lt _ v.blocksPerGroup_pos
  have here : v.blockOf (v.blockKey b).group (v.blockBit b) = b := by
    have divided := Nat.div_add_mod' (b - v.firstDataBlock) v.blocksPerGroup
    unfold Shape.blockOf Shape.blockKey Shape.blockBit
    dsimp only
    omega
  have seen := (freeBlocks_room closed own).1 (v.blockKey b).group _ inGroup
  rw [freed, here] at seen
  have clear : (own.foldl (freeBlock v) s).visible (v.blockKey b) (v.blockBit b) = false := by
    refine Eq.trans seen ?_
    simp [mem]
  have closed' := (freeBlocks_spec (v := v) closed own).2.toOuter.closed closed
  rw [visible, Bool.or_eq_false_iff] at clear
  rw [now_of_none _ closed']
  change (decide (b < v.firstDataBlock) || _) = false
  rw [clear.1, Bool.or_false]
  simpa using low

/-! ## Taking an inode leaves the room for blocks as it is -/

/-- What an allocation of blocks looks at is the same, but that the dispatcher may have counted the
free blocks of a group. -/
structure SameRoom (v : Shape) (s t : FS) : Prop where
  marks : ∀ g, t.now (.bitmap ⟨g, true⟩) = s.now (.bitmap ⟨g, true⟩)
  counts : ∀ g, (descAt v t.now g).freeBlocks = (descAt v s.now g).freeBlocks ∨
    (descAt v t.now g).freeBlocks =
      clearCount v.blocksPerGroup (s.now (.bitmap ⟨g, true⟩)) % 2 ^ v.descBits
  reserved : ∀ g, t.reserved ⟨g, true⟩ = s.reserved ⟨g, true⟩

theorem FS.HasRoom.same (narrow : v.blocksPerGroup < 2 ^ v.descBits) (room : s.HasRoom v n [])
    (closed : s.tx = none) (same : SameRoom v s t) (frame : Frame s t) : t.HasRoom v n [] := by
  obtain ⟨g, inRange, enough, free⟩ := room
  have closed' := frame.toOuter.closed closed
  have marks := same.marks g
  have counts := same.counts g
  rw [now_of_none s closed, now_of_none t closed'] at marks counts
  have seen : t.freed v [] g = s.freed v [] g := by
    funext bit
    rw [freed_nil, freed_nil, visible, visible, marks, same.reserved]
  refine ⟨g, ?_, ?_, by rwa [seen]⟩
  · rwa [groups, frame.blocksCount]
  · change n ≤ (descAt v t.image g).freeBlocks
    rcases counts with unchanged | counted
    · rw [unchanged]
      exact enough
    · have most := clearCount_le v.blocksPerGroup (s.image (.bitmap ⟨g, true⟩))
      rw [counted, Nat.mod_eq_of_lt (by omega)]
      refine free.trans (clearCount_anti fun bit _ clear => ?_)
      rw [freed_nil, visible, Bool.or_eq_false_iff] at clear
      exact clear.1

theorem FS.takeInode_room (via : s.tx.isSome = inTx) (g bit : Nat) (isDir : Bool) :
    SameRoom v s (s.takeInode v inTx g bit isDir) := by
  let s' := (s.reserve ⟨g, false⟩ [bit]).write inTx
    ⟨.bitmap ⟨g, false⟩, setBits [bit] (s.visible ⟨g, false⟩)⟩
  have marked : s'.now = update s.now (.bitmap ⟨g, false⟩)
      (setBits [bit] (s.visible ⟨g, false⟩)) := (mark_spec via _ _).1
  have via' : s'.tx.isSome = inTx := (mark_spec via _ _).2.inTx.trans via
  have blockMarks : ∀ h, s'.now (.bitmap ⟨h, true⟩) = s.now (.bitmap ⟨h, true⟩) := fun h => by
    rw [marked, update_of_ne (by simp)]
  obtain ⟨bitmaps, descs⟩ := account_now (v := v) via' g
    (s.inodeTaken v g isDir) (fun sb => { sb with freeInodes := minus 32 1 sb.freeInodes })
  have before : ∀ h, descAt v s'.now h = descAt v s.now h := fun h => by
    rw [marked, descAt_bitmap]
  constructor
  · intro h
    have unchanged : (s.takeInode v inTx g bit isDir).now (.bitmap ⟨h, true⟩) =
        s'.now (.bitmap ⟨h, true⟩) := by
      cases inTx <;> exact bitmaps ⟨h, true⟩
    rw [unchanged, blockMarks]
  · intro h
    have count := congrArg Desc.freeBlocks (descs h)
    simp only [before] at count
    by_cases here : h = g
    · rw [if_pos here] at count
      cases inTx with
      | true => exact .inl (count.trans (by rw [here]; rfl))
      | false =>
        right
        have closed : s'.tx = none := by simpa using via'
        refine count.trans ?_
        change clearCount v.blocksPerGroup (s'.image (.bitmap ⟨g, true⟩)) % 2 ^ v.descBits = _
        rw [← now_of_none s' closed, blockMarks, here]
    · rw [if_neg here] at count
      cases inTx <;> exact .inl count
  · intro h
    rw [takeInode_reserved]
    cases inTx <;> simp [reserve, unreserve]

theorem allocInode_room (via : s.tx.isSome = inTx) (isDir : Bool) : (allocInode v inTx isDir).Meets s
      (fun r t => SameRoom v s t ∧ ∃ bits g, r.2 = [(⟨g, false⟩, bits)]) fun _ _ => True := by
  refine allocInode_rule (fun _ => trivial) fun g bit _ => ?_
  have same := takeInode_room (v := v) (s := s.advanceCursor) via g bit isDir
  exact ⟨⟨same.marks, same.counts, same.reserved⟩, [bit], g, rfl⟩

theorem allocInodeAlone_room (closed : s.tx = none) (isDir : Bool) :
    (allocInodeAlone v isDir).Meets s (fun _ t => SameRoom v s t) fun _ _ => True := by
  refine meets_alone (allocInode v · isDir) id fun u began => ?_
  refine (allocInode_room (began.via closed) isDir).yields ?_
  rintro ⟨i, held⟩ t ⟨same, bits, g, rfl⟩
  have now : (finish s.journal [(⟨g, false⟩, bits)] t).now = t.now := by
    unfold finish
    split
    · exact committed_now _
    · rfl
  constructor
  · intro h
    rw [now, ← began.now closed]
    exact same.marks h
  · intro h
    rw [now, ← began.now closed]
    exact same.counts h
  · intro h
    rw [← began.reserved, ← same.reserved, finish]
    split
    · rw [cleanup_reserved, commit_reserved]
      exact filter_eq_self.mpr fun bit _ => by simp
    · rfl

/-! ## The number of extents -/

theorem buildExtentsLoop_length (extents : List Extent) (current : Extent) (k : Nat)
    (some : 1 ≤ current.count) (full : current.count ≤ 0x7FFF) : (buildExtentsLoop extents current
      (range' (current.physBlock + current.count) k)).length ≤
      extents.length + (current.count + k + 0x7FFE) / 0x7FFF := by
  induction k generalizing extents current with
  | zero =>
    simp only [range'_zero, buildExtentsLoop, length_append, length_singleton]
    omega
  | succ k ih =>
    rw [range'_succ, buildExtentsLoop]
    split
    next merges =>
      have := ih extents { current with count := current.count + 1 } (by simp) merges.2
      simp only at this
      rw [← Nat.add_assoc] at this
      omega
    next closes =>
      have := ih (extents ++ [current])
        ⟨current.logBlock + current.count, current.physBlock + current.count, 1⟩ (by simp)
        (by simp)
      simp only [length_append, length_singleton] at this
      omega

theorem buildExtents_length (start n : Nat) (few : n ≤ 4 * 0x7FFF) :
    (buildExtents (range' start n)).length ≤ 4 := by
  cases n with
  | zero => simp [buildExtents]
  | succ k =>
    rw [range'_succ, buildExtents]
    have := buildExtentsLoop_length [] ⟨0, start, 1⟩ k (by simp) (by simp)
    simp only [length_nil] at this
    omega

theorem buildExtentsLoop_length_le (extents : List Extent) (current : Extent) (rest : List Nat) :
    (buildExtentsLoop extents current rest).length ≤ extents.length + 1 + rest.length := by
  induction rest generalizing extents current with
  | nil => simp [buildExtentsLoop]
  | cons b rest ih =>
    rw [buildExtentsLoop, length_cons]
    split
    · have := ih extents { current with count := current.count + 1 }
      omega
    · have := ih (extents ++ [current]) ⟨current.logBlock + current.count, b, 1⟩
      rw [length_append, length_singleton] at this
      omega

theorem buildExtents_length_le (blocks : List Nat) : (buildExtents blocks).length ≤ blocks.length := by
  cases blocks with
  | nil => exact Nat.le_refl _
  | cons b rest =>
    have := buildExtentsLoop_length_le [] ⟨0, b, 1⟩ rest
    rw [length_nil] at this
    rw [buildExtents, length_cons]
    omega

/-! ## Success -/

theorem FS.mem_order_of_lt (inRange : g < s.groups v) : g ∈ s.order v := by
  have positive : 0 < s.groups v := Nat.zero_lt_of_lt inRange
  have below : s.cursor % s.groups v < s.groups v := Nat.mod_lt _ positive
  refine mem_map.mpr ⟨(g + s.groups v - s.cursor % s.groups v) % s.groups v,
    mem_range.mpr (Nat.mod_lt _ positive), ?_⟩
  rw [Nat.add_mod_mod, show s.cursor % s.groups v + (g + s.groups v - s.cursor % s.groups v) =
    g + s.groups v by omega, Nat.add_mod_right, Nat.mod_eq_of_lt inRange]

theorem FS.findRun_unstaged (unstaged : ∀ staged, s.tx = some staged → staged = .empty)
    (g : Nat) : s.advanceCursor.findRun v inTx n g =
      findFreeRun (s.visible ⟨g, true⟩) v.blocksPerGroup n := by
  unfold findRun
  split
  next staged opened =>
    rw [unstaged staged opened]
    dsimp only
    rw [Staging.findFreeRunForTx_unstaged (by simp [Staged.empty])]
    rfl
  · rfl

theorem FS.chooseBlocks_offers {bits : List Nat}
    (chosen : s.chooseBlocks v inTx n = some (g, bits)) : g < s.groups v ∧ s.Offers v n [] g := by
  obtain ⟨nodup, long, inRange, clear⟩ := chooseBlocks_spec chosen
  obtain ⟨h, _, found⟩ := exists_of_findSome?_eq_some chosen
  split at found
  · cases found
  next enough =>
    obtain ⟨_, _, same⟩ := Option.map_eq_some_iff.mp found
    cases same
    refine ⟨inRange, Nat.le_of_not_lt enough, ?_⟩
    rw [freed_nil, ← long]
    exact length_le_clearCount nodup clear

/-- A group with room is found, whatever the order of the search; nothing may be staged yet. Without
room the allocation only moves on in that order. -/
theorem allocBlocks_outcome (unstaged : ∀ staged, s.tx = some staged → staged = .empty) :
    (allocBlocks v inTx n).Meets s (fun _ _ => s.HasRoom v n [])
      fun _ t => ¬ s.HasRoom v n [] ∧ t = s.advanceCursor := by
  refine allocBlocks_rule (fun missed => ⟨?_, rfl⟩) fun g bits chosen =>
    ⟨g, chooseBlocks_offers (s := s.advanceCursor) chosen⟩
  rintro ⟨g, inRange, enough, free⟩
  rw [freed_nil] at free
  have search : (s.advanceCursor.findRun v inTx n g).isSome := by
    rw [findRun_unstaged unstaged]
    exact findFreeRun_isSome free
  have enough' : ¬ (descAt v s.advanceCursor.image g).freeBlocks < n := Nat.not_lt.mpr enough
  have passed := findSome?_eq_none_iff.mp missed g (mem_order_of_lt inRange)
  rw [if_neg enough', Option.map_eq_none_iff] at passed
  rw [passed] at search
  cases search

theorem allocBlocks_inlines (unstaged : ∀ staged, s.tx = some staged → staged = .empty) :
    (allocBlocks v inTx n).Meets s (fun r _ => s.Inlines v n [] → (buildExtents r.1).length ≤ 4)
      fun _ _ => True := by
  refine allocBlocks_rule (fun _ => trivial) fun g bits chosen inlines => ?_
  rcases inlines with few | ⟨few, whole⟩
  · refine (buildExtents_length_le _).trans ?_
    rw [length_map, (chooseBlocks_spec chosen).2.1]
    exact few
  · obtain ⟨inRange, offered⟩ := chooseBlocks_offers chosen
    obtain ⟨start, fits, free⟩ := whole g inRange offered
    obtain ⟨h, _, found⟩ := exists_of_findSome?_eq_some chosen
    split at found
    · cases found
    obtain ⟨_, search, same⟩ := Option.map_eq_some_iff.mp found
    cases same
    rw [findRun_unstaged unstaged] at search
    rw [freed_nil] at free
    obtain ⟨first, -, rfl, -⟩ | ⟨missing, -⟩ := findFreeRun_cases search
    · rw [Shape.map_blockOf_range]
      exact buildExtents_length _ n few
    · exact absurd ⟨fits, free⟩ (missing start)

end Ext4.Volume
