import Mathlib.Data.List.TakeWhile
import Ext4.Library.Fields
import Ext4.Resize.Refused
import Ext4.Volume.ReadAgreement

/-! Writing extent trees.
At most four leaves are kept in `i_block`; more go into one leaf block, and `i_block` keeps an index
entry for it. Decoded, the tree gives the list that was written, unless the allocator has handed out
a block behind the end of the filesystem. -/

namespace Octets
open List

variable {n a : Nat} {rest : Bytes}

theorem field_skip {off k : Nat} (past : n ≤ off) :
    field (putUint n a ++ rest) off k = field rest (off - n) k := by
  rw [field, drop_append, drop_eq_nil_of_le (by simpa using past), putUint_length, nil_append, field]

theorem field_first : field (putUint n a ++ rest) 0 n = a % 256 ^ n := by
  rw [field, drop_zero, take_append_of_le_length (by simp), take_of_length_le (by simp), uintOf_putUint]

theorem field_window (raw : Bytes) (off : Nat) {at' k size : Nat} (inside : at' + k ≤ size) :
    field raw (off + at') k = field ((raw.drop off).take size) at' k := by
  rw [field, field, drop_take, drop_drop, take_take, Nat.min_eq_left (by omega)]

end Octets

namespace Ext4.InodeData
open Octets Overlay Volume List

/-! ## The encoders -/

/-- The inode that is filled, and the volume it is on. -/
structure Site where
  raw : Bytes
  vol : Resize.Vol

def Site.dev (s : Site) : Device := ⟨s.vol.disk, s.vol.size⟩

inductive WriteErr where
  | tooManyExtents
  | alloc (e : Resize.Err)
  | emptyTarget
  | targetTooLong
  deriving DecidableEq

def nodeHeader (entries max depth : Nat) : Bytes :=
  putUint 2 0xF30A ++ (putUint 2 entries ++ (putUint 2 max ++ (putUint 2 depth ++ putUint 4 0)))

def encodeLeaf (e : Extent) : Bytes :=
  putUint 4 e.logBlock ++ (putUint 2 e.count ++ (putUint 2 (e.physBlock / 2 ^ 32) ++
    (putUint 4 (e.physBlock % 2 ^ 32) ++ [])))

def leafNode (size max : Nat) (exts : List Extent) : Bytes :=
  nodeHeader exts.length max 0 ++ (exts.flatMap encodeLeaf ++ replicate (size - 12 - exts.length * 12) 0)

def indexNode (logBlock child : Nat) : Bytes :=
  nodeHeader 1 4 1 ++ (putUint 4 logBlock ++ (putUint 4 (child % 2 ^ 32) ++ (putUint 2 (child / 2 ^ 32) ++
    replicate 38 0)))

/-- The node is put into `i_block` and the inode marked as extent-mapped. -/
def setRoot (raw node : Bytes) : Bytes :=
  let raw := writeAt raw 40 node
  writeAt raw 32 (putUint 4 (field raw 32 4 ||| 0x80000))

def setInlineExtents (exts : List Extent) : Prog Site WriteErr Unit :=
  if 4 < exts.length then .fail .tooManyExtents
  else .modify fun s => { s with raw := setRoot s.raw (leafNode 60 4 exts) }

section
variable (v : Resize.Layout) (tx : Option (List Nat)) (cursor : Nat)

/-- The volume as the readers see it. -/
def Site.geometry (s : Site) (limit : Nat) : Geometry where
  fsOffset := v.partOffset
  blockSize := v.blockSize
  blocksCount := s.vol.sb.blocksCount
  readLimit := limit
  deviceBytes := s.vol.size
  positive := Nat.lt_of_lt_of_le (by decide) v.blockSize_ge

/-- `allocBlocksWithTx` with the blocks that the transaction stages, or `allocBlocks`. -/
def allocCall : Resize.SpaceCall :=
  match tx with
  | some _ => .allocBlocksWithTx tx cursor 1
  | none => .allocBlocks cursor 1

/-- One block; `bs[0]` of an empty list would panic. -/
def allocBlock : Prog Site WriteErr Nat := fun s =>
  match (allocCall tx cursor).run v s.vol with
  | (.ok (b :: _), t) => (.ok b, { s with vol := t })
  | (.ok [], t) => (.error (.alloc .indexOutOfRange), { s with vol := t })
  | (.error e, t) => (.error (.alloc e), { s with vol := t })

def Site.writeRawBlock (s : Site) (b : Nat) (data : Bytes) : Site :=
  { s with vol := s.vol.writeAt (v.start b) data }

def leafCap : Nat := (v.blockSize - 12) / 12

def prepareExtentChild (exts : List Extent) : Prog Site WriteErr Nat :=
  if leafCap v < exts.length then .fail .tooManyExtents
  else do
    let child ← allocBlock v tx cursor
    .modify fun s => s.writeRawBlock v child (leafNode v.blockSize (leafCap v) exts)
    pure child

/-- A map in a leaf block: the child, and then the index entry that `writeFile` and the directory
code put into the inode. -/
def writeIndexed (exts : List Extent) : Prog Site WriteErr Unit := do
  let child ← prepareExtentChild v tx cursor exts
  .modify fun s => { s with raw := setRoot s.raw (indexNode ((exts.map Extent.logBlock).headD 0) child) }

/-- `writeExtentTree` has its own copy of the same steps. -/
def writeExtentTree (exts : List Extent) : Prog Site WriteErr Unit :=
  if exts.length ≤ 4 then setInlineExtents exts else writeIndexed v tx cursor exts

end

/-! ## Decoding -/

structure Encodable (exts : List Extent) : Prop where
  counts : ∀ e ∈ exts, 1 ≤ e.count ∧ e.count ≤ 32767
  logical : ∀ e ∈ exts, e.logBlock < 2 ^ 32
  physical : ∀ e ∈ exts, e.physBlock < 2 ^ 48
  disjoint : disjointRuns Extent.logBlock exts && disjointRuns Extent.physBlock exts

section
variable {exts : List Extent}

theorem nodeHeader_length (entries max depth : Nat) : (nodeHeader entries max depth).length = 12 := by
  simp [nodeHeader]

theorem encodeLeaf_length (e : Extent) : (encodeLeaf e).length = 12 := by
  simp [encodeLeaf]

theorem field_header {entries max depth off n : Nat} {rest : Bytes} (inside : off + n ≤ 12) :
    field (nodeHeader entries max depth ++ rest) off n = field (nodeHeader entries max depth) off n :=
  field_congr fun i less => getElem?_append_left (by rw [nodeHeader_length]; omega)

theorem header_fields (entries max depth : Nat) (rest : Bytes) :
    field (nodeHeader entries max depth ++ rest) 0 2 = 0xF30A ∧
    field (nodeHeader entries max depth ++ rest) 2 2 = entries % 2 ^ 16 ∧
    field (nodeHeader entries max depth ++ rest) 6 2 = depth % 2 ^ 16 := by
  refine ⟨?_, ?_, ?_⟩ <;> rw [field_header (by decide), nodeHeader]
  · exact field_first
  · rw [field_skip (by decide)]
    exact field_first
  · rw [field_skip (by decide), field_skip (by decide), field_skip (by decide)]
    exact field_first

theorem leafEntry_encode {e : Extent} (counts : e.count ≤ 32767) (logical : e.logBlock < 2 ^ 32)
    (physical : e.physBlock < 2 ^ 48) : leafEntry (encodeLeaf e) 0 = e := by
  have log : field (encodeLeaf e) 0 4 = e.logBlock := by
    rw [encodeLeaf, field_first, Nat.mod_eq_of_lt (by omega)]
  have count : field (encodeLeaf e) 4 2 = e.count := by
    rw [encodeLeaf, field_skip (by decide), field_first, Nat.mod_eq_of_lt (by omega)]
  have high : field (encodeLeaf e) 6 2 = e.physBlock / 2 ^ 32 := by
    rw [encodeLeaf, field_skip (by decide), field_skip (by decide), field_first, Nat.mod_eq_of_lt (by omega)]
  have low : field (encodeLeaf e) 8 4 = e.physBlock % 2 ^ 32 := by
    rw [encodeLeaf, field_skip (by decide), field_skip (by decide), field_skip (by decide), field_first,
      Nat.mod_eq_of_lt (by omega)]
  simp only [leafEntry, Nat.zero_add, log, count, high, low]
  rw [if_neg (by omega), Nat.div_add_mod']

theorem parse_leafNode [Safeio] {v : Geometry} {dev : Device} {size max : Nat} (encodable : Encodable exts)
    (fits : 12 + exts.length * 12 ≤ size) (few : exts.length < 2 ^ 16) (visited : Safeio.VisitSet) :
    parseExtentNode v dev 0 (leafNode size max exts) visited = .ok (exts, visited) := by
  have table := table_length fun e (_ : e ∈ exts) => encodeLeaf_length e
  have length : (leafNode size max exts).length = size := by
    rw [leafNode, length_append, nodeHeader_length, length_append, table, length_replicate]
    omega
  obtain ⟨magic, entries, depth⟩ := header_fields exts.length max 0
    (exts.flatMap encodeLeaf ++ replicate (size - 12 - exts.length * 12) 0)
  rw [← leafNode] at magic entries depth
  rw [parseExtentNode, if_neg (by omega), if_neg (by rw [magic]; decide), if_neg (by rw [depth]; decide)]
  have all : nodeEntries (leafNode size max exts) = (range exts.length).map fun i => 12 + i * 12 := by
    rw [nodeEntries, entries, Nat.mod_eq_of_lt few, length]
    refine takeWhile_eq_self_iff.mpr fun off mem => ?_
    obtain ⟨i, less, rfl⟩ := mem_map.mp mem
    have := mem_range.mp less
    simp only [decide_eq_true_eq]
    omega
  rw [all, map_map]
  refine congrArg (fun leaves => Except.ok (leaves, visited)) (ext_getElem (by simp) fun i less inside => ?_)
  simp only [getElem_map, getElem_range, Function.comp_apply]
  -- the window of an entry is the record that was written
  have record : ((leafNode size max exts).drop (12 + i * 12)).take 12 = encodeLeaf exts[i] := by
    rw [leafNode, ← drop_drop, drop_append, nodeHeader_length, Nat.sub_self, drop_zero,
      drop_eq_nil_of_le (nodeHeader_length ..).le, nil_append, drop_append_of_le_length (by omega),
      take_append_of_le_length (by rw [length_drop]; omega),
      table_record (fun e _ => encodeLeaf_length e) inside]
  have window : ∀ at' k, at' + k ≤ 12 →
      field (leafNode size max exts) (12 + i * 12 + at') k = field (encodeLeaf exts[i]) at' k :=
    fun at' k within => by rw [field_window _ _ within, record]
  have mem := getElem_mem inside
  have same : leafEntry (leafNode size max exts) (12 + i * 12) = leafEntry (encodeLeaf exts[i]) 0 := by
    have first := window 0 4 (by decide)
    rw [Nat.add_zero] at first
    simp only [leafEntry, first, window 4 2 (by decide), window 6 2 (by decide), window 8 4 (by decide),
      Nat.zero_add]
  rw [same]
  exact leafEntry_encode (encodable.counts _ mem).2 (encodable.logical _ mem) (encodable.physical _ mem)

theorem iblock_writeAt {raw data : Bytes} {off : Nat} (long : 100 ≤ raw.length) (high : off + data.length ≤ 40) :
    ((writeAt raw off data).drop 40).take 60 = (raw.drop 40).take 60 := by
  apply ext_getElem?
  intro i
  rw [getElem?_take, getElem?_take]
  split
  · rw [getElem?_drop, getElem?_drop, writeAt_outside _ _ _ _ (by omega) (by omega)]
  · rfl

theorem setRoot_iblock {raw node : Bytes} (length : node.length = 60) :
    ((setRoot raw node).drop 40).take 60 = node := by
  rw [setRoot, iblock_writeAt (by rw [writeAt_length]; omega) (by simp), ← length, writeAt_window]

end

/-! ## Round trips -/

section
variable {v : Resize.Layout} {tx : Option (List Nat)} {cursor limit : Nat} {s t : Site} {child : Nat}
  {exts : List Extent}

theorem allocBlock_meets {Inv : Resize.Vol → Prop} {Kept : Resize.Vol → Resize.Vol → Prop}
    {May : Resize.Vol → Nat → Prop} (search : Resize.Search v Inv Kept May) (inv : Inv s.vol) :
    (allocBlock v tx cursor).Meets s (fun b t => t.raw = s.raw ∧ Kept s.vol t.vol ∧ May s.vol b)
      fun _ _ => True := by
  have found := search.call inv (allocCall tx cursor) fun off data written => by
    cases tx <;> cases written
  unfold Prog.Meets allocBlock
  rcases ran : (allocCall tx cursor).run v s.vol with ⟨e | _ | ⟨b, rest⟩, u⟩
  · trivial
  · trivial
  · obtain ⟨kept, taken⟩ := found.ok ran
    exact ⟨rfl, kept, taken b mem_cons_self⟩

theorem allocBlock_takes {g i : Nat} (desc : v.descOff g + v.descSize ≤ s.vol.size)
    (block : v.start (s.vol.desc v g).blockBitmap + v.blockSize ≤ s.vol.size)
    (free : 1 ≤ (s.vol.desc v g).freeBlocks) (inside : i < v.blocksPerGroup)
    (clear : bitAt (s.vol.block v (s.vol.desc v g).blockBitmap) i = false) (present : g < s.vol.numBlockGroups v) :
    ∃ bit t, allocBlock v (some []) g s = (.ok (v.groupStart g + bit), t) ∧
      bitAt (s.vol.block v (s.vol.desc v g).blockBitmap) bit = false := by
  have enough : 1 ≤ Alloc.clearCount _ _ :=
    Alloc.length_le_clearCount (nodup_singleton i) (by simpa using ⟨clear, inside⟩)
  obtain ⟨bits, found⟩ := Option.isSome_iff_exists.mp (Alloc.findFreeRun_isSome enough)
  obtain ⟨-, long, each⟩ := Alloc.findFreeRun_spec found
  obtain ⟨b, rfl⟩ := length_eq_one_iff.mp long
  have search : Resize.findRun v (some []) 1 g (s.vol.block v (s.vol.desc v g).blockBitmap) = some [b] := by
    rw [Resize.findRun, Staging.findFreeRunForTx, found]
    simp
  obtain ⟨blocks, t, ran, rfl⟩ := (Resize.allocBlocksWithTx_takes desc block free search present).returns
  refine ⟨b, { s with vol := t }, ?_, (each b (mem_singleton_self b)).1⟩
  rw [allocBlock, allocCall, Resize.SpaceCall.run, ran]
  rfl

/-- Every clear bit of the block bitmaps is that of a block of the filesystem. -/
def Padded (v : Resize.Layout) (s : Resize.Vol) : Prop := ∀ b, s.clearBlock v b → 0 < b ∧ b < s.sb.blocksCount

theorem allocBlock_inside (filesystem : Resize.Filesystem v s.vol) (padded : Padded v s.vol)
    (allocated : allocBlock v tx cursor s = (.ok child, t)) : 0 < child ∧ child < t.vol.sb.blocksCount := by
  obtain ⟨-, more, clear⟩ := (allocBlock_meets Resize.search_clear filesystem).ok allocated
  rw [more.blocksCount]
  exact padded child clear

theorem allocBlock_lt (addressable : v.groupStart (s.vol.numBlockGroups v) ≤ 2 ^ 48)
    (allocated : allocBlock v tx cursor s = (.ok child, t)) : child < 2 ^ 48 :=
  ((allocBlock_meets Resize.search_inside trivial).ok allocated).2.2.trans_le addressable

variable [Safeio]

def Encodes (v : Resize.Layout) (limit : Nat) (exts : List Extent) (prog : Prog Site WriteErr Unit) (s : Site) :
    Prop :=
  ∃ t, prog s = (.ok (), t) ∧
    parseExtentRoot (t.geometry v limit) t.dev ((t.raw.drop 40).take 60) = .ok exts

omit [Safeio] in
theorem Encodable.validated (encodable : Encodable exts) : validated exts = .ok exts :=
  if_pos encodable.disjoint

theorem setInlineExtents_encodes (encodable : Encodable exts) (few : exts.length ≤ 4) :
    Encodes v limit exts (setInlineExtents exts) s := by
  have table := table_length fun e (_ : e ∈ exts) => encodeLeaf_length e
  have length : (leafNode 60 4 exts).length = 60 := by
    rw [leafNode, length_append, nodeHeader_length, length_append, table, length_replicate]
    omega
  refine ⟨{ s with raw := setRoot s.raw (leafNode 60 4 exts) }, by rw [setInlineExtents, if_neg (by omega)]; rfl, ?_⟩
  have depth : field (leafNode 60 4 exts) 6 2 = 0 := (header_fields ..).2.2
  rw [setRoot_iblock length, parseExtentRoot, if_neg (by omega), depth, if_neg (by decide),
    parse_leafNode encodable (by omega) (by omega)]
  exact encodable.validated

omit [Safeio] in
theorem writeIndexed_run (fits : exts.length ≤ leafCap v) (allocated : allocBlock v tx cursor s = (.ok child, t)) :
    writeIndexed v tx cursor exts s =
      (.ok (), { t.writeRawBlock v child (leafNode v.blockSize (leafCap v) exts) with
        raw := setRoot t.raw (indexNode ((exts.map Extent.logBlock).headD 0) child) }) := by
  have prepared : prepareExtentChild v tx cursor exts s =
      (.ok child, t.writeRawBlock v child (leafNode v.blockSize (leafCap v) exts)) := by
    rw [prepareExtentChild, if_neg (by omega)]
    exact Prog.bind_run allocated
  exact Prog.bind_run prepared

/-- A list in a leaf block is read back if and only if the block is one of the filesystem. -/
theorem writeIndexed_encodes_iff (encodable : Encodable exts) (fits : exts.length ≤ leafCap v)
    (allocated : allocBlock v tx cursor s = (.ok child, t)) (small : child < 2 ^ 48)
    (counted : t.vol.sb.blocksCount ≠ 0) :
    Encodes v limit exts (writeIndexed v tx cursor exts) s ↔ 0 < child ∧ child < t.vol.sb.blocksCount := by
  have large := v.blockSize_ge
  have modest := v.blockSize_le
  have ran := writeIndexed_run fits allocated
  unfold leafCap at fits
  have table := table_length fun e (_ : e ∈ exts) => encodeLeaf_length e
  set node := leafNode v.blockSize (leafCap v) exts with leaves
  set root := indexNode ((exts.map Extent.logBlock).headD 0) child with index
  have nodeLength : node.length = v.blockSize := by
    rw [leaves, leafNode, length_append, nodeHeader_length, length_append, table, length_replicate]
    omega
  have rootLength : root.length = 60 := by simp [index, indexNode, nodeHeader_length]
  set u : Site := { t.writeRawBlock v child node with raw := setRoot t.raw root } with written
  obtain ⟨magic, entries, depth⟩ := header_fields 1 4 1 (putUint 4 ((exts.map Extent.logBlock).headD 0) ++
    (putUint 4 (child % 2 ^ 32) ++ (putUint 2 (child / 2 ^ 32) ++ replicate 38 0)))
  rw [← indexNode, ← index] at magic entries depth
  change field root 6 2 = 1 at depth
  have one : nodeEntries root = [12] := by
    rw [nodeEntries, entries, rootLength]
    decide
  have behind : ∀ off k, field root (12 + off) k = field (putUint 4 ((exts.map Extent.logBlock).headD 0) ++
      (putUint 4 (child % 2 ^ 32) ++ (putUint 2 (child / 2 ^ 32) ++ replicate 38 0))) off k := fun off k => by
    rw [index, indexNode, field, drop_append, nodeHeader_length, Nat.add_sub_cancel_left,
      drop_eq_nil_of_le (by rw [nodeHeader_length]; omega), nil_append, field]
  have points : childBlock root 12 = child := by
    have high : field root 20 2 = child / 2 ^ 32 := by
      rw [behind 8 2, field_skip (by decide), field_skip (by decide), field_first, Nat.mod_eq_of_lt (by omega)]
    have low : field root 16 4 = child % 2 ^ 32 := by
      rw [behind 4 4, field_skip (by decide), field_first, Nat.mod_eq_of_lt (by omega)]
    rw [childBlock, high, low, Nat.div_add_mod']
  -- The device reaches as far as the block that was written.
  have read : readRawBlock (u.geometry v limit) u.dev child = .ok node := by
    have ends : v.start child + node.length ≤ u.dev.length := Nat.le_max_right _ _
    have content : u.dev.octets.readAt (v.start child) node.length = node := Disk.readAt_writeAt ..
    rw [nodeLength] at ends content
    have inside : (u.geometry v limit).fsOffset + child * (u.geometry v limit).blockSize +
        (u.geometry v limit).blockSize ≤ u.dev.length := ends
    rw [readRawBlock, Device.readAt, if_pos (.inr inside)]
    exact congrArg Except.ok content
  have parsed : parseExtentRoot (u.geometry v limit) u.dev ((u.raw.drop 40).take 60) =
      if child = 0 ∨ t.vol.sb.blocksCount ≤ child then .error .indexRange else .ok exts := by
    rw [setRoot_iblock rootLength, parseExtentRoot, if_neg (by omega), depth, if_neg (by decide), parseExtentNode,
      if_neg (by omega), if_neg (by rw [magic]; decide), if_neg (by rw [depth]; decide), one, indexEntries]
    simp only [points]
    by_cases outside : child = 0 ∨ t.vol.sb.blocksCount ≤ child
    · rw [if_pos outside, if_pos (outside.imp_right fun beyond => ⟨counted, beyond⟩)]
      rfl
    · obtain ⟨visited, fresh, -⟩ := Safeio.check_unseen (Safeio.seen_fresh child)
      rw [if_neg outside, if_neg fun refused => outside (refused.imp_right And.right), read, visit, fresh]
      simp only [bind, Except.bind, leaves,
        parse_leafNode encodable (by omega : 12 + exts.length * 12 ≤ v.blockSize) (by omega), indexEntries,
        append_nil]
      exact encodable.validated
  constructor
  · rintro ⟨u', ran', encodes⟩
    cases (Prod.mk.inj (ran.symm.trans ran')).2
    rw [parsed] at encodes
    split at encodes
    · cases encodes
    · omega
  · intro inside
    exact ⟨u, ran, parsed.trans (if_neg (by omega))⟩

end

def fiveLeaves : List Extent := (range 5).map fun i => ⟨2 * i, 3 * i + 1, 1⟩

theorem fiveLeaves_encodable : Encodable fiveLeaves := ⟨by decide, by decide, by decide, by decide⟩

section
open Resize Resize.Format

theorem oneGroup_padded : Padded (layout ⟨[], [], 0⟩) oneGroup := by
  rintro b ⟨g, present, bit, inside, rfl, clear⟩
  rw [Vol.numBlockGroups, oneGroup_blocksCount] at present
  obtain rfl : g = 0 := Nat.lt_one_iff.mp present
  rw [oneGroup_blocksCount]
  have start : (layout ⟨[], [], 0⟩).groupStart 0 = 0 := rfl
  refine ⟨Nat.pos_of_ne_zero fun zero => ?_, by rw [start, Nat.zero_add]; exact inside⟩
  rw [start, Nat.zero_add] at zero
  unfold oneGroup at clear
  rw [zero, formatted_desc _ (by decide) (by decide), (readAt_bitmaps _ (by decide)).1,
    bitAt_blockBitmap (by decide) (by decide)] at clear
  revert clear
  decide

end

end Ext4.InodeData
