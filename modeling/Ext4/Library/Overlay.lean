import Mathlib.Data.List.Nodup
import Ext4.Library.Octets

/-! Octet devices written through whole-block buffers. A transaction holds at most one buffer per
block; adding a range fills the buffers of the blocks it touches from the device and overlays the
range on them. Applied to the device, the buffers leave exactly what the ranges, written directly
one after another, would have left. -/

namespace Overlay
open Octets List

abbrev Disk := Nat → UInt8

namespace Disk

def writeAt (disk : Disk) (off : Nat) (data : Bytes) : Disk := fun p =>
  if off ≤ p then data[p - off]?.getD (disk p) else disk p

def readAt (disk : Disk) (off len : Nat) : Bytes := (range len).map fun i => disk (off + i)

@[simp] theorem readAt_length (disk : Disk) (off len : Nat) : (disk.readAt off len).length = len := by
  simp [readAt]

theorem readAt_getElem? (disk : Disk) (off len i : Nat) (inside : i < len) :
    (disk.readAt off len)[i]? = some (disk (off + i)) := by
  simp [readAt, inside]

theorem readAt_congr {disk other : Disk} {off len : Nat}
    (same : ∀ i < len, disk (off + i) = other (off + i)) : disk.readAt off len = other.readAt off len :=
  map_congr_left fun i mem => same i (mem_range.mp mem)

@[simp] theorem writeAt_nil (disk : Disk) (off : Nat) : disk.writeAt off [] = disk := by
  funext p
  simp [writeAt]

theorem writeAt_inside (disk : Disk) (off i : Nat) (data : Bytes) (inside : i < data.length) :
    disk.writeAt off data (off + i) = data[i] := by
  simp [writeAt, inside]

theorem writeAt_outside (disk : Disk) (off p : Nat) (data : Bytes)
    (outside : p < off ∨ off + data.length ≤ p) : disk.writeAt off data p = disk p := by
  unfold writeAt
  split
  · rw [getElem?_eq_none (by omega)]
    rfl
  · rfl

theorem readAt_writeAt (disk : Disk) (off : Nat) (data : Bytes) :
    (disk.writeAt off data).readAt off data.length = data := by
  apply ext_getElem
  · exact readAt_length _ _ _
  · intro i _ inside
    simp [readAt, writeAt, inside]

theorem readAt_writeAt_outside (disk : Disk) (off at' len : Nat) (data : Bytes)
    (outside : at' + len ≤ off ∨ off + data.length ≤ at') :
    (disk.writeAt off data).readAt at' len = disk.readAt at' len :=
  readAt_congr fun i _ => writeAt_outside _ _ _ _ (by omega)

theorem writeAt_split (disk : Disk) (off k : Nat) (data : Bytes) (fits : k ≤ data.length) :
    (disk.writeAt off (data.take k)).writeAt (off + k) (data.drop k) = disk.writeAt off data := by
  funext p
  by_cases low : p < off
  · rw [writeAt_outside _ _ _ _ (.inl (by omega)), writeAt_outside _ _ _ _ (.inl low),
      writeAt_outside _ _ _ _ (.inl low)]
  · obtain ⟨i, rfl⟩ := Nat.exists_eq_add_of_le (Nat.le_of_not_lt low)
    by_cases first : i < k
    · rw [writeAt_outside _ _ _ _ (.inl (by omega)),
        writeAt_inside _ _ _ _ (by rw [length_take]; omega), writeAt_inside _ _ _ _ (by omega),
        getElem_take]
    · by_cases second : i < data.length
      · have split : off + i = off + k + (i - k) := by omega
        rw [writeAt_inside _ _ _ _ second, split,
          writeAt_inside _ _ _ _ (by rw [length_drop]; omega), getElem_drop]
        congr 1
        omega
      · rw [writeAt_outside _ _ _ _ (.inr (by rw [length_drop]; omega)),
          writeAt_outside _ _ _ _ (.inr (by rw [length_take]; omega)),
          writeAt_outside _ _ _ _ (.inr (by omega))]

def writeAll (disk : Disk) : List (Nat × Bytes) → Disk
  | [] => disk
  | write :: writes => (disk.writeAt write.1 write.2).writeAll writes

end Disk

/-- The octet left at `p` by the last of the writes that reaches it. -/
def lastOctet (p : Nat) : List (Nat × Bytes) → Option UInt8
  | [] => none
  | write :: writes =>
      (lastOctet p writes).or (if write.1 ≤ p then write.2[p - write.1]? else none)

variable {p : Nat}

theorem lastOctet_outside {writes : List (Nat × Bytes)}
    (outside : ∀ write ∈ writes, p < write.1 ∨ write.1 + write.2.length ≤ p) : lastOctet p writes = none := by
  induction writes with
  | nil => rfl
  | cons write writes ih =>
    obtain ⟨first, later⟩ := forall_mem_cons.mp outside
    rw [lastOctet, ih later, Option.none_or]
    split
    · exact getElem?_eq_none (by omega)
    · rfl

theorem Disk.writeAll_apply (disk : Disk) (writes : List (Nat × Bytes)) (p : Nat) :
    disk.writeAll writes p = (lastOctet p writes).getD (disk p) := by
  induction writes generalizing disk with
  | nil => rfl
  | cons write writes ih =>
    rw [writeAll, ih, lastOctet, writeAt]
    cases lastOctet p writes with
    | some octet => rfl
    | none =>
      rw [Option.none_or]
      split <;> rfl

theorem Disk.writeAll_append (disk : Disk) (first later : List (Nat × Bytes)) :
    disk.writeAll (first ++ later) = (disk.writeAll first).writeAll later := by
  induction first generalizing disk with
  | nil => rfl
  | cons write first ih => exact ih _

theorem lastOctet_append (p : Nat) (first later : List (Nat × Bytes)) :
    lastOctet p (first ++ later) = (lastOctet p later).or (lastOctet p first) := by
  induction first with
  | nil => exact (Option.or_none).symm
  | cons write first ih => rw [cons_append, lastOctet, ih, lastOctet, Option.or_assoc]

/-- The last writer of an octet is the same one when the first of the writes were made before. -/
theorem Disk.writeAll_again (disk : Disk) (first later : List (Nat × Bytes)) :
    (disk.writeAll first).writeAll (first ++ later) = disk.writeAll (first ++ later) := by
  funext p
  rw [writeAll_apply, writeAll_apply, writeAll_apply]
  cases last : lastOctet p (first ++ later) with
  | some octet => rfl
  | none =>
    rw [lastOctet_append, Option.or_eq_none_iff] at last
    rw [last.2]
    rfl

theorem Disk.writeAll_outside {disk : Disk} {writes : List (Nat × Bytes)}
    (outside : ∀ write ∈ writes, p < write.1 ∨ write.1 + write.2.length ≤ p) :
    disk.writeAll writes p = disk p := by
  rw [writeAll_apply, lastOctet_outside outside, Option.getD_none]

variable {data : Bytes}

theorem Disk.readAt_writeAll {disk : Disk} {before later : List (Nat × Bytes)} {off k n : Nat}
    (inside : k + n ≤ data.length)
    (outside : ∀ write ∈ later, off + k + n ≤ write.1 ∨ write.1 + write.2.length ≤ off + k) :
    (disk.writeAll (before ++ (off, data) :: later)).readAt (off + k) n = (data.drop k).take n := by
  apply ext_getElem
  · rw [readAt_length, length_take, length_drop]
    omega
  intro i bound _
  rw [readAt_length] at bound
  have kept : disk.writeAll (before ++ (off, data) :: later) (off + k + i) = data[k + i] := by
    rw [writeAll_append, writeAll, writeAll_outside, Nat.add_assoc]
    · exact writeAt_inside _ _ _ _ (by dsimp only; omega)
    · intro write mem
      have := outside write mem
      omega
  simp [readAt, kept]

theorem Disk.readAt_writeAll_whole {disk : Disk} {before later : List (Nat × Bytes)} {off n : Nat}
    (length : data.length = n)
    (outside : ∀ write ∈ later, off + n ≤ write.1 ∨ write.1 + write.2.length ≤ off) :
    (disk.writeAll (before ++ (off, data) :: later)).readAt off n = data := by
  have part : (disk.writeAll (before ++ (off, data) :: later)).readAt (off + 0) n =
      (data.drop 0).take n := readAt_writeAll (by omega) outside
  rwa [Nat.add_zero, drop_zero, take_of_length_le (Nat.le_of_eq length)] at part

/-! ## Transactions -/

abbrev Tx := List (Nat × Bytes)

def getBlock (block : Nat) : Tx → Option Bytes
  | [] => none
  | entry :: rest => if entry.1 = block then some entry.2 else getBlock block rest

/-- `AddBlock`: the buffer of a block that is staged already is replaced. -/
def addBlock (block : Nat) (data : Bytes) : Tx → Tx
  | [] => [(block, data)]
  | entry :: rest =>
      if entry.1 = block then (block, data) :: rest else entry :: addBlock block data rest

theorem getBlock_addBlock (block other : Nat) (data : Bytes) (tx : Tx) :
    getBlock other (addBlock block data tx) = if block = other then some data else getBlock other tx := by
  induction tx with
  | nil => rfl
  | cons entry rest ih =>
    unfold addBlock
    by_cases here : entry.1 = block
    · rw [if_pos here]
      by_cases same : block = other
      · simp [getBlock, same]
      · simp [getBlock, here, same]
    · rw [if_neg here]
      by_cases same : entry.1 = other
      · have apart : block ≠ other := fun equal => here (same.trans equal.symm)
        simp [getBlock, same, apart]
      · simp [getBlock, same, ih]

variable {block : Nat}

theorem mem_addBlock {tx : Tx} {entry : Nat × Bytes}
    (mem : entry ∈ addBlock block data tx) : entry = (block, data) ∨ entry ∈ tx := by
  induction tx with
  | nil => exact .inl (mem_singleton.mp mem)
  | cons first rest ih =>
    unfold addBlock at mem
    split at mem
    · exact (mem_cons.mp mem).imp_right (mem_cons_of_mem _)
    · rcases mem_cons.mp mem with rfl | later
      · exact .inr mem_cons_self
      · exact (ih later).imp_right (mem_cons_of_mem _)

theorem keys_addBlock (block : Nat) (data : Bytes) (tx : Tx) : (addBlock block data tx).map Prod.fst =
      if block ∈ tx.map Prod.fst then tx.map Prod.fst else tx.map Prod.fst ++ [block] := by
  induction tx with
  | nil => rfl
  | cons entry rest ih =>
    unfold addBlock
    by_cases here : entry.1 = block
    · simp [here]
    · have apart : block ≠ entry.1 := Ne.symm here
      rw [if_neg here, map_cons, ih]
      by_cases later : block ∈ rest.map Prod.fst
      · simp only [map_cons, mem_cons, apart, later, false_or, if_true]
      · simp only [map_cons, mem_cons, apart, later, false_or, if_false, cons_append]

structure Formed (size : Nat) (tx : Tx) : Prop where
  distinct : (tx.map Prod.fst).Nodup
  whole : ∀ entry ∈ tx, entry.2.length = size

theorem Formed.nil (size : Nat) : Formed size [] := ⟨nodup_nil, fun _ mem => nomatch mem⟩

theorem Formed.addBlock {size : Nat} {tx : Tx} (formed : Formed size tx) (block : Nat)
    (whole : data.length = size) : Formed size (addBlock block data tx) := by
  constructor
  · rw [keys_addBlock]
    split
    · exact formed.distinct
    · rename_i fresh
      exact nodup_append.mpr ⟨formed.distinct, nodup_singleton _, by
        intro key mem other single
        rw [mem_singleton.mp single]
        exact fun same => fresh (same ▸ mem)⟩
  · intro entry mem
    rcases mem_addBlock mem with rfl | there
    · exact whole
    · exact formed.whole _ there

theorem getBlock_mem {tx : Tx} (found : getBlock block tx = some data) : (block, data) ∈ tx := by
  induction tx with
  | nil => cases found
  | cons entry rest ih =>
    unfold getBlock at found
    split at found
    · rename_i here
      cases found
      exact here ▸ mem_cons_self
    · exact mem_cons_of_mem _ (ih found)

theorem Formed.length {size : Nat} {tx : Tx} (formed : Formed size tx)
    (found : getBlock block tx = some data) : data.length = size :=
  formed.whole _ (getBlock_mem found)

/-! ## What a transaction leaves on the device -/

section Volume

-- Blocks of `size` octets, counted from octet `base` of the device on.
variable (base size : Nat)

def apply (disk : Disk) (tx : Tx) : Disk :=
  tx.foldl (fun disk entry => disk.writeAt (base + entry.1 * size) entry.2) disk

def content (disk : Disk) (tx : Tx) : Disk := fun p =>
  if base ≤ p then
    match getBlock ((p - base) / size) tx with
    | some data => data[(p - base) % size]?.getD 0
    | none => disk p
  else disk p

def buffer (disk : Disk) (tx : Tx) (block : Nat) : Bytes :=
  (getBlock block tx).getD (disk.readAt (base + block * size) size)

/-- `addRangeToTx`, from offset `off` of block `block`; a round takes at least one octet of a
non-empty range, so as many rounds as octets are enough. -/
def addRangeLoop (disk : Disk) : Nat → Nat → Nat → Bytes → Tx → Tx
  | 0, _, _, _, tx => tx
  | rounds + 1, block, off, data, tx =>
      if data.isEmpty then tx
      else
        let copyLen := min (size - off) data.length
        addRangeLoop disk rounds (block + 1) 0 (data.drop copyLen)
          (addBlock block (writeAt (buffer base size disk tx block) off (data.take copyLen)) tx)

def addRange (disk : Disk) (startAbs : Nat) (data : Bytes) (tx : Tx) : Tx :=
  addRangeLoop base size disk data.length ((startAbs - base) / size) ((startAbs - base) % size) data tx

variable {base size}

theorem content_low (disk : Disk) (tx : Tx) (low : p < base) :
    content base size disk tx p = disk p := if_neg (by omega)

theorem content_block (disk : Disk) (tx : Tx) (block i : Nat) (inside : i < size) :
    content base size disk tx (base + block * size + i) =
      match getBlock block tx with
      | some data => data[i]?.getD 0
      | none => disk (base + block * size + i) := by
  have rest : base + block * size + i - base = size * block + i := by
    rw [Nat.mul_comm block size]; omega
  rw [content, if_pos (by omega), rest, Nat.mul_add_div (by omega), Nat.div_eq_of_lt inside,
    Nat.mul_add_mod, Nat.mod_eq_of_lt inside, Nat.add_zero]

theorem exists_block (positive : 0 < size) (high : base ≤ p) :
    ∃ block i, i < size ∧ p = base + block * size + i :=
  ⟨(p - base) / size, (p - base) % size, Nat.mod_lt _ positive, by
    have := Nat.div_add_mod' (p - base) size
    omega⟩

/-- Two octets in the same device are equally placed when their blocks and offsets agree. -/
theorem block_unique {other i j : Nat} (inside : i < size) (inside' : j < size)
    (same : base + block * size + i = base + other * size + j) : block = other ∧ i = j := by
  have first : (block * size + i) / size = block := by
    rw [Nat.mul_comm, Nat.mul_add_div (by omega), Nat.div_eq_of_lt inside, Nat.add_zero]
  have second : (other * size + j) / size = other := by
    rw [Nat.mul_comm, Nat.mul_add_div (by omega), Nat.div_eq_of_lt inside', Nat.add_zero]
  have equal : block * size + i = other * size + j := by omega
  have blocks : block = other := by rw [← first, equal, second]
  subst blocks
  exact ⟨rfl, by omega⟩

variable {disk : Disk} {tx : Tx}

theorem buffer_length (formed : Formed size tx) (block : Nat) :
    (buffer base size disk tx block).length = size := by
  unfold buffer
  cases found : getBlock block tx with
  | none => exact Disk.readAt_length _ _ _
  | some data => exact formed.length found

theorem buffer_getElem? (formed : Formed size tx) (block i : Nat) (inside : i < size) :
    (buffer base size disk tx block)[i]? = some (content base size disk tx (base + block * size + i)) := by
  rw [content_block _ _ _ _ inside]
  unfold buffer
  cases found : getBlock block tx with
  | none => exact Disk.readAt_getElem? _ _ _ _ inside
  | some data =>
    have present : i < data.length := (formed.length found).symm ▸ inside
    simp [present]

theorem content_addBlock (formed : Formed size tx) (positive : 0 < size) (block off : Nat) (data : Bytes)
    (fits : off + data.length ≤ size) : content base size disk
        (addBlock block (writeAt (buffer base size disk tx block) off data) tx) =
      (content base size disk tx).writeAt (base + block * size + off) data := by
  funext p
  by_cases low : p < base
  · rw [content_low _ _ low, Disk.writeAt_outside _ _ _ _ (.inl (by omega)), content_low _ _ low]
  obtain ⟨other, i, inside, rfl⟩ := exists_block positive (Nat.le_of_not_lt low)
  rw [content_block _ _ _ _ inside, getBlock_addBlock]
  by_cases here : block = other
  · subst here
    rw [if_pos rfl]
    by_cases covered : off ≤ i ∧ i < off + data.length
    · obtain ⟨k, rfl⟩ := Nat.exists_eq_add_of_le covered.1
      have within : k < data.length := by omega
      have place : base + block * size + (off + k) = base + block * size + off + k := by omega
      rw [place, Disk.writeAt_inside _ _ _ _ within]
      simp only [writeAt_inside _ _ _ _ within, within, getElem?_eq_getElem, Option.getD_some]
    · rw [Disk.writeAt_outside _ _ _ _ (by omega)]
      have present : i < (buffer base size disk tx block).length := (buffer_length formed block).symm ▸ inside
      have kept : (writeAt (buffer base size disk tx block) off data)[i]? =
          (buffer base size disk tx block)[i]? :=
        writeAt_outside _ _ _ _ present (by omega)
      simp only [kept, buffer_getElem? formed _ _ inside, Option.getD_some]
  · rw [if_neg here, Disk.writeAt_outside, content_block _ _ _ _ inside]
    by_contra touched
    have reached : base + block * size + (i + other * size - block * size) = base + other * size + i := by
      omega
    exact here (block_unique (by omega) inside reached).1

theorem Formed.overlay (formed : Formed size tx) (block off : Nat) (data : Bytes)
    (fits : off + data.length ≤ size) : Formed size
      (Overlay.addBlock block (writeAt (buffer base size disk tx block) off data) tx) := by
  apply Formed.addBlock formed
  rw [writeAt_length, buffer_length formed]
  omega

theorem addRangeLoop_spec (disk : Disk) (rounds block off : Nat) (data : Bytes) (tx : Tx)
    (formed : Formed size tx) (enough : data.length ≤ rounds) (inside : off < size) :
    Formed size (addRangeLoop base size disk rounds block off data tx) ∧
      content base size disk (addRangeLoop base size disk rounds block off data tx) =
        (content base size disk tx).writeAt (base + block * size + off) data := by
  induction rounds generalizing block off data tx with
  | zero =>
    rw [length_eq_zero_iff.mp (Nat.le_zero.mp enough)]
    exact ⟨formed, (Disk.writeAt_nil _ _).symm⟩
  | succ rounds ih =>
    cases data with
    | nil => exact ⟨formed, (Disk.writeAt_nil _ _).symm⟩
    | cons first rest =>
      set data := first :: rest with whole
      set copyLen := min (size - off) data.length with copied
      have piece : (data.take copyLen).length = copyLen := by rw [length_take]; omega
      have fits : off + (data.take copyLen).length ≤ size := by omega
      have unfolded : addRangeLoop base size disk (rounds + 1) block off data tx =
          addRangeLoop base size disk rounds (block + 1) 0 (data.drop copyLen)
            (addBlock block (writeAt (buffer base size disk tx block) off (data.take copyLen)) tx) := by
        simp [addRangeLoop, whole, copied]
      obtain ⟨formed', later⟩ := ih (block + 1) 0 (data.drop copyLen) _ (formed.overlay block off _ fits)
        (by rw [length_drop]; omega) (by omega)
      rw [unfolded]
      refine ⟨formed', later.trans ?_⟩
      rw [content_addBlock formed (by omega) _ _ _ fits]
      -- the rest starts where this block ends, unless there is no rest
      by_cases last : copyLen = data.length
      · rw [last, drop_length, take_length, Disk.writeAt_nil]
      · have next : base + (block + 1) * size + 0 = base + block * size + off + copyLen := by
          rw [Nat.add_mul]; omega
        rw [next, Disk.writeAt_split _ _ _ _ (by omega)]

theorem content_addRange (disk : Disk) {startAbs : Nat} (data : Bytes) (formed : Formed size tx)
    (positive : 0 < size) (high : base ≤ startAbs) :
    content base size disk (addRange base size disk startAbs data tx) =
      (content base size disk tx).writeAt startAbs data := by
  have place : base + (startAbs - base) / size * size + (startAbs - base) % size = startAbs := by
    have := Nat.div_add_mod' (startAbs - base) size
    omega
  rw [addRange, (addRangeLoop_spec disk _ _ _ data tx formed (Nat.le_refl _) (Nat.mod_lt _ positive)).2, place]

theorem Formed.addRange (disk : Disk) (startAbs : Nat) (data : Bytes) (formed : Formed size tx)
    (positive : 0 < size) : Formed size (Overlay.addRange base size disk startAbs data tx) :=
  (addRangeLoop_spec disk _ _ _ data tx formed (Nat.le_refl _) (Nat.mod_lt _ positive)).1

@[simp] theorem content_nil (disk : Disk) : content base size disk [] = disk := by
  funext p
  simp [content, getBlock]

/-- The buffers cover distinct blocks, so the order of their writes does not show. -/
theorem apply_eq_content (disk : Disk) (formed : Formed size tx) (positive : 0 < size) :
    apply base size disk tx = content base size disk tx := by
  induction tx generalizing disk with
  | nil => rw [content_nil]; rfl
  | cons entry rest ih =>
    have distinct := nodup_cons.mp formed.distinct
    have formed' : Formed size rest :=
      ⟨distinct.2, fun other mem => formed.whole other (mem_cons_of_mem _ mem)⟩
    have length : entry.2.length = size := formed.whole _ mem_cons_self
    rw [apply, foldl_cons]
    refine (ih _ formed').trans ?_
    funext p
    by_cases low : p < base
    · rw [content_low _ _ low, content_low _ _ low, Disk.writeAt_outside _ _ _ _ (.inl (by omega))]
    obtain ⟨block, i, inside, rfl⟩ := exists_block positive (Nat.le_of_not_lt low)
    rw [content_block _ _ _ _ inside, content_block _ _ _ _ inside]
    by_cases here : entry.1 = block
    · have absent : getBlock block rest = none := by
        cases found : getBlock block rest with
        | none => rfl
        | some data => exact absurd (mem_map_of_mem (getBlock_mem found)) (here ▸ distinct.1)
      have present : i < entry.2.length := by omega
      simp only [absent, getBlock, here, if_true, Disk.writeAt_inside _ _ _ _ present, present,
        getElem?_eq_getElem, Option.getD_some]
    · simp only [getBlock, here, if_false]
      cases getBlock block rest with
      | some data => rfl
      | none =>
        apply Disk.writeAt_outside
        by_contra touched
        have reached : base + entry.1 * size + (i + block * size - entry.1 * size) =
            base + block * size + i := by omega
        exact here (block_unique (by omega) inside reached).1

theorem readAt_content (disk : Disk) (formed : Formed size tx) (found : getBlock block tx = some data) :
    (content base size disk tx).readAt (base + block * size) size = data := by
  have length := formed.length found
  apply ext_getElem?
  intro i
  by_cases inside : i < size
  · rw [Disk.readAt_getElem? _ _ _ _ inside, content_block _ _ _ _ inside, found]
    simp [show i < data.length by omega]
  · rw [getElem?_eq_none (by rw [Disk.readAt_length]; omega), getElem?_eq_none (by omega)]

end Volume

end Overlay
