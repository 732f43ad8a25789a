import Mathlib.Data.List.Dedup
import Ext4.Resize.Disk
import Ext4.Sidecar.Landing

/-! One transaction on the octets of the device.
`addRangeToTx` and `writeAtWithTrace` look up the group descriptors to find out which inode tables
a range lies in. What they find decides which locks are taken, and whether the range is refused; it
does not decide what is staged or written. The offsets are natural numbers: a device ends below
2^63, and a block behind its end cannot be read. -/

namespace Ext4.Sidecar
open Octets Overlay Resize List

inductive TxError where
  /-- `invalid write offset` -/
  | invalidOffset
  /-- `read block block` -/
  | shortRead (block : Nat)
  /-- `unstable BGD mapping` -/
  | unstable
  | alreadyCommitted
  /-- The apply turn is at another sequence number and nobody is left to advance it. -/
  | waiting (seq : Nat)
  deriving DecidableEq, Repr

/-- What the writes read from the superblock of a mounted filesystem; any values that
`readSuperblock` accepts. -/
structure Mount extends SuperArea.Geometry where
  partOffset : Nat
  firstDataBlock : Nat
  incompat : Nat
  blockSize_pos : 0 < blockSize

namespace Mount
variable (v : Mount)

def start (block : Nat) : Nat := v.partOffset + block * v.blockSize

def inodeTableBlocks : Nat := (v.inodeSize * v.inodesPerGroup + v.blockSize - 1) / v.blockSize

def numBlockGroups (s : Vol) : Nat := (s.sb.blocksCount + v.blocksPerGroup - 1) / v.blocksPerGroup % 2 ^ 32

def descOff (g : Nat) : Nat := v.start v.bgdTableBlock + g * v.descSize

def inodeTable (raw : Bytes) : Nat :=
  let wide := v.incompat &&& 0x0080 ≠ 0 ∧ 64 ≤ v.descSize
  field raw 8 4 + if wide then field raw 40 4 * 2 ^ 32 else 0

def block (s : Vol) (b : Nat) : Bytes := s.disk.readAt (v.start b) v.blockSize

end Mount

variable (v : Mount)

/-! ## Writes to the device -/

def deviceWrite (s : Vol) (off : Nat) (data : Bytes) : Vol :=
  if data.isEmpty then s else s.writeAt off data

/-- The inode table of a group by `readBGD`, unless the descriptor lies behind the end of the
device. -/
def tableBlock (s : Vol) (g : Nat) : Option Nat :=
  if v.descOff g + v.descSize ≤ s.size then
    some (v.inodeTable (s.disk.readAt (v.descOff g) v.descSize))
  else none

def groupOf (s : Vol) (block : Nat) : Option Nat :=
  if block < v.firstDataBlock then none
  else
    let g := (block - v.firstDataBlock) / v.blocksPerGroup % 2 ^ 32
    if g < v.numBlockGroups s then some g else none

/-- The write meets the inode table that starts at the block; offsets are of type `int64`. -/
def meetsTable (table off len : Nat) : Bool :=
  let start := int64 (v.partOffset + int64 (int64 table * v.blockSize))
  let stop := int64 (start + v.inodeTableBlocks * v.blockSize)
  off < stop ∧ start < off + len

/-- A group with the inode table it was seen to have, when the write meets that table. -/
def candidate (s : Vol) (off len g : Nat) : Option (Nat × Nat) :=
  match tableBlock v s g with
  | some table => if meetsTable v table off len then some (g, table) else none
  | none => none

def candidates (s : Vol) (off len : Nat) : List (Nat × Nat) :=
  if off + len ≤ v.partOffset then []
  else
    let first := (off - v.partOffset) / v.blockSize
    let last := (off + len - v.partOffset - 1) / v.blockSize
    ((range' first (last + 1 - first)).filterMap (groupOf v s)).dedup.filterMap
      (candidate v s off len)

def stillThere (s : Vol) (off len : Nat) (groups : List (Nat × Nat)) : Bool :=
  groups.all fun group => candidate v s off len group.1 = some group

/-- The attempts of `writeAtWithTrace`; after a failed one all groups are looked at. -/
def lockedWrite (off : Nat) (data : Bytes) : Nat → List (Nat × Nat) → Prog Vol TxError Unit
  | 0, _ => .fail .unstable
  | attempts + 1, groups => do
      let stable ← .read fun s => stillThere v s off data.length groups
      if stable then .modify fun s => deviceWrite s off data
      else do
        let again ← .read fun s =>
          (range (v.numBlockGroups s)).filterMap (candidate v s off data.length)
        lockedWrite off data attempts again

def writeAtWithTrace (off : Nat) (data : Bytes) : Prog Vol TxError Unit := do
  let groups ← .read fun s => candidates v s off data.length
  if groups.isEmpty then .modify fun s => deviceWrite s off data
  else lockedWrite v off data 8 groups

/-! ## Staging -/

structure Session where
  vol : Vol
  entries : Overlay.Tx
  committed : Bool
  journal : Journal
  file : Bytes

def startTx (s : Vol) (journal : Journal) (file : Bytes) : Session := ⟨s, [], false, journal, file⟩

def rangeBlocks : Nat → Nat → Nat → Nat → List Nat
  | 0, _, _, _ => []
  | rounds + 1, block, off, remaining =>
      if remaining = 0 then []
      else block :: rangeBlocks rounds (block + 1) 0 (remaining - min (v.blockSize - off) remaining)

def tableOf (s : Vol) (block : Nat) : Option (Nat × Nat) := do
  let g ← groupOf v s block
  let table ← tableBlock v s g
  if table ≤ block ∧ block < table + v.inodeTableBlocks then some (g, table) else none

def tableGroups (s : Vol) (blocks : List Nat) : List (Nat × Nat) := blocks.filterMap (tableOf v s)

/-- The attempts of `addRangeToTx` to find the inode tables under the locks where it saw them. -/
def settles (s : Vol) (blocks : List Nat) : Nat → List (Nat × Nat) → Bool
  | 0, _ => false
  | attempts + 1, groups =>
      (groups.all fun group => tableBlock v s group.1 = some group.2) ||
        settles s blocks attempts (tableGroups v s blocks)

/-- What an update of the block starts from: its staged buffer, or else the device. -/
def baseOf (block : Nat) (t : Session) : Except TxError Bytes :=
  match getBlock block t.entries with
  | some data => .ok data
  | none =>
      if v.start block + v.blockSize ≤ t.vol.size then .ok (v.block t.vol block)
      else .error (.shortRead block)

def stageBlock (block : Nat) (data : Bytes) : Prog Session TxError Unit := do
  let committed ← .read Session.committed
  if committed then .fail .alreadyCommitted
  else .modify fun t => { t with entries := addBlock block data t.entries }

/-- The loop that both paths of `addRangeToTx` end with. -/
def stageBlocks : Nat → Nat → Nat → Bytes → Prog Session TxError Unit
  | 0, _, _, _ => pure ()
  | rounds + 1, block, off, data =>
      if data.isEmpty then pure ()
      else do
        let buf ← .tryRead (baseOf v block)
        let copyLen := min (v.blockSize - off) data.length
        stageBlock block (writeAt buf off (data.take copyLen))
        stageBlocks rounds (block + 1) 0 (data.drop copyLen)

def addRangeMaxAttempts : Nat := 8

def addRangeToTx (startAbs : Nat) (data : Bytes) : Prog Session TxError Unit :=
  if startAbs < v.partOffset then .fail .invalidOffset
  else do
    let block := (startAbs - v.partOffset) / v.blockSize
    let off := (startAbs - v.partOffset) % v.blockSize
    let blocks := rangeBlocks v data.length block off data.length
    let groups ← .read fun t => tableGroups v t.vol blocks
    if groups.isEmpty then stageBlocks v data.length block off data
    else do
      let locked ← .read fun t => settles v t.vol blocks addRangeMaxAttempts groups
      if locked then stageBlocks v data.length block off data else .fail .unstable

def stageAll (ranges : List (Nat × Bytes)) : Prog Session TxError Unit :=
  .forEach (fun range => addRangeToTx v range.1 range.2) ranges

/-! ## Commit -/

/-- The record of the staged entries goes to the end of the sidecar file, in two writes. -/
def Session.append (t : Session) (seq : Nat) : Session :=
  let tx : Tx := ⟨seq, t.entries.map fun entry => ⟨entry.1, entry.2⟩⟩
  let off := max t.journal.appendOff t.file.length
  { t with
    file := writeAt (writeAt t.file off (body tx)) (off + (body tx).length) (commitRecord tx)
    journal := { t.journal with appendOff := off + (record tx).length } }

def onVol (prog : Prog Vol TxError Unit) : Prog Session TxError Unit := fun t =>
  let (outcome, s) := prog t.vol
  (outcome, { t with vol := s })

/-- `Commit`: without a journal nothing is applied; with one the entries are written to the device
in their order once the apply turn has come. -/
def commit : Prog Session TxError Unit := do
  let committed ← .read Session.committed
  if committed then .fail .alreadyCommitted
  else do
    .modify fun t => { t with committed := true }
    let journal ← .read Session.journal
    if ¬ journal.enabled then pure ()
    else do
      let seq := journal.nextSeq
      .modify fun t => { t with journal := { t.journal with nextSeq := (seq + 1) % 2 ^ 64 } }
      .modify fun t => t.append seq
      let entries ← .tryRead fun t =>
        if t.journal.applySeq = seq then .ok t.entries else .error (.waiting seq)
      .forEach (fun entry => onVol (writeAtWithTrace v (v.start entry.1) entry.2)) entries
      .modify fun t => { t with journal := { t.journal with applySeq := (seq + 1) % 2 ^ 64 } }

def Journal.Idle (j : Journal) : Prop := j.enabled ∧ j.applySeq = j.nextSeq

def writeDirectly (ranges : List (Nat × Bytes)) : Prog Vol TxError Unit :=
  .forEach (fun range => writeAtWithTrace v range.1 range.2) ranges

/-! ## The descriptors do not decide what is written -/

variable {v} {s : Vol} {t : Session} {off block startAbs : Nat} {group : Nat × Nat} {journal : Journal}
  {ranges : List (Nat × Bytes)}

theorem candidate_self {len g : Nat} (found : candidate v s off len g = some group) :
    candidate v s off len group.1 = some group := by
  have same : group.1 = g := by
    unfold candidate at found
    split at found
    · split at found
      · cases found
        rfl
      · cases found
    · cases found
  rw [same, found]

theorem stillThere_candidates (off len : Nat) : stillThere v s off len (candidates v s off len) := by
  unfold stillThere candidates
  split
  · rfl
  · rw [all_eq_true]
    intro group mem
    obtain ⟨g, _, found⟩ := mem_filterMap.mp mem
    exact decide_eq_true (candidate_self found)

theorem writeAtWithTrace_run (off : Nat) (data : Bytes) :
    writeAtWithTrace v off data s = (.ok (), deviceWrite s off data) := by
  have stable := @stillThere_candidates v s off data.length
  change (if (candidates v s off data.length).isEmpty then _ else _ : Prog Vol TxError Unit) s = _
  split
  · rfl
  · change (if stillThere v s off data.length (candidates v s off data.length) then _ else _ :
      Prog Vol TxError Unit) s = _
    rw [if_pos stable]
    rfl

theorem tableOf_block (found : tableOf v s block = some group) :
    tableBlock v s group.1 = some group.2 := by
  obtain ⟨g, _, rest⟩ := Option.bind_eq_some_iff.mp found
  obtain ⟨table, known, last⟩ := Option.bind_eq_some_iff.mp rest
  split at last
  · cases last
    exact known
  · cases last

theorem settles_tableGroups (blocks : List Nat) (attempts : Nat) :
    settles v s blocks (attempts + 1) (tableGroups v s blocks) := by
  rw [settles, Bool.or_eq_true]
  left
  rw [all_eq_true]
  intro group mem
  obtain ⟨block, _, found⟩ := mem_filterMap.mp mem
  exact decide_eq_true (tableOf_block found)

theorem addRangeToTx_run (data : Bytes) (inside : v.partOffset ≤ startAbs) :
    addRangeToTx v startAbs data t =
      stageBlocks v data.length ((startAbs - v.partOffset) / v.blockSize)
        ((startAbs - v.partOffset) % v.blockSize) data t := by
  rw [addRangeToTx, if_neg (Nat.not_lt.mpr inside)]
  set block := (startAbs - v.partOffset) / v.blockSize
  set off := (startAbs - v.partOffset) % v.blockSize
  set blocks := rangeBlocks v data.length block off data.length
  have settled := @settles_tableGroups v t.vol blocks 7
  change (if (tableGroups v t.vol blocks).isEmpty then _ else _ : Prog Session TxError Unit) t = _
  split
  · rfl
  · change (if settles v t.vol blocks 8 (tableGroups v t.vol blocks) then _ else _ :
      Prog Session TxError Unit) t = _
    rw [if_pos settled]

/-! ## What is staged -/

def Session.OnDevice (v : Mount) (t : Session) : Prop :=
  ∀ entry ∈ t.entries, v.start entry.1 + v.blockSize ≤ t.vol.size

def Missing (v : Mount) (s : Vol) (start len : Nat) (error : TxError) : Prop :=
  ∃ block, error = .shortRead block ∧ s.size < v.start block + v.blockSize ∧
    ∃ k < len, v.start block ≤ start + k

theorem baseOf_cases (onDevice : t.OnDevice v) (block : Nat) :
    (baseOf v block t = .ok (buffer v.partOffset v.blockSize t.vol.disk t.entries block) ∧
        v.start block + v.blockSize ≤ t.vol.size) ∨
      (baseOf v block t = .error (.shortRead block) ∧ t.vol.size < v.start block + v.blockSize) := by
  unfold baseOf buffer
  cases found : getBlock block t.entries with
  | some data => exact .inl ⟨rfl, onDevice _ (getBlock_mem found)⟩
  | none =>
    dsimp only
    split
    next there => exact .inl ⟨rfl, there⟩
    next short => exact .inr ⟨rfl, Nat.lt_of_not_le short⟩

theorem Session.OnDevice.add (onDevice : t.OnDevice v) (data : Bytes)
    (there : v.start block + v.blockSize ≤ t.vol.size) :
    Session.OnDevice v { t with entries := addBlock block data t.entries } := by
  intro entry mem
  rcases mem_addBlock mem with rfl | old
  · exact there
  · exact onDevice entry old

theorem stageBlock_run (block : Nat) (data : Bytes) (running : t.committed = false) :
    stageBlock block data t = (.ok (), { t with entries := addBlock block data t.entries }) := by
  change (if t.committed = true then _ else _ : Prog Session TxError Unit) t = _
  rw [if_neg (by rw [running]; decide)]
  rfl

/-- The loop stages the range over the buffers, or stops at a block that cannot be read. -/
theorem stageBlocks_meets (rounds block off : Nat) (data : Bytes) (running : t.committed = false)
    (onDevice : t.OnDevice v) (enough : data.length ≤ rounds) (inside : off < v.blockSize) :
    (stageBlocks v rounds block off data).Meets t
      (fun _ u => u.OnDevice v ∧ (data ≠ [] → v.start block + off + data.length ≤ t.vol.size) ∧ u = { t with
        entries := addRangeLoop v.partOffset v.blockSize t.vol.disk rounds block off data t.entries })
      fun error u => u.vol = t.vol ∧ Missing v t.vol (v.start block + off) data.length error := by
  induction rounds generalizing t block off data with
  | zero =>
    have empty : data = [] := length_eq_zero_iff.mp (Nat.le_zero.mp enough)
    exact ⟨onDevice, fun nonempty => absurd empty nonempty, rfl⟩
  | succ rounds ih =>
    rw [stageBlocks, addRangeLoop]
    by_cases empty : data.isEmpty
    · rw [if_pos empty, if_pos empty]
      exact ⟨onDevice, fun nonempty => absurd (isEmpty_iff.mp empty) nonempty, rfl⟩
    rw [if_neg empty, if_neg empty]
    have positive : 0 < data.length := length_pos_iff.mpr (by simpa using empty)
    rcases baseOf_cases onDevice block with ⟨base, there⟩ | ⟨short, beyond⟩
    · rw [meets_bind]
      apply Prog.Meets.tryRead base
      rw [meets_bind]
      set copyLen := min (v.blockSize - off) data.length
      set piece := writeAt (buffer v.partOffset v.blockSize t.vol.disk t.entries block) off
        (data.take copyLen)
      apply Prog.Meets.of_ok (stageBlock_run block piece running)
      have rest := @ih { t with entries := addBlock block piece t.entries } (block + 1) 0
        (data.drop copyLen) running (onDevice.add piece there) (by rw [length_drop]; omega) (by omega)
      have next : v.start (block + 1) = v.start block + v.blockSize := by
        rw [Mount.start, Mount.start, Nat.succ_mul, Nat.add_assoc]
      -- when something is left, this block was filled to its end
      refine rest.mono (fun _ u done => ⟨done.1, fun _ => ?_, done.2.2⟩) fun error u failed => ⟨failed.1, ?_⟩
      · by_cases last : copyLen = data.length
        · omega
        · have more := done.2.1 (length_pos_iff.mp (by rw [length_drop]; omega))
          rw [length_drop] at more
          dsimp only at more
          omega
      · obtain ⟨other, rfl, beyond, k, bound, reached⟩ := failed.2
        rw [length_drop] at bound
        exact ⟨other, rfl, beyond, copyLen + k, by omega, by omega⟩
    · rw [meets_bind, meets_tryRead]
      constructor
      · intro buf base
        rw [short] at base
        cases base
      · intro error failed
        rw [short] at failed
        cases failed
        exact ⟨rfl, block, rfl, beyond, 0, positive, by omega⟩

/-! ## The transaction as an overlay -/

structure Overlays (v : Mount) (s : Vol) (journal : Journal) (ranges : List (Nat × Bytes)) (t : Session) :
    Prop where
  vol : t.vol = s
  journal : t.journal = journal
  running : t.committed = false
  formed : Formed v.blockSize t.entries
  onDevice : t.OnDevice v
  content : content v.partOffset v.blockSize s.disk t.entries = s.disk.writeAll ranges
  reached : ∀ range ∈ ranges, range.2 ≠ [] → range.1 + range.2.length ≤ s.size

theorem Overlays.start (v : Mount) (s : Vol) (journal : Journal) (file : Bytes) :
    Overlays v s journal [] (startTx s journal file) where
  vol := rfl
  journal := rfl
  running := rfl
  formed := .nil _
  onDevice := fun _ mem => nomatch mem
  content := content_nil _
  reached := fun _ mem => nomatch mem

theorem Overlays.addRangeToTx
    (overlays : Overlays v s journal ranges t) (data : Bytes)
    (inside : v.partOffset ≤ startAbs) :
    (addRangeToTx v startAbs data).Meets t
      (fun _ u => Overlays v s journal (ranges ++ [(startAbs, data)]) u)
      fun error u => u.vol = s ∧ Missing v s startAbs data.length error := by
  have positive := v.blockSize_pos
  have place : v.start ((startAbs - v.partOffset) / v.blockSize) + (startAbs - v.partOffset) % v.blockSize =
      startAbs := by
    have := Nat.div_add_mod' (startAbs - v.partOffset) v.blockSize
    rw [Mount.start]
    omega
  apply Prog.Meets.of_eq (addRangeToTx_run data inside)
  have staged := stageBlocks_meets data.length ((startAbs - v.partOffset) / v.blockSize)
    ((startAbs - v.partOffset) % v.blockSize) data overlays.running overlays.onDevice (Nat.le_refl _)
    (Nat.mod_lt _ positive)
  rw [place, overlays.vol] at staged
  refine staged.imp fun _ u done => ?_
  obtain ⟨onDevice, reached, rfl⟩ := done
  exact {
    vol := rfl
    journal := overlays.journal
    running := overlays.running
    formed := overlays.formed.addRange s.disk startAbs data positive
    onDevice := onDevice
    content := by
      rw [Disk.writeAll_append, ← overlays.content]
      exact content_addRange s.disk data overlays.formed positive inside
    reached := by
      intro range mem
      rcases mem_append.mp mem with old | new
      · exact overlays.reached range old
      · rw [mem_singleton.mp new]
        exact reached }

theorem Overlays.stageAll {before : List (Nat × Bytes)} (ranges : List (Nat × Bytes))
    (overlays : Overlays v s journal before t) (inside : ∀ range ∈ ranges, v.partOffset ≤ range.1) :
    (stageAll v ranges).Meets t (fun _ u => Overlays v s journal (before ++ ranges) u)
      fun error u => u.vol = s ∧ ∃ range ∈ ranges, Missing v s range.1 range.2.length error := by
  induction ranges generalizing before t with
  | nil =>
    rw [append_nil]
    exact overlays
  | cons range ranges ih =>
    obtain ⟨first, later⟩ := forall_mem_cons.mp inside
    apply Prog.Meets.seq (overlays.addRangeToTx range.2 first)
    · intro _ u done
      rw [append_cons]
      exact (ih done later).mono (fun _ _ all => all)
        fun _ _ failed => ⟨failed.1, failed.2.imp fun _ known => ⟨mem_cons_of_mem _ known.1, known.2⟩⟩
    · exact fun _ _ failed => ⟨failed.1, range, mem_cons_self, failed.2⟩

/-! ## Writing to the device -/

theorem deviceWrite_inside {data : Bytes} (inside : data ≠ [] → off + data.length ≤ s.size) :
    deviceWrite s off data = { s with disk := s.disk.writeAt off data } := by
  unfold deviceWrite
  split
  next empty => rw [isEmpty_iff.mp empty, Disk.writeAt_nil]
  next nonempty =>
    have bound := inside (by simpa using nonempty)
    rw [Vol.writeAt, Nat.max_eq_left bound]

def reach : List (Nat × Bytes) → Nat
  | [] => 0
  | range :: ranges => max (if range.2.isEmpty then 0 else range.1 + range.2.length) (reach ranges)

theorem reach_le {n : Nat}
    (inside : ∀ range ∈ ranges, range.2 ≠ [] → range.1 + range.2.length ≤ n) : reach ranges ≤ n := by
  induction ranges with
  | nil => exact Nat.zero_le _
  | cons range ranges ih =>
    obtain ⟨first, later⟩ := forall_mem_cons.mp inside
    apply Nat.max_le.mpr ⟨?_, ih later⟩
    split
    next => exact Nat.zero_le _
    next nonempty => exact first (by simpa using nonempty)

def written (s : Vol) (ranges : List (Nat × Bytes)) : Vol :=
  { s with disk := s.disk.writeAll ranges, size := max s.size (reach ranges) }

theorem written_cons (range : Nat × Bytes) (ranges : List (Nat × Bytes)) :
    written (deviceWrite s range.1 range.2) ranges = written s (range :: ranges) := by
  unfold deviceWrite written
  rw [Disk.writeAll, reach]
  split
  next empty => rw [isEmpty_iff.mp empty, Disk.writeAt_nil, Nat.zero_max]
  next => rw [Vol.writeAt, Nat.max_assoc]

theorem writeDirectly_run (ranges : List (Nat × Bytes)) :
    writeDirectly v ranges s = (.ok (), written s ranges) := by
  induction ranges generalizing s with
  | nil => rw [written, reach, Nat.max_zero]; rfl
  | cons range ranges ih =>
    have stepped : (writeAtWithTrace v range.1 range.2 >>= fun _ => writeDirectly v ranges) s =
        writeDirectly v ranges (deviceWrite s range.1 range.2) := Prog.bind_run (writeAtWithTrace_run _ _)
    rw [← written_cons]
    exact stepped.trans ih

theorem applyEntries_run (entries : Overlay.Tx)
    (onDevice : ∀ entry ∈ entries, v.start entry.1 + entry.2.length ≤ t.vol.size) :
    Prog.forEach (fun entry => onVol (writeAtWithTrace v (v.start entry.1) entry.2)) entries t =
      (.ok (), { t with vol := { t.vol with disk := apply v.partOffset v.blockSize t.vol.disk entries } }) := by
  induction entries generalizing t with
  | nil => rfl
  | cons entry entries ih =>
    obtain ⟨first, later⟩ := forall_mem_cons.mp onDevice
    have wrote := @writeAtWithTrace_run v t.vol (v.start entry.1) entry.2
    rw [deviceWrite_inside fun _ => first] at wrote
    have stepped : onVol (writeAtWithTrace v (v.start entry.1) entry.2) t = (.ok (),
        { t with vol := { t.vol with disk := t.vol.disk.writeAt (v.start entry.1) entry.2 } }) := by
      rw [onVol, wrote]
    rw [Prog.forEach, Prog.bind_run stepped]
    exact ih later

theorem commit_run (running : t.committed = false) (idle : t.journal.Idle)
    (onDevice : ∀ entry ∈ t.entries, v.start entry.1 + entry.2.length ≤ t.vol.size) :
    ∃ u, commit v t = (.ok (), u) ∧
      u.vol = { t.vol with disk := apply v.partOffset v.blockSize t.vol.disk t.entries } := by
  -- numbered, and appended to the sidecar file
  set numbered : Session := { t with
    committed := true, journal := { t.journal with nextSeq := (t.journal.nextSeq + 1) % 2 ^ 64 } }
  set recorded := numbered.append t.journal.nextSeq
  have turn : recorded.journal.applySeq = t.journal.nextSeq := idle.2
  have applied := @applyEntries_run v recorded t.entries onDevice
  have meets : (commit v).Meets t (fun _ u =>
      u.vol = { t.vol with disk := apply v.partOffset v.blockSize t.vol.disk t.entries }) fun _ _ => False := by
    unfold commit
    rw [meets_bind, meets_read, if_neg (by rw [running]; decide), meets_bind,
      meets_modify, meets_bind, meets_read, if_neg (by simpa using idle.1)]
    rw [meets_bind, meets_modify, meets_bind, meets_modify, meets_bind]
    refine Prog.Meets.tryRead (if_pos turn) ?_
    rw [meets_bind]
    exact Prog.Meets.of_ok applied rfl
  obtain ⟨_, u, ran, wrote⟩ := meets.returns
  exact ⟨u, ran, wrote⟩

/-! ## The whole transaction -/

/-- Staging ranges in a transaction and committing it leaves what writing them one after another
leaves. Until then the device is as it was, and the buffer of a block is what it will hold. -/
theorem transaction_is_overlay (v : Mount) (s : Vol) (journal : Journal) (file : Bytes)
    (ranges : List (Nat × Bytes)) (idle : journal.Idle)
    (inside : ∀ range ∈ ranges,
      v.partOffset ≤ range.1 ∧ range.1 + range.2.length ≤ v.start s.sb.blocksCount) :
    (v.start s.sb.blocksCount ≤ s.size →
      ∃ t, stageAll v ranges (startTx s journal file) = (.ok (), t)) ∧
    ∀ outcome t, stageAll v ranges (startTx s journal file) = (outcome, t) →
      t.vol = s ∧
      (outcome = .ok () →
        (t.entries.map Prod.fst).Nodup ∧
        ∃ u, commit v t = (.ok (), u) ∧
          writeDirectly v ranges s = (.ok (), u.vol) ∧
          ∀ block data, getBlock block t.entries = some data → v.block u.vol block = data) := by
  have positive := v.blockSize_pos
  have staged := (Overlays.start v s journal file).stageAll ranges fun range mem => (inside range mem).1
  rw [nil_append] at staged
  constructor
  · intro whole
    rcases ran : stageAll v ranges (startTx s journal file) with ⟨error | _, t⟩
    · -- a block that holds an octet of the filesystem ends within it
      obtain ⟨_, range, mem, block, _, short, k, bound, reached⟩ := staged.error ran
      have last := (inside range mem).2
      have below : block < s.sb.blocksCount := by
        by_contra beyond
        have := Nat.mul_le_mul_right v.blockSize (Nat.le_of_not_lt beyond)
        rw [Mount.start] at last reached
        omega
      have := Nat.mul_le_mul_right v.blockSize (Nat.succ_le_of_lt below)
      rw [Mount.start] at whole short
      rw [Nat.succ_mul] at this
      omega
    · exact ⟨t, rfl⟩
  · intro outcome t ran
    rcases outcome with error | _
    · exact ⟨(staged.error ran).1, fun ok => nomatch ok⟩
    · have overlays := staged.ok ran
      refine ⟨overlays.vol, fun _ => ⟨overlays.formed.distinct, ?_⟩⟩
      obtain ⟨u, committed, wrote⟩ := commit_run overlays.running (overlays.journal ▸ idle) fun entry mem => by
        rw [overlays.formed.whole entry mem]
        exact overlays.onDevice entry mem
      rw [overlays.vol, apply_eq_content _ overlays.formed positive] at wrote
      refine ⟨u, committed, ?_, fun block data found => ?_⟩
      · rw [writeDirectly_run, written, Nat.max_eq_left (reach_le overlays.reached), wrote, overlays.content]
      · rw [wrote]
        exact readAt_content s.disk overlays.formed found

def smallMount : Mount := ⟨⟨1024, 8192, 128, 0, 128, 32⟩, 512, 1, 0, by decide⟩

def smallVol : Vol := ⟨66048, fun _ => 0, ⟨[], 64, 0, 0⟩, 128⟩

theorem transaction_is_overlay_twice :
    ∃ t u, stageAll smallMount [(2552, [1, 2, 3, 4, 5, 6, 7, 8, 9]), (2558, [0, 0])]
        (startTx smallVol ⟨true, 1, 1, 0⟩ []) = (.ok (), t) ∧
      t.vol = smallVol ∧ commit smallMount t = (.ok (), u) ∧
      writeDirectly smallMount [(2552, [1, 2, 3, 4, 5, 6, 7, 8, 9]), (2558, [0, 0])] smallVol =
        (.ok (), u.vol) := by
  have overlay := transaction_is_overlay smallMount smallVol ⟨true, 1, 1, 0⟩ []
    [(2552, [1, 2, 3, 4, 5, 6, 7, 8, 9]), (2558, [0, 0])] ⟨rfl, rfl⟩ (by decide)
  obtain ⟨t, staged⟩ := overlay.1 (by decide)
  obtain ⟨kept, committed⟩ := overlay.2 _ t staged
  obtain ⟨_, u, ran, direct, _⟩ := committed rfl
  exact ⟨t, u, staged, kept, ran, direct⟩

end Ext4.Sidecar
