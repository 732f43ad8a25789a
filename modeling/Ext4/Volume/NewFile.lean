import Ext4.Volume.FileRefinement
import Ext4.Volume.Creators

/-! A file that `WriteFile` creates holds the data it was given.
Its blocks were free, so nothing else that the call writes, the directory included, touches
them. -/

namespace Ext4.Volume
open Octets Alloc Store Overlay List Function FS

/-- Inode `i` is a file with the data, in blocks that were free in the view `before`. -/
structure View.Stores (x : View) (v : Shape) (before : View) (count i : Nat) (data : Bytes) : Prop where
  carries : x.Carries v count (x.inode i).mapping.child (x.extentsOf (x.inode i).mapping)
    (octetsOf data)
  size : (x.inode i).size = data.length
  /-- Even a file without data has a block. -/
  spread : ∀ lb, (∃ b, Places (x.extentsOf (x.inode i).mapping) lb b) ↔ lb < blocksFor v data
  fresh : ∀ b ∈ x.mapped i, before.used b = false
  grown : ∀ b, before.used b → x.used b

variable {v : Shape} {s t : FS} {before x y z : View} {count i : Nat} {data : Bytes} {blocks : List Nat}
  {path : Path}

section
variable (stores : x.Stores v before count i data)
include stores

theorem View.Stores.keeps (inode : y.inode i = x.inode i)
    (grown : ∀ b, x.used b → y.used b)
    (block : ∀ b ∈ x.mapped i, y.block b = x.block b) : y.Stores v before count i data := by
  have extents : y.extentsOf (x.inode i).mapping = x.extentsOf (x.inode i).mapping :=
    View.extentsOf_congr fun c mem => block c (x.child_subset_mappedBy _ mem)
  have mapped : y.mapped i = x.mapped i := by
    rw [View.mapped, inode, View.mappedBy, extents]
    rfl
  constructor
  case carries =>
    rw [inode, extents]
    exact stores.carries.keeps grown fun b mem => block b (mem_append_right _ mem)
  case size =>
    rw [inode]
    exact stores.size
  case spread =>
    rw [inode, extents]
    exact stores.spread
  case fresh =>
    rw [mapped]
    exact stores.fresh
  case grown => exact fun b inUse => grown b (stores.grown b inUse)

theorem View.Stores.leaks (leaks : x.Leaks y) :
    y.Stores v before count i data :=
  stores.keeps (congrFun leaks.inode i) leaks.grown fun b mem =>
    leaks.block b (stores.carries.used b mem)

theorem View.Stores.writeInode {j : Nat} (other : i ≠ j)
    (n : Inode) : ({ x with inode := update x.inode j n } : View).Stores v before count i data :=
  stores.keeps (update_of_ne other ..) (fun _ inUse => inUse) fun _ _ => rfl

end

/-! ## The data -/

theorem chunk_octet (positive : 0 < v.blockSize) (p : Nat) :
    (chunk v data (p / v.blockSize))[p % v.blockSize]?.getD 0 = octetsOf data p := by
  have modest := Nat.mod_lt p positive
  unfold chunk
  rw [getD_pad, getElem?_take_of_lt modest, getElem?_drop, Nat.div_add_mod', octetsOf]

theorem chunk_length (k : Nat) : (chunk v data k).length ≤ v.blockSize := by
  unfold chunk
  rw [length_append, length_replicate, length_take]
  omega

theorem lt_blocksFor (positive : 0 < v.blockSize) {p : Nat} (present : p < data.length) :
    p / v.blockSize < blocksFor v data := by
  refine Nat.lt_of_lt_of_le ?_ (Nat.le_max_right _ _)
  rw [Nat.lt_iff_add_one_le, Nat.le_div_iff_mul_le positive, Nat.succ_mul]
  have := Nat.div_mul_le_self p v.blockSize
  omega

theorem FileReady.carries {inTx : Bool} {start : FS} (ready : FileReady v inTx start data i blocks s)
    (padded : ∀ b, count ≤ b → (view v start.now).used b) (positive : 0 < v.blockSize) :
    (view v s.now).Carries v count [] (buildExtents blocks) (octetsOf data) := by
  have written := ready.written
  have runs := blocksOf_buildExtents blocks
  have inBlocks : ∀ b ∈ [] ++ blocksOf (buildExtents blocks), b ∈ blocks := fun b mem => by
    rwa [nil_append, runs] at mem
  constructor
  case padded => exact fun b past => ready.admits.grown b (padded b past)
  case laid => exact laid_buildExtents ready.once
  case used => exact fun b mem => ready.used b (inBlocks b mem)
  case inside =>
    intro b mem
    by_contra past
    have free := ready.free b (inBlocks b mem)
    rw [padded b (Nat.le_of_not_lt past)] at free
    cases free
  case apart => exact disjoint_nil_left _
  case data =>
    intro b mem
    rw [runs] at mem
    obtain ⟨k, bound, rfl⟩ := getElem_of_mem mem
    exact ⟨_, written (blocks[k], k) (mk_mem_zipIdx_iff_getElem?.mpr (getElem?_eq_getElem bound)),
      chunk_length k⟩
  case holds =>
    intro p
    rw [View.octetAt, locate_buildExtents ready.once]
    rcases Nat.lt_or_ge (p / v.blockSize) blocks.length with inside | past
    · rw [getElem?_eq_getElem inside]
      dsimp only
      rw [written (blocks[p / v.blockSize], p / v.blockSize)
        (mk_mem_zipIdx_iff_getElem?.mpr (getElem?_eq_getElem inside))]
      exact chunk_octet positive p
    · rw [getElem?_eq_none past]
      refine (octetsOf_past (Nat.le_of_not_lt fun present => ?_)).symm
      have := lt_blocksFor positive present
      have := ready.long
      omega

/-! ## WriteFile -/

structure View.Holds (x : View) (num : Nat) : Prop where
  live : x.live num
  used : ∀ b ∈ x.mapped num, x.used b

section
variable {inTx : Bool} {num : Nat} {dir n : Inode} {start : FS}

/-- The entry of a new file, whose blocks were free, in a directory whose blocks were not. -/
theorem addDirEntry_stores (ready : InodeReady v inTx x i s) (stores : (view v s.now).Stores v x count i data)
    (low : 0 < num) (parent : x.Holds num) (copy : dir.mapping = (x.inode num).mapping) (name : Name)
    (fileType : FileType) : (addDirEntry v inTx num dir i name fileType).Meets s
      (fun r t => Frame s t ∧ OfBlocks r.2 ∧ (view v t.now).Stores v x count i data ∧
        (view v t.now).live = (view v s.now).live) fun _ t => Frame s t ∧ True := by
  have other : i ≠ num := by
    rintro rfl
    exact absurd parent.live (by simp [ready.admits.fresh])
  have extents : (view v s.image).extentsOf dir.mapping = x.extentsOf dir.mapping := by
    rcases ready.image with before | now
    · rw [before]
    · rw [now, copy]
      exact View.extentsOf_congr fun c mem =>
        ready.admits.block c (parent.used c (x.child_subset_mappedBy _ mem))
  refine (addDirEntry_meets ready.via ready.covered low dir i name fileType).mono ?_ fun _ _ failed =>
    ⟨failed.2, trivial⟩
  rintro ⟨dir', held⟩ t ⟨⟨b, slots, place, shown, _⟩ | ⟨_, grows⟩, frame, ofBlocks⟩
  · obtain ⟨mem, _⟩ := firstChange_some place (tryInsertDirEntry_nil i name fileType)
    rw [extents, copy] at mem
    have inUse := parent.used b (mem_append_right _ mem)
    rw [shown]
    refine ⟨frame, ofBlocks, stores.keeps rfl (fun _ inUse => inUse) fun c mapped => ?_, rfl⟩
    refine update_of_ne ?_ ..
    rintro rfl
    rw [stores.fresh c mapped] at inUse
    cases inUse
  · obtain ⟨mid, top, b, log, adds, lays, shown, _⟩ := grows
    have leaks := adds.leaks.trans lays.leaks
    rw [shown]
    exact ⟨frame, ofBlocks, (stores.leaks leaks).writeInode other dir', leaks.live⟩

theorem View.Lays.written {extents : List Extent} (lays : x.Lays y n.mapping extents) :
    ({ y with inode := update y.inode i n } : View).extentsOf n.mapping = extents := by
  rw [← lays.extentsOf]
  exact View.extentsOf_congr fun _ _ => rfl

theorem View.Carries.stores (carries : x.Carries v count [] (buildExtents blocks) (octetsOf data))
    (lays : x.Lays y n.mapping (buildExtents blocks)) (size : n.size = data.length) (once : blocks.Nodup)
    (long : blocks.length = blocksFor v data) (fresh : ∀ b ∈ blocks, before.used b = false)
    (grown : ∀ b, before.used b → x.used b) :
    ({ y with inode := update y.inode i n } : View).Stores v before count i data := by
  constructor
  case carries =>
    simp only [update_self]
    rw [lays.written]
    exact (carries.lays lays).keeps (fun _ inUse => inUse) fun _ _ => rfl
  case size => simpa only [update_self] using size
  case spread =>
    intro lb
    simp only [update_self]
    rw [lays.written, ← long]
    simp only [← (laid_buildExtents once).locate_iff, locate_buildExtents once]
    rw [← Option.isSome_iff_exists, isSome_getElem?]
  case fresh =>
    intro b mem
    rw [View.mapped] at mem
    simp only [update_self] at mem
    rw [View.mappedBy, lays.written, blocksOf_buildExtents] at mem
    rcases mem_append.mp mem with leaf | inBlocks
    · by_contra inUse
      have free := (lays.child b leaf).1
      rw [grown b (Bool.eq_true_of_not_eq_false inUse)] at free
      cases free
    · exact fresh b inBlocks
  case grown => exact fun b inUse => lays.leaks.grown b (grown b inUse)

/-- What `WriteFile` has done when it created inode `i`. -/
structure Created (v : Shape) (s t : FS) (data : Bytes) (i : Nat) : Prop where
  closed : t.tx = none
  count : t.sb.inodesCount = s.sb.inodesCount
  blocks : t.sb.blocksCount = s.sb.blocksCount
  stores : (view v t.now).Stores v (view v s.now) t.sb.blocksCount i data
  only : ∀ j, (view v t.now).live j → (view v s.now).live j ∨ j = i

theorem storeFile_created (quiet : Quiet start) (began : Began inTx start s)
    (padded : ∀ b, start.sb.blocksCount ≤ b → (view v start.now).used b) (positive : 0 < v.blockSize)
    (low : 0 < num) (parent : (view v start.now).Holds num)
    (copy : dir.mapping = ((view v start.now).inode num).mapping) (name : Name) (perm : Nat) :
    (storeFile v inTx num dir name none perm data).Meets s
      (fun _ t => ∃ i, Created v start t data i) fun _ _ => True := by
  refine (storeFile_rule quiet began (fun i y => y.Stores v (view v start.now) start.sb.blocksCount i data ∧
    ∀ j, y.live j → (view v start.now).live j ∨ j = i) (fun _ _ => True) fun i blocks u ready =>
      enterFile_rule ready (fun y => y.Stores v (view v start.now) start.sb.blocksCount i data ∧
        ∀ j, y.live j → (view v start.now).live j ∨ j = i) (fun _ => True) (fun _ => trivial)
      fun m t w lays shown entering => ?_).yields ?_
  · have stores : (view v w.now).Stores v (view v start.now) start.sb.blocksCount i data := by
      rw [shown]
      exact (ready.carries padded positive).stores lays rfl ready.once ready.long ready.free ready.admits.grown
    refine (addDirEntry_stores entering stores low parent copy name .regFile).imp ?_
    rintro _ z ⟨frame, ofBlocks, stores, live⟩
    refine ⟨frame, ofBlocks, stores, ?_⟩
    rw [live]
    exact entering.admits.live
  · rintro _ t ⟨frame, i, -, stores, only⟩
    rw [← frame.blocksCount] at stores
    exact ⟨i, frame.toOuter.closed quiet.closed, frame.inodesCount, frame.blocksCount, stores, only⟩

end

/-- A quiet volume in which `WriteFile` creates a file at the path. -/
structure Creates (v : Shape) (s : FS) (path : Path) : Prop extends Quiet s where
  /-- The bits behind the last block are set. -/
  padded : ∀ b, s.sb.blocksCount ≤ b → (view v s.now).used b
  absent : ∃ num dir name, s.lookupParent v path = .ok (num, dir, name) ∧
    s.findEntry v dir name = .ok none ∧ (view v s.now).Holds num

theorem writeFile_created (creates : Creates v s path) (positive : 0 < v.blockSize) (perm : Nat) :
    (writeFile v path data perm).Meets s (fun _ t => ∃ i, Created v s t data i) fun _ _ => True := by
  obtain ⟨num, dir, name, resolved, absent, parent⟩ := creates.absent
  have read := lookupParent_read resolved
  obtain ⟨low, _, copy⟩ := readInode_ok read
  rw [← now_of_none s creates.closed] at copy
  refine writeFile_begins (fun _ _ => trivial) (fun num' dir' name' search _ => ?_)
    fun num' dir' name' i x search found _ => ?_
  · cases resolved.symm.trans search
    exact storeFile_created creates.toQuiet rfl creates.padded positive low parent
      (congrArg Inode.mapping copy) name perm
  · cases resolved.symm.trans search
    cases absent.symm.trans found

theorem openFile_refines (created : Created v s t data i) :
    (openFile v path).Meets t (fun f u => f.ino = i → Refines v u f data) fun _ _ => True := by
  refine (openFile_opens path).yields ?_
  rintro f _ ⟨rfl, n, extents, opens⟩ rfl
  obtain ⟨low, _, rfl⟩ := readInode_ok (lookupPath_ok opens.found).2
  obtain ⟨listed, _⟩ := parseExtents_ok opens.parsed
  rw [← now_of_none _ created.closed] at listed
  have carries := created.stores.carries
  rw [← listed] at carries
  have sorted := opens.sorted.trans (carries.laid.searchable 0).sorted.insertionSort_eq
  have size := created.stores.size
  rw [now_of_none _ created.closed] at size
  exact ⟨⟨created.closed, low, sorted ▸ carries⟩, opens.size.trans size⟩

/-- Whatever is written through a file that `WriteFile` created and cut off it, reading the file is
reading the array that the same calls make of the data. The inode of the file is the one that came
into use. -/
theorem file_refines_array {u w : FS} {path other : Path} {perm : Nat} {f f' : File} {calls : List FileCall}
    (positive : 0 < v.blockSize) (creates : Creates v s path)
    (wrote : writeFile v path data perm s = (.ok (), t)) (opened : openFile v other t = (.ok f, u))
    (unused : (view v s.now).live f.ino = false) (inUse : (view v t.now).live f.ino)
    (narrow : ∀ call ∈ calls, call.Narrow v) (ran : performAll v calls f u = (.ok f', w)) (off len : Nat) :
    f'.readAt v w off len = readArray (calls.foldl FileCall.onArray data) off len := by
  obtain ⟨i, created⟩ := (writeFile_created creates positive perm).ok wrote
  have same : f.ino = i := (created.only f.ino inUse).resolve_left (by simp [unused])
  have refines := (openFile_refines created).ok opened same
  exact ((refines.performAll positive narrow).ok ran).readAt positive off len

theorem formatted_padded (total : Nat) (label : Bytes) (journal : Bool) (b : Nat) (past : total ≤ b) :
    (view (fmtShape total) (formatted total label journal).now).used b := by
  have divided := Nat.div_add_mod' b fmtBlocksPerGroup
  change (decide (b < 0) || (decide (b % fmtBlocksPerGroup < fmtMetaBlocks total (b / fmtBlocksPerGroup)) ||
    decide (fmtGroupBlocks total (b / fmtBlocksPerGroup) ≤ b % fmtBlocksPerGroup)))
  have outside : fmtGroupBlocks total (b / fmtBlocksPerGroup) ≤ b % fmtBlocksPerGroup := by
    unfold fmtGroupBlocks
    omega
  simp [outside]

/-! A file of three octets that is written behind its end and cut. -/

def threeOctets : Except Err Unit × FS :=
  writeFile (fmtShape 22) ['/', 'a'] [1, 2, 3] 0o644 (formatted 22 [] true)

def threeOpened : Except Err File × FS := openFile (fmtShape 22) ['/', 'a'] threeOctets.2

def threeCalls : List FileCall := [.writeAt [7, 8] 5, .truncate 6]

theorem creates_formatted : Creates (fmtShape 22) (formatted 22 [] true) ['/', 'a'] where
  closed := rfl
  unreserved _ := rfl
  padded := formatted_padded 22 [] true
  absent := by
    refine ⟨rootIno, fmtRootInode 22, ['a'], rfl, rfl, ?_, ?_⟩
    · decide
    · decide

theorem threeOctets_eq : threeOctets = (.ok (), threeOctets.2) := Prog.ended (by decide)

theorem threeOpened_eq : threeOpened = (.ok ⟨11, [⟨0, 21, 1⟩], 3⟩, threeOpened.2) :=
  Prog.ended (by decide)

theorem threeCalls_eq : performAll (fmtShape 22) threeCalls ⟨11, [⟨0, 21, 1⟩], 3⟩ threeOpened.2 =
    (.ok ⟨11, [⟨0, 21, 1⟩], 6⟩,
      (performAll (fmtShape 22) threeCalls ⟨11, [⟨0, 21, 1⟩], 3⟩ threeOpened.2).2) :=
  Prog.ended (by decide)

theorem file_refines_array_three : ∃ f u f' w, threeOpened = (.ok f, u) ∧
    performAll (fmtShape 22) threeCalls f u = (.ok f', w) ∧
    f'.readAt (fmtShape 22) w 0 10 = ([1, 2, 3, 0, 0, 7], some .eof) := by
  have narrow : ∀ call ∈ threeCalls, call.Narrow (fmtShape 22) := by
    intro call mem
    rcases mem_cons.mp mem with rfl | mem
    · exact fun _ => by decide
    · rw [mem_singleton.mp mem]
      trivial
  refine ⟨_, _, _, _, threeOpened_eq, threeCalls_eq, ?_⟩
  exact file_refines_array (by decide) creates_formatted threeOctets_eq threeOpened_eq (by decide)
    (by decide) narrow threeCalls_eq 0 10

/-! ## After `Shrink`

`Shrink` into the middle of a group leaves the bits behind the new end clear. -/

/-- A volume formatted with 65536 blocks and cut to so many of its second group: only the superblock
has changed, and the bits of the blocks that were cut off stay clear. -/
def afterShrink (blocks : Nat) : FS :=
  let sb := { fmtCounters 65536 [] with
    blocksCount := blocks
    freeBlocks := (fmtCounters 65536 []).freeBlocks - (65536 - blocks) }
  let image : Image := Function.update (fmtImage 65536 []) .super ⟨sb, none⟩
  { formatted 65536 [] true with
    device := ⟨image, [], image, rfl⟩
    sb := sb }

def shrunkOpened : Except Err File × FS :=
  (do
    writeFile (fmtShape 65536) ['/', 'a'] [1, 2, 3] 0o644
    openFile (fmtShape 65536) ['/', 'a'] : Prog FS Err File) (afterShrink 32789)

/-- The second block of the file is the first one past the end: it is written, and cannot be read. -/
theorem shrunk_write_unreadable : ∃ f u f' w, shrunkOpened = (.ok f, u) ∧
    performAll (fmtShape 65536) [.writeAt [9] 4096] f u = (.ok f', w) ∧
    f'.readAt (fmtShape 65536) w 4096 1 = ([], some (.error .outOfRange)) ∧
    readArray ([FileCall.writeAt [9] 4096].foldl FileCall.onArray [1, 2, 3]) 4096 1 = ([9], none) := by
  have opened : shrunkOpened = (.ok ⟨11, [⟨0, 32788, 1⟩], 3⟩, shrunkOpened.2) :=
    Prog.ended (by decide +kernel)
  have written : performAll (fmtShape 65536) [.writeAt [9] 4096] ⟨11, [⟨0, 32788, 1⟩], 3⟩ shrunkOpened.2 =
      (.ok ⟨11, [⟨0, 32788, 2⟩], 4097⟩,
        (performAll (fmtShape 65536) [.writeAt [9] 4096] ⟨11, [⟨0, 32788, 1⟩], 3⟩ shrunkOpened.2).2) :=
    Prog.ended (by decide +kernel)
  refine ⟨_, _, _, _, opened, written, ?_, ?_⟩
  all_goals decide +kernel

end Ext4.Volume
