import Ext4.Volume.DirTable
import Ext4.Volume.Reopening

/-! A directory under any sequence of insertions and deletions.
What `MkDir` leaves is a directory whose records are tidy; adding an entry, in a block that is there
or in a block more, and freeing one keep it so, and do to the names it lists what they would do to a
map. -/

namespace Ext4.Volume
open Octets Alloc Store Slots List Function

variable {v : Shape} {s t : FS} {x y z : View} {num ino b : Nat} {dir : Inode} {name : Name}
  {fileType : FileType} {extents : List Extent} {slots : List Slot}

structure View.Readable (x : View) (count : Nat) (m : Mapping) : Prop where
  lists : x.Lists m (x.extentsOf m)
  laid : Laid (x.extentsOf m)
  child : ∀ c ∈ m.child, c ≠ 0 ∧ c < count

/-- The directory `num` can be read and extended. -/
structure View.Parent (x : View) (count num : Nat) : Prop where
  /-- Neither block 0 nor a block past the end can be allocated. -/
  origin : x.used 0
  padded : ∀ b, count ≤ b → x.used b
  alive : x.live num
  readable : x.Readable count (x.inode num).mapping
  used : ∀ b ∈ x.mapped num, x.used b
  once : (x.mapped num).Nodup

/-- The directory `num`, whose inode is in memory, with tidy records. -/
structure Directory (v : Shape) (s : FS) (num : Nat) (dir : Inode) : Prop extends Healthy v s where
  /-- Neither block 0 nor a block past the end can be allocated. -/
  origin : (view v s.now).used 0
  padded : ∀ b, s.sb.blocksCount ≤ b → (view v s.now).used b
  alive : (view v s.now).live num
  current : dir = (view v s.now).inode num
  readable : (view v s.now).Readable s.sb.blocksCount dir.mapping
  tidy : Tidy ((view v s.now).records dir.mapping)

def FS.names (v : Shape) (s : FS) (dir : Inode) : Name → Option (Nat × FileType) :=
  namesOf ((view v s.now).records dir.mapping)

/-! ## Reading -/

variable {m : Mapping}

theorem View.Readable.parses (readable : (view v s.image).Readable s.sb.blocksCount m) :
    s.parseExtents m = .ok ((view v s.image).extentsOf m) := by
  have valid := readable.laid.validates
  rcases readable.lists with inline | ⟨c, index, leaf⟩
  · rw [inline] at valid ⊢
    exact valid
  · obtain ⟨nonzero, bound⟩ := readable.child c (by rw [index]; exact mem_singleton_self c)
    have block : s.image (.block c) = .leaf ((view v s.image).extentsOf m) := leaf
    rw [index] at block valid ⊢
    rw [FS.parseExtents, if_neg (by omega), block]
    exact valid

theorem View.Readable.readDir (readable : (view v s.now).Readable s.sb.blocksCount dir.mapping)
    (closed : s.tx = none) : s.readDir dir = .ok (listing ((view v s.now).records dir.mapping)) := by
  rw [FS.now_of_none s closed] at readable ⊢
  have parsed := readable.parses
  have read : s.readExtents dir.mapping = .ok ((view v s.image).extentsOf dir.mapping) := by
    rcases readable.lists with inline | ⟨c, index, _⟩
    · rw [inline] at parsed ⊢
      exact parsed
    · rw [index] at parsed ⊢
      exact parsed
  unfold FS.readDir
  rw [read]
  exact congrArg Except.ok (listing_flatMap _ _)

theorem Directory.mem_readDir (directory : Directory v s num dir) : ∃ entries, s.readDir dir = .ok entries ∧
    (entries.map Entry.name).Nodup ∧ ∀ e, e ∈ entries ↔ s.names v dir e.name = some (e.ino, e.fileType) :=
  ⟨_, directory.readable.readDir directory.closed, directory.tidy.names_nodup, directory.tidy.mem_listing⟩

/-! ## What keeps the directory -/

theorem View.readable_single (x : View) (count b : Nat) : x.Readable count (.inline [⟨0, b, 1⟩]) := by
  refine ⟨.inl rfl, ⟨pairwise_singleton _ _, ?_, ?_⟩, fun c leaf => absurd leaf not_mem_nil⟩
  · exact forall_mem_singleton.mpr Nat.one_pos
  · change (blocksOf [⟨0, b, 1⟩]).Nodup
    rw [blocksOf_single]
    exact nodup_singleton b

variable {count : Nat}

theorem View.Readable.congr (readable : x.Readable count m)
    (same : ∀ c ∈ m.child, y.block c = x.block c) : y.Readable count m := by
  have extents := View.extentsOf_congr same
  refine ⟨?_, ?_, readable.child⟩ <;> rw [extents]
  · exact readable.lists.congr same
  · exact readable.laid

theorem Directory.parent (directory : Directory v s num dir) :
    (view v s.now).Parent s.sb.blocksCount num where
  origin := directory.origin
  padded := directory.padded
  alive := directory.alive
  readable := directory.current ▸ directory.readable
  used := directory.owned.used num directory.alive
  once := directory.owned.once num directory.alive

variable {old : List Slot}

theorem View.Readable.patch (readable : x.Readable count m) (was : x.block b = .slots old)
    (slots : List Slot) : View.Readable { x with block := update x.block b (.slots slots) } count m := by
  have extents : View.extentsOf { x with block := update x.block b (.slots slots) } m =
      x.extentsOf m := View.extentsOf_slots was m
  refine ⟨?_, by rw [extents]; exact readable.laid, readable.child⟩
  rw [extents]
  rcases readable.lists with inline | ⟨c, index, leaf⟩
  · exact .inl inline
  · refine .inr ⟨c, index, (update_of_ne ?_ ..).trans leaf⟩
    rintro rfl
    cases was.symm.trans leaf

theorem View.Parent.patch (parent : x.Parent count num) (was : x.block b = .slots old) (slots : List Slot) :
    View.Parent { x with block := update x.block b (.slots slots) } count num := by
  have mapped : View.mapped { x with block := update x.block b (.slots slots) } num = x.mapped num :=
    View.mappedBy_slots was _
  constructor
  case origin => exact parent.origin
  case padded => exact parent.padded
  case alive => exact parent.alive
  case readable => exact parent.readable.patch was slots
  case used => exact mapped ▸ parent.used
  case once => exact mapped ▸ parent.once

/-- The directory's inode and blocks are as they were, and every block in use still is. -/
theorem Directory.kept (directory : Directory v s num dir) (healthy : Healthy v t)
    (blocks : t.sb.blocksCount = s.sb.blocksCount)
    (grown : ∀ b, (view v s.now).used b → (view v t.now).used b) (alive : (view v t.now).live num)
    (inode : (view v t.now).inode num = dir)
    (same : ∀ b ∈ (view v s.now).mapped num, (view v t.now).block b = (view v s.now).block b) :
    Directory v t num dir ∧ t.names v dir = s.names v dir := by
  rw [View.mapped, ← directory.current] at same
  have records := View.records_congr same
  constructor
  · constructor
    case toHealthy => exact healthy
    case origin => exact grown 0 directory.origin
    case padded => exact fun b past => grown b (directory.padded b (blocks ▸ past))
    case alive => exact alive
    case current => exact inode.symm
    case readable =>
      rw [blocks]
      exact directory.readable.congr fun c leaf => same c (View.child_subset_mappedBy _ _ leaf)
    case tidy =>
      rw [records]
      exact directory.tidy
  · rw [FS.names, FS.names, records]

theorem Directory.leaks (directory : Directory v s num dir) (frame : Frame s t)
    (leaks : (view v s.now).Leaks (view v t.now)) :
    Directory v t num dir ∧ t.names v dir = s.names v dir := by
  refine directory.kept (directory.toHealthy.leaks frame leaks) frame.blocksCount leaks.grown
    (leaks.live ▸ directory.alive) (by rw [leaks.inode, ← directory.current]) fun b mem => ?_
  exact leaks.block b (directory.owned.used num directory.alive b mem)

theorem View.records_patch (x : View) (m : Mapping) (was : x.block b = .slots old) :
    View.records { x with block := update x.block b (.slots slots) } m =
      (blocksOf (x.extentsOf m)).flatMap fun c => (update x.block b (.slots slots) c).records := by
  rw [View.records, View.extentsOf_slots was]

section
variable {change : List Slot → Option (List Slot)} {admitted : Slot → Prop}

theorem Directory.change_records (directory : Directory v s num dir) (splits : Splits change admitted)
    (empty : change [] = none) (good : ∀ slot, slot.Roomy → admitted slot) :
    change ((view v s.now).records dir.mapping) =
      (firstChange (view v s.now).block change (blocksOf ((view v s.now).extentsOf dir.mapping))).map
        fun place => (blocksOf ((view v s.now).extentsOf dir.mapping)).flatMap fun b =>
          (update (view v s.now).block place.1 (.slots place.2) b).records := by
  have once := directory.owned.once num directory.alive
  rw [View.mapped, ← directory.current] at once
  exact firstChange_records splits empty once.of_append_right fun c inside slot listed =>
    good slot (directory.tidy.roomy slot (mem_flatMap.mpr ⟨c, inside, listed⟩))

theorem Directory.patch (directory : Directory v s num dir) (frame : Frame s t)
    (splits : Splits change admitted) (empty : change [] = none) (good : ∀ slot, slot.Roomy → admitted slot)
    (place : firstChange (view v s.now).block change
      (blocksOf ((view v s.now).extentsOf dir.mapping)) = some (b, slots))
    (shown : view v t.now = { view v s.now with
      block := update (view v s.now).block b (.slots slots) })
    (tidies : ∀ new, change ((view v s.now).records dir.mapping) = some new → Tidy new) :
    Directory v t num dir ∧
      change ((view v s.now).records dir.mapping) = some ((view v t.now).records dir.mapping) := by
  obtain ⟨_, old, was, _⟩ := firstChange_some place empty
  have changed : change ((view v s.now).records dir.mapping) = some ((view v t.now).records dir.mapping) := by
    rw [shown, View.records_patch _ _ was, directory.change_records splits empty good, place]
    rfl
  refine ⟨?_, changed⟩
  have owned := directory.owned.writeSlots was slots
  rw [← shown] at owned
  constructor
  case toHealthy => exact directory.toHealthy.frame frame owned
  case origin =>
    rw [shown]
    exact directory.origin
  case padded =>
    rw [shown, frame.blocksCount]
    exact directory.padded
  case alive =>
    rw [shown]
    exact directory.alive
  case current =>
    rw [shown]
    exact directory.current
  case readable =>
    rw [shown, frame.blocksCount]
    exact directory.readable.patch was slots
  case tidy => exact tidies _ changed

end

/-! ## One more block -/

theorem le_nextLogBlock (laid : Laid extents) : ∀ e ∈ extents, e.logBlock + e.count ≤ nextLogBlock extents := by
  intro e mem
  have some := ne_nil_of_mem mem
  rw [nextLogBlock, getLast?_eq_getLast_of_ne_nil some]
  have ordered := laid.ordered
  rw [← dropLast_append_getLast some] at ordered mem
  rcases mem_append.mp mem with before | last
  · have := (pairwise_append.mp ordered).2.2 e before _ (mem_singleton_self _)
    dsimp only
    omega
  · rw [mem_singleton.mp last]

theorem Laid.concat (laid : Laid extents) (fresh : b ∉ blocksOf extents) :
    Laid (extents ++ [⟨nextLogBlock extents, b, 1⟩]) where
  ordered := by
    refine pairwise_append.mpr ⟨laid.ordered, pairwise_singleton _ _, fun e mem f last => ?_⟩
    rw [mem_singleton.mp last]
    exact le_nextLogBlock laid e mem
  full e mem := by
    rcases mem_append.mp mem with before | last
    · exact laid.full e before
    · rw [mem_singleton.mp last]
      exact Nat.one_pos
  once := by
    rw [blocksOf_append, blocksOf_single]
    exact nodup_append'.mpr ⟨laid.once, nodup_singleton b,
      fun c before last => fresh (mem_singleton.mp last ▸ before)⟩

variable {dir' : Inode} {slot : Slot} {state : DirState}

theorem View.Parent.grows (parent : x.Parent count num) (mapping : dir.mapping = (x.inode num).mapping)
    (grows : x.Grows y num dir dir' (x.extentsOf dir.mapping) slot) :
    y.Parent count num ∧ y.records (y.inode num).mapping = x.records (x.inode num).mapping ++ [slot] ∧
      ∀ c ∈ y.mapped num, c ∈ x.mapped num ∨ x.used c = false := by
  rw [mapping] at grows
  obtain ⟨mid, top, b, log, adds, lays, shown, _, _, _, rfl⟩ := grows
  have leaks := adds.leaks.trans lays.leaks
  have inUse : ∀ c ∈ blocksOf (x.extentsOf (x.inode num).mapping), x.used c := fun c mem =>
    parent.used c (mem_append_right _ mem)
  have fresh : b ∉ blocksOf (x.extentsOf (x.inode num).mapping) := by
    intro mem
    have used := inUse b mem
    rw [adds.fresh] at used
    cases used
  have inode : y.inode num = dir' := by
    rw [shown]
    dsimp only
    rw [update_self]
  have extents : y.extentsOf dir'.mapping = x.extentsOf (x.inode num).mapping ++
      [⟨nextLogBlock (x.extentsOf (x.inode num).mapping), b, 1⟩] := by
    rw [shown, ← lays.extentsOf]
    exact View.extentsOf_congr fun _ _ => rfl
  have mapped : y.mapped num = dir'.mapping.child ++
      (blocksOf (x.extentsOf (x.inode num).mapping) ++ [b]) := by
    rw [View.mapped, inode, View.mappedBy, extents, blocksOf_append, blocksOf_single]
  have before : ∀ c ∈ blocksOf (x.extentsOf (x.inode num).mapping) ++ [b], mid.used c := by
    intro c mem
    rcases mem_append.mp mem with old | last
    · exact adds.grown c (inUse c old)
    · rw [mem_singleton.mp last]
      exact adds.marked
  refine ⟨?_, ?_, ?_⟩
  · constructor
    case origin =>
      rw [shown]
      exact leaks.grown 0 parent.origin
    case padded =>
      rw [shown]
      exact fun c past => leaks.grown c (parent.padded c past)
    case alive =>
      rw [shown]
      exact leaks.live ▸ parent.alive
    case readable =>
      rw [inode]
      constructor
      case lists =>
        rw [extents, shown]
        exact lays.lists.congr fun _ _ => rfl
      case laid =>
        rw [extents]
        exact parent.readable.laid.concat fresh
      case child =>
        intro c leaf
        -- The leaf block was free.
        have free : x.used c = false := adds.leaks.free (lays.child c leaf).1
        constructor
        · rintro rfl
          rw [parent.origin] at free
          cases free
        · by_contra past
          rw [parent.padded c (Nat.le_of_not_lt past)] at free
          cases free
    case used =>
      rw [mapped, shown]
      intro c mem
      rcases mem_append.mp mem with leaf | rest
      · exact (lays.child c leaf).2
      · exact lays.leaks.grown c (before c rest)
    case once =>
      rw [mapped]
      refine nodup_append'.mpr ⟨Mapping.nodup_child _, nodup_append'.mpr
        ⟨parent.once.of_append_right, nodup_singleton b, ?_⟩, fun c leaf rest => ?_⟩
      · exact fun c old last => fresh (mem_singleton.mp last ▸ old)
      · have free := (lays.child c leaf).1
        rw [before c rest] at free
        cases free
  · have last : y.block b = .slots [slot] := by
      rw [shown]
      exact (lays.leaks.block b adds.marked).trans (by rw [adds.block, update_self])
    rw [inode, View.records, extents, blocksOf_append, blocksOf_single, flatMap_append,
      flatMap_singleton, last]
    refine congrArg (· ++ [slot]) (flatMap_congr fun c inside => ?_)
    rw [shown]
    exact congrArg Block.records (leaks.block c (inUse c inside))
  · rw [mapped]
    intro c mem
    rcases mem_append.mp mem with leaf | rest
    · exact .inr (adds.leaks.free (lays.child c leaf).1)
    · rcases mem_append.mp rest with old | last
      · exact .inl (mem_append_right _ old)
      · rw [mem_singleton.mp last]
        exact .inr adds.fresh

theorem Directory.grows (directory : Directory v s num dir) (frame : Frame s t)
    (grows : (view v s.now).Grows (view v t.now) num dir dir' ((view v s.now).extentsOf dir.mapping) slot)
    (roomy : slot.Roomy) (other : ∀ a ∈ (view v s.now).records dir.mapping, a.name ≠ slot.name) :
    Directory v t num dir' ∧
      (view v t.now).records dir'.mapping = (view v s.now).records dir.mapping ++ [slot] := by
  have owned := directory.owned.grows grows fun _ => by rw [← directory.current]
  obtain ⟨parent, records, _⟩ := directory.parent.grows (by rw [← directory.current]) grows
  have inode : (view v t.now).inode num = dir' := by
    obtain ⟨_, _, _, _, _, _, shown, _⟩ := grows
    rw [shown]
    dsimp only
    rw [update_self]
  rw [inode, ← directory.current] at records
  refine ⟨?_, records⟩
  constructor
  case toHealthy => exact directory.toHealthy.frame frame owned
  case origin => exact parent.origin
  case padded =>
    rw [frame.blocksCount]
    exact parent.padded
  case alive => exact parent.alive
  case current => exact inode.symm
  case readable =>
    rw [frame.blocksCount, ← inode]
    exact parent.readable
  case tidy =>
    rw [records]
    exact directory.tidy.concat roomy other

/-! ## The calls -/

theorem Fit.roomy (fit : Fit ino name) (big : 1024 ≤ v.blockSize) :
    (newSlot ino (v.blockSize - 12) name fileType).Roomy := by
  have short := fit.short
  rw [fit.newSlot_eq]
  refine ⟨fit.some, ?_⟩
  unfold minDirentSize
  dsimp only
  omega

theorem Directory.addDirEntry (directory : Directory v s num dir) (big : 1024 ≤ v.blockSize)
    (fit : Fit ino name) (absent : s.names v dir name = none) :
    (addDirEntry v false num dir ino name fileType).Meets s (fun r t => Directory v t num r.1 ∧
        t.names v r.1 = update (s.names v dir) name (some (ino, fileType)))
      fun _ t => Directory v t num dir ∧ t.names v dir = s.names v dir := by
  have closed := directory.closed
  have inserts := addDirEntry_meets (v := v) (by rw [closed]; rfl : s.tx.isSome = false)
    (covered_of_none closed) (live_pos directory.alive) dir ino name fileType
  rw [← FS.now_of_none s closed] at inserts
  refine inserts.mono ?_ fun _ _ failed => directory.leaks failed.2 failed.1
  have empty := tryInsertDirEntry_nil ino name fileType
  rintro ⟨dir', held⟩ t ⟨⟨b, slots, place, shown, rfl⟩ | ⟨full, grows⟩, frame, _⟩
  · obtain ⟨directory', changed⟩ := directory.patch frame tryInsertDirEntry_splits empty (fun _ => id) place
      shown fun new inserted => (tryInsertDirEntry_tidy fit directory.tidy absent inserted).1
    exact ⟨directory', (tryInsertDirEntry_tidy fit directory.tidy absent changed).2⟩
  · -- No block has room, so no record of that name is left over either.
    have none_ := directory.change_records tryInsertDirEntry_splits empty fun _ => id
    rw [full, Option.map_none] at none_
    have other := tryInsertDirEntry_none directory.tidy absent none_
    have named : (newSlot ino (v.blockSize - 12) name fileType).name = name := by rw [fit.newSlot_eq]
    obtain ⟨directory', records⟩ := directory.grows frame grows (fit.roomy big)
      fun a mem => named.symm ▸ other a mem
    refine ⟨directory', ?_⟩
    rw [FS.names, records, namesOf, table_concat fun a mem => named.symm ▸ other a mem, fit.newSlot_eq,
      fit.held]
    rfl

theorem Directory.zeroDirEntry (directory : Directory v s num dir) (name : Name) :
    (zeroDirEntry dir name).Meets s
      (fun _ t => Directory v t num dir ∧ t.names v dir = update (s.names v dir) name none)
      fun _ t => Directory v t num dir ∧ t.names v dir = s.names v dir := by
  refine (changeDir_meets (v := v) directory.closed dir (zeroEntryInBlock name)).mono ?_ ?_
  · rintro _ t (⟨b, slots, place, shown, frame⟩ | ⟨missed, rfl⟩)
    · obtain ⟨directory', changed⟩ := directory.patch frame zeroEntryInBlock_splits rfl (fun _ _ => trivial) place
        shown fun new freed => (zeroEntryInBlock_tidy directory.tidy freed).1
      exact ⟨directory', (zeroEntryInBlock_tidy directory.tidy changed).2⟩
    · refine ⟨directory, ?_⟩
      have none_ := directory.change_records (@zeroEntryInBlock_splits name) rfl fun _ _ => trivial
      rw [missed, Option.map_none] at none_
      have absent : t.names v dir name = none := zeroEntryInBlock_none directory.tidy none_
      rw [← absent, update_eq_self]
  · rintro e t rfl
    exact ⟨directory, rfl⟩

inductive DirCall where
  | add (ino : Nat) (name : Name) (fileType : FileType)
  | zero (name : Name)

structure DirState where
  fs : FS
  dir : Inode
  names : Name → Option (Nat × FileType)

def DirCall.perform (v : Shape) (num : Nat) (dir : Inode) : DirCall → Prog FS Err Inode
  | .add ino name fileType => do
      let (dir, _) ← Volume.addDirEntry v false num dir ino name fileType
      pure dir
  | .zero name => do
      Volume.zeroDirEntry dir name
      pure dir

def DirCall.onNames (names : Name → Option (Nat × FileType)) : DirCall → Name → Option (Nat × FileType)
  | .add ino name fileType => update names name (some (ino, fileType))
  | .zero name => update names name none

def DirState.step (v : Shape) (num : Nat) (state : DirState) (call : DirCall) : DirState :=
  match call.perform v num state.dir state.fs with
  | (.ok dir, t) => ⟨t, dir, call.onNames state.names⟩
  | (.error _, t) => ⟨t, state.dir, state.names⟩

def DirCall.Proper (names : Name → Option (Nat × FileType)) : DirCall → Prop
  | .add ino name _ => Fit ino name ∧ names name = none
  | .zero _ => True

def DirState.ProperAll (v : Shape) (num : Nat) : DirState → List DirCall → Prop
  | _, [] => True
  | state, call :: rest => call.Proper state.names ∧ (state.step v num call).ProperAll v num rest

structure DirState.Agrees (v : Shape) (num : Nat) (state : DirState) : Prop where
  directory : Directory v state.fs num state.dir
  names : state.fs.names v state.dir = state.names

theorem DirState.Agrees.step (agrees : state.Agrees v num) (big : 1024 ≤ v.blockSize) {call : DirCall}
    (proper : call.Proper state.names) : (state.step v num call).Agrees v num := by
  have meets : (call.perform v num state.dir).Meets state.fs
      (fun dir t => Directory v t num dir ∧ t.names v dir = call.onNames state.names)
      fun _ t => Directory v t num state.dir ∧ t.names v state.dir = state.names := by
    rw [← agrees.names] at proper ⊢
    cases call with
    | add ino name fileType =>
      exact (agrees.directory.addDirEntry big proper.1 proper.2).step fun _ _ after => after
    | zero name =>
      exact (agrees.directory.zeroDirEntry name).step fun _ _ after => after
  unfold DirState.step
  cases ran : call.perform v num state.dir state.fs with
  | mk result t =>
    cases result with
    | ok dir => exact ⟨(meets.ok ran).1, (meets.ok ran).2⟩
    | error e => exact ⟨(meets.error ran).1, (meets.error ran).2⟩

theorem DirState.Agrees.run (agrees : state.Agrees v num) (big : 1024 ≤ v.blockSize)
    {calls : List DirCall} (proper : state.ProperAll v num calls) :
    (calls.foldl (DirState.step v num) state).Agrees v num := by
  induction calls generalizing state with
  | nil => exact agrees
  | cons call rest ih => exact ih (agrees.step big proper.1) proper.2

/-! ## The new directory -/

theorem View.Inserts.others {m : View} {change : List Slot → Option (List Slot)}
    (inserts : m.Inserts x y num dir dir' change slot) (empty : change [] = none) :
    (∀ j, j ≠ num → y.inode j = x.inode j) ∧ y.live = x.live ∧ (∀ c, x.used c → y.used c) ∧
      ∀ c, x.used c → c ∉ blocksOf (m.extentsOf dir.mapping) → y.block c = x.block c := by
  obtain ⟨b, slots, place, rfl, _⟩ | ⟨_, mid, top, b, log, adds, lays, rfl, _⟩ := inserts
  · refine ⟨fun _ _ => rfl, rfl, fun _ inUse => inUse, fun c _ outside => update_of_ne ?_ ..⟩
    rintro rfl
    exact outside (firstChange_some place empty).1
  · have leaks := adds.leaks.trans lays.leaks
    exact ⟨fun j other => (update_of_ne other ..).trans (congrFun leaks.inode j), leaks.live,
      leaks.grown, fun c inUse _ => leaks.block c inUse⟩

/-- Inode `i` is a new directory with block `b`. -/
structure View.NewDir (x y : View) (v : Shape) (i num b perm : Nat) : Prop where
  fresh : x.live i = false
  alive : y.live i
  only : ∀ j, y.live j → x.live j ∨ j = i
  inode : y.inode i = dirInode v perm b
  block : y.block b = dirBlock v i num
  grown : ∀ c, x.used c → y.used c

variable {i : Nat} {inTx : Bool}

/-- Where the entry of a new directory is put: the parent is read as it was before the call, so its
blocks were in use before the new one was taken. -/
theorem addDirEntry_beside (ready : DirReady v inTx x i b s) (low : 0 < num) (dir : Inode) (name : Name)
    (perm : Nat) : (addDirEntry v inTx num dir i name .dir).Meets
      ((s.writeBlock b (dirBlock v i num)).writeInode v i (dirInode v perm b))
      (fun r t => OfBlocks r.2 ∧ Frame s t ∧ ∃ m y, (m = x ∨ m = y) ∧ x.Admits y i ∧
        y.inode i = dirInode v perm b ∧ y.block b = dirBlock v i num ∧ y.used b ∧ y.live i ∧
        m.Inserts y (view v t.now) num dir r.1 (tryInsertDirEntry i name .dir)
          (newSlot i (v.blockSize - 12) name .dir))
      fun _ t => Frame s t ∧ ∃ y, x.Admits y i ∧ y.Leaks (view v t.now) := by
  obtain ⟨frame, entering, written⟩ := ready.written num perm
  refine (addDirEntry_meets entering.via entering.covered low dir i name .dir).mono ?_
    fun _ _ failed => ⟨frame.trans failed.2, _, entering.admits, failed.1⟩
  rintro r t ⟨inserts, frame', ofBlocks⟩
  refine ⟨ofBlocks, frame.trans frame', _, _, entering.image, entering.admits, ?_, ?_, ?_, entering.marked,
    inserts⟩ <;> rw [written]
  · exact update_self ..
  · exact update_self ..
  · exact ready.inUse

theorem addDirEntry_spares_newDir (ready : DirReady v inTx x i b s) (owned : x.Owned) (alive : x.live num)
    (mapping : dir.mapping = (x.inode num).mapping) (name : Name) (perm : Nat) :
    (addDirEntry v inTx num dir i name .dir).Meets
      ((s.writeBlock b (dirBlock v i num)).writeInode v i (dirInode v perm b))
      (fun r t => OfBlocks r.2 ∧ ∀ n : Inode, n.mapping = r.1.mapping → n.kind = r.1.kind →
        Frame s (t.writeInode v num n) ∧ x.NewDir (view v (t.writeInode v num n).now) v i num b perm)
      fun _ t => Frame s t ∧ True := by
  have other : i ≠ num := by
    rintro rfl
    rw [ready.admits.fresh] at alive
    cases alive
  have low : 0 < num := live_pos (ready.admits.kept num alive)
  refine (addDirEntry_beside ready low dir name perm).mono ?_ fun _ _ failed => ⟨failed.1, trivial⟩
  rintro r t ⟨ofBlocks, frame, m, y, read, admits, inode, block, inUse, marked, inserts⟩
  refine ⟨ofBlocks, fun n _ _ => ?_⟩
  have extents : m.extentsOf dir.mapping = x.extentsOf dir.mapping := by
    rcases read with rfl | rfl
    · rfl
    · refine View.extentsOf_congr fun c leaf => admits.block c ?_
      rw [mapping] at leaf
      exact owned.used num alive c (View.child_subset_mappedBy _ _ leaf)
  have outside : b ∉ blocksOf (m.extentsOf dir.mapping) := by
    rw [extents, mapping]
    intro mem
    have taken := owned.used num alive b (mem_append_right _ mem)
    rw [ready.free] at taken
    cases taken
  obtain ⟨inodes, live, grown, blocks⟩ := inserts.others (tryInsertDirEntry_nil i name .dir)
  obtain ⟨shown, recorded⟩ := FS.writeInode_spec low n
  refine ⟨frame.trans recorded, ?_⟩
  rw [shown]
  constructor
  case fresh => exact admits.fresh
  case alive => exact live ▸ marked
  case only => exact live ▸ admits.live
  case inode => exact (update_of_ne other ..).trans ((inodes i other).trans inode)
  case block => exact (blocks b inUse outside).trans block
  case grown => exact fun c before => grown c (admits.grown c before)

theorem makeDir_newDir (healthy : Healthy v s) (linked : (view v s.now).Linked s.sb.inodesCount) (path : Path)
    (perm : Nat) : (makeDir v path perm).Meets s
      (fun _ t => Healthy v t ∧ t.sb.blocksCount = s.sb.blocksCount ∧
        ∃ num dir name, s.lookupParent v path = .ok (num, dir, name) ∧
          ∃ i b, (view v s.now).NewDir (view v t.now) v i num b perm) fun _ _ => True := by
  have made : (makeDir v path perm).Meets s
      (fun _ t => t.sb.blocksCount = s.sb.blocksCount ∧
        ∃ num dir name, s.lookupParent v path = .ok (num, dir, name) ∧
          ∃ i b, (view v s.now).NewDir (view v t.now) v i num b perm) fun _ _ => True := by
    refine makeDir_begins (fun _ _ => trivial) fun num dir name _ search _ _ => ?_
    have known := healthy.parent linked search
    refine (newDir_rule healthy.toQuiet name perm
      (fun i b y => (view v s.now).NewDir y v i num b perm) (fun _ _ _ => True)
      fun inTx copy i b u mapping _ ready _ => addDirEntry_spares_newDir ready healthy.owned known.alive
        (mapping.trans known.mapping) name perm).yields ?_
    rintro _ t ⟨frame, i, b, _, new⟩
    exact ⟨frame.blocksCount, num, dir, name, search, i, b, new⟩
  exact ((makeDir_placed healthy (fun num dir name search => (healthy.parent linked search).alive) perm).and
    made).yields fun _ _ both => ⟨both.1.entered.healthy, both.2⟩

theorem dirBlock_tidy (big : 1024 ≤ v.blockSize) (tail : v.dirTail ≤ 12) :
    Tidy (dirBlock v i num).records := by
  refine ⟨?_, pairwise_pair.mpr fun same => by cases same⟩
  intro slot mem
  rcases mem_pair.mp mem with rfl | rfl
  · exact ⟨(by decide : dot ≠ []), (by decide : minDirentSize 1 ≤ 12)⟩
  · refine ⟨(by decide : dotDot ≠ []), ?_⟩
    change minDirentSize 2 ≤ v.blockSize - 12 - v.dirTail
    unfold minDirentSize
    omega

def newNames (self parent : Nat) : Name → Option (Nat × FileType) :=
  update (update (fun _ => none) dotDot (some (parent, .dir))) dot (some (self, .dir))

theorem names_dirBlock (self : 0 < i) (parent : 0 < num) : namesOf (dirBlock v i num).records = newNames i num := by
  funext k
  change (if dot = k then Slot.held ⟨i, 12, dot, .dir⟩ else
    if dotDot = k then Slot.held ⟨num, _, dotDot, .dir⟩ else none) = _
  simp only [newNames, update_apply, eq_comm]
  rw [Slot.held, Slot.held, if_neg self.ne', if_neg parent.ne']

variable {perm : Nat}

theorem View.NewDir.records (new : x.NewDir y v i num b perm) :
    y.records (y.inode i).mapping = (dirBlock v i num).records := by
  rw [new.inode, View.records]
  change ((blocksOf [⟨0, b, 1⟩]).flatMap fun c => (y.block c).records) = _
  rw [blocksOf_single, flatMap_singleton, new.block]

theorem View.NewDir.agrees (new : (view v s.now).NewDir (view v t.now) v i num b perm) (healthy : Healthy v t)
    (count : t.sb.blocksCount = s.sb.blocksCount) (big : 1024 ≤ v.blockSize) (tail : v.dirTail ≤ 12)
    (origin : (view v s.now).used 0) (padded : ∀ b, s.sb.blocksCount ≤ b → (view v s.now).used b)
    (parent : (view v s.now).live num) :
    DirState.Agrees v i ⟨t, (view v t.now).inode i, newNames i num⟩ := by
  have mapping : ((view v t.now).inode i).mapping = .inline [⟨0, b, 1⟩] := by rw [new.inode]; rfl
  constructor
  case names =>
    change namesOf ((view v t.now).records ((view v t.now).inode i).mapping) = _
    rw [new.records, names_dirBlock (live_pos new.alive) (live_pos parent)]
  case directory =>
    constructor
    case toHealthy => exact healthy
    case origin => exact new.grown 0 origin
    case padded => exact fun c past => new.grown c (padded c (count ▸ past))
    case alive => exact new.alive
    case current => rfl
    case readable =>
      dsimp only
      rw [mapping]
      exact View.readable_single _ _ b
    case tidy =>
      rw [new.records]
      exact dirBlock_tidy big tail

/-- A directory made by `MkDir` is a finite map: after any insertions of names that are not there and
any deletions, whether they succeed or fail, `readDir` lists the entries of the map that the calls
which succeeded make, each name once. -/
theorem directory_is_map {path : Path} (big : 1024 ≤ v.blockSize) (tail : v.dirTail ≤ 12)
    (healthy : Healthy v s) (linked : (view v s.now).Linked s.sb.inodesCount)
    (origin : (view v s.now).used 0) (padded : ∀ b, s.sb.blocksCount ≤ b → (view v s.now).used b)
    (search : s.lookupParent v path = .ok (num, dir, name)) (made : makeDir v path perm s = (.ok (), t))
    (unused : (view v s.now).live i = false) (inUse : (view v t.now).live i) (calls : List DirCall)
    (proper : DirState.ProperAll v i ⟨t, (view v t.now).inode i, newNames i num⟩ calls) :
    let final := calls.foldl (DirState.step v i) ⟨t, (view v t.now).inode i, newNames i num⟩
    final.dir = (view v final.fs.now).inode i ∧
      ∃ entries, final.fs.readDir final.dir = .ok entries ∧ (entries.map Entry.name).Nodup ∧
        ∀ e, e ∈ entries ↔ final.names e.name = some (e.ino, e.fileType) := by
  obtain ⟨healthy', count, num', dir', name', search', i', b, new⟩ :=
    (makeDir_newDir healthy linked path perm).ok made
  obtain ⟨rfl, _⟩ := Prod.mk.inj (Except.ok.inj (search.symm.trans search'))
  obtain rfl : i = i' := (new.only i inUse).resolve_left (by simp [unused])
  have agrees := new.agrees healthy' count big tail origin padded (healthy.parent linked search).alive
  have final := agrees.run big proper
  refine ⟨final.directory.current, ?_⟩
  rw [← final.names]
  exact final.directory.mem_readDir

def madeDir : Except Err Unit × FS := makeDir (fmtShape 23) ['/', 'd'] 0o755 (formatted 23 [] true)

def againCalls : List DirCall := [.add 5 ['a'] .regFile, .zero ['a'], .add 6 ['a'] .dir]

theorem directory_is_map_again :
    let final := againCalls.foldl (DirState.step (fmtShape 23) 11)
      ⟨madeDir.2, (view (fmtShape 23) madeDir.2.now).inode 11, newNames 11 2⟩
    ∃ entries, final.fs.readDir final.dir = .ok entries ∧ (⟨6, ['a'], .dir⟩ : Entry) ∈ entries := by
  have made : makeDir (fmtShape 23) ['/', 'd'] 0o755 (formatted 23 [] true) = (.ok (), madeDir.2) :=
    Prog.ended (by decide)
  have search : (formatted 23 [] true).lookupParent (fmtShape 23) ['/', 'd'] =
      .ok (2, fmtRootInode 23, ['d']) := rfl
  obtain ⟨_, entries, read, _, exact_⟩ := directory_is_map (by decide) (by decide)
    (formatted_healthy 23 [] true (by decide)) (by decide +kernel) (by decide +kernel)
    (formatted_padded 23 [] true) search made (i := 11) (by decide) (by decide) againCalls
    ⟨⟨⟨by decide, by decide, by decide⟩, by decide⟩, trivial,
      ⟨⟨by decide, by decide, by decide⟩, by decide⟩, trivial⟩
  exact ⟨entries, read, (exact_ ⟨6, ['a'], .dir⟩).mpr (by decide)⟩

def madeAfterShrink : Except Err Unit × FS :=
  makeDir (fmtShape 65536) ['/', 'd'] 0o755 (afterShrink 32788)

/-- The names of 255 octets that start with the letters of a number below 256. -/
def wideName (k : Nat) : Name :=
  Char.ofNat (97 + k / 16) :: Char.ofNat (97 + k % 16) :: List.replicate 253 'a'

def wideNames : List DirCall := (List.range 61).map fun k => .add 11 (wideName k) .regFile

/-- On a volume as `Shrink` leaves it, the leaf block that a directory of five blocks gets may be past
the end: all names are entered, and the directory cannot be read any more. -/
theorem shrunk_directory_unreadable : ∃ t,
    makeDir (fmtShape 65536) ['/', 'd'] 0o755 (afterShrink 32788) = (.ok (), t) ∧
    let final := wideNames.foldl (DirState.step (fmtShape 65536) 257)
      ⟨t, (view (fmtShape 65536) t.now).inode 257, newNames 257 2⟩
    (∀ k < 61, final.names (wideName k) = some (11, .regFile)) ∧
      ¬ ∃ entries, final.fs.readDir final.dir = .ok entries := by
  have made : makeDir (fmtShape 65536) ['/', 'd'] 0o755 (afterShrink 32788) = (.ok (), madeAfterShrink.2) :=
    Prog.ended (by decide +kernel)
  refine ⟨_, made, by decide +kernel, ?_⟩
  have failed : (wideNames.foldl (DirState.step (fmtShape 65536) 257)
      ⟨madeAfterShrink.2, (view (fmtShape 65536) madeAfterShrink.2.now).inode 257, newNames 257 2⟩).fs.readDir
      (wideNames.foldl (DirState.step (fmtShape 65536) 257)
        ⟨madeAfterShrink.2, (view (fmtShape 65536) madeAfterShrink.2.now).inode 257, newNames 257 2⟩).dir =
      .error .badExtentIndex := by decide +kernel
  rintro ⟨entries, read⟩
  cases failed.symm.trans read

end Ext4.Volume
