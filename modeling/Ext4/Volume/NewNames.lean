import Ext4.Volume.DirectoryMap

/-! What the calls that make a name do to the directory it is made in.
Everything in use stays as it is until the record is inserted; then the directory lists one entry
more, as the record holds it. A call that fails has not come that far. -/

namespace Ext4.Volume
open Octets Alloc Store List Function FS

variable {v : Shape} {s t u start : FS} {x y z : View} {i num ino b count j : Nat} {dir copy n : Inode}
  {name : Name}
  {fileType : FileType} {inTx : Bool} {path : Path}

/-! ## What is in use stays -/

/-- Live inodes and the blocks in use are as they were; anything else may have been taken. -/
structure View.Aside (x y : View) : Prop where
  live : ∀ j, x.live j → y.live j
  inode : ∀ j, x.live j → y.inode j = x.inode j
  grown : ∀ c, x.used c → y.used c
  block : ∀ c, x.used c → y.block c = x.block c

theorem View.Leaks.aside (leaks : x.Leaks y) : x.Aside y where
  live _ alive := leaks.live ▸ alive
  inode j _ := congrFun leaks.inode j
  grown := leaks.grown
  block := leaks.block

theorem View.Admits.aside (admits : x.Admits y i) : x.Aside y where
  live := admits.kept
  inode j alive := admits.inode j (by
    rintro rfl
    rw [admits.fresh] at alive
    cases alive)
  grown := admits.grown
  block := admits.block

theorem View.Aside.trans (first : x.Aside y) (second : y.Aside z) : x.Aside z where
  live j alive := second.live j (first.live j alive)
  inode j alive := (second.inode j (first.live j alive)).trans (first.inode j alive)
  grown c inUse := second.grown c (first.grown c inUse)
  block c inUse := (second.block c (first.grown c inUse)).trans (first.block c inUse)

theorem View.Aside.entries (aside : x.Aside y) (parent : x.Parent count num) :
    y.entries num = x.entries num :=
  View.entries_congr (by rw [aside.inode num parent.alive]) fun c mem =>
    aside.block c (parent.used c mem)

theorem View.Aside.mapped (aside : x.Aside y) (parent : x.Parent count num) : y.mapped num = x.mapped num := by
  rw [View.mapped, aside.inode num parent.alive]
  exact View.mappedBy_congr fun c leaf =>
    aside.block c (parent.used c (View.child_subset_mappedBy _ _ leaf))

theorem View.Aside.parent (aside : x.Aside y) (parent : x.Parent count num) : y.Parent count num := by
  have mapped := aside.mapped parent
  constructor
  case origin => exact aside.grown 0 parent.origin
  case padded => exact fun c past => aside.grown c (parent.padded c past)
  case alive => exact aside.live num parent.alive
  case readable =>
    rw [aside.inode num parent.alive]
    exact parent.readable.congr fun c leaf =>
      aside.block c (parent.used c (View.child_subset_mappedBy _ _ leaf))
  case used =>
    rw [mapped]
    exact fun c mem => aside.grown c (parent.used c mem)
  case once =>
    rw [mapped]
    exact parent.once

/-! ## One more entry -/

/-- What the directory `num` lists for a new record: the name as the record holds it. -/
def Recorded (ino : Nat) (name : Name) (fileType : FileType) (new : List Entry) : Prop :=
  ∃ recLen, (name.length ≤ 255 → name.length + 8 ≤ recLen) ∧
    new = listing [newSlot ino recLen name fileType]

theorem Recorded.eq {new : List Entry} (recorded : Recorded ino name fileType new) (fit : Fit ino name) :
    new = [⟨ino, name, fileType⟩] := by
  obtain ⟨recLen, long, rfl⟩ := recorded
  have long := long fit.short
  have listed : Slot.listed ⟨ino, recLen, name, fileType⟩ := by
    simp [Slot.listed, fit.taken, fit.some, long]
  rw [fit.newSlot_eq, listing, filter_cons_of_pos listed]
  rfl

theorem Recorded.cut {new : List Entry} (recorded : Recorded ino name fileType new)
    (long : 255 < name.length) : ∀ e ∈ new, e.name ≠ name := by
  obtain ⟨recLen, _, rfl⟩ := recorded
  intro e mem same
  have entry := mem_singleton.mp ((listing_newSlot ino name fileType recLen).subset mem)
  have shorter : e.name.length ≤ name.length % 256 := by
    rw [entry]
    exact length_take_le ..
  rw [same] at shorter
  omega

/-- The directory `num` has a record more. -/
structure View.Enters (x y : View) (count num : Nat) (new : List Entry) : Prop where
  parent : y.Parent count num
  entries : (y.entries num).Perm (new ++ x.entries num)
  kind : (y.inode num).kind = (x.inode num).kind
  inode : ∀ j, j ≠ num → y.inode j = x.inode j
  live : y.live = x.live
  grown : ∀ c, x.used c → y.used c
  block : ∀ c, x.used c → c ∉ x.mapped num → y.block c = x.block c
  /-- The leaf block that the directory had is not written again. -/
  leaf : ∀ c ∈ (x.inode num).mapping.child, y.block c = x.block c
  own : ∀ c ∈ y.mapped num, c ∈ x.mapped num ∨ x.used c = false

theorem addDirEntry_records (big : 1024 ≤ v.blockSize) (via : s.tx.isSome = inTx) (covered : Covered s)
    (parent : (view v s.now).Parent count num) (mapping : dir.mapping = ((view v s.now).inode num).mapping)
    (kind : dir.kind = ((view v s.now).inode num).kind)
    (reads : ∀ c ∈ (view v s.now).mapped num, (view v s.image).block c = (view v s.now).block c) (ino : Nat)
    (name : Name) (fileType : FileType) : (addDirEntry v inTx num dir ino name fileType).Meets s
      (fun r t => (∃ new, Recorded ino name fileType new ∧
          (view v s.now).Enters (view v t.now) count num new) ∧
        r.1.mapping = ((view v t.now).inode num).mapping ∧ r.1.kind = dir.kind ∧ Frame s t ∧ OfBlocks r.2)
      fun _ t => (view v s.now).Leaks (view v t.now) ∧ Frame s t := by
  have extents : (view v s.image).extentsOf dir.mapping =
      (view v s.now).extentsOf ((view v s.now).inode num).mapping := by
    rw [mapping]
    exact View.extentsOf_congr fun c mem => reads c (View.child_subset_mappedBy _ _ mem)
  have empty := tryInsertDirEntry_nil ino name fileType
  refine (addDirEntry_meets via covered (live_pos parent.alive) dir ino name fileType).mono ?_ fun _ _ failed =>
    failed
  rintro ⟨dir', held⟩ t ⟨inserts, frame, ofBlocks⟩
  obtain ⟨inode, live, grown, block⟩ := inserts.others empty
  have outside : ∀ c, (view v s.now).used c → c ∉ (view v s.now).mapped num →
      (view v t.now).block c = (view v s.now).block c := by
    intro c inUse other
    apply block c inUse
    rw [extents]
    exact fun inside => other (mem_append_right _ inside)
  obtain ⟨b, slots, place, shown, rfl⟩ | ⟨_, grows⟩ := inserts
  · -- A block that the directory has.
    obtain ⟨mem, old, was, changed⟩ := firstChange_some place empty
    rw [extents] at mem
    rw [reads b (mem_append_right _ mem)] at was
    obtain ⟨recLen, long, perm⟩ := tryInsertDirEntry_lists changed
    refine ⟨⟨_, ⟨recLen, fun _ => long, rfl⟩, ?_⟩, ?_, rfl, frame, ofBlocks⟩
    · constructor
      case parent =>
        rw [shown]
        exact parent.patch was slots
      case entries =>
        rw [View.entries, shown, View.records_patch _ _ was]
        exact listing_patch parent.once.of_append_right mem was perm
      case kind => rw [shown]
      case inode => exact inode
      case live => exact live
      case grown => exact grown
      case block => exact outside
      case leaf =>
        intro c leaf
        rw [shown]
        refine update_of_ne ?_ ..
        rintro rfl
        exact (nodup_append'.mp parent.once).2.2 leaf mem
      case own =>
        rw [shown, View.mapped, View.mappedBy_slots was]
        exact fun _ inside => .inl inside
    · rw [shown]
      exact mapping
  · -- A block more.
    rw [extents, ← mapping] at grows
    obtain ⟨parent', records, own⟩ := parent.grows mapping grows
    obtain ⟨_, _, _, _, adds, lays, shown, kind', _⟩ := grows
    have now : (view v t.now).inode num = dir' := by
      rw [shown]
      dsimp only
      rw [update_self]
    refine ⟨⟨_, ⟨v.blockSize - 12, fun short => by omega, rfl⟩, ?_⟩, by rw [now], kind', frame, ofBlocks⟩
    constructor
    case parent => exact parent'
    case entries =>
      rw [View.entries, records, listing_append]
      exact perm_append_comm
    case kind => rw [now, kind', kind]
    case inode => exact inode
    case live => exact live
    case grown => exact grown
    case block => exact outside
    case leaf =>
      intro c leaf
      rw [shown]
      exact (adds.leaks.trans lays.leaks).block c (parent.used c (View.child_subset_mappedBy _ _ leaf))
    case own => exact own

/-! ## The parent directory -/

/-- The directory `num` has no entry of that name. -/
structure View.Vacant (x : View) (count num : Nat) (name : Name) : Prop extends x.Parent count num where
  isDir : (x.inode num).kind = .dir
  absent : ∀ e ∈ x.entries num, e.name ≠ name

/-- Of that name the directory `num` lists just these entries. -/
structure View.Shows (x : View) (count num : Nat) (name : Name) (new : List Entry) : Prop
    extends x.Parent count num where
  isDir : (x.inode num).kind = .dir
  named : ∀ e : Entry, e.name = name → (e ∈ x.entries num ↔ e ∈ new)

theorem View.Vacant.enters {new : List Entry} (vacant : x.Vacant count num name) (aside : x.Aside y)
    (enters : y.Enters z count num new) : z.Shows count num name new where
  toParent := enters.parent
  isDir := by rw [enters.kind, aside.inode num vacant.alive, vacant.isDir]
  named e same := by
    rw [enters.entries.mem_iff, mem_append, aside.entries vacant.toParent]
    exact or_iff_left fun mem => vacant.absent e mem same

theorem View.Shows.writeInode {new : List Entry} (shows : x.Shows count num name new)
    (mapping : n.mapping = (x.inode i).mapping) (kind : n.kind = (x.inode i).kind) :
    View.Shows { x with inode := update x.inode i n } count num name new := by
  have same : (update x.inode i n num).mapping = (x.inode num).mapping ∧
      (update x.inode i n num).kind = (x.inode num).kind := by
    by_cases here : num = i
    · subst here
      simp [mapping, kind]
    · simp [update_of_ne here]
  have mapped : View.mapped { x with inode := update x.inode i n } num = x.mapped num := by
    rw [View.mapped]
    rw [same.1]
    exact View.mappedBy_congr fun _ _ => rfl
  constructor
  case isDir => exact same.2.trans shows.isDir
  case named =>
    have entries : View.entries { x with inode := update x.inode i n } num = x.entries num :=
      View.entries_congr same.1 fun _ _ => rfl
    rw [entries]
    exact shows.named
  case toParent =>
    constructor
    case origin => exact shows.origin
    case padded => exact shows.padded
    case alive => exact shows.alive
    case readable =>
      rw [same.1]
      exact shows.readable.congr fun _ _ => rfl
    case used =>
      rw [mapped]
      exact shows.used
    case once =>
      rw [mapped]
      exact shows.once

theorem View.Vacant.addDirEntry (vacant : x.Vacant count num name) (big : 1024 ≤ v.blockSize)
    (via : s.tx.isSome = inTx) (covered : Covered s) (aside : x.Aside (view v s.now))
    (reads : view v s.image = x ∨ view v s.image = view v s.now)
    (mapping : dir.mapping = (x.inode num).mapping) (kind : dir.kind = (x.inode num).kind) (ino : Nat)
    (fileType : FileType) : (Volume.addDirEntry v inTx num dir ino name fileType).Meets s
      (fun r t => (∃ new, Recorded ino name fileType new ∧ (view v t.now).Shows count num name new ∧
          (view v s.now).Enters (view v t.now) count num new) ∧
        r.1.mapping = ((view v t.now).inode num).mapping ∧ r.1.kind = ((view v t.now).inode num).kind ∧
        Frame s t ∧ OfBlocks r.2) fun _ t => x.Aside (view v t.now) ∧ Frame s t := by
  have inode := aside.inode num vacant.alive
  refine (addDirEntry_records big via covered (aside.parent vacant.toParent) (by rw [inode, mapping])
    (by rw [inode, kind]) ?_ ino name fileType).mono ?_ ?_
  · rcases reads with before | now
    · rw [before, aside.mapped vacant.toParent]
      exact fun c mem => (aside.block c (vacant.used c mem)).symm
    · rw [now]
      exact fun _ _ => rfl
  · rintro ⟨dir', held⟩ t ⟨⟨new, recorded, enters⟩, mapping', kind', frame, ofBlocks⟩
    refine ⟨⟨new, recorded, vacant.enters aside enters, enters⟩, mapping', ?_, frame, ofBlocks⟩
    rw [enters.kind, inode, ← kind, kind']
  · rintro e t ⟨leaks, frame⟩
    exact ⟨aside.trans leaks.aside, frame⟩

/-- Inode `i` is a new object of that kind, under that name. -/
structure View.Makes (x : View) (count num i : Nat) (name : Name) (fileType : FileType) (kind : Kind) :
    Prop where
  marked : x.live i
  kind : (x.inode i).kind = kind
  shows : ∃ new, Recorded i name fileType new ∧ x.Shows count num name new

theorem View.Makes.writeInode {kind : Kind} (makes : x.Makes count num i name fileType kind)
    (mapping : n.mapping = (x.inode j).mapping) (sameKind : n.kind = (x.inode j).kind) :
    View.Makes { x with inode := update x.inode j n } count num i name fileType kind where
  marked := makes.marked
  kind := by
    by_cases here : i = j
    · subst here
      simp [sameKind, makes.kind]
    · simp [update_of_ne here, makes.kind]
  shows := by
    obtain ⟨new, recorded, shows⟩ := makes.shows
    exact ⟨new, recorded, shows.writeInode mapping sameKind⟩

theorem View.Vacant.makes (vacant : x.Vacant count num name) (big : 1024 ≤ v.blockSize)
    (ready : InodeReady v inTx x i s) (known : Known x num dir) (fileType : FileType) (kind : Kind)
    (isKind : ((view v s.now).inode i).kind = kind) :
    (Volume.addDirEntry v inTx num dir i name fileType).Meets s
      (fun r t => Frame s t ∧ OfBlocks r.2 ∧ (view v t.now).Makes count num i name fileType kind ∧
        r.1.mapping = ((view v t.now).inode num).mapping ∧ r.1.kind = ((view v t.now).inode num).kind)
      fun _ t => Frame s t ∧ x.Aside (view v t.now) := by
  have other : i ≠ num := by
    rintro rfl
    have alive := vacant.alive
    rw [ready.admits.fresh] at alive
    cases alive
  refine (vacant.addDirEntry big ready.via ready.covered ready.admits.aside ready.image known.mapping known.kind
    i fileType).mono ?_ fun _ _ failed => failed.symm
  rintro r t ⟨⟨new, recorded, shows, enters⟩, mapping, sameKind, frame, ofBlocks⟩
  refine ⟨frame, ofBlocks, ⟨?_, ?_, new, recorded, shows⟩, mapping, sameKind⟩
  · rw [enters.live]
    exact ready.marked
  · rw [enters.inode i other, isKind]

/-! ## The calls -/

/-- The call has made an object of that kind, and nothing else in use has changed. -/
def Makes (v : Shape) (s t : FS) (num : Nat) (name : Name) (fileType : FileType) (kind : Kind) : Prop :=
  Frame s t ∧ ∃ i, (view v s.now).live i = false ∧ i ≤ s.inodes v ∧
    (view v t.now).Makes s.sb.blocksCount num i name fileType kind

def Fails (v : Shape) (s t : FS) : Prop := Frame s t ∧ (view v s.now).Aside (view v t.now)

theorem Fails.refl (s : FS) : Fails v s s := ⟨Frame.refl s, (View.Leaks.refl _).aside⟩

theorem Fails.leaks (frame : Frame s t) (leaks : (view v s.now).Leaks (view v t.now)) : Fails v s t :=
  ⟨frame, leaks.aside⟩

section
variable (big : 1024 ≤ v.blockSize) {data : Bytes} {blocks : List Nat}
include big

theorem writeFile_makes (healthy : Healthy v s) (search : s.lookupParent v path = .ok (num, copy, name))
    (vacant : (view v s.now).Vacant s.sb.blocksCount num name) (perm : Nat) :
    (writeFile v path data perm).Meets s (fun _ t => Makes v s t num name .regFile .regular)
      fun _ => Fails v s := by
  have known := healthy.known vacant.alive (lookupParent_read search)
  refine writeFile_begins (fun _ _ => Fails.refl s) (fun num' dir name' search' _ => ?_)
    fun num' dir name' i n search' found _ => ?_
  · cases search.symm.trans search'
    refine (storeFile_rule healthy.toQuiet rfl
      (fun i y => i ≤ s.inodes v ∧ y.Makes s.sb.blocksCount num i name .regFile .regular)
      (fun _ => (view v s.now).Aside) fun i blocks u ready => enterFile_rule ready
        (fun y => i ≤ s.inodes v ∧ y.Makes s.sb.blocksCount num i name .regFile .regular) _
        (fun _ => ready.admits.aside) fun m t w lays shown entering =>
          (vacant.makes big entering known .regFile .regular (by rw [shown]; simp [Inode.asFile])).imp
            fun _ _ made => ⟨made.1, made.2.1, ready.inRange, made.2.2.1⟩).mono
      (fun _ _ made => made) ?_
    rintro e t ⟨frame, leaks | ⟨_, _, aside⟩⟩
    · exact Fails.leaks frame leaks
    · exact ⟨frame, aside⟩
  · -- The name is not there.
    cases search.symm.trans search'
    obtain ⟨_, e, listed, _⟩ := findEntry_ok found
    rw [healthy.shown, known.mapping] at listed
    exact absurd (by simpa using find?_some listed) (vacant.absent e (mem_of_find?_eq_some listed))

theorem newDir_makes (vacant : (view v s.now).Vacant count num name)
    (ready : DirReady v inTx (view v s.now) i b u) (perm : Nat) (known : Known (view v s.now) num dir) :
    (addDirEntry v inTx num dir i name .dir).Meets
      ((u.writeBlock b (dirBlock v i num)).writeInode v i (dirInode v perm b))
      (fun r w => OfBlocks r.2 ∧ ∀ n : Inode, n.mapping = r.1.mapping → n.kind = r.1.kind →
        Frame u (w.writeInode v num n) ∧ (view v (w.writeInode v num n).now).Makes count num i name .dir .dir)
      fun _ w => Frame u w ∧ (view v s.now).Aside (view v w.now) := by
  obtain ⟨frame, entering, written⟩ := ready.written num perm
  refine (vacant.makes big entering known .dir .dir (by rw [written]; simp [dirInode])).mono ?_
    fun _ _ failed => ⟨frame.trans failed.1, failed.2⟩
  rintro r t ⟨frame', ofBlocks, makes, mapping, kind⟩
  refine ⟨ofBlocks, fun n sameMapping sameKind => ?_⟩
  obtain ⟨shown, recorded⟩ := writeInode_spec (live_pos vacant.alive) n
  refine ⟨(frame.trans frame').trans recorded, ?_⟩
  rw [shown]
  exact makes.writeInode (sameMapping.trans mapping) (sameKind.trans kind)

theorem makeDir_makes (healthy : Healthy v s) (search : s.lookupParent v path = .ok (num, copy, name))
    (vacant : (view v s.now).Vacant s.sb.blocksCount num name) (perm : Nat) :
    (makeDir v path perm).Meets s (fun _ t => Makes v s t num name .dir .dir) fun _ => Fails v s := by
  have known := healthy.known vacant.alive (lookupParent_read search)
  refine makeDir_begins (fun _ _ => Fails.refl s) fun num' dir name' entries search' _ _ => ?_
  cases search.symm.trans search'
  refine (newDir_rule healthy.toQuiet name perm
    (fun i _ y => i ≤ s.inodes v ∧ y.Makes s.sb.blocksCount num i name .dir .dir)
    (fun _ _ y => (view v s.now).Aside y) fun inTx copy i b u mapping kind ready inRange => ?_).mono ?_ ?_
  · refine (newDir_makes big vacant ready perm (known.copy mapping kind)).imp ?_
    rintro r w ⟨ofBlocks, spec⟩
    exact ⟨ofBlocks, fun n sameMapping sameKind => (spec n sameMapping sameKind).imp_right fun makes =>
      ⟨inRange, makes⟩⟩
  · rintro _ t ⟨frame, i, _, fresh, makes⟩
    exact ⟨frame, i, fresh, makes⟩
  · rintro e t ⟨frame, same | ⟨_, ⟨i, joins, _⟩ | ⟨_, _, aside⟩⟩⟩
    · exact Fails.leaks frame (same ▸ View.Leaks.refl _)
    · exact ⟨frame, joins.admits.aside⟩
    · exact ⟨frame, aside⟩

theorem makeSymlink_makes (healthy : Healthy v s) (target : Path)
    (search : s.lookupParent v path = .ok (num, copy, name))
    (vacant : (view v s.now).Vacant s.sb.blocksCount num name) :
    (makeSymlink v target path).Meets s (fun _ t => Makes v s t num name .symlink .symlink)
      fun _ => Fails v s := by
  have closed := healthy.closed
  have known := healthy.known vacant.alive (lookupParent_read search)
  refine makeSymlink_begins (fun _ _ => Fails.refl s) fun num' dir name' entries search' _ _ => ?_
  cases search.symm.trans search'
  refine ((allocInodeAlone_meets closed healthy.unreserved false).and (allocInodeAlone_range false)).seq ?_
    fun _ _ failed => Fails.leaks failed.1.2 (failed.1.1 ▸ View.Leaks.refl _)
  rintro i t ⟨⟨joins, frame⟩, inRange⟩
  refine (linkInode_meets (frame.toOuter.closed closed) target joins).seq ?_ ?_
  · intro n u entering
    have frames := frame.trans entering.later
    rw [meets_bind, meets_modify]
    refine (vacant.makes big entering.toInodeReady known .symlink .symlink entering.isLink).seq ?_
      fun _ _ failed => ⟨frames.trans failed.1, failed.2⟩
    rintro r w ⟨frame'', _, makes, _⟩
    exact ⟨frames.trans frame'', i, joins.fresh, inRange, makes⟩
  · rintro e u ⟨_, _, same, frame'⟩
    refine ⟨frame.trans frame', ?_⟩
    rw [same]
    exact joins.admits.aside

end

def FS.Leads (v : Shape) (s : FS) (path : Path) (i : Nat) : Prop :=
  ∃ num dir name n, s.lookupParent v path = .ok (num, dir, name) ∧
    s.findEntry v dir name = .ok (some (i, n))

/-- The directory `num` has the name for the inode that the other path leads to. -/
def Joined (v : Shape) (s t : FS) (oldPath : Path) (num : Nat) (name : Name) : Prop :=
  Frame s t ∧ ∃ i fileType new, s.Leads v oldPath i ∧ Recorded i name fileType new ∧
    (view v t.now).Shows s.sb.blocksCount num name new

theorem makeLink_joined (big : 1024 ≤ v.blockSize) (healthy : Healthy v s) (oldPath : Path)
    (search : s.lookupParent v path = .ok (num, copy, name))
    (vacant : (view v s.now).Vacant s.sb.blocksCount num name) :
    (makeLink v oldPath path).Meets s (fun _ t => Joined v s t oldPath num name) fun _ => Fails v s := by
  have closed := healthy.closed
  have known := healthy.known vacant.alive (lookupParent_read search)
  refine makeLink_begins (fun _ _ => Fails.refl s)
    fun srcNum srcParent srcName src n num' dir name' entries searchSrc searchEntry search' _ _ => ?_
  cases search.symm.trans search'
  obtain ⟨_, inRange, _⟩ := readInode_ok (findEntry_ok searchEntry).1
  refine (vacant.addDirEntry big (by rw [closed]; rfl) (covered_of_none closed) (View.Leaks.refl _).aside
    (.inl healthy.shown) known.mapping known.kind src n.fileType).seq ?_ fun _ _ failed =>
      ⟨failed.2, failed.1⟩
  rintro ⟨dir', held⟩ t ⟨⟨new, recorded, shows, _⟩, _, _, frame, _⟩
  have closed' := frame.toOuter.closed closed
  rw [meets_bind, meets_tryRead]
  constructor
  · rintro m again
    obtain ⟨low, _, rfl⟩ := readInode_ok again
    obtain ⟨shown, frame'⟩ := writeInode_spec low
      ((view v t.image).inode src).addLink
    rw [meets_modify]
    refine ⟨frame.trans frame', src, n.fileType, new,
      ⟨srcNum, srcParent, srcName, n, searchSrc, searchEntry⟩, recorded, ?_⟩
    rw [shown, now_of_none t closed'] at *
    exact shows.writeInode rfl rfl
  · -- The inode was read before.
    intro e failed
    rw [readInode, if_neg (by rw [frame.inodesCount]; omega)] at failed
    cases failed

/-! ## Rename -/

section
variable {oldName : Name} {old slots : List Slot} {new : List Entry} {e : Entry} {slot : Slot}

theorem name_of_mem_listing (mem : e ∈ listing [slot]) : e.name = slot.name := by
  obtain ⟨found, inside, rfl⟩ := mem_map.mp mem
  rw [mem_singleton.mp (mem_of_mem_filter inside)]
  rfl

theorem mem_listing_setIno {rest : List Slot} (ino : Nat) (other : e.name ≠ slot.name) :
    e ∈ listing ({ slot with ino := ino } :: rest) ↔ e ∈ listing (slot :: rest) := by
  rw [listing_cons _ rest, listing_cons slot rest, mem_append, mem_append]
  exact or_congr_left ⟨fun mem => absurd (name_of_mem_listing mem) other,
    fun mem => absurd (name_of_mem_listing mem) other⟩

theorem zeroEntryInBlock_others (changed : zeroEntryInBlock oldName old = some slots)
    (other : e.name ≠ oldName) : e ∈ listing slots ↔ e ∈ listing old := by
  induction old generalizing slots with
  | nil => cases changed
  | cons slot rest ih =>
    rw [zeroEntryInBlock] at changed
    split at changed
    next here =>
      cases changed
      exact mem_listing_setIno 0 (here.2 ▸ other)
    next =>
      obtain ⟨tail, found, rfl⟩ := Option.map_eq_some_iff.mp changed
      rw [listing_cons slot tail, listing_cons slot rest, mem_append, mem_append, ih found]

theorem setDotDot_others {parent : Nat} (changed : setDotDot parent old = some slots)
    (other : e.name ≠ dotDot) : e ∈ listing slots ↔ e ∈ listing old := by
  induction old generalizing slots with
  | nil => cases changed
  | cons slot rest ih =>
    rw [setDotDot] at changed
    split at changed
    next here =>
      cases changed
      exact mem_listing_setIno parent (here ▸ other)
    next =>
      obtain ⟨tail, found, rfl⟩ := Option.map_eq_some_iff.mp changed
      rw [listing_cons slot tail, listing_cons slot rest, mem_append, mem_append, ih found]

theorem View.mem_entries : e ∈ x.entries num ↔
    ∃ c ∈ blocksOf (x.extentsOf (x.inode num).mapping), e ∈ listing (x.block c).records := by
  rw [View.entries, View.records, ← listing_flatMap, mem_flatMap]

/-- A block of records changes so that the entries of the name stay, if it is the directory's. -/
theorem View.Shows.patch (shows : x.Shows count num name new) (was : x.block b = .slots old)
    (same : b ∈ x.mapped num → ∀ e : Entry, e.name = name → (e ∈ listing slots ↔ e ∈ listing old)) :
    View.Shows { x with block := update x.block b (.slots slots) } count num name new where
  toParent := shows.toParent.patch was slots
  isDir := shows.isDir
  named e called := by
    rw [← shows.named e called, View.mem_entries, View.mem_entries, View.extentsOf_slots was]
    refine exists_congr fun c => and_congr_right fun inside => ?_
    by_cases here : c = b
    · subst here
      dsimp only
      rw [update_self, was]
      exact same (mem_append_right _ inside) e called
    · dsimp only
      rw [update_of_ne here]

theorem View.Enters.readable (enters : x.Enters y count num new) (owned : x.Owned) (parent : x.live num)
    (alive : x.live j)
    (readable : x.Readable count (x.inode j).mapping) : y.Readable count (x.inode j).mapping := by
  apply readable.congr
  intro c leaf
  by_cases here : j = num
  · subst here
    exact enters.leaf c leaf
  · have mem := View.child_subset_mappedBy x _ leaf
    exact enters.block c (owned.used j alive c mem) (owned.apart j num alive parent here mem)

/-- The records of a directory are changed, and no entry of the name is among what changes. -/
theorem changeDir_shows (closed : s.tx = none) (shows : (view v s.now).Shows s.sb.blocksCount num name new)
    (readable : (view v s.now).Readable s.sb.blocksCount dir.mapping)
    {change : List Slot → Option (List Slot)} (empty : change [] = none)
    (others : ∀ b ∈ blocksOf ((view v s.now).extentsOf dir.mapping), b ∈ (view v s.now).mapped num →
      ∀ old slots, change old = some slots → ∀ e : Entry, e.name = name →
        (e ∈ listing slots ↔ e ∈ listing old)) : (changeDir dir change).Meets s
      (fun _ t => (view v t.now).Shows t.sb.blocksCount num name new ∧
        (view v t.now).inode = (view v s.now).inode ∧ Frame s t ∧
        ∀ m, (view v s.now).Readable s.sb.blocksCount m → (view v t.now).Readable t.sb.blocksCount m)
      fun _ _ => False := by
  have parsed : s.parseExtents dir.mapping = .ok ((view v s.image).extentsOf dir.mapping) := by
    rw [now_of_none s closed] at readable
    exact readable.parses
  refine ((changeDir_meets (v := v) closed dir change).and (changeDir_succeeds parsed change)).mono ?_
    fun _ _ no => no.2
  rintro _ t ⟨⟨b, slots, place, shown, frame⟩ | ⟨_, rfl⟩, -⟩
  · obtain ⟨mem, old, was, changed⟩ := firstChange_some place empty
    rw [shown, frame.blocksCount]
    exact ⟨shows.patch was fun inside => others b mem inside old slots changed, rfl, frame,
      fun m readable => readable.patch was slots⟩
  · exact ⟨shows, rfl, Frame.refl t, fun _ readable => readable⟩

end

def FS.DirsReadable (v : Shape) (s : FS) : Prop :=
  ∀ j ∈ range (s.sb.inodesCount + 1), (view v s.now).live j →
    ((view v s.now).inode j).kind = .dir →
      (view v s.now).Readable s.sb.blocksCount ((view v s.now).inode j).mapping

theorem moveEntry_shows {oldNum src : Nat} {oldParent : Inode} {oldName : Name} (big : 1024 ≤ v.blockSize)
    (healthy : Healthy v s) (sound : s.DirsReadable v) (vacant : (view v s.now).Vacant s.sb.blocksCount num name)
    (known : Known (view v s.now) num dir) (oldKnown : Known (view v s.now) oldNum oldParent)
    (oldDir : oldParent.kind = .dir) (oldLow : oldNum ≤ s.sb.inodesCount)
    (source : Known (view v s.now) src n) (srcLow : src ≤ s.sb.inodesCount) (upwards : name ≠ dotDot)
    (moves : ¬(oldNum = num ∧ oldName = name)) :
    (moveEntry v oldNum oldParent oldName num dir name src n).Meets s
      (fun _ t => Frame s t ∧ ∃ new, Recorded src name n.fileType new ∧
        (view v t.now).Shows s.sb.blocksCount num name new) fun _ => Fails v s := by
  have closed := healthy.closed
  refine (vacant.addDirEntry big (by rw [closed]; rfl) (covered_of_none closed) (View.Leaks.refl _).aside
    (.inl healthy.shown) known.mapping known.kind src n.fileType).seq ?_ fun _ _ failed => ⟨failed.2, failed.1⟩
  rintro ⟨dir', held⟩ t ⟨⟨new, recorded, shows, enters⟩, mapping', kind', frame, _⟩
  have closed' := frame.toOuter.closed closed
  rw [← frame.blocksCount] at shows
  have readable : ∀ j m, Known (view v s.now) j m → m.kind = .dir → j ≤ s.sb.inodesCount →
      (view v t.now).Readable t.sb.blocksCount m.mapping := by
    intro j m known isDir low
    rw [frame.blocksCount, known.mapping]
    exact enters.readable healthy.owned vacant.alive known.alive
      (sound j (mem_range.mpr (Nat.lt_succ_of_le low)) known.alive (known.kind ▸ isDir))
  refine (changeDir_shows closed' shows (readable oldNum oldParent oldKnown oldDir oldLow) rfl ?_).seq ?_
    fun _ _ no => no.elim
  · intro b mem inside old slots changed e called
    apply zeroEntryInBlock_others changed
    intro same
    by_cases here : oldNum = num
    · exact moves ⟨here, same.symm.trans called⟩
    · -- The other directory's blocks were in use, and not this one's.
      have extents : (view v t.now).extentsOf oldParent.mapping =
          (view v s.now).extentsOf ((view v s.now).inode oldNum).mapping := by
        rw [oldKnown.mapping]
        refine View.extentsOf_congr fun c leaf => ?_
        have mapped := View.child_subset_mappedBy (view v s.now) _ leaf
        exact enters.block c (healthy.owned.used oldNum oldKnown.alive c mapped)
          (healthy.owned.apart oldNum num oldKnown.alive vacant.alive here mapped)
      rw [extents] at mem
      have mapped : b ∈ (view v s.now).mapped oldNum := mem_append_right _ mem
      rcases enters.own b inside with own | free
      · exact healthy.owned.apart oldNum num oldKnown.alive vacant.alive here mapped own
      · rw [healthy.owned.used oldNum oldKnown.alive b mapped] at free
        cases free
  · rintro _ u ⟨shows, inode, frame', kept⟩
    have frames := frame.trans frame'
    split
    next isDir =>
      refine (changeDir_shows (frames.toOuter.closed closed) shows
        (kept _ (readable src n source isDir.1 srcLow)) rfl ?_).seq ?_ fun _ _ no => no.elim
      · intro b _ _ old slots changed e called
        exact setDotDot_others changed (called ▸ upwards)
      · rintro _ w ⟨shows, inode', frame'', _⟩
        have inodes : (view v w.now).inode = (view v t.now).inode := inode'.trans inode
        obtain ⟨shown, left⟩ := writeInode_spec oldKnown.low oldParent.dropLink
        obtain ⟨shown', joined⟩ := writeInode_spec
          (s := w.writeInode v oldNum oldParent.dropLink) known.low dir'.addLink
        rw [meets_bind, meets_modify, meets_modify]
        have all := (frames.trans frame'').trans (left.trans joined)
        refine ⟨all, new, recorded, ?_⟩
        have other : num ≠ oldNum := Ne.symm isDir.2
        rw [shown', shown, ← (frames.trans frame'').blocksCount]
        refine (shows.writeInode ?_ ?_).writeInode ?_ ?_
        · rw [inodes, enters.inode oldNum isDir.2, ← oldKnown.mapping]
          rfl
        · rw [inodes, enters.inode oldNum isDir.2, ← oldKnown.kind]
          rfl
        · dsimp only
          rw [update_of_ne other, inodes, ← mapping']
          rfl
        · dsimp only
          rw [update_of_ne other, inodes, ← kind']
          rfl
    · exact ⟨frames, new, recorded, frames.blocksCount ▸ shows⟩

theorem rename_joined (big : 1024 ≤ v.blockSize) (healthy : Healthy v s)
    (linked : (view v s.now).Linked s.sb.inodesCount) (sound : s.DirsReadable v) (fuel : Nat) (oldPath : Path)
    (search : s.lookupParent v path = .ok (num, copy, name))
    (vacant : (view v s.now).Vacant s.sb.blocksCount num name) (upwards : name ≠ dotDot) :
    (rename v fuel oldPath path).Meets s
      (fun _ t => (∀ dir, s.lookupParent v oldPath ≠ .ok (num, dir, name)) ∧ Joined v s t oldPath num name ∨
        (∃ dir, s.lookupParent v oldPath = .ok (num, dir, name)) ∧ t = s) fun _ => Fails v s := by
  have known := healthy.known vacant.alive (lookupParent_read search)
  refine .look ?_ fun _ _ => Fails.refl s
  rintro ⟨oldNum, oldParent, oldName⟩ searchOld
  have oldKnown := healthy.parent linked searchOld
  have oldDir := (lookupParent_ok searchOld).2.2.1
  have oldLow := (readInode_ok (lookupParent_read searchOld)).2.1
  refine .known search ?_
  dsimp only
  split
  next same =>
    obtain ⟨rfl, rfl⟩ := same
    exact .inr ⟨⟨oldParent, searchOld⟩, rfl⟩
  next moves =>
    refine .look (fun found searchSrc => ?_) fun _ _ => Fails.refl s
    cases found with
    | none => exact Fails.refl s
    | some entry =>
      obtain ⟨src, n⟩ := entry
      have source := healthy.entry linked oldKnown oldDir oldLow searchSrc
      have srcLow := (readInode_ok (findEntry_ok searchSrc).1).2.1
      refine .look (fun existing found => ?_) fun _ _ => Fails.refl s
      cases existing with
      | some dst =>
        obtain ⟨_, e, listed, _⟩ := findEntry_ok found
        rw [healthy.shown, known.mapping] at listed
        exact absurd (by simpa using find?_some listed)
          (vacant.absent e (mem_of_find?_eq_some listed))
      | none =>
        refine (moveEntry_shows big healthy sound vacant known oldKnown oldDir oldLow source srcLow upwards
          moves).imp ?_
        rintro _ t ⟨frame, new, recorded, shows⟩
        refine .inl ⟨fun dir onto => ?_, frame, src, n.fileType, new,
          ⟨oldNum, oldParent, oldName, n, searchOld, searchSrc⟩, recorded, shows⟩
        cases searchOld.symm.trans onto
        exact moves ⟨rfl, rfl⟩

end Ext4.Volume
