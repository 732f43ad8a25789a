import Ext4.Volume.FailedCreate
import Ext4.Volume.FileContent
import Ext4.Volume.Gains

/-! The calls that create names, from their start to each of their ends.
Whatever a call returns, blocks keep their owners and directories their entries; only what it
creates is added. A file that is written over has to find room for its new content, and a new inode
the block it needs. -/

namespace Ext4.Volume
open Octets Alloc Store List Function FS

variable {v : Shape} {s t u start : FS} {x y : View} {i num about perm : Nat} {new : List Entry}
  {inTx : Bool} {held : Cleanup} {dir : Inode}

/-- The call began at `s` and has added the entries to the directory `num`. -/
structure Gained (v : Shape) (s t : FS) (num about : Nat) (new : List Entry) : Prop
    extends Quiet t where
  gains : (view v s.now).Gains (view v t.now) num about new

theorem Gained.refl (healthy : Healthy v s) (num about : Nat) : Gained v s s num about [] :=
  ⟨healthy.toQuiet, healthy.owned.gains_leaks (View.Leaks.refl _) num about⟩

theorem Gained.leaks (healthy : Healthy v s) (frame : Frame s t) (leaks : (view v s.now).Leaks (view v t.now))
    (num about : Nat) : Gained v s t num about [] :=
  ⟨healthy.toQuiet.frame frame, healthy.owned.gains_leaks leaks num about⟩

theorem Gained.healthy (gained : Gained v s t num about new) : Healthy v t :=
  ⟨gained.toQuiet, gained.gains.owned⟩

theorem View.Admits.reads (admits : x.Admits y i) (owned : x.Owned) (alive : x.live num) :
    ∀ b ∈ y.mapped num, x.block b = y.block b := by
  have other : num ≠ i := by
    rintro rfl
    rw [admits.fresh] at alive
    cases alive
  intro b mem
  rw [admits.mapped owned other alive] at mem
  exact (admits.block b (owned.used num alive b mem)).symm

/-- A new inode is taken, which was free in the view before the call. In a transaction the device
still shows that view. -/
structure InodeReady (v : Shape) (inTx : Bool) (x : View) (i : Nat) (s : FS) : Prop where
  via : s.tx.isSome = inTx
  covered : Covered s
  admits : x.Admits (view v s.now) i
  marked : (view v s.now).live i
  reads : inTx → view v s.image = x

theorem InodeReady.frame (ready : InodeReady v inTx x i s) (frame : Frame s t)
    (admits : x.Admits (view v t.now) i) (marked : (view v t.now).live i) : InodeReady v inTx x i t where
  via := frame.inTx.trans ready.via
  covered := frame.covered ready.covered
  admits := admits
  marked := marked
  reads := by
    rintro rfl
    rw [← ready.reads rfl]
    exact congrArg (fun d => view v (Device.image d)) (frame.still ready.via)

theorem InodeReady.image (ready : InodeReady v inTx x i s) :
    view v s.image = x ∨ view v s.image = view v s.now := by
  cases inTx with
  | true => exact .inl (ready.reads rfl)
  | false =>
    have closed : s.tx = none := by simpa using ready.via
    exact .inr (by rw [now_of_none _ closed])

def View.Names (x : View) (num : Nat) (name : Name) (fileType : FileType) (i : Nat) (y : View) : Prop :=
  y.live i ∧ ∃ new, new.Sublist [newEntry i name fileType] ∧ x.Gains y num i new

theorem addDirEntry_enters (ready : InodeReady v inTx x i s) (owned : x.Owned) (owned' : (view v s.now).Owned)
    (fresh : ((view v s.now).inode i).kind = .dir → (((view v s.now).entries i).map Entry.name).Nodup)
    (known : Known x num dir) (name : Name) (fileType : FileType) :
    (addDirEntry v inTx num dir i name fileType).Meets s
      (fun r t => Frame s t ∧ OfBlocks r.2 ∧ x.Names num name fileType i (view v t.now) ∧
        r.1.mapping = ((view v t.now).inode num).mapping ∧ r.1.kind = dir.kind)
      fun _ t => Frame s t ∧ x.Gains (view v t.now) num i [] := by
  have admits := ready.admits
  have other : num ≠ i := by
    rintro rfl
    have alive := known.alive
    rw [admits.fresh] at alive
    cases alive
  have before := admits.gains owned owned' num i fresh
  refine (addDirEntry_gains ready.via ready.covered owned' (admits.kept num known.alive)
    (by rw [admits.inode num other, known.mapping]) (by rw [admits.inode num other, known.kind]) ?_ i i name
    fileType).mono ?_ ?_
  · rcases ready.image with first | now
    · rw [first]
      exact admits.reads owned known.alive
    · rw [now]
      exact fun _ _ => rfl
  · rintro ⟨dir', held⟩ t ⟨⟨new, few, gains⟩, mapping, kind, frame, ofBlocks⟩
    have both := before.trans gains known.alive
    rw [append_nil] at both
    exact ⟨frame, ofBlocks, ⟨gains.live i ready.marked, new, few, both⟩, mapping, kind⟩
  · rintro e t ⟨gains, frame⟩
    exact ⟨frame, before.trans gains known.alive⟩

/-! ## Where the calls find their inodes -/

section
variable {path : Path} {name : Name} {n : Inode}

theorem Healthy.known (healthy : Healthy v s) (alive : (view v s.now).live i)
    (read : s.readInode v i = .ok n) : Known (view v s.now) i n :=
  Removing.known ⟨healthy.toQuiet, .refl healthy.owned, rfl⟩ alive read

theorem Known.copy {m : Inode} (known : Known x i n) (mapping : m.mapping = n.mapping)
    (kind : m.kind = n.kind) : Known x i m :=
  ⟨known.alive, known.low, mapping.trans known.mapping, kind.trans known.kind⟩

theorem Healthy.parent (healthy : Healthy v s) (linked : (view v s.now).Linked s.sb.inodesCount)
    (search : s.lookupParent v path = .ok (num, dir, name)) : Known (view v s.now) num dir :=
  (removing_rule healthy.owned linked).parent ⟨healthy.toQuiet, .refl healthy.owned, rfl⟩ search

theorem Known.absent (known : Known (view v s.now) num dir) (healthy : Healthy v s) {entries : List Entry}
    (listed : s.readDir dir = .ok entries) (unlisted : ∀ e ∈ entries, e.name ≠ name) :
    ∀ e ∈ (view v s.now).entries num, e.name ≠ name := by
  rwa [View.entries, ← known.mapping, ← healthy.shown, ← readDir_ok listed]

theorem Healthy.entry (healthy : Healthy v s) (linked : (view v s.now).Linked s.sb.inodesCount)
    (known : Known (view v s.now) num dir) (isDir : dir.kind = .dir) (low : num ≤ s.sb.inodesCount)
    (found : s.findEntry v dir name = .ok (some (i, n))) : Known (view v s.now) i n := by
  obtain ⟨read, e, search, rfl⟩ := findEntry_ok found
  rw [healthy.shown, known.mapping] at search
  refine healthy.known ?_ read
  exact linked.2 num (mem_range.mpr (Nat.lt_succ_of_le low)) known.alive (known.kind ▸ isDir) e
    (mem_of_find?_eq_some search)

end

/-! ## Inode numbers -/

def FS.inodes (v : Shape) (s : FS) : Nat := s.groups v * v.inodesPerGroup

theorem Outer.inodes (outer : Outer s t) : t.inodes v = s.inodes v := by
  rw [FS.inodes, FS.inodes, groups, groups, outer.blocksCount]

theorem Began.inodes (began : Began inTx start s) : s.inodes v = start.inodes v := by
  subst began
  cases inTx <;> rfl

theorem allocInode_range (isDir : Bool) :
    (allocInode v inTx isDir).Meets s (fun r _ => r.1 ≤ s.inodes v) fun _ _ => True := by
  refine allocInode_rule (fun _ => trivial) fun g bit chosen => ?_
  obtain ⟨inRange, _, inGroup⟩ := chooseInode_spec chosen
  calc v.inodeOf g bit ≤ (g + 1) * v.inodesPerGroup := by
        rw [Shape.inodeOf, Nat.add_one_mul]
        omega
    _ ≤ s.inodes v := Nat.mul_le_mul_right _ inRange

theorem allocInodeAlone_range (isDir : Bool) :
    (allocInodeAlone v isDir).Meets s (fun i _ => i ≤ s.inodes v) fun _ _ => True := by
  refine meets_alone (allocInode v · isDir) id fun u began => (allocInode_range isDir).yields ?_
  exact fun _ _ inRange => began.inodes ▸ inRange

/-- The data finds its place. A file that is written over has to have room, with its own blocks
released, and its new content no need of a leaf block; without a journal neither may a new file. -/
def FS.Fits (v : Shape) (s : FS) (path : Path) (data : Bytes) : Prop :=
  ∀ existing, s.namedBy v path = .ok existing →
    match existing with
    | none => s.journal = false → s.Inlines v (blocksFor v data) []
    | some (_, old) => old.kind = .regular →
        s.HasRoom v (blocksFor v data) (s.replaced v existing) ∧
          s.Inlines v (blocksFor v data) (s.replaced v existing)

/-! ## WriteFile -/

section
variable {data : Bytes} {blocks : List Nat} {z : View}

theorem fileMapping_lays (covered : Covered s) (blocks : List Nat) : (fileMapping v blocks).Meets s
      (fun m t => (view v s.now).Lays (view v t.now) m (buildExtents blocks) ∧ Frame s t)
      fun _ t => 4 < (buildExtents blocks).length ∧ view v t.now = view v s.now ∧ Frame s t := by
  by_cases short : (buildExtents blocks).length ≤ 4
  · refine (fileMapping_meets short).mono ?_ fun _ _ no => no.elim
    rintro m t ⟨rfl, rfl⟩
    exact ⟨.inl ⟨rfl, rfl⟩, Frame.refl t⟩
  · exact (layExtents_meets covered _).seq (fun _ _ laid => ⟨laid.1, laid.2.1⟩)
      fun _ _ failed => ⟨Nat.lt_of_not_le short, failed⟩

/-- The blocks of a new file, and perhaps a leaf block: each is in use once, and was free before. -/
theorem View.Lays.fresh {m : Mapping} (lays : y.Lays z m (buildExtents blocks))
    (grown : ∀ b, x.used b → y.used b) (used : ∀ b ∈ blocks, y.used b)
    (free : ∀ b ∈ blocks, x.used b = false) (once : blocks.Nodup) :
    (∀ b ∈ z.mappedBy m, z.used b) ∧ (z.mappedBy m).Nodup ∧ ∀ b ∈ z.mappedBy m, x.used b = false := by
  have mapped : z.mappedBy m = m.child ++ blocks := by
    rw [View.mappedBy, lays.extentsOf, blocksOf_buildExtents]
  rw [mapped]
  refine ⟨fun b mem => ?_, ?_, fun b mem => ?_⟩
  · rcases mem_append.mp mem with leaf | data
    · exact (lays.child b leaf).2
    · exact lays.leaks.grown b (used b data)
  · refine nodup_append'.mpr ⟨Mapping.nodup_child m, once, fun b leaf data => ?_⟩
    have fresh := (lays.child b leaf).1
    rw [used b data] at fresh
    cases fresh
  · rcases mem_append.mp mem with leaf | data
    · by_contra inUse
      have fresh := (lays.child b leaf).1
      rw [grown b (Bool.eq_true_of_not_eq_false inUse)] at fresh
      cases fresh
    · exact free b data

theorem allocBlocks_judged (closed : start.tx = none) (began : Began inTx start s) (n : Nat) :
    (allocBlocks v inTx n).Meets s (fun r _ => start.Inlines v n [] → (buildExtents r.1).length ≤ 4)
      fun _ _ => ¬ start.HasRoom v n [] := by
  have unopened := began.unopened closed
  refine ((allocBlocks_inlines unopened).and (allocBlocks_outcome unopened)).mono ?_ ?_
  · exact fun _ _ good inlines => good.1 (began.inlines inlines)
  · exact fun _ _ failed => mt (began.room n []).mpr failed.2.1

/-- What is known where a new file is entered: its blocks are written and its inode is taken. -/
structure FileReady (v : Shape) (inTx : Bool) (start : FS) (data : Bytes) (i : Nat) (blocks : List Nat)
    (s : FS) : Prop extends InodeReady v inTx (view v start.now) i s where
  used : ∀ b ∈ blocks, (view v s.now).used b
  free : ∀ b ∈ blocks, (view v start.now).used b = false
  once : blocks.Nodup
  long : blocks.length = blocksFor v data
  written : ∀ p ∈ blocks.zipIdx, (view v s.now).block p.1 = .data (chunk v data p.2)
  short : start.Inlines v (blocksFor v data) [] → (buildExtents blocks).length ≤ 4
  inRange : i ≤ start.inodes v

def Inode.asFile (x : Inode) (v : Shape) (perm : Nat) (data : Bytes) (blocks : List Nat) (m : Mapping) : Inode :=
  { x with
    kind := .regular
    perm := perm % 512
    links := 1
    size := data.length
    sectors := blocks.length * (v.blockSize / 512) % 2 ^ 32
    mapping := m }

/-- A new file is entered: what is left to show is the entry. No leaf block may be found for its
extents. -/
theorem enterFile_rule (ready : FileReady v inTx start data i blocks s) {name : Name}
    (post failed : View → Prop) (leafless : 4 < (buildExtents blocks).length → failed (view v s.now))
    (entry : ∀ m (t w : FS), (view v s.now).Lays (view v t.now) m (buildExtents blocks) →
      view v w.now = { view v t.now with
        inode := update (view v t.now).inode i (Inode.zero.asFile v perm data blocks m) } →
      InodeReady v inTx (view v start.now) i w → (addDirEntry v inTx num dir i name .regFile).Meets w
        (fun r u => Frame w u ∧ OfBlocks r.2 ∧ post (view v u.now)) fun _ u => Frame w u ∧ failed (view v u.now)) :
    (enterFile v inTx num dir name true i .zero perm data blocks).Meets s
      (fun held u => Frame s u ∧ OfBlocks held ∧ post (view v u.now))
      fun _ u => Frame s u ∧ failed (view v u.now) := by
  refine (fileMapping_lays ready.covered blocks).seq ?_ ?_
  · rintro m t ⟨lays, laid⟩
    simp only [meets_bind, meets_modify, if_true]
    have live : (view v t.now).live i := lays.leaks.live ▸ ready.marked
    obtain ⟨shown, wrote⟩ := writeInode_spec (live_pos live)
      (Inode.zero.asFile v perm data blocks m)
    have frame := laid.trans wrote
    refine (entry m t _ lays shown (ready.toInodeReady.frame frame ?_ ?_)).mono ?_ ?_
    · rw [shown]
      exact (ready.admits.leaks lays.leaks).writeInode _
    · rw [shown]
      exact live
    · exact fun _ _ entered => ⟨frame.trans entered.1, entered.2⟩
    · exact fun _ _ left => ⟨frame.trans left.1, left.2⟩
  · rintro e t ⟨long, same, frame⟩
    rw [same]
    exact ⟨frame, leafless long⟩

/-- A new file, whatever it is entered with. Without a journal a failed call leaves behind what the
failed step does. -/
theorem storeFile_rule (quiet : Quiet start) (began : Began inTx start s) {name : Name}
    (post failed : Nat → View → Prop) (entry : ∀ i blocks u, FileReady v inTx start data i blocks u →
      (enterFile v inTx num dir name true i .zero perm data blocks).Meets u
        (fun held w => Frame u w ∧ OfBlocks held ∧ post i (view v w.now))
        fun _ w => Frame u w ∧ failed i (view v w.now)) :
    (storeFile v inTx num dir name none perm data).Meets s
      (fun _ t => Frame start t ∧ ∃ i, (view v start.now).live i = false ∧ post i (view v t.now))
      fun _ t => Frame start t ∧ ((view v start.now).Leaks (view v t.now) ∨
        inTx = false ∧ ∃ i, failed i (view v t.now)) := by
  have closed := quiet.closed
  have via := began.via closed
  have covered := began.covered closed
  unfold storeFile
  rw [meets_bind, meets_onFailure]
  refine ((allocBlocks_meets via covered).and (allocBlocks_judged closed began _)).mono ?_ ?_
  · rintro ⟨blocks, held⟩ t ⟨⟨takes, frame, long, ofBlocks⟩, short⟩
    rw [began.now closed] at takes
    simp only [meets_bind, meets_modify, meets_onFailure]
    obtain ⟨fills, frame'⟩ := writeChunks_spec data blocks t
    have frames := frame.trans frame'
    have leaks := takes.fills_leaks fills
    set u := writeChunks v data blocks t
    refine ((allocInode_meets (frames.inTx.trans via) (frames.covered covered) false).and
      (allocInode_range false)).seq ?_ ?_
    · rintro ⟨i, heldIno⟩ w ⟨⟨enlists, outer, restores, direct, only⟩, inRange⟩
      have unreserved : Unreserved u := fun g => by
        rw [frames.reserved g, began.unreserved quiet.unreserved g]
      have joins : (view v u.now).Joins (view v w.now) i :=
        ⟨enlists, only unreserved (frames.unstaged (began.unstaged closed))⟩
      have admits := leaks.admits joins.admits
      have outers := frames.toOuter.trans outer
      have restores : Restores s w heldIno := fun g => by rw [restores g, frames.reserved g]
      simp only [meets_pure, Option.isNone_none]
      refine (entry i blocks w ?_).mono ?_ ?_
      · constructor
        case toInodeReady =>
          refine ⟨outers.inTx.trans via, outers.covered covered, admits, joins.marked, ?_⟩
          rintro rfl
          rw [now_of_none start closed, ← began.image]
          exact congrArg (fun d => view v (Device.image d)) (outers.still via)
        case used =>
          intro b mem
          rw [joins.used, fills.used]
          exact takes.marked b mem
        case free => exact takes.fresh
        case once => exact takes.once
        case long => exact long
        case written =>
          intro p mem
          rw [joins.block]
          exact writeBlocks_content Prod.fst (fun p : Nat × Nat => .data (chunk v data p.2))
            blocks.zipIdx (by rw [zipIdx_map_fst]; exact takes.once) t p mem
        case short => exact short
        case inRange =>
          rw [frames.toOuter.inodes, began.inodes] at inRange
          exact inRange
      · rintro heldDir z ⟨frame'', ofBlocks', entered⟩
        obtain ⟨ended, shown⟩ := finish_frame closed began (outers.trans frame''.toOuter)
          ((restores.frame frame'').append_blocks ofBlocks ofBlocks') fun no =>
            (frames.trans (direct no)).trans frame''
        refine ⟨ended, i, admits.fresh, ?_⟩
        rw [shown]
        exact entered
      · rintro e z ⟨frame'', left⟩
        obtain ⟨ended, shown⟩ := undo_frame closed began (outers.trans frame''.toOuter)
          ((restores.frame frame'').prepend ofBlocks) fun no => (frames.trans (direct no)).trans frame''
        refine ⟨ended, ?_⟩
        rw [shown]
        cases inTx with
        | true => exact .inl (View.Leaks.refl _)
        | false => exact .inr ⟨rfl, i, left⟩
    · rintro e w ⟨⟨same, frame''⟩, -⟩
      obtain ⟨ended, shown⟩ := undo_frame closed began (frames.trans frame'').toOuter
        (Restores.blocks (frames.trans frame'') ofBlocks) fun _ => frames.trans frame''
      refine ⟨ended, .inl ?_⟩
      rw [shown]
      cases inTx with
      | true => exact View.Leaks.refl _
      | false =>
        rw [if_neg Bool.false_ne_true, same]
        exact leaks
  · rintro e t ⟨⟨same, frame⟩, -⟩
    obtain ⟨shown, ended⟩ := undo_same closed began same frame
    exact ⟨ended, .inl (shown ▸ View.Leaks.refl _)⟩

/-- A new file. Without a journal a failed call may leave its inode behind, unless it needs no leaf
block. -/
theorem storeFile_gains (healthy : Healthy v start) (began : Began inTx start s)
    (known : Known (view v start.now) num dir) (name : Name) (perm : Nat) :
    (storeFile v inTx num dir name none perm data).Meets s
      (fun _ t => ∃ i new, (view v start.now).live i = false ∧ (view v t.now).live i ∧
        new.Sublist [newEntry i name .regFile] ∧ Gained v start t num i new)
      fun _ t => (inTx = false → start.Inlines v (blocksFor v data) []) →
        ∃ about, Gained v start t num about [] := by
  refine (storeFile_rule healthy.toQuiet began ((view v start.now).Names num name .regFile)
    (fun i y => start.Inlines v (blocksFor v data) [] → (view v start.now).Gains y num i [])
    fun i blocks u ready => enterFile_rule ready _ (fun y => _ → (view v start.now).Gains y num i [])
      (fun long inlines => absurd (ready.short inlines) (Nat.not_le.mpr long))
      fun m t w lays shown entering => ?_).mono ?_ ?_
  · have owned : (view v w.now).Owned := by
      obtain ⟨inUse, each, fresh⟩ := lays.fresh ready.admits.grown ready.used ready.free ready.once
      rw [shown]
      exact (ready.admits.leaks lays.leaks).owned healthy.owned inUse each fresh
    exact (addDirEntry_enters entering healthy.owned owned (by rw [shown]; simp [Inode.asFile]) known name
      .regFile).mono (fun _ _ done => ⟨done.1, done.2.1, done.2.2.1⟩) fun _ _ left => ⟨left.1, fun _ => left.2⟩
  · rintro _ t ⟨frame, i, fresh, marked, new, few, gains⟩
    exact ⟨i, new, fresh, marked, few, healthy.toQuiet.frame frame, gains⟩
  · rintro e t ⟨frame, leaks | ⟨direct, i, gains⟩⟩ inlines
    · exact ⟨num, Gained.leaks healthy frame leaks num num⟩
    · exact ⟨i, healthy.toQuiet.frame frame, gains (inlines direct)⟩

theorem View.Owned.released (owned : x.Owned) (alive : x.live i) (releases : x.Releases y blocks)
    (own : ∀ b ∈ blocks, b ∈ x.mapped i) : (y.without i).Owned :=
  (owned.without i).releases (releases.without i) fun b mem =>
    owned.unowned_without alive (own b mem)

theorem View.Owned.kept_block {released : List Nat} {j b : Nat} (owned : x.Owned) (alive : x.live i)
    (releases : x.Releases y released) (own : ∀ c ∈ released, c ∈ x.mapped i) (leaks : y.Leaks z)
    (other : j ≠ i) (alive' : x.live j) (mem : b ∈ x.mapped j) : z.block b = x.block b := by
  have kept : y.used b := releases.kept b (owned.used j alive' b mem) fun freed =>
    owned.apart j i alive' alive other mem (own b freed)
  rw [leaks.block b kept, releases.block]

/-- An existing file is written over. It can fail only for want of room, or of a leaf block. -/
theorem storeFile_replaces {freed : FS} (healthy : Healthy v start) (alive : (view v start.now).live i)
    (regular : ((view v start.now).inode i).kind = .regular)
    (releases : (view v start.now).Releases (view v freed.now)
      (blocksOf ((view v start.now).extentsOf ((view v start.now).inode i).mapping)))
    (frame : Frame start freed) (began : Began inTx freed s) (num : Nat) (dir : Inode) (name : Name)
    (old : Inode) (perm : Nat) : (storeFile v inTx num dir name (some (i, old)) perm data).Meets s
      (fun _ t => Gained v start t num i []) fun _ _ =>
        ¬(freed.HasRoom v (blocksFor v data) [] ∧ freed.Inlines v (blocksFor v data) []) := by
  have owned := healthy.owned
  have quiet := healthy.toQuiet.frame frame
  have closed := quiet.closed
  have via := began.via closed
  unfold storeFile
  rw [meets_bind, meets_onFailure]
  have covered := began.covered closed
  refine ((allocBlocks_meets via covered).and (allocBlocks_judged closed began _)).mono ?_
    fun _ _ failed fits => failed.2 fits.1
  rintro ⟨blocks, held⟩ t ⟨⟨takes, frame', long, ofBlocks⟩, short⟩
  rw [began.now closed] at takes
  simp only [meets_bind, meets_modify, meets_onFailure]
  obtain ⟨fills, filled⟩ := writeChunks_spec data blocks t
  simp only [fileInode, meets_pure, Option.isNone_some, enterFile, meets_bind]
  refine (fileMapping_lays ((frame'.trans filled).covered covered) blocks).mono ?_
    fun _ _ failed fits => Nat.not_le.mpr failed.1 (short fits.2)
  rintro m u ⟨lays, laid⟩
  have frames := (frame'.trans filled).trans laid
  simp only [meets_modify, Bool.false_eq_true, if_false, meets_pure, append_nil]
  change Gained v start (finish inTx held (u.writeInode v i (old.asFile v perm data blocks m))) num i []
  set file := old.asFile v perm data blocks m with written
  obtain ⟨shown, recorded⟩ := writeInode_spec (live_pos alive) file
  have own : ∀ b ∈ blocksOf ((view v start.now).extentsOf ((view v start.now).inode i).mapping),
      b ∈ (view v start.now).mapped i := fun b mem => mem_append_right _ mem
  have taken := takes.fills_leaks fills
  have leaks := taken.trans lays.leaks
  have aside := owned.released alive releases own
  have marked : ∀ b ∈ blocks, (view v (writeChunks v data blocks t).now).used b :=
    fun b mem => by
      rw [fills.used]
      exact takes.marked b mem
  have owned' : (view v (u.writeInode v i file).now).Owned := by
    obtain ⟨inUse, each, fresh⟩ := lays.fresh taken.grown marked takes.fresh takes.once
    rw [shown]
    exact aside.remap leaks inUse each fun b mem => aside.unowned (fresh b mem)
  obtain ⟨ended, same⟩ := finish_frame closed began (frames.trans recorded).toOuter
    (Restores.blocks (frames.trans recorded) ofBlocks) fun _ => frames.trans recorded
  refine ⟨quiet.frame ended, ?_⟩
  rw [same]
  have inode : ∀ j, j ≠ i → (view v (u.writeInode v i file).now).inode j = (view v start.now).inode j := by
    intro j other
    rw [shown]
    simp only [update_of_ne other, leaks.inode, releases.inode]
  have live : (view v (u.writeInode v i file).now).live = (view v start.now).live := by
    rw [shown]
    exact leaks.live.trans releases.live
  have notDir : ∀ j, ((view v start.now).inode j).kind = .dir → j ≠ i := by
    rintro j isDir rfl
    rw [regular] at isDir
    cases isDir
  have block : ∀ j, j ≠ i → (view v start.now).live j → ∀ b ∈ (view v start.now).mapped j,
      (view v (u.writeInode v i file).now).block b = (view v start.now).block b := by
    intro j other alive' b mem
    have kept := owned.kept_block alive releases own leaks other alive' mem
    rw [shown]
    exact kept
  apply View.Gains.of_kept owned'
  case live => exact fun j alive' => by rwa [live]
  case kind =>
    intro j _
    by_cases here : j = i
    · subst here
      rw [shown, regular]
      simp [written, Inode.asFile]
    · rw [inode j here]
  case mapping => exact fun j _ isDir => by rw [inode j (notDir j isDir)]
  case block => exact fun j alive' isDir => block j (notDir j isDir) alive'
  case fresh =>
    intro j after before _
    rw [live, before] at after
    cases after
  case spares =>
    have other : ∀ j, j ∉ [num, i] → j ≠ i := by
      rintro j outside rfl
      exact outside (mem_cons_of_mem _ mem_cons_self)
    constructor
    case live => exact fun j alive' _ => by rwa [live]
    case inode => exact fun j _ outside => inode j (other j outside)
    case block => exact fun j alive' outside => block j (other j outside) alive'

/-- A call that creates the last name of a path ended, well or not: if an entry came, it is the one
for that name, which was not listed before. -/
def Entered (v : Shape) (path : Path) (s t : FS) : Prop :=
  ∃ num about new, Gained v s t num about new ∧ (new = [] ∨ ∃ dir name i fileType,
    s.lookupParent v path = .ok (num, dir, name) ∧ new.Sublist [newEntry i name fileType] ∧
      ∀ e ∈ (view v s.now).entries num, e.name ≠ name)

theorem Gained.entered (gained : Gained v s t num about []) (path : Path) : Entered v path s t :=
  ⟨num, about, [], gained, .inl rfl⟩

theorem Entered.refl (healthy : Healthy v s) (path : Path) : Entered v path s s :=
  (Gained.refl healthy 0 0).entered path

/-- A call has created the last name of a path, with an inode that was not in use. -/
def Placed (v : Shape) (path : Path) (fileType : FileType) (s t : FS) : Prop :=
  ∃ num dir name i new, s.lookupParent v path = .ok (num, dir, name) ∧
    (view v s.now).live i = false ∧ (view v t.now).live i ∧ Gained v s t num i new ∧
      new.Sublist [newEntry i name fileType] ∧ ∀ e ∈ (view v s.now).entries num, e.name ≠ name

def Overwritten (v : Shape) (path : Path) (s t : FS) : Prop :=
  ∃ num i n, s.namedBy v path = .ok (some (i, n)) ∧ ((view v s.now).inode i).kind = .regular ∧
    (∃ dir name, s.lookupParent v path = .ok (num, dir, name)) ∧ Gained v s t num i []

theorem Placed.entered {path : Path} {fileType : FileType} (placed : Placed v path fileType s t) :
    Entered v path s t := by
  obtain ⟨num, dir, name, i, new, search, _, _, gained, few, absent⟩ := placed
  exact ⟨num, i, new, gained, .inr ⟨dir, name, i, fileType, search, few, absent⟩⟩

/-- The inode that `WriteFile` changes is in use: the file that is there, or the directory that gets
an entry. -/
def FS.Attached (v : Shape) (s : FS) (path : Path) : Prop :=
  ∀ existing, s.namedBy v path = .ok existing →
    match existing with
    | some (i, _) => (view v s.now).live i
    | none => ∀ num dir name, s.lookupParent v path = .ok (num, dir, name) →
        (view v s.now).live num

theorem writeFile_placed (healthy : Healthy v s) {path : Path} (attached : s.Attached v path) (perm : Nat) :
    (writeFile v path data perm).Meets s (fun _ t => Placed v path .regFile s t ∨ Overwritten v path s t)
      fun _ t => s.Fits v path data → Entered v path s t := by
  have closed := healthy.closed
  have untouched := Entered.refl healthy path
  refine writeFile_begins (fun _ _ _ => untouched) (fun num dir name search found => ?_)
    fun num dir name i n search found regular => ?_
  · have named := namedBy_eq search found
    have known := healthy.known (attached none named num dir name search) (lookupParent_read search)
    refine (storeFile_gains healthy rfl known name perm).mono ?_ ?_
    · rintro _ t ⟨i, new, fresh, marked, few, gained⟩
      refine .inl ⟨num, dir, name, i, new, search, fresh, marked, gained, few, ?_⟩
      rw [← healthy.shown]
      intro e mem
      apply findEntry_absent found
      rwa [known.mapping, ← healthy.shown]
    · rintro _ t failed fits
      obtain ⟨about, gained⟩ := failed (fits none named)
      exact gained.entered path
  · have named := namedBy_eq search found
    have target := healthy.known (attached (some (i, n)) named) (findEntry_ok found).1
    refine ((freeInodeBlocks_meets closed n).and (freeInodeBlocks_state n)).mono ?_ ?_
    · rintro _ t ⟨⟨releases, frame⟩, freed⟩
      rw [target.mapping] at releases
      subst freed
      refine (storeFile_replaces healthy target.alive (target.kind ▸ regular) releases frame rfl num
        dir name n perm).mono ?_ ?_
      · exact fun _ _ gained => .inr ⟨num, i, n, named, target.kind ▸ regular, ⟨dir, name, search⟩, gained⟩
      · rintro _ u failed fits
        obtain ⟨room, inlines⟩ := fits (some (i, n)) named regular
        exact absurd ⟨room.released closed, inlines.released closed⟩ failed
    · rintro _ t ⟨rfl, -⟩ -
      exact untouched

theorem Healthy.attached (healthy : Healthy v s) (linked : (view v s.now).Linked s.sb.inodesCount)
    (path : Path) : s.Attached v path := by
  rintro existing named
  obtain ⟨⟨num, parent, name⟩, search, named⟩ := Prog.bind_eq_ok.mp named
  obtain ⟨dir, read, found⟩ := Prog.bind_eq_ok.mp named
  have parentKnown := healthy.parent linked search
  cases existing with
  | none =>
    intro num' dir' name' search'
    cases search.symm.trans search'
    exact parentKnown.alive
  | some old =>
    obtain ⟨i, n⟩ := old
    have isDir : dir.kind = .dir := by
      cases (lookupParent_read search).symm.trans read
      exact (lookupParent_ok search).2.2.1
    exact (healthy.entry linked (healthy.known parentKnown.alive read) isDir (readInode_ok read).2.1
      found).alive

theorem writeFile_entered (healthy : Healthy v s) (linked : (view v s.now).Linked s.sb.inodesCount)
    (path : Path) (fits : s.Fits v path data) (perm : Nat) :
    (writeFile v path data perm).Meets s (fun _ => Entered v path s) fun _ => Entered v path s :=
  (writeFile_placed healthy (healthy.attached linked path) perm).mono
    (fun _ _ done => done.elim Placed.entered fun ⟨_, _, _, _, _, _, gained⟩ => gained.entered path)
    fun _ _ failed => failed fits

end

/-! ## MkDir -/

theorem listing_names (slots : List Slot) :
    ((listing slots).map Entry.name).Sublist (slots.map Slot.name) := by
  rw [listing, map_map]
  exact (filter_sublist).map Slot.name

theorem dirBlock_names (self parent : Nat) :
    ((listing (dirBlock v self parent).records).map Entry.name).Nodup := by
  have names : ((dirBlock v self parent).records.map Slot.name).Nodup := by
    change [dot, dotDot].Nodup
    decide
  exact names.sublist (listing_names _)

theorem View.Admits.writeBlock {b : Nat} (admits : x.Admits y i) (free : x.used b = false)
    (content : Block) : x.Admits { y with block := update y.block b content } i where
  fresh := admits.fresh
  inode := admits.inode
  live := admits.live
  kept := admits.kept
  grown := admits.grown
  block c inUse := by
    have other : c ≠ b := by
      rintro rfl
      rw [free] at inUse
      cases inUse
    exact (update_of_ne other ..).trans (admits.block c inUse)

structure DirReady (v : Shape) (inTx : Bool) (x : View) (i b : Nat) (s : FS) : Prop
    extends InodeReady v inTx x i s where
  inUse : (view v s.now).used b
  free : x.used b = false

section
variable {b : Nat}

theorem DirReady.written (ready : DirReady v inTx x i b s) (parent perm : Nat) :
    let t := (s.writeBlock b (dirBlock v i parent)).writeInode v i (dirInode v perm b)
    Frame s t ∧ InodeReady v inTx x i t ∧ view v t.now = { view v s.now with
      inode := update (view v s.now).inode i (dirInode v perm b)
      block := update (view v s.now).block b (dirBlock v i parent) } := by
  intro t
  obtain ⟨block, frame⟩ := writeBlock_spec b (dirBlock v i parent)
  obtain ⟨inode, frame'⟩ := writeInode_spec (s := s.writeBlock b (dirBlock v i parent))
    (live_pos ready.marked) (dirInode v perm b)
  rw [block] at inode
  refine ⟨frame.trans frame', ready.toInodeReady.frame (frame.trans frame') ?_ ?_, inode⟩ <;> rw [inode]
  · exact (ready.admits.writeBlock ready.free (dirBlock v i parent)).writeInode _
  · exact ready.marked

theorem DirReady.owned (ready : DirReady v inTx x i b s) (owned : x.Owned) (parent perm : Nat) :
    let t := (s.writeBlock b (dirBlock v i parent)).writeInode v i (dirInode v perm b)
    (view v t.now).Owned ∧ (((view v t.now).entries i).map Entry.name).Nodup := by
  intro t
  have mapped : ∀ y : View, y.mappedBy (dirInode v perm b).mapping = [b] := fun _ => blocksOf_single 0 b
  rw [(ready.written parent perm).2.2]
  constructor
  · apply (ready.admits.writeBlock ready.free (dirBlock v i parent)).owned owned <;> rw [mapped]
    · simpa using ready.inUse
    · exact nodup_singleton b
    · simpa using ready.free
  · have records : View.records
        { view v s.now with
          inode := update (view v s.now).inode i (dirInode v perm b)
          block := update (view v s.now).block b (dirBlock v i parent) }
        (dirInode v perm b).mapping = (dirBlock v i parent).records := by
      change ((blocksOf [⟨0, b, 1⟩]).flatMap _) = _
      rw [blocksOf_single, flatMap_singleton]
      dsimp only
      rw [update_self]
    rw [View.entries]
    dsimp only
    rw [update_self, records]
    exact dirBlock_names i parent

/-- The entry of the new directory, and the inode of its parent, which the caller writes back. -/
theorem addDirEntry_newDir (ready : DirReady v inTx x i b u) (owned : x.Owned) (known : Known x num dir)
    (name : Name) (perm : Nat) : (addDirEntry v inTx num dir i name .dir).Meets
      ((u.writeBlock b (dirBlock v i num)).writeInode v i (dirInode v perm b))
      (fun r t => OfBlocks r.2 ∧ ∀ n : Inode, n.mapping = r.1.mapping → n.kind = r.1.kind →
        Frame u (t.writeInode v num n) ∧ x.Names num name .dir i (view v (t.writeInode v num n).now))
      fun _ t => Frame u t ∧ x.Gains (view v t.now) num i [] := by
  obtain ⟨frame, entering, -⟩ := ready.written num perm
  obtain ⟨owned', names⟩ := ready.owned owned num perm
  refine (addDirEntry_enters entering owned owned' (fun _ => names) known name .dir).mono ?_
    fun _ _ left => ⟨frame.trans left.1, left.2⟩
  rintro ⟨dir', held⟩ t ⟨frame', ofBlocks, ⟨marked, new, few, gains⟩, mapping, kind⟩
  refine ⟨ofBlocks, fun n sameMapping sameKind => ?_⟩
  obtain ⟨shown, recorded⟩ := writeInode_spec (live_pos (gains.live num known.alive)) n
  have later := gains.owned.gains_writeInode (sameMapping.trans mapping)
    ((sameKind.trans kind).trans (known.kind.trans (gains.kind num known.alive).symm))
    (mem_cons_self : num ∈ [num, i])
  rw [shown]
  exact ⟨(frame.trans frame').trans recorded, marked, new, few, gains.trans later known.alive⟩

end

theorem makeDirTx_rule (quiet : Quiet s) {name : Name} (post : Nat → Nat → View → Prop)
    (entry : ∀ i b u, DirReady v true (view v s.now) i b u → i ≤ s.inodes v →
      (addDirEntry v true num dir.addLink i name .dir).Meets
        ((u.writeBlock b (dirBlock v i num)).writeInode v i (dirInode v perm b))
        (fun r w => Frame u (w.writeInode v num r.1) ∧ OfBlocks r.2 ∧
          post i b (view v (w.writeInode v num r.1).now)) fun _ w => Frame u w) :
    (makeDirTx v num dir name perm).Meets s
      (fun _ t => Frame s t ∧ ∃ i b, (view v s.now).live i = false ∧ post i b (view v t.now))
      fun _ t => Frame s t ∧ view v t.now = view v s.now := by
  have closed := quiet.closed
  have began : Began true s s.startTx := rfl
  have via := began.via closed
  have covered := began.covered closed
  -- A transaction that is given up leaves nothing.
  have undone : ∀ {t held}, Outer s.startTx t → Restores s.startTx t held →
      Frame s (undo true held t) ∧ view v (undo true held t).now = view v s.now := by
    intro t held outer restores
    obtain ⟨ended, shown⟩ := undo_frame closed began outer restores (by simp)
    exact ⟨ended, by rw [shown, if_pos rfl]⟩
  unfold makeDirTx
  rw [meets_bind, meets_modify, meets_bind, meets_onFailure]
  refine ((allocInode_meets via covered true).and (allocInode_range true)).mono ?_ ?_
  · rintro ⟨i, heldIno⟩ t ⟨⟨enlists, outer, restores, _, only⟩, inRange⟩
    have joins : (view v s.now).Joins (view v t.now) i := by
      have joins : (view v s.startTx.now).Joins (view v t.now) i :=
        ⟨enlists, only (began.unreserved quiet.unreserved) (began.unstaged closed)⟩
      rwa [began.now closed] at joins
    rw [meets_bind, meets_onFailure]
    refine (allocBlocks_meets (outer.inTx.trans via) (outer.covered covered)).mono ?_ ?_
    · rintro ⟨blocks, held⟩ u ⟨takes, frame, long, ofBlocks⟩
      obtain ⟨b, rfl⟩ := length_eq_one_iff.mp long
      have outers := outer.trans frame.toOuter
      simp only [meets_bind, meets_onFailure, enterDirTx, meets_modify, meets_pure, headD_cons]
      refine (entry i b u ?_ inRange).mono ?_ ?_
      · constructor
        case toInodeReady =>
          refine ⟨outers.inTx.trans via, outers.covered covered, joins.admits.leaks takes.leaks,
            takes.live ▸ joins.marked, fun _ => ?_⟩
          rw [now_of_none s closed]
          exact congrArg (fun d => view v (Device.image d)) (outers.still via)
        case inUse => exact takes.marked b (mem_singleton_self b)
        case free => exact joins.used ▸ takes.fresh b (mem_singleton_self b)
      · rintro ⟨dir', heldDir⟩ w ⟨frame', ofBlocks', entered⟩
        obtain ⟨ended, shown⟩ := finish_frame closed began (outers.trans frame'.toOuter)
          ((restores.frame (frame.trans frame')).prepend (ofBlocks'.append ofBlocks)) (by simp)
        obtain ⟨same, frame''⟩ :=
          writeSuper_spec (by rw [ended.toOuter.closed closed]; rfl : _ = false)
        refine ⟨ended.trans frame'', i, b, joins.fresh, ?_⟩
        rw [same, shown]
        exact entered
      · exact fun _ _ frame' => undone (outers.trans frame'.toOuter)
          ((restores.frame (frame.trans frame')).prepend ofBlocks)
    · rintro e u ⟨_, frame⟩
      exact undone (outer.trans frame.toOuter) (restores.frame frame)
  · rintro e t ⟨⟨_, frame⟩, -⟩
    exact undone frame.toOuter (Restores.blocks frame (forall_mem_nil _))

/-- A block can be taken, or no inode is: then a new inode never stays without its block. -/
def FS.Spare (v : Shape) (s : FS) : Prop := s.HasRoom v 1 [] ∨ ¬ s.HasInode v

theorem allocInodeAlone_spare (quiet : Quiet s) (isDir : Bool) : (allocInodeAlone v isDir).Meets s
      (fun i t => (view v s.now).Joins (view v t.now) i ∧ Frame s t ∧
        (v.blocksPerGroup < 2 ^ v.descBits → s.Spare v → t.HasRoom v 1 []))
      fun _ t => view v t.now = view v s.now ∧ Frame s t := by
  have closed := quiet.closed
  refine (((allocInodeAlone_meets closed quiet.unreserved isDir).and
    (allocInodeAlone_room closed isDir)).and (allocInodeAlone_judged isDir)).mono ?_ ?_
  · rintro i t ⟨⟨⟨joins, frame⟩, same⟩, had, _⟩
    refine ⟨joins, frame, fun narrow spare => ?_⟩
    have room := spare.resolve_right (not_not.mpr had)
    exact room.same narrow closed same frame
  · rintro e t ⟨⟨failed, _⟩, _⟩
    exact failed

theorem allocBlocksAlone_single (closed : s.tx = none) : (allocBlocksAlone v 1).Meets s
      (fun blocks t => ∃ b, blocks = [b] ∧ (view v s.now).Takes (view v t.now) [b] ∧ Frame s t)
      fun _ t => ¬ s.HasRoom v 1 [] ∧ view v t.now = view v s.now ∧ Frame s t := by
  have found : (allocBlocksAlone v 1).Meets s (fun _ _ => True) fun _ _ => ¬ s.HasRoom v 1 [] :=
    meets_alone (allocBlocks v · 1) id fun u began => (allocBlocks_outcome (began.unopened closed)).mono
      (fun _ _ _ => trivial) fun _ _ failed => mt (began.room 1 []).mpr failed.1
  refine ((allocBlocksAlone_meets closed 1).and found).mono ?_ fun _ _ failed => ⟨failed.2, failed.1⟩
  rintro blocks t ⟨⟨⟨takes, long⟩, frame⟩, _⟩
  obtain ⟨b, rfl⟩ := length_eq_one_iff.mp long
  exact ⟨b, rfl, takes, frame⟩

theorem makeDirDirect_rule (quiet : Quiet s) {name : Name} (post failed : Nat → Nat → View → Prop)
    (entry : ∀ i b u, DirReady v false (view v s.now) i b u → i ≤ s.inodes v →
      (addDirEntry v false num dir i name .dir).Meets
        ((u.writeBlock b (dirBlock v i num)).writeInode v i (dirInode v perm b))
        (fun r w => Frame u (w.writeInode v num r.1.addLink) ∧
          post i b (view v (w.writeInode v num r.1.addLink).now))
        fun _ w => Frame u w ∧ failed i b (view v w.now)) : (makeDirDirect v num dir name perm).Meets s
      (fun _ t => Frame s t ∧ ∃ i b, (view v s.now).live i = false ∧ post i b (view v t.now))
      fun _ t => Frame s t ∧ (view v t.now = view v s.now ∨
        (∃ i, (view v s.now).Joins (view v t.now) i ∧ (v.blocksPerGroup < 2 ^ v.descBits → ¬ s.Spare v)) ∨
          ∃ i b, failed i b (view v t.now)) := by
  have closed := quiet.closed
  refine ((allocInodeAlone_spare quiet true).and (allocInodeAlone_range true)).seq ?_ fun _ _ none_ =>
    ⟨none_.1.2, .inl none_.1.1⟩
  rintro i t ⟨⟨joins, frame, room⟩, inRange⟩
  have closed' := frame.toOuter.closed closed
  refine (allocBlocksAlone_single closed').seq ?_ ?_
  · rintro _ u ⟨b, rfl, takes, frame'⟩
    have via : u.tx.isSome = false := by rw [frame'.toOuter.closed closed']; rfl
    obtain ⟨same, counted⟩ := writeSuper_spec via
    have frames := (frame.trans frame').trans counted
    have closed'' := frames.toOuter.closed closed
    simp only [meets_bind, meets_modify, headD_cons]
    refine (entry i b (u.writeSuper false) ?_ inRange).mono ?_ ?_
    · constructor
      case toInodeReady =>
        refine ⟨by rw [closed'']; rfl, covered_of_none closed'', ?_, ?_, by simp⟩ <;> rw [same]
        · exact joins.admits.leaks takes.leaks
        · exact takes.live ▸ joins.marked
      case inUse =>
        rw [same]
        exact takes.marked b (mem_singleton_self b)
      case free => exact joins.used ▸ takes.fresh b (mem_singleton_self b)
    · rintro ⟨dir', held⟩ w ⟨frame'', entered⟩
      exact ⟨frames.trans frame'', i, b, joins.fresh, entered⟩
    · rintro e w ⟨frame'', left⟩
      exact ⟨frames.trans frame'', .inr (.inr ⟨i, b, left⟩)⟩
  · rintro e u ⟨full, same, frame'⟩
    refine ⟨frame.trans frame', .inr (.inl ⟨i, ?_, fun narrow spare => full (room narrow spare)⟩)⟩
    rw [same]
    exact joins

/-- Both ways to make a directory: what is left to show is the entry in the parent. Without a journal
a failed call leaves a new inode behind when it finds no block for it. -/
theorem newDir_rule (quiet : Quiet s) (name : Name) (perm : Nat) (post failed : Nat → Nat → View → Prop)
    (entry : ∀ inTx copy i b u, copy.mapping = dir.mapping → copy.kind = dir.kind →
      DirReady v inTx (view v s.now) i b u → i ≤ s.inodes v →
      (addDirEntry v inTx num copy i name .dir).Meets
        ((u.writeBlock b (dirBlock v i num)).writeInode v i (dirInode v perm b))
        (fun r w => OfBlocks r.2 ∧ ∀ n : Inode, n.mapping = r.1.mapping → n.kind = r.1.kind →
          Frame u (w.writeInode v num n) ∧ post i b (view v (w.writeInode v num n).now))
        fun _ w => Frame u w ∧ failed i b (view v w.now)) :
    (if s.journal then makeDirTx v num dir name perm else makeDirDirect v num dir name perm).Meets s
      (fun _ t => Frame s t ∧ ∃ i b, (view v s.now).live i = false ∧ post i b (view v t.now))
      fun _ t => Frame s t ∧ (view v t.now = view v s.now ∨ s.journal = false ∧
        ((∃ i, (view v s.now).Joins (view v t.now) i ∧ (v.blocksPerGroup < 2 ^ v.descBits → ¬ s.Spare v)) ∨
          ∃ i b, failed i b (view v t.now))) := by
  split
  · refine (makeDirTx_rule quiet post fun i b u ready inRange => ?_).mono (fun _ _ made => made)
      fun _ _ failed => ⟨failed.1, .inl failed.2⟩
    refine (entry true dir.addLink i b u rfl rfl ready inRange).mono ?_ fun _ _ failed => failed.1
    rintro r w ⟨ofBlocks, spec⟩
    obtain ⟨frame, good⟩ := spec r.1 rfl rfl
    exact ⟨frame, ofBlocks, good⟩
  next direct =>
    refine (makeDirDirect_rule quiet post failed fun i b u ready inRange => ?_).mono (fun _ _ made => made)
      fun _ _ failed => ⟨failed.1, failed.2.imp_right fun left => ⟨by simpa using direct, left⟩⟩
    exact (entry false dir i b u rfl rfl ready inRange).imp fun r _ made => made.2 r.1.addLink rfl rfl

theorem makeDir_placed (healthy : Healthy v s) {path : Path}
    (attached : ∀ num dir name, s.lookupParent v path = .ok (num, dir, name) → (view v s.now).live num)
    (perm : Nat) : (makeDir v path perm).Meets s (fun _ => Placed v path .dir s)
      fun _ t => v.blocksPerGroup < 2 ^ v.descBits → (s.journal = false → s.Spare v) →
        Entered v path s t := by
  refine makeDir_begins (fun _ _ _ _ => Entered.refl healthy path)
    fun num dir name entries search listed unlisted => ?_
  have known := healthy.known (attached num dir name search) (lookupParent_read search)
  refine (newDir_rule healthy.toQuiet name perm (fun i _ => (view v s.now).Names num name .dir i)
    (fun i _ y => (view v s.now).Gains y num i []) fun inTx copy i b u mapping kind ready _ =>
      addDirEntry_newDir ready healthy.owned (known.copy mapping kind) name perm).mono ?_ ?_
  · rintro _ t ⟨frame, i, b, fresh, marked, new, few, gains⟩
    exact ⟨num, dir, name, i, new, search, fresh, marked, ⟨healthy.toQuiet.frame frame, gains⟩, few,
      known.absent healthy listed unlisted⟩
  · rintro e t ⟨frame, same | ⟨direct, ⟨i, _, starved⟩ | ⟨i, b, gains⟩⟩⟩ narrow spare
    · exact (Gained.leaks healthy frame (same ▸ View.Leaks.refl _) num num).entered path
    · exact absurd (spare direct) (starved narrow)
    · exact Gained.entered ⟨healthy.toQuiet.frame frame, gains⟩ path

theorem makeDir_entered (narrow : v.blocksPerGroup < 2 ^ v.descBits) (healthy : Healthy v s)
    (linked : (view v s.now).Linked s.sb.inodesCount) (path : Path) (spare : s.journal = false → s.Spare v)
    (perm : Nat) : (makeDir v path perm).Meets s (fun _ => Entered v path s) fun _ => Entered v path s :=
  (makeDir_placed healthy (fun _ _ _ search => (healthy.parent linked search).alive) perm).mono
    (fun _ _ placed => placed.entered) fun _ _ failed => failed narrow spare

/-! ## Symlink and Link -/

structure LinkReady (v : Shape) (x : View) (i : Nat) (s t : FS) : Prop extends InodeReady v false x i t where
  later : Frame s t
  isLink : ((view v t.now).inode i).kind = .symlink
  owned : x.Owned → (view v t.now).Owned

theorem linkInode_meets (closed : s.tx = none) (target : Path) (joins : x.Joins (view v s.now) i) :
    (linkInode v target).Meets s
      (fun n t => LinkReady v x i s (t.writeInode v i n))
      fun _ t => 60 < target.length ∧ ¬ s.HasRoom v 1 [] ∧ view v t.now = view v s.now ∧ Frame s t := by
  have ready {n : Inode} {t : FS} (frame : Frame s t) (admits : x.Admits (view v t.now) i)
      (live : (view v t.now).live = (view v s.now).live) (isLink : n.kind = .symlink)
      (once : ((view v t.now).mappedBy n.mapping).Nodup)
      (blocks : ∀ b ∈ (view v t.now).mappedBy n.mapping, (view v t.now).used b ∧ x.used b = false) :
      LinkReady v x i s (t.writeInode v i n) := by
    have marked : (view v t.now).live i := by rw [live, joins.marked]
    obtain ⟨shown, recorded⟩ := writeInode_spec (live_pos marked) n
    have closed' := (frame.trans recorded).toOuter.closed closed
    refine ⟨⟨by rw [closed']; rfl, covered_of_none closed', ?_, ?_, by simp⟩, frame.trans recorded, ?_,
      fun owned => ?_⟩ <;> rw [shown]
    · exact admits.writeInode n
    · exact marked
    · simpa using isLink
    · exact admits.owned owned (fun b mem => (blocks b mem).1) once fun b mem => (blocks b mem).2
  unfold linkInode
  split
  · exact ready (Frame.refl s) joins.admits rfl rfl nodup_nil
      (by simp [View.mappedBy, Mapping.child, View.extentsOf, blocksOf])
  next long =>
    refine (allocBlocksAlone_single closed).seq ?_ fun _ _ full => ⟨by omega, full⟩
    rintro _ t ⟨b, rfl, takes, frame⟩
    have fresh : x.used b = false := joins.used ▸ takes.fresh b (mem_singleton_self b)
    obtain ⟨shown, frame'⟩ := writeBlock_spec b (.target target)
    have frames := frame.trans frame'
    have via : (t.writeBlock b (.target target)).tx.isSome = false := by
      rw [frames.toOuter.closed closed]
      rfl
    obtain ⟨same, counted⟩ := writeSuper_spec via
    simp only [meets_bind, meets_modify, meets_pure, headD_cons]
    have mapped : ∀ y : View, y.mappedBy (.inline [⟨0, b, 1⟩]) = [b] := fun _ => blocksOf_single 0 b
    refine ready (frames.trans counted) ?_ ?_ rfl ?_ ?_ <;> rw [same, shown]
    · exact (joins.admits.leaks takes.leaks).writeBlock fresh _
    · exact takes.live
    · rw [mapped]
      exact nodup_singleton b
    · rw [mapped]
      intro c mem
      rw [mem_singleton.mp mem]
      exact ⟨takes.marked b (mem_singleton_self b), fresh⟩

/-- A target that needs a block of its own needs a free block if the link gets an inode. -/
theorem makeSymlink_entered (narrow : v.blocksPerGroup < 2 ^ v.descBits) (healthy : Healthy v s)
    (linked : (view v s.now).Linked s.sb.inodesCount) (target path : Path)
    (spare : 60 < target.length → s.Spare v) :
    (makeSymlink v target path).Meets s (fun _ => Entered v path s) fun _ => Entered v path s := by
  have closed := healthy.closed
  refine makeSymlink_begins (fun _ _ => Entered.refl healthy path) fun num dir name entries search listed unlisted => ?_
  have known := healthy.parent linked search
  have absent := known.absent healthy listed unlisted
  refine (allocInodeAlone_spare healthy.toQuiet false).seq ?_ fun _ _ failed =>
    (Gained.leaks healthy failed.2 (failed.1 ▸ View.Leaks.refl _) num num).entered path
  rintro i t ⟨joins, frame, room⟩
  refine (linkInode_meets (frame.toOuter.closed closed) target joins).seq ?_
    fun _ _ failed => absurd (room narrow (spare failed.1)) failed.2.1
  intro n u entering
  have frames := frame.trans entering.later
  rw [meets_bind, meets_modify]
  refine (addDirEntry_enters entering.toInodeReady healthy.owned (entering.owned healthy.owned)
    (by simp [entering.isLink]) known name .symlink).seq ?_ ?_
  · rintro ⟨dir', held⟩ w ⟨frame'', _, ⟨_, new, few, gains⟩, _⟩
    exact ⟨num, i, new, ⟨healthy.toQuiet.frame (frames.trans frame''), gains⟩,
      .inr ⟨dir, name, i, .symlink, search, few, absent⟩⟩
  · rintro e w ⟨frame'', gains⟩
    exact Gained.entered ⟨healthy.toQuiet.frame (frames.trans frame''), gains⟩ path

/-- A second name for an inode; the source reads its count again after the entry is there. -/
theorem makeLink_entered (healthy : Healthy v s) (linked : (view v s.now).Linked s.sb.inodesCount)
    (oldPath path : Path) :
    (makeLink v oldPath path).Meets s (fun _ => Entered v path s) fun _ => Entered v path s := by
  have closed := healthy.closed
  refine makeLink_begins (fun _ _ => Entered.refl healthy path)
    fun _ _ _ src n num dir name entries _ _ search listed unlisted => ?_
  have known := healthy.parent linked search
  have absent := known.absent healthy listed unlisted
  refine (addDirEntry_gains (by rw [closed]; rfl) (covered_of_none closed) healthy.owned
    known.alive known.mapping known.kind (fun _ _ => by rw [healthy.shown]) src src name
    n.fileType).seq ?_ ?_
  · rintro ⟨dir', held⟩ t ⟨⟨new, few, gains⟩, _, _, frame, _⟩
    have quiet := healthy.toQuiet.frame frame
    have entered : ∀ u, Gained v s u num src new → Entered v path s u := fun u gained =>
      ⟨num, src, new, gained, .inr ⟨dir, name, src, n.fileType, search, few, absent⟩⟩
    refine .look (fun m again => ?_) fun _ _ => entered t ⟨quiet, gains⟩
    obtain ⟨low, _, rfl⟩ := readInode_ok again
    obtain ⟨shown, frame'⟩ := writeInode_spec low
      ((view v t.image).inode src).addLink
    rw [meets_modify]
    apply entered
    refine ⟨quiet.frame frame', ?_⟩
    rw [shown, now_of_none t quiet.closed] at *
    exact gains.trans (gains.owned.gains_writeInode
      (n := ((view v t.image).inode src).addLink) rfl rfl
      (mem_cons_of_mem _ mem_cons_self)) known.alive
  · rintro e t ⟨gains, frame⟩
    exact Gained.entered ⟨healthy.toQuiet.frame frame, gains⟩ path

end Ext4.Volume
