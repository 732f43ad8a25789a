import Ext4.Volume.Creation
import Ext4.Volume.FileSystem
import Ext4.Volume.Spending

/-! Creating a name when space runs out.
An operation that creates a name allocates in up to four steps. When the first of them fails nothing
has happened; when a later one fails, the counters of the superblock in memory have gone down and
stay so. -/

namespace Ext4.Volume
open Octets Alloc Store FS

variable {v : Shape} {s t : FS} {path : Path} {e : Err} {inTx : Bool} {room : Prop} {low high : Nat}

structure Unchanged (v : Shape) (path : Path) (s t : FS) : Prop where
  bitmaps : ∀ key, t.image (.bitmap key) = s.image (.bitmap key)
  counts : ∀ g, descAt v t.image g = descAt v s.image g
  disk : (t.image .super).primary = (s.image .super).primary
  freeBlocks : t.sb.freeBlocks = s.sb.freeBlocks
  freeInodes : t.sb.freeInodes = s.sb.freeInodes
  parent : ∀ num dir name, s.lookupParent v path = .ok (num, dir, name) →
    (view v t.image).inode num = dir ∧
      (view v t.image).entries num = (view v s.image).entries num

structure Untouched (s t : FS) : Prop where
  image : t.image = s.image
  sb : t.sb = s.sb

theorem Untouched.unchanged (untouched : Untouched s t) (path : Path) : Unchanged v path s t where
  bitmaps key := by rw [untouched.image]
  counts g := by rw [untouched.image]
  disk := by rw [untouched.image]
  freeBlocks := by rw [untouched.sb]
  freeInodes := by rw [untouched.sb]
  parent num dir name found := by
    rw [untouched.image]
    exact ⟨(readInode_ok (lookupParent_read found)).2.2.symm, rfl⟩

theorem Began.untouched (began : Began inTx s t) : Untouched s (undo inTx [] t.advanceCursor) := by
  subst began
  cases inTx <;> exact ⟨rfl, rfl⟩

/-- Nothing happened for lack of the first thing needed, or it was there and something was spent. -/
def Judged (s t : FS) (room : Prop) : Prop :=
  ¬ room ∧ Untouched s t ∨ room ∧ (t.sb.freeBlocks ≠ s.sb.freeBlocks ∨ t.sb.freeInodes ≠ s.sb.freeInodes)

theorem Judged.iff (judged : Judged s t room) (path : Path) : Unchanged v path s t ↔ ¬ room := by
  rcases judged with ⟨starved, untouched⟩ | ⟨room, changed⟩
  · exact ⟨fun _ => starved, fun _ => untouched.unchanged path⟩
  · refine ⟨fun unchanged => ?_, fun starved => absurd room starved⟩
    exact absurd unchanged.freeInodes (changed.resolve_left (absurd unchanged.freeBlocks))

theorem Judged.blocks {inodes : Nat} (had : room) (spends : Spends low high inodes s t) (some : 0 < low)
    (narrow : high < 2 ^ 64) : Judged s t room := by
  obtain ⟨k, atLeast, atMost, spent⟩ := spends
  exact .inr ⟨had, .inl (spent.blocks_ne (by omega) (by omega))⟩

theorem Judged.inodes (had : room) (spends : Spends low high 1 s t) : Judged s t room := by
  obtain ⟨k, _, _, spent⟩ := spends
  exact .inr ⟨had, .inr (spent.inodes_ne Nat.one_pos (by decide))⟩

/-! ## What a call reads before it writes -/

section
variable {num : Nat} {dir : Inode} {name : Name} {existing : Option (Nat × Inode)} {post : Unit → FS → Prop}
  {failed : Err → FS → Prop}

theorem namedBy_eq (search : s.lookupParent v path = .ok (num, dir, name))
    (found : s.findEntry v dir name = .ok existing) : s.namedBy v path = .ok existing := by
  simp [namedBy, search, lookupParent_read search, found, bind, Except.bind]

variable (benign : ∀ e, e.benign → failed e s) {perm : Nat}
include benign

theorem writeFile_begins {data : Bytes}
    (create : ∀ num dir name, s.lookupParent v path = .ok (num, dir, name) → s.findEntry v dir name = .ok none →
      (storeFile v s.journal num dir name none perm data).Meets (if s.journal then s.startTx else s) post failed)
    (overwrite : ∀ num dir name i x, s.lookupParent v path = .ok (num, dir, name) →
      s.findEntry v dir name = .ok (some (i, x)) → x.kind = .regular → (freeInodeBlocks v x).Meets s
        (fun _ t => (storeFile v t.journal num dir name (some (i, x)) perm data).Meets
          (if t.journal then t.startTx else t) post failed) failed) :
    (writeFile v path data perm).Meets s post failed := by
  refine .look ?_ fun e missing => benign e (lookupParent_benign path e missing)
  rintro ⟨num, dir, name⟩ search
  refine .known (lookupParent_read search) (.look (fun existing found => ?_) fun e missing =>
    benign e (findEntry_benign _ _ e missing))
  split
  · exact benign _ rfl
  next regular =>
    cases existing with
    | none => exact create num dir name search found
    | some old =>
      exact (overwrite num dir name old.1 old.2 search found (by simpa using regular)).step
        fun _ _ stored => stored

theorem makeDir_begins (create : ∀ num dir name entries, s.lookupParent v path = .ok (num, dir, name) →
      s.readDir dir = .ok entries → (∀ e ∈ entries, e.name ≠ name) →
      (if s.journal then makeDirTx v num dir name perm else makeDirDirect v num dir name perm).Meets s
        post failed) : (makeDir v path perm).Meets s post failed := by
  refine .look ?_ fun e missing => benign e (lookupParent_benign path e missing)
  rintro ⟨num, dir, name⟩ search
  refine .look (fun entries listed => ?_) fun e missing => benign e (readDir_benign _ e missing)
  split
  · exact benign _ rfl
  next unlisted => exact create num dir name entries search listed (by simpa using unlisted)

theorem makeSymlink_begins {target : Path} (create : ∀ num dir name entries,
      s.lookupParent v path = .ok (num, dir, name) → s.readDir dir = .ok entries →
      (∀ e ∈ entries, e.name ≠ name) → (do
        let i ← allocInodeAlone v false
        let x ← linkInode v target
        .modify fun s => s.writeInode v i x
        let _ ← addDirEntry v false num dir i name .symlink
        pure () : Prog FS Err Unit).Meets s post failed) : (makeSymlink v target path).Meets s post failed := by
  refine .look ?_ fun e missing => benign e (lookupParent_benign path e missing)
  rintro ⟨num, dir, name⟩ search
  dsimp only
  split
  · exact benign _ rfl
  split
  · exact benign _ rfl
  refine .known (lookupParent_read search) (.look (fun entries listed => ?_) fun e missing =>
    benign e (readDir_benign _ e missing))
  split
  · exact benign _ rfl
  next unlisted => exact create num dir name entries search listed (by simpa using unlisted)

theorem makeLink_begins {oldPath : Path} (create : ∀ srcNum srcParent srcName src x num dir name entries,
      s.lookupParent v oldPath = .ok (srcNum, srcParent, srcName) →
      s.findEntry v srcParent srcName = .ok (some (src, x)) → s.lookupParent v path = .ok (num, dir, name) →
      s.readDir dir = .ok entries → (∀ e ∈ entries, e.name ≠ name) → (do
        let _ ← addDirEntry v false num dir src name x.fileType
        let x ← .tryRead fun s => s.readInode v src
        .modify fun s => s.writeInode v src x.addLink : Prog FS Err Unit).Meets s post failed) :
    (makeLink v oldPath path).Meets s post failed := by
  refine .look ?_ fun e missing => benign e (lookupParent_benign oldPath e missing)
  rintro ⟨srcNum, srcParent, srcName⟩ searchSrc
  refine .look (fun found searchEntry => ?_) fun e missing => benign e (findEntry_benign _ _ e missing)
  cases found with
  | none => exact benign _ rfl
  | some source =>
    dsimp only
    split
    · exact benign _ rfl
    refine .look ?_ fun e missing => benign e (lookupParent_benign path e missing)
    rintro ⟨num, dir, name⟩ search
    refine .known (lookupParent_read search) (.look (fun entries listed => ?_) fun e missing =>
      benign e (readDir_benign _ e missing))
    split
    · exact benign _ rfl
    next unlisted =>
      exact create srcNum srcParent srcName source.1 source.2 num dir name entries searchSrc searchEntry search
        listed (by simpa using unlisted)

end

theorem benign_judged (e : Err) (benign : e.benign) (exhausted : e.exhausted) :
    Judged s t room := by
  rw [Err.benign, exhausted] at benign
  cases benign

/-! ## WriteFile -/

theorem blocksFor_pos (data : Bytes) : 0 < blocksFor v data :=
  Nat.lt_of_lt_of_le Nat.one_pos (Nat.le_max_left _ _)

theorem writeChunks_sb (data : Bytes) (blocks : List Nat) : (writeChunks v data blocks s).sb = s.sb := by
  unfold writeChunks
  generalize blocks.zipIdx = items
  induction items generalizing s with
  | nil => rfl
  | cons item rest ih => exact ih.trans (writeBlock_sb _ _)

theorem enterFile_spends (narrow : v.blocksPerGroup < 2 ^ 32) (num : Nat) (dir : Inode) (name : Name)
    (isNew : Bool) (i : Nat) (x : Inode) (perm : Nat) (data : Bytes) (blocks : List Nat) :
    (enterFile v inTx num dir name isNew i x perm data blocks).Meets s (fun _ _ => True)
      fun _ t => Spends 0 2 0 s t := by
  unfold enterFile fileMapping
  rw [meets_bind, meets_bind]
  refine (layExtents_spends narrow _).mono ?_ fun _ _ spends =>
    spends.widen (Nat.le_refl 0) (Nat.zero_le 2)
  rintro ⟨m, held⟩ t spends
  simp only [meets_bind, meets_modify, meets_pure]
  split
  · refine (addDirEntry_spends narrow num dir i name .regFile).seq (fun _ _ _ => trivial) ?_
    intro _ u later
    exact (Spends.trans (spends.of_eq (writeInode_sb i _)) later)
  · trivial

theorem storeFile_judged {start : FS} (closed : start.tx = none) (began : Began inTx start s)
    (narrow : v.blocksPerGroup < 2 ^ 32) (num : Nat) (dir : Inode) (name : Name) (perm : Nat) (data : Bytes) :
    (storeFile v inTx num dir name none perm data).Meets s (fun _ _ => True)
      fun _ t => Judged start t (start.HasRoom v (blocksFor v data) []) := by
  have room := began.room (v := v) (blocksFor v data) []
  have some := blocksFor_pos (v := v) data
  unfold storeFile
  rw [meets_bind, meets_onFailure]
  refine ((allocBlocks_outcome (began.unopened closed)).and (allocBlocks_spent narrow)).mono ?_ ?_
  · rintro ⟨blocks, held⟩ t ⟨had, spent, fits⟩
    have had := room.mp had
    have spends := began.spends (.exactly spent)
    simp only [meets_bind, meets_modify, meets_onFailure]
    have written := spends.of_eq (writeChunks_sb (v := v) data blocks)
    refine (allocInode_spent false).seq ?_ ?_
    · rintro ⟨i, heldIno⟩ u inode
      simp only [meets_pure]
      refine (enterFile_spends narrow num dir name true i .zero perm data blocks).mono
        (fun _ _ _ => trivial) fun _ w later => ?_
      have total := (written.trans (.exactly inode)).trans later
      exact Judged.blocks had (total.of_eq (undo_sb _)) (by omega) (by omega)
    · intro _ u failed
      exact Judged.blocks had ((written.trans (.exactly failed)).of_eq (undo_sb _)) (by omega) (by omega)
  · rintro _ t ⟨⟨starved, rfl⟩, _⟩
    exact .inl ⟨mt room.mpr starved, began.untouched⟩

def FS.Absent (v : Shape) (s : FS) (path : Path) : Prop :=
  ∀ num dir name, s.lookupParent v path = .ok (num, dir, name) → s.findEntry v dir name = .ok none

theorem writeFile_judged (closed : s.tx = none) (narrow : v.blocksPerGroup < 2 ^ 32)
    (absent : s.Absent v path) (data : Bytes) (perm : Nat) :
    (writeFile v path data perm).Meets s (fun _ _ => True)
      fun e t => e.exhausted → Judged s t (s.HasRoom v (blocksFor v data) []) := by
  refine writeFile_begins benign_judged (fun num dir name _ _ => ?_) fun num dir name i x search found => ?_
  · exact (storeFile_judged closed rfl narrow num dir name perm data).mono (fun _ _ _ => trivial)
      fun _ _ judged _ => judged
  · cases (absent num dir name search).symm.trans found

/-! ## MkDir -/

theorem allocInodeAlone_judged (isDir : Bool) :
    (allocInodeAlone v isDir).Meets s (fun _ t => s.HasInode v ∧ Spends 0 0 1 s t)
      fun _ t => ¬ s.HasInode v ∧ Untouched s t := by
  refine meets_alone (allocInode v · isDir) id fun u began => ?_
  have had : u.HasInode v ↔ s.HasInode v := by
    subst began
    split <;> rfl
  refine ((allocInode_outcome isDir).and (allocInode_spent isDir)).mono ?_ ?_
  · exact fun r _ good => ⟨had.mp good.1, (began.spends (.exactly good.2)).of_eq (finish_sb r.2)⟩
  · rintro _ t ⟨⟨starved, rfl⟩, _⟩
    exact ⟨mt had.mpr starved, began.untouched⟩

section
variable (narrow : v.blocksPerGroup < 2 ^ 32)
include narrow

theorem makeDirTx_judged (num : Nat) (parent : Inode) (name : Name)
    (perm : Nat) : (makeDirTx v num parent name perm).Meets s (fun _ _ => True)
      fun _ t => Judged s t (s.HasInode v) := by
  unfold makeDirTx
  rw [meets_bind, meets_modify, meets_bind, meets_onFailure]
  refine ((allocInode_outcome true).and (allocInode_spent true)).mono ?_ ?_
  · rintro ⟨i, heldIno⟩ t ⟨had, spent⟩
    have began : Began true s s.startTx := rfl
    have spends := began.spends (.exactly spent)
    rw [meets_bind, meets_onFailure]
    refine (allocBlocks_spent narrow).mono ?_ ?_
    · rintro ⟨blocks, held⟩ u ⟨taken, _⟩
      rw [meets_bind, meets_onFailure]
      unfold enterDirTx
      simp only [meets_bind, meets_modify, meets_pure]
      refine (addDirEntry_spends narrow _ _ _ _ _).mono (fun _ _ _ => trivial) fun _ w later => ?_
      have before := (spends.trans (.exactly taken)).of_eq
        (u := (u.writeBlock (blocks.headD 0) (dirBlock v i num)).writeInode v i
          (dirInode v perm (blocks.headD 0))) (by simp)
      exact Judged.inodes had ((before.trans later).of_eq (undo_sb _))
    · intro _ u failed
      exact Judged.inodes had ((spends.trans (.exactly failed)).of_eq (undo_sb _))
  · rintro _ t ⟨⟨starved, rfl⟩, _⟩
    exact .inl ⟨starved, rfl, rfl⟩

theorem makeDirDirect_judged (num : Nat) (parent : Inode) (name : Name)
    (perm : Nat) : (makeDirDirect v num parent name perm).Meets s (fun _ _ => True)
      fun _ t => Judged s t (s.HasInode v) := by
  refine (allocInodeAlone_judged true).seq ?_ fun _ _ => .inl
  rintro i t ⟨had, spends⟩
  refine (allocBlocksAlone_spends narrow).seq ?_ fun _ _ failed => Judged.inodes had (spends.trans failed)
  intro blocks u taken
  simp only [meets_bind, meets_modify]
  refine (addDirEntry_spends narrow _ _ _ _ _).mono (fun _ _ _ => trivial) fun _ w later => ?_
  have before := (spends.trans taken).of_eq
    (u := ((u.writeSuper false).writeBlock (blocks.headD 0) (dirBlock v i num)).writeInode v i
      (dirInode v perm (blocks.headD 0))) (by simp)
  exact Judged.inodes had (before.trans later)

theorem makeDir_judged (path : Path) (perm : Nat) :
    (makeDir v path perm).Meets s (fun _ _ => True)
      fun e t => e.exhausted → Judged s t (s.HasInode v) := by
  refine makeDir_begins benign_judged fun num dir name entries _ _ _ => ?_
  split
  · exact (makeDirTx_judged narrow _ _ _ _).mono (fun _ _ _ => trivial) fun _ _ judged _ => judged
  · exact (makeDirDirect_judged narrow _ _ _ _).mono (fun _ _ _ => trivial) fun _ _ judged _ => judged

/-! ## Symlink and Link -/

theorem linkInode_spends (target : Path) :
    (linkInode v target).Meets s (fun _ t => Spends 0 1 0 s t) fun _ t => Spends 0 0 0 s t := by
  unfold linkInode
  split
  · exact Spends.widen (.none rfl) (Nat.le_refl 0) (Nat.zero_le 1)
  · refine (allocBlocksAlone_spends narrow).step ?_
    intro blocks t taken
    simp only [meets_bind, meets_modify, meets_pure]
    exact (taken.of_eq (by simp)).widen (Nat.zero_le 1) (Nat.le_refl 1)

theorem makeSymlink_judged (target linkPath : Path) :
    (makeSymlink v target linkPath).Meets s (fun _ _ => True)
      fun e t => e.exhausted → Judged s t (s.HasInode v) := by
  refine makeSymlink_begins benign_judged fun num dir name entries _ _ _ => ?_
  refine (allocInodeAlone_judged false).seq ?_ fun _ _ judged _ => .inl judged
  rintro i t ⟨had, spends⟩
  refine (linkInode_spends narrow target).seq ?_ fun _ _ failed _ => Judged.inodes had (spends.trans failed)
  intro x u content
  rw [meets_bind, meets_modify]
  refine (addDirEntry_spends narrow _ _ _ _ _).seq (fun _ _ _ => trivial) fun _ w later _ => ?_
  exact Judged.inodes had (((spends.trans content).of_eq (writeInode_sb i x)).trans later)

end

section
variable (closed : s.tx = none) (narrow : v.blocksPerGroup < 2 ^ 32)
include closed narrow

theorem allocBlocksAlone_judged (n : Nat) :
    (allocBlocksAlone v n).Meets s (fun _ t => s.HasRoom v n [] ∧ Spends n n 0 s t)
      fun _ t => ¬ s.HasRoom v n [] ∧ Untouched s t := by
  refine meets_alone (allocBlocks v · n) id fun u began => ?_
  have had := began.room (v := v) n []
  refine ((allocBlocks_outcome (began.unopened closed)).and (allocBlocks_spent narrow)).mono ?_ ?_
  · exact fun r _ good => ⟨had.mp good.1, (began.spends (.exactly good.2.1)).of_eq (finish_sb r.2)⟩
  · rintro _ t ⟨⟨starved, rfl⟩, _⟩
    exact ⟨mt had.mpr starved, began.untouched⟩

/-- A directory that grows outside a transaction: the new block is taken before the leaf block. -/
theorem addDirEntry_judged (num : Nat)
    (dir : Inode) (ino : Nat) (name : Name) (fileType : FileType) :
    (addDirEntry v false num dir ino name fileType).Meets s (fun _ _ => True)
      fun e t => e.exhausted → Judged s t (s.HasRoom v 1 []) := by
  refine .look (fun extents _ => ?_) fun e failed => benign_judged e (parseExtents_benign _ e failed)
  rw [meets_bind, meets_read]
  split
  · trivial
  unfold growDir growBlocks
  rw [meets_bind, meets_bind]
  refine (allocBlocksAlone_judged closed narrow 1).mono ?_ fun _ _ judged _ => .inl judged
  rintro blocks t ⟨had, spends⟩
  rw [meets_pure, meets_bind, meets_modify]
  have written := spends.of_eq (writeBlock_sb (blocks.headD 0)
    (.slots [newSlot ino (v.blockSize - 12) name fileType]))
  refine (layExtents_spends narrow _).seq (fun _ _ _ => trivial) fun _ u failed _ => ?_
  exact Judged.blocks had (written.trans failed) Nat.one_pos (by decide)

theorem makeLink_judged (oldPath newPath : Path) :
    (makeLink v oldPath newPath).Meets s (fun _ _ => True)
      fun e t => e.exhausted → Judged s t (s.HasRoom v 1 []) := by
  refine makeLink_begins benign_judged fun _ _ _ src x num dir name entries _ _ _ _ _ => ?_
  refine (addDirEntry_judged closed narrow _ _ _ _ _).step fun _ t _ => ?_
  exact .look (fun _ _ => trivial) fun e failed => benign_judged e (readInode_benign _ e failed)

end

/-! ## The calls -/

inductive Create where
  | writeFile (path : Path) (data : Bytes) (perm : Nat)
  | mkDir (path : Path) (perm : Nat)
  | symlink (target linkPath : Path)
  | link (oldPath newPath : Path)

def Create.newPath : Create → Path
  | .writeFile path _ _ | .mkDir path _ | .symlink _ path | .link _ path => path

def Create.run (v : Shape) : Create → Prog FS Err Unit
  | .writeFile path data perm => Volume.writeFile v path data perm
  | .mkDir path perm => makeDir v path perm
  | .symlink target linkPath => makeSymlink v target linkPath
  | .link oldPath newPath => makeLink v oldPath newPath

def Create.Begins (v : Shape) (s : FS) : Create → Prop
  | .writeFile _ data _ => s.HasRoom v (blocksFor v data) []
  | .mkDir _ _ | .symlink _ _ => s.HasInode v
  | .link _ _ => s.HasRoom v 1 []

def Create.New (v : Shape) (s : FS) : Create → Prop
  | .writeFile path _ _ => s.Absent v path
  | _ => True

/-- A create that fails for lack of space leaves everything as it was exactly when there was no room
for the first thing it allocates. -/
theorem create_unchanged_iff {create : Create} (closed : s.tx = none) (narrow : v.blocksPerGroup < 2 ^ 32)
    (new : create.New v s) (failed : create.run v s = (.error e, t)) (exhausted : e.exhausted) :
    Unchanged v create.newPath s t ↔ ¬ create.Begins v s := by
  apply Judged.iff
  cases create with
  | writeFile path data perm => exact (writeFile_judged closed narrow new data perm).error failed exhausted
  | mkDir path perm => exact (makeDir_judged narrow path perm).error failed exhausted
  | symlink target linkPath => exact (makeSymlink_judged narrow target linkPath).error failed exhausted
  | link oldPath newPath => exact (makeLink_judged closed narrow oldPath newPath).error failed exhausted

/-! A volume that is formatted with its metadata and nothing else: there are inodes, but no block for
a new directory. -/

def fullVolume : FS := formatted 21 [] true

def fullMkDir : Create := .mkDir ['/', 'd'] 0o755

theorem fullMkDir_fails : fullMkDir.run (fmtShape 21) fullVolume =
    (.error .noFreeBlocks, (fullMkDir.run (fmtShape 21) fullVolume).2) :=
  Prod.ext (by decide) rfl

theorem create_unchanged_iff_full :
    Unchanged (fmtShape 21) ['/', 'd'] fullVolume (fullMkDir.run (fmtShape 21) fullVolume).2 ↔
      ¬ fullVolume.HasInode (fmtShape 21) := by
  have new : fullMkDir.New (fmtShape 21) fullVolume := trivial
  exact create_unchanged_iff rfl (by decide) new fullMkDir_fails rfl

/-- The call fails for lack of a block, and an inode less is counted as free. -/
theorem full_mkDir_spends : ∃ t, fullMkDir.run (fmtShape 21) fullVolume = (.error .noFreeBlocks, t) ∧
    Err.noFreeBlocks.exhausted ∧ ¬ Unchanged (fmtShape 21) fullMkDir.newPath fullVolume t := by
  refine ⟨_, fullMkDir_fails, rfl, fun unchanged => ?_⟩
  have free := unchanged.freeInodes
  revert free
  decide

end Ext4.Volume
