import Ext4.Volume.Ownership
import Ext4.Volume.Operations

/-! What the building blocks of the operations do to the view.
One specification for each of them, for callers inside a transaction and outside. -/

namespace Ext4.Volume
open Octets Alloc Store List Function FS

variable {v : Shape} {s : FS} {inTx : Bool} {extents : List Extent} {num : Nat}

/-! ## Single writes -/

theorem FS.writeInode_spec {i : Nat} (low : 0 < i) (n : Inode) :
    view v (s.writeInode v i n).now =
        { view v s.now with inode := update (view v s.now).inode i n } ∧
      Frame s (s.writeInode v i n) := by
  refine ⟨?_, Frame.put_other s _ (by simp)⟩
  rw [writeInode, put_now]
  exact view_itable s.now low n

theorem FS.writeBlock_spec (b : Nat) (content : Block) :
    view v (s.writeBlock b content).now =
        { view v s.now with block := update (view v s.now).block b content } ∧
      Frame s (s.writeBlock b content) := by
  refine ⟨?_, Frame.put_other s _ (by simp)⟩
  rw [writeBlock, put_now, view_block]

/-! ## Allocations in a transaction of their own -/

theorem FS.startTx_now (closed : s.tx = none) : s.startTx.now = s.now := by
  rw [now_of_none s closed]
  rfl

theorem FS.startTx_covered (closed : s.tx = none) : Covered s.startTx := by
  intro key i marked
  rw [startTx_now closed] at marked
  exact covered_of_none closed key i marked

theorem FS.commit_closed (s : FS) : s.commit.tx = none := by
  unfold commit
  split
  · rfl
  next closed => exact closed

theorem FS.cleanup_now (held : Cleanup) : (s.cleanup held).now = s.now := by
  induction held generalizing s with
  | nil => rfl
  | cons part held ih => exact ih.trans rfl

@[simp] theorem FS.cleanup_journal (held : Cleanup) : (s.cleanup held).journal = s.journal := by
  induction held generalizing s with
  | nil => rfl
  | cons part held ih => exact ih.trans rfl

@[simp] theorem FS.cleanup_sb (held : Cleanup) : (s.cleanup held).sb = s.sb := by
  induction held generalizing s with
  | nil => rfl
  | cons part held ih => exact ih.trans rfl

@[simp] theorem FS.cleanup_tx (held : Cleanup) : (s.cleanup held).tx = s.tx := by
  induction held generalizing s with
  | nil => rfl
  | cons part held ih => exact ih.trans rfl

@[simp] theorem FS.commit_journal (s : FS) : s.commit.journal = s.journal := by
  unfold commit
  split <;> rfl

@[simp] theorem FS.commit_sb (s : FS) : s.commit.sb = s.sb := by
  unfold commit
  split <;> rfl

@[simp] theorem FS.commit_reserved (s : FS) : s.commit.reserved = s.reserved := by
  unfold commit
  split <;> rfl

section
variable {t u : FS} {held : Cleanup}

theorem Frame.ended (closed : s.tx = none) (outer : Outer s.startTx t)
    (journal : u.journal = t.journal) (sb : u.sb = t.sb) (ended : u.tx = none)
    (reserved : ∀ g, u.reserved ⟨g, false⟩ = s.reserved ⟨g, false⟩) : Frame s u where
  journal := journal.trans outer.journal
  inTx := by rw [ended, closed]
  inodesCount := by rw [sb, outer.inodesCount]; rfl
  blocksCount := by rw [sb, outer.blocksCount]; rfl
  still inTx := by simp [closed] at inTx
  covered _ := covered_of_none ended
  reserved := reserved
  unstaged _ := unstaged_of_none ended

theorem Frame.committed (closed : s.tx = none) (outer : Outer s.startTx t)
    (restores : Restores s t held) : Frame s (t.commit.cleanup held) := by
  refine Frame.ended closed outer (by simp) (by simp) (by simp [commit_closed]) fun g => ?_
  rw [← restores g, cleanup_reserved, cleanup_reserved, commit_reserved]

theorem FS.committed_now (held : Cleanup) : (t.commit.cleanup held).now = t.now := by
  rw [cleanup_now, commit_now]

theorem Frame.aborted (closed : s.tx = none) (outer : Outer s.startTx t)
    (restores : Restores s t held) : Frame s (t.abort.cleanup held) := by
  refine Frame.ended closed outer (by simp [abort]) (by simp [abort])
    (by simp [abort]) fun g => ?_
  rw [← restores g, cleanup_reserved, cleanup_reserved]
  rfl

theorem FS.aborted_now (held : Cleanup) (closed : s.tx = none) (outer : Outer s.startTx t) :
    (t.abort.cleanup held).now = s.now := by
  have device : t.device = s.device := outer.still rfl
  rw [cleanup_now, now_of_none s closed, now_of_none t.abort rfl]
  exact congrArg Device.image device

end

/-! ## A transaction around an operation -/

/-- The operation runs in a transaction that has just been opened, or without one. -/
def Began (inTx : Bool) (start s : FS) : Prop := s = if inTx then start.startTx else start

section
variable {start : FS}

section
variable (began : Began inTx start s)
include began

theorem Began.via (closed : start.tx = none) : s.tx.isSome = inTx := by
  subst began
  cases inTx <;> simp [startTx, closed]

theorem Began.now (closed : start.tx = none) : s.now = start.now := by
  subst began
  cases inTx with
  | true => exact startTx_now closed
  | false => rfl

theorem Began.covered (closed : start.tx = none) : Covered s := by
  subst began
  cases inTx with
  | true => exact startTx_covered closed
  | false => exact covered_of_none closed

theorem Began.reserved : s.reserved = start.reserved := by
  subst began
  cases inTx <;> rfl

theorem Began.image : s.image = start.image := by
  subst began
  cases inTx <;> rfl

theorem Began.unstaged (closed : start.tx = none) : Unstaged s :=
  fun g => by rw [began.now closed, began.image, unstaged_of_none closed]

theorem Began.unopened (closed : start.tx = none) (staged : Staged)
    (opened : s.tx = some staged) : staged = .empty := by
  subst began
  cases inTx with
  | true => exact (Option.some.inj opened).symm
  | false =>
    rw [if_neg (by simp), closed] at opened
    cases opened

theorem Began.restores (restores : Restores s t held) :
    Restores start t held := fun g => by rw [restores g, began.reserved]

theorem Began.unreserved (unreserved : Unreserved start) : Unreserved s := fun g => by
  rw [began.reserved, unreserved g]

end

section
variable (closed : start.tx = none) (began : Began inTx start s) (outer : Outer s t)
  (restores : Restores s t held) (direct : inTx = false → Frame s t)
include closed began outer restores direct

theorem undo_frame : Frame start (undo inTx held t) ∧
      (undo inTx held t).now = if inTx = true then start.now else t.now := by
  cases inTx with
  | false =>
    subst began
    exact ⟨direct rfl, rfl⟩
  | true =>
    have restores := began.restores restores
    subst began
    exact ⟨Frame.aborted closed outer restores, aborted_now held closed outer⟩

theorem finish_frame :
    Frame start (finish inTx held t) ∧ (finish inTx held t).now = t.now := by
  cases inTx with
  | false =>
    subst began
    exact ⟨direct rfl, rfl⟩
  | true =>
    have restores := began.restores restores
    subst began
    exact ⟨Frame.committed closed outer restores, committed_now held⟩

end

theorem undo_same (closed : start.tx = none) (began : Began inTx start s) (same : t.now = s.now)
    (frame : Frame s t) : view v (undo inTx [] t).now = view v start.now ∧ Frame start (undo inTx [] t) := by
  obtain ⟨ended, shown⟩ := undo_frame closed began frame.toOuter
    (Restores.blocks frame (nofun : OfBlocks [])) fun _ => frame
  rw [shown, same, began.now closed, ite_self]
  exact ⟨rfl, ended⟩

end

theorem meets_alone {α β : Type} (prog : Bool → Prog FS Err (α × Cleanup)) (result : α → β)
    {post : β → FS → Prop} {failed : Err → FS → Prop} (spec : ∀ u, Began s.journal s u →
      (prog s.journal).Meets u (fun r t => post (result r.1) (finish s.journal r.2 t))
        fun e t => failed e (undo s.journal [] t)) :
    Prog.Meets (fun s => if s.journal then
        (do
          let (a, held) ← (prog true).onFailure abort
          Prog.modify fun s => s.commit.cleanup held
          pure (result a) : Prog FS Err β) s.startTx
      else (do
          let (a, _) ← prog false
          pure (result a) : Prog FS Err β) s) s post failed := by
  cases journal : s.journal with
  | true =>
    rw [journal] at spec
    refine Prog.Meets.of_eq (if_pos journal) ?_
    rw [meets_bind, meets_onFailure]
    exact spec _ rfl
  | false =>
    rw [journal] at spec
    exact Prog.Meets.of_eq (if_neg (by simp [journal])) ((spec _ rfl).step fun _ _ good => good)

theorem allocBlocksAlone_meets (closed : s.tx = none) (n : Nat) :
    (allocBlocksAlone v n).Meets s
      (fun blocks t => ((view v s.now).Takes (view v t.now) blocks ∧ blocks.length = n) ∧ Frame s t)
      (fun _ t => view v t.now = view v s.now ∧ Frame s t) := by
  refine meets_alone (allocBlocks v · n) id fun u began => ?_
  refine (allocBlocks_meets (began.via closed) (began.covered closed)).mono ?_ ?_
  · rintro ⟨blocks, held⟩ t ⟨takes, frame, long, ofBlocks⟩
    obtain ⟨ended, shown⟩ := finish_frame closed began frame.toOuter (Restores.blocks frame ofBlocks)
      fun _ => frame
    rw [began.now closed, ← shown] at takes
    exact ⟨⟨takes, long⟩, ended⟩
  · exact fun _ _ failed => undo_same closed began failed.1 failed.2

structure View.Joins (x y : View) (i : Nat) : Prop extends x.Enlists y i where
  only : ∀ j, y.live j → x.live j ∨ j = i

theorem allocInodeAlone_meets (closed : s.tx = none) (unreserved : Unreserved s) (isDir : Bool) :
    (allocInodeAlone v isDir).Meets s
      (fun i t => (view v s.now).Joins (view v t.now) i ∧ Frame s t)
      (fun _ t => view v t.now = view v s.now ∧ Frame s t) := by
  refine meets_alone (allocInode v · isDir) id fun u began => ?_
  refine (allocInode_meets (began.via closed) (began.covered closed) isDir).mono ?_ ?_
  · rintro ⟨i, held⟩ t ⟨enlists, outer, restores, direct, only⟩
    obtain ⟨ended, shown⟩ := finish_frame closed began outer restores direct
    have joins : (view v u.now).Joins (view v t.now) i :=
      ⟨enlists, only (began.unreserved unreserved) (began.unstaged closed)⟩
    rw [began.now closed, ← shown] at joins
    exact ⟨joins, ended⟩
  · exact fun _ _ failed => undo_same closed began failed.1 failed.2

/-! ## Leaf blocks -/

theorem writeLeaf_meets (via : s.tx.isSome = inTx) (covered : Covered s)
    (extents : List Extent) :
    (writeLeaf v inTx extents).Meets s
      (fun r t => (view v s.now).Adds (view v t.now) r.1 (.leaf extents) ∧ Frame s t ∧ OfBlocks r.2)
      (fun _ t => t.now = s.now ∧ Frame s t) := by
  apply (allocBlocks_meets via covered).seq
  · rintro ⟨blocks, held⟩ t ⟨takes, frame, long, ofBlocks⟩
    obtain ⟨b, rfl⟩ := length_eq_one_iff.mp long
    obtain ⟨shown, frame'⟩ := writeBlock_spec b (.leaf extents)
    simp only [meets_bind, meets_modify, meets_pure, headD_cons]
    rw [shown]
    exact ⟨takes.adds _, frame.trans frame', ofBlocks⟩
  · exact fun _ _ failed => failed

theorem prepareExtentChild_rule {post : Nat × Cleanup → FS → Prop} {failed : Err → FS → Prop}
    (long : v.leafCap < extents.length → failed .tooManyExtents s)
    (inside : s.tx.isSome → (writeLeaf v true extents).Meets s post failed)
    (alone : s.tx = none → ∀ u, Began s.journal s u → (writeLeaf v s.journal extents).Meets u
      (fun r t => post (r.1, []) (finish s.journal r.2 t)) fun e t => failed e (undo s.journal [] t)) :
    (prepareExtentChild v extents).Meets s post failed := by
  by_cases full : v.leafCap < extents.length
  · exact Prog.Meets.of_error (if_pos full) (long full)
  by_cases opened : s.tx.isSome
  · exact Prog.Meets.of_eq ((if_neg full).trans (if_pos opened)) (inside opened)
  · refine Prog.Meets.of_eq ?_ (meets_alone (writeLeaf v · extents) (·, []) (alone (by simpa using opened)))
    exact (if_neg full).trans (if_neg opened)

theorem prepareExtentChild_meets (covered : Covered s) (extents : List Extent) :
    (prepareExtentChild v extents).Meets s
      (fun r t => (view v s.now).Adds (view v t.now) r.1 (.leaf extents) ∧ Frame s t ∧ OfBlocks r.2)
      (fun _ t => view v t.now = view v s.now ∧ Frame s t) := by
  refine prepareExtentChild_rule (fun _ => ⟨rfl, Frame.refl s⟩) (fun inTx => ?_) fun closed u began => ?_
  · exact (writeLeaf_meets inTx covered extents).mono (fun _ _ good => good)
      fun _ _ bad => ⟨congrArg (view v) bad.1, bad.2⟩
  · refine (writeLeaf_meets (began.via closed) (began.covered closed) extents).mono ?_ ?_
    · rintro ⟨c, held⟩ t ⟨adds, frame, ofBlocks⟩
      obtain ⟨ended, shown⟩ := finish_frame closed began frame.toOuter (Restores.blocks frame ofBlocks)
        fun _ => frame
      rw [began.now closed, ← shown] at adds
      exact ⟨adds, ended, nofun⟩
    · exact fun _ _ failed => undo_same closed began failed.1 failed.2

theorem writeExtentTree_meets (closed : s.tx = none) (extents : List Extent) :
    (writeExtentTree v extents).Meets s
      (fun m t => (view v s.now).Lays (view v t.now) m extents ∧ Frame s t)
      (fun _ t => view v t.now = view v s.now ∧ Frame s t) := by
  by_cases few : extents.length ≤ 4
  · exact Prog.Meets.of_ok (if_pos few) ⟨.inl ⟨rfl, rfl⟩, Frame.refl s⟩
  by_cases long : v.leafCap < extents.length
  · exact Prog.Meets.of_error ((if_neg few).trans (if_pos long)) ⟨rfl, Frame.refl s⟩
  by_cases journal : s.journal
  · have leaf := writeLeaf_meets (v := v)
      (rfl : _) (startTx_covered closed) extents
    rw [startTx_now closed] at leaf
    refine Prog.Meets.of_eq ((if_neg few).trans ((if_neg long).trans (if_pos journal))) ?_
    rw [meets_bind, meets_onFailure]
    apply leaf.mono
    · rintro ⟨c, held⟩ t ⟨adds, frame, _⟩
      simp only [meets_bind, meets_modify, meets_pure]
      have restores : Restores s t [] := Restores.blocks (s := s.startTx) frame (by simp [OfBlocks])
      rw [commit_now]
      exact ⟨.inr ⟨c, rfl, adds⟩, Frame.committed closed frame.toOuter restores⟩
    · rintro e t ⟨_, frame⟩
      have restores : Restores s t [] := Restores.blocks (s := s.startTx) frame (by simp [OfBlocks])
      exact ⟨congrArg (view v) (aborted_now [] closed frame.toOuter),
        Frame.aborted closed frame.toOuter restores⟩
  · have leaf := writeLeaf_meets (v := v) (by rw [closed]; rfl : _ = false)
      (covered_of_none closed) extents
    refine Prog.Meets.of_eq ((if_neg few).trans ((if_neg long).trans (if_neg journal))) ?_
    refine leaf.seq ?_ fun _ _ bad => ⟨congrArg (view v) bad.1, bad.2⟩
    rintro ⟨c, held⟩ t ⟨adds, frame, _⟩
    exact ⟨.inr ⟨c, rfl, adds⟩, frame⟩

/-! ## Reading a mapping -/

theorem FS.parseExtents_ok {m : Mapping}
    (read : s.parseExtents m = .ok extents) :
    extents = (view v s.image).extentsOf m ∧ m ≠ .none ∧ ∀ target, m ≠ .target target := by
  have accepted : ∀ {given : List Extent}, validateExtents given = .ok extents → extents = given := by
    intro given valid
    unfold validateExtents at valid
    split at valid <;> cases valid
    rfl
  cases m with
  | none | target _ => cases read
  | inline given => exact ⟨accepted read, by simp, by simp⟩
  | index child =>
    simp only [parseExtents] at read
    split at read
    · cases read
    split at read
    next given leaf =>
      have shown : (view v s.image).leaf child = given := by
        have there : (view v s.image).block child = .leaf given := leaf
        rw [View.leaf, there]
      exact ⟨by rw [View.extentsOf, shown]; exact accepted read, by simp, by simp⟩
    · cases read

/-! ## Releasing the blocks of an inode -/

theorem FS.freeBlocks_spec (closed : s.tx = none) (blocks : List Nat) :
    (view v s.now).Releases (view v (blocks.foldl (freeBlock v) s).now) blocks ∧
      Frame s (blocks.foldl (freeBlock v) s) := by
  induction blocks generalizing s with
  | nil => exact ⟨⟨rfl, rfl, rfl, fun _ inUse _ => inUse⟩, Frame.refl s⟩
  | cons b rest ih =>
    obtain ⟨first, frame⟩ := freeBlock_spec closed b
    obtain ⟨later, frame'⟩ := ih (frame.toOuter.closed closed)
    exact ⟨first.trans later, frame.trans frame'⟩

theorem freeInodeBlocks_state (n : Inode) : (freeInodeBlocks v n).Meets s
      (fun _ t => t = (blocksOf ((view v s.image).extentsOf n.mapping)).foldl (freeBlock v) s)
      fun e t => t = s ∧ s.parseExtents n.mapping = .error e := by
  unfold freeInodeBlocks Prog.Meets
  cases shape : n.mapping with
  | none | target _ => rfl
  | inline _ | index _ =>
    dsimp only
    cases read : s.parseExtents _ with
    | error e => exact ⟨rfl, rfl⟩
    | ok extents => rw [(parseExtents_ok read).1]

theorem freeInodeBlocks_meets (closed : s.tx = none) (n : Inode) :
    (freeInodeBlocks v n).Meets s
      (fun _ t => (view v s.now).Releases (view v t.now)
        (blocksOf ((view v s.now).extentsOf n.mapping)) ∧ Frame s t)
      (fun _ t => t = s) := by
  refine (freeInodeBlocks_state n).mono ?_ fun _ _ failed => failed.1
  rintro _ t rfl
  rw [← now_of_none s closed]
  exact freeBlocks_spec closed _

/-! ## Directories -/

def View.Grows (x y : View) (num : Nat) (dir dir' : Inode) (extents : List Extent) (slot : Slot) :
    Prop :=
  ∃ mid top b log, x.Adds mid b (.slots [slot]) ∧
    mid.Lays top dir'.mapping (extents ++ [⟨log, b, 1⟩]) ∧
    y = { top with inode := update top.inode num dir' } ∧
    dir'.kind = dir.kind ∧ dir'.links = dir.links ∧ dir'.perm = dir.perm ∧ log = nextLogBlock extents

theorem growBlocks_meets (via : s.tx.isSome = inTx) (covered : Covered s) :
    (growBlocks v inTx).Meets s
      (fun r t => (view v s.now).Takes (view v t.now) r.1 ∧ Frame s t ∧ r.1.length = 1 ∧
        OfBlocks r.2)
      (fun _ t => view v t.now = view v s.now ∧ Frame s t) := by
  cases inTx with
  | true =>
    exact (allocBlocks_meets via covered).mono (fun _ _ good => good)
      fun _ _ bad => ⟨congrArg (view v) bad.1, bad.2⟩
  | false =>
    have closed : s.tx = none := by simpa using via
    refine (allocBlocksAlone_meets closed 1).step ?_
    rintro blocks t ⟨⟨takes, long⟩, frame⟩
    exact ⟨takes, frame, long, by simp [OfBlocks]⟩

theorem layExtents_meets (covered : Covered s) (extents : List Extent) :
    (layExtents v extents).Meets s
      (fun r t => (view v s.now).Lays (view v t.now) r.1 extents ∧ Frame s t ∧ OfBlocks r.2)
      (fun _ t => view v t.now = view v s.now ∧ Frame s t) := by
  unfold layExtents
  split
  · exact ⟨.inl ⟨rfl, rfl⟩, Frame.refl s, by simp [OfBlocks]⟩
  · refine (prepareExtentChild_meets covered extents).step ?_
    rintro ⟨c, held⟩ t ⟨adds, frame, ofBlocks⟩
    exact ⟨.inr ⟨c, rfl, adds⟩, frame, ofBlocks⟩

theorem OfBlocks.append {one two : Cleanup} (first : OfBlocks one) (second : OfBlocks two) :
    OfBlocks (one ++ two) := by
  intro part mem
  rcases mem_append.mp mem with mem | mem
  · exact first part mem
  · exact second part mem

theorem growDir_meets (via : s.tx.isSome = inTx) (covered : Covered s)
    (low : 0 < num) (dir : Inode) (extents : List Extent) (slot : Slot) :
    (growDir v inTx num dir extents slot).Meets s
      (fun r t => (view v s.now).Grows (view v t.now) num dir r.1 extents slot ∧ Frame s t ∧
        OfBlocks r.2)
      (fun _ t => (view v s.now).Leaks (view v t.now) ∧ Frame s t) := by
  refine (growBlocks_meets via covered).seq ?_ fun _ t bad => ⟨bad.1 ▸ View.Leaks.refl _, bad.2⟩
  rintro ⟨blocks, held⟩ t ⟨takes, frame, long, ofBlocks⟩
  obtain ⟨b, rfl⟩ := length_eq_one_iff.mp long
  obtain ⟨shown, written⟩ := writeBlock_spec b (.slots [slot])
  have adds := takes.adds (.slots [slot])
  rw [← shown] at adds
  have frame := frame.trans written
  rw [meets_bind, meets_modify]
  refine (layExtents_meets (frame.covered covered) _).seq ?_
    fun _ u bad => ⟨bad.1 ▸ adds.leaks, frame.trans bad.2⟩
  rintro ⟨m, heldLeaf⟩ u ⟨lays, frame', ofBlocks'⟩
  simp only [meets_bind, meets_modify, meets_pure]
  obtain ⟨shown', written'⟩ := writeInode_spec low { dir with
    mapping := m
    size := (nextLogBlock extents + 1) * v.blockSize
    sectors := (nextLogBlock extents + 1) * (v.blockSize / 512) }
  refine ⟨⟨_, _, b, nextLogBlock extents, adds, lays, shown', rfl, rfl, rfl, rfl⟩, ?_,
    ofBlocks'.append ofBlocks⟩
  exact (frame.trans frame').trans written'

/-- A record is written into one of the blocks of a directory, or into a block more; `m` is the
view that the directory is read from. -/
def View.Inserts (m x y : View) (num : Nat) (dir dir' : Inode)
    (change : List Slot → Option (List Slot)) (slot : Slot) : Prop :=
  (∃ b slots, firstChange m.block change (blocksOf (m.extentsOf dir.mapping)) = some (b, slots) ∧
      y = { x with block := update x.block b (.slots slots) } ∧ dir' = dir) ∨
    (firstChange m.block change (blocksOf (m.extentsOf dir.mapping)) = none ∧
      x.Grows y num dir dir' (m.extentsOf dir.mapping) slot)

theorem addDirEntry_meets (via : s.tx.isSome = inTx) (covered : Covered s)
    (low : 0 < num) (dir : Inode) (ino : Nat) (name : Name) (fileType : FileType) :
    (addDirEntry v inTx num dir ino name fileType).Meets s
      (fun r t => (view v s.image).Inserts (view v s.now) (view v t.now) num dir r.1
        (tryInsertDirEntry ino name fileType) (newSlot ino (v.blockSize - 12) name fileType) ∧
        Frame s t ∧ OfBlocks r.2)
      (fun _ t => (view v s.now).Leaks (view v t.now) ∧ Frame s t) := by
  refine .look (fun extents read => ?_) fun _ _ => ⟨.refl _, Frame.refl s⟩
  obtain ⟨rfl, _⟩ := parseExtents_ok (v := v) read
  rw [meets_bind, meets_read]
  split
  next b slots place =>
    obtain ⟨shown, written⟩ := writeBlock_spec b (.slots slots)
    exact ⟨.inl ⟨b, slots, place, shown, rfl⟩, written, by simp [OfBlocks]⟩
  next place =>
    apply (growDir_meets via covered low dir _ _).mono
    · exact fun r t good => ⟨.inr ⟨place, good.1⟩, good.2⟩
    · exact fun _ _ bad => bad

theorem changeDir_meets (closed : s.tx = none) (dir : Inode)
    (change : List Slot → Option (List Slot)) :
    (changeDir dir change).Meets s
      (fun _ t => (∃ b slots, firstChange (view v s.now).block change
            (blocksOf ((view v s.now).extentsOf dir.mapping)) = some (b, slots) ∧
          view v t.now = { view v s.now with
            block := update (view v s.now).block b (.slots slots) } ∧ Frame s t) ∨
        (firstChange (view v s.now).block change
          (blocksOf ((view v s.now).extentsOf dir.mapping)) = none ∧ t = s))
      (fun _ t => t = s) := by
  refine .look (fun extents read => ?_) fun _ _ => rfl
  obtain ⟨rfl, _⟩ := parseExtents_ok (v := v) read
  rw [← now_of_none s closed, meets_bind, meets_read, ← now_of_none s closed]
  split
  next b slots place =>
    obtain ⟨shown, written⟩ := writeBlock_spec b (.slots slots)
    exact .inl ⟨b, slots, place, shown, written⟩
  next place => exact .inr ⟨place, rfl⟩

theorem changeDir_succeeds {dir : Inode}
    (parsed : s.parseExtents dir.mapping = .ok extents) (change : List Slot → Option (List Slot)) :
    (changeDir dir change).Meets s (fun _ _ => True) fun _ _ => False := by
  refine .look (fun extents _ => ?_) fun e failed => ?_
  · rw [meets_bind, meets_read]
    split <;> trivial
  · rw [parsed] at failed
    cases failed

theorem firstChange_some {block : Nat → Block} {change : List Slot → Option (List Slot)}
    {blocks : List Nat} {b : Nat} {slots : List Slot}
    (found : firstChange block change blocks = some (b, slots)) (empty : change [] = none) :
    b ∈ blocks ∧ ∃ old, block b = .slots old ∧ change old = some slots := by
  obtain ⟨c, mem, here⟩ := exists_of_findSome?_eq_some found
  obtain ⟨new, changed, same⟩ := Option.map_eq_some_iff.mp here
  cases same
  cases kind : block b with
  | slots old =>
    rw [kind] at changed
    exact ⟨mem, old, rfl, changed⟩
  | data _ | target _ | leaf _ =>
    rw [kind, Block.records, empty] at changed
    · cases changed
    all_goals simp

end Ext4.Volume
