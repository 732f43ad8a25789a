import Ext4.Volume.Pruning
import Ext4.Volume.Room

/-! Creating files, directories and links keeps every block with its one owner.
A new inode owns only blocks that were free; a directory that grows adds one free block, and maybe
a leaf block, to its own. -/

namespace Ext4.Volume
open Octets Alloc Store List Function FS

variable {v : Shape} {s t : FS} {x y z : View} {i b num : Nat} {dir dir' : Inode} {slot : Slot}
  {blocks : List Nat}

theorem blocksOf_append (one two : List Extent) :
    blocksOf (one ++ two) = blocksOf one ++ blocksOf two := flatMap_append

theorem blocksOf_single (log b : Nat) : blocksOf [⟨log, b, 1⟩] = [b] := by
  simp [blocksOf, Extent.blocks]

/-! ## A directory entry -/

theorem View.Owned.grows (owned : x.Owned) {extents : List Extent}
    (grows : x.Grows y num dir dir' extents slot)
    (copy : x.live num → extents = x.extentsOf (x.inode num).mapping) : y.Owned := by
  obtain ⟨mid, top, b, log, adds, lays, rfl, _⟩ := grows
  have leaks := adds.leaks.trans lays.leaks
  cases dead : x.live num with
  | false => exact (owned.leaks leaks).writeInode fun alive => by simp [leaks.live, dead] at alive
  | true =>
    have mapped : ∀ c ∈ blocksOf extents, c ∈ x.mapped num := fun c mem =>
      mem_append_right _ (copy dead ▸ mem)
    have blocks : top.mappedBy dir'.mapping = dir'.mapping.child ++ (blocksOf extents ++ [b]) := by
      rw [View.mappedBy, lays.extentsOf, blocksOf_append, blocksOf_single]
    -- A block is the new leaf block, one of the old blocks, or the new block.
    have cases_ : ∀ c ∈ top.mappedBy dir'.mapping,
        c ∈ dir'.mapping.child ∨ c ∈ blocksOf extents ∨ c = b := by
      intro c mem
      simpa [blocks] using mem
    have oldUsed : ∀ c ∈ blocksOf extents, x.used c := fun c mem =>
      owned.used num dead c (mapped c mem)
    apply (owned.without num).remap leaks
    case used =>
      intro c mem
      rcases cases_ c mem with leaf | old | rfl
      · exact (lays.child c leaf).2
      · exact leaks.grown c (oldUsed c old)
      · exact lays.leaks.grown c adds.marked
    case once =>
      have oldOnce : (blocksOf extents).Nodup := by
        have := owned.once num dead
        rw [View.mapped, View.mappedBy, ← copy dead] at this
        exact this.of_append_right
      rw [blocks, nodup_append', nodup_append']
      refine ⟨Mapping.nodup_child _, ⟨oldOnce, nodup_singleton b, ?_⟩, ?_⟩
      · intro c old new
        rw [mem_singleton.mp new] at old
        exact absurd (oldUsed b old) (by simp [adds.fresh])
      · intro c leaf rest
        have free := (lays.child c leaf).1
        rcases mem_append.mp rest with old | new
        · rw [adds.grown c (oldUsed c old)] at free
          cases free
        · rw [mem_singleton.mp new, adds.marked] at free
          cases free
    case own =>
      intro c mem
      rcases cases_ c mem with leaf | old | rfl
      · exact (owned.unowned (adds.leaks.free (lays.child c leaf).1)).without num
      · exact owned.unowned_without dead (mapped c old)
      · exact (owned.unowned adds.fresh).without num

theorem tryInsertDirEntry_nil (ino : Nat) (name : Name) (fileType : FileType) :
    tryInsertDirEntry ino name fileType [] = none := rfl

theorem View.Owned.inserts (owned : x.Owned) {m : View} {change : List Slot → Option (List Slot)}
    (empty : change [] = none) (inserts : m.Inserts x y num dir dir' change slot)
    (synced : ∀ b ∈ blocksOf (m.extentsOf dir.mapping), ∀ old, m.block b = .slots old →
      x.block b = .slots old) (copy : x.live num →
      m.extentsOf dir.mapping = x.extentsOf (x.inode num).mapping) : y.Owned := by
  obtain ⟨b, slots, place, rfl, _⟩ | ⟨_, grows⟩ := inserts
  · obtain ⟨mem, old, was, _⟩ := firstChange_some place empty
    exact owned.writeSlots (synced b mem old was) slots
  · exact owned.grows grows copy

/-! ## Quiet states whose blocks are all owned -/

structure Healthy (v : Shape) (s : FS) : Prop extends Quiet s where
  owned : (view v s.now).Owned

theorem Healthy.frame (healthy : Healthy v s) (frame : Frame s t) (owned : (view v t.now).Owned) :
    Healthy v t :=
  ⟨healthy.toQuiet.frame frame, owned⟩

theorem Healthy.shown (healthy : Healthy v s) : view v s.image = view v s.now := by
  rw [now_of_none s healthy.closed]

theorem Healthy.leaks (healthy : Healthy v s) (frame : Frame s t)
    (leaks : (view v s.now).Leaks (view v t.now)) : Healthy v t :=
  healthy.frame frame (healthy.owned.leaks leaks)

theorem addDirEntry_healthy (healthy : Healthy v s) (low : 0 < num)
    (copy : dir.mapping = ((view v s.now).inode num).mapping) (ino : Nat) (name : Name)
    (fileType : FileType) : (addDirEntry v false num dir ino name fileType).Meets s
      (fun r t => Healthy v t ∧ r.1.mapping = ((view v t.now).inode num).mapping ∧
        ∀ j, j ≠ num → (view v t.now).inode j = (view v s.now).inode j) fun _ => Healthy v := by
  have closed := healthy.closed
  apply (addDirEntry_meets (by rw [closed]; rfl) (covered_of_none closed) low dir ino name
    fileType).mono
  · rintro ⟨dir', held⟩ t ⟨inserts, frame, _⟩
    rw [healthy.shown] at inserts
    refine ⟨healthy.frame frame ?_, ?_⟩
    · exact healthy.owned.inserts (tryInsertDirEntry_nil ino name fileType) inserts
        (fun _ _ _ was => was) fun _ => by rw [copy]
    · obtain ⟨b, slots, _, shown, rfl⟩ | ⟨_, mid, top, b, log, adds, lays, shown, _⟩ := inserts
      · rw [shown]
        exact ⟨copy, fun _ _ => rfl⟩
      · rw [shown]
        refine ⟨by simp, fun j other => ?_⟩
        simp only [update_of_ne other]
        rw [lays.leaks.inode, adds.inode]
  · rintro e t ⟨leaks, frame⟩
    exact healthy.leaks frame leaks

/-! ## The blocks of new extents -/

theorem blocksOf_buildExtentsLoop (extents : List Extent) (current : Extent) (rest : List Nat) :
    blocksOf (buildExtentsLoop extents current rest) = blocksOf extents ++ current.blocks ++ rest := by
  induction rest generalizing extents current with
  | nil => simp [buildExtentsLoop, blocksOf]
  | cons b rest ih =>
    rw [buildExtentsLoop]
    split
    next merges =>
      rw [ih, merges.1]
      simp [Extent.blocks, range'_concat]
    · rw [ih, blocksOf_append]
      simp [blocksOf, Extent.blocks]

theorem blocksOf_buildExtents (blocks : List Nat) : blocksOf (buildExtents blocks) = blocks := by
  cases blocks with
  | nil => rfl
  | cons b rest =>
    rw [buildExtents, blocksOf_buildExtentsLoop]
    simp [blocksOf, Extent.blocks]

/-! ## A transaction around an operation -/

section
variable {inTx : Bool} {start : FS} {held : Cleanup}

section
variable (began : Began inTx start s)
include began

theorem Began.room (n : Nat) (own : List Nat) : s.HasRoom v n own ↔ start.HasRoom v n own := by
  subst began
  cases inTx <;> rfl

theorem Began.inlines {n : Nat} {own : List Nat} (inlines : start.Inlines v n own) : s.Inlines v n own := by
  subst began
  cases inTx <;> exact inlines

end

theorem Restores.append_blocks (restores : Restores s t held) {before after : Cleanup}
    (first : OfBlocks before) (last : OfBlocks after) : Restores s t (before ++ held ++ after) := by
  intro g
  rw [← restores g, cleanup_reserved, cleanup_reserved]
  apply filter_congr
  intro bit _
  simp only [mem_append, decide_eq_decide]
  constructor
  · exact fun all part mem => all part (.inl (.inr mem))
  · rintro all part ((mem | mem) | mem) key
    · have := first part mem
      rw [key] at this
      cases this
    · exact all part mem key
    · have := last part mem
      rw [key] at this
      cases this

theorem Restores.prepend (restores : Restores s t held) {before : Cleanup} (blocks : OfBlocks before) :
    Restores s t (before ++ held) :=
  append_nil (before ++ held) ▸ restores.append_blocks blocks nofun

end

/-! ## A new inode -/

/-- Between the views an inode came into use, and free blocks were taken and written. -/
structure View.Admits (x y : View) (i : Nat) : Prop where
  fresh : x.live i = false
  inode : ∀ j, j ≠ i → y.inode j = x.inode j
  live : ∀ j, y.live j → x.live j ∨ j = i
  kept : ∀ j, x.live j → y.live j
  grown : ∀ b, x.used b → y.used b
  block : ∀ b, x.used b → y.block b = x.block b

theorem View.Joins.admits (joins : x.Joins y i) : x.Admits y i where
  fresh := joins.fresh
  inode _ _ := congrFun joins.inode _
  live := joins.only
  kept := joins.grown
  grown _ inUse := joins.used ▸ inUse
  block b _ := congrFun joins.block b

theorem View.Leaks.admits (leaks : x.Leaks y) (admits : y.Admits z i) : x.Admits z i where
  fresh := leaks.live ▸ admits.fresh
  inode j other := (admits.inode j other).trans (congrFun leaks.inode j)
  live j alive := leaks.live ▸ admits.live j alive
  kept j alive := admits.kept j (leaks.live ▸ alive)
  grown b inUse := admits.grown b (leaks.grown b inUse)
  block b inUse := (admits.block b (leaks.grown b inUse)).trans (leaks.block b inUse)

section
variable (admits : x.Admits y i) {j : Nat}
include admits

theorem View.Admits.leaks (leaks : y.Leaks z) : x.Admits z i where
  fresh := admits.fresh
  inode j other := (congrFun leaks.inode j).trans (admits.inode j other)
  live j alive := admits.live j (leaks.live ▸ alive)
  kept j alive := leaks.live ▸ admits.kept j alive
  grown b inUse := leaks.grown b (admits.grown b inUse)
  block b inUse := (leaks.block b (admits.grown b inUse)).trans (admits.block b inUse)

theorem View.Admits.writeInode (n : Inode) : x.Admits { y with inode := update y.inode i n } i where
  fresh := admits.fresh
  inode j other := (update_of_ne other ..).trans (admits.inode j other)
  live := admits.live
  kept := admits.kept
  grown := admits.grown
  block := admits.block

theorem View.Admits.mapped (owned : x.Owned) (other : j ≠ i)
    (alive : x.live j) : y.mapped j = x.mapped j := by
  rw [View.mapped, admits.inode j other]
  exact View.mappedBy_congr fun c mem =>
    admits.block c (owned.used j alive c (x.child_subset_mappedBy _ mem))

theorem View.Admits.live_without (alive : (y.without i).live j) : j ≠ i ∧ x.live j := by
  obtain ⟨other, alive⟩ := View.live_of_without alive
  exact ⟨other, (admits.live j alive).resolve_right other⟩

theorem View.Admits.without (owned : x.Owned) : (y.without i).Owned := by
  apply owned.congr
  · exact fun j live => (admits.live_without live).2
  · intro j live
    obtain ⟨other, alive⟩ := admits.live_without live
    exact admits.mapped owned other alive
  · intro j live b mem
    exact admits.grown b (owned.used j (admits.live_without live).2 b mem)

theorem View.Admits.unowned (owned : x.Owned) (free : x.used b = false) : (y.without i).Unowned b := by
  intro j live mem
  obtain ⟨other, alive⟩ := admits.live_without live
  rw [View.without_mapped, admits.mapped owned other alive] at mem
  rw [owned.used j alive b mem] at free
  cases free

theorem View.Admits.owned {n : Inode} (owned : x.Owned) (used : ∀ b ∈ y.mappedBy n.mapping, y.used b)
    (once : (y.mappedBy n.mapping).Nodup) (free : ∀ b ∈ y.mappedBy n.mapping, x.used b = false) :
    ({ y with inode := update y.inode i n } : View).Owned :=
  (admits.without owned).remap (View.Leaks.refl y) used once fun b mem =>
    admits.unowned owned (free b mem)

end

/-! ## WriteFile -/

structure View.Fills (x y : View) (blocks : List Nat) : Prop where
  inode : y.inode = x.inode
  used : y.used = x.used
  live : y.live = x.live
  block : ∀ b, b ∉ blocks → y.block b = x.block b

theorem View.Takes.fills_leaks (takes : x.Takes y blocks) (fills : y.Fills z blocks) : x.Leaks z where
  inode := fills.inode.trans takes.inode
  live := fills.live.trans takes.live
  grown b inUse := by
    rw [fills.used]
    exact takes.grown b inUse
  block b inUse := by
    rw [fills.block b fun mem => by simp [takes.fresh b mem] at inUse, takes.block]

theorem FS.writeBlocks_spec {α : Type} (number : α → Nat) (content : α → Block) (items : List α) (s : FS) :
    let t := items.foldl (fun s a => s.writeBlock (number a) (content a)) s
    (view v s.now).Fills (view v t.now) (items.map number) ∧ Frame s t := by
  induction items generalizing s with
  | nil => exact ⟨⟨rfl, rfl, rfl, fun _ _ => rfl⟩, Frame.refl s⟩
  | cons a rest ih =>
    obtain ⟨shown, frame⟩ := writeBlock_spec (number a) (content a)
    obtain ⟨fills, frame'⟩ := ih (s.writeBlock (number a) (content a))
    rw [shown] at fills
    refine ⟨⟨fills.inode, fills.used, fills.live, fun b absent => ?_⟩, frame.trans frame'⟩
    rw [map_cons, mem_cons, not_or] at absent
    rw [foldl_cons, fills.block b absent.2]
    exact update_of_ne absent.1 ..

theorem writeChunks_spec (data : Bytes) (blocks : List Nat) (s : FS) :
    (view v s.now).Fills (view v (writeChunks v data blocks s).now) blocks ∧
      Frame s (writeChunks v data blocks s) := by
  have written := writeBlocks_spec (v := v) Prod.fst (fun p : Nat × Nat => .data (chunk v data p.2))
    blocks.zipIdx s
  rw [zipIdx_map_fst] at written
  exact written

def FS.namedBy (v : Shape) (s : FS) (path : Path) : Except Err (Option (Nat × Inode)) := do
  let (num, _, name) ← s.lookupParent v path
  let dir ← s.readInode v num
  s.findEntry v dir name

def FS.replaced (v : Shape) (s : FS) : Option (Nat × Inode) → List Nat
  | none => []
  | some (_, old) => blocksOf ((view v s.image).extentsOf old.mapping)

theorem fileMapping_meets (short : (buildExtents blocks).length ≤ 4) :
    (fileMapping v blocks).Meets s (fun m t => m = .inline (buildExtents blocks) ∧ t = s)
      fun _ _ => False := by
  unfold fileMapping layExtents
  rw [if_pos short]
  exact ⟨rfl, rfl⟩

end Ext4.Volume
