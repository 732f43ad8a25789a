import Ext4.Volume.FileRefinement
import Ext4.Volume.Spared

/-! Open files and the owners of blocks.
A file may lag behind its inode, and then it writes to blocks of others. As long as its extents are
those of a live inode, every call on it leaves each block with its one owner, however the call
ends, and every other inode alone. -/

namespace Ext4.Volume
open Octets Alloc Store List Function FS

variable {v : Shape} {s t : FS} {x y z : View} {ino b : Nat} {extents other : List Extent} {f : File}
  {blocks : List Nat}

/-- The inode may have these extents: their blocks are used, and nobody else maps them. -/
structure View.Backs (x : View) (ino : Nat) (extents : List Extent) : Prop where
  owned : x.Owned
  alive : x.live ino
  once : (blocksOf extents).Nodup
  used : ∀ b ∈ blocksOf extents, x.used b
  own : ∀ b ∈ blocksOf extents, (x.without ino).Unowned b
  apart : (x.inode ino).mapping.child.Disjoint (blocksOf extents)

structure File.InSync (v : Shape) (s : FS) (f : File) : Prop where
  alive : (view v s.now).live f.ino
  blocks : (blocksOf f.extents).Perm
    (blocksOf ((view v s.now).extentsOf ((view v s.now).inode f.ino).mapping))

theorem View.Owned.backs (owned : x.Owned) (alive : x.live ino)
    (blocks : (blocksOf extents).Perm (blocksOf (x.extentsOf (x.inode ino).mapping))) :
    x.Backs ino extents := by
  have mapped : ∀ b ∈ blocksOf extents, b ∈ x.mapped ino := fun b mem =>
    mem_append_right _ (blocks.mem_iff.mp mem)
  obtain ⟨_, once, apart⟩ := nodup_append'.mp (owned.once ino alive)
  constructor
  case owned => exact owned
  case alive => exact alive
  case once => exact blocks.nodup_iff.mpr once
  case used => exact fun b mem => owned.used ino alive b (mapped b mem)
  case own => exact fun b mem => owned.unowned_without alive (mapped b mem)
  case apart => exact fun b leaf mem => apart leaf (blocks.mem_iff.mp mem)

section
variable (backs : x.Backs ino extents)
include backs

theorem View.Backs.subset (sub : blocksOf other ⊆ blocksOf extents)
    (once : (blocksOf other).Nodup) : x.Backs ino other where
  owned := backs.owned
  alive := backs.alive
  once := once
  used b mem := backs.used b (sub mem)
  own b mem := backs.own b (sub mem)
  apart _ leaf mem := backs.apart leaf (sub mem)

theorem View.Backs.noLeaf (mem : b ∈ blocksOf extents) (i : Nat)
    (alive : x.live i) : b ∉ (x.inode i).mapping.child := by
  intro leaf
  by_cases here : i = ino
  · subst here
    exact backs.apart leaf mem
  · exact backs.own b mem i ((x.without_live_of_ne here).trans alive)
      (x.child_subset_mappedBy _ leaf)

theorem View.Backs.writeBlock (mem : b ∈ blocksOf extents) (content : Block) :
    ({ x with block := update x.block b content } : View).Backs ino extents where
  owned := backs.owned.writeBlock content (backs.noLeaf mem)
  alive := backs.alive
  once := backs.once
  used := backs.used
  own c inList j alive mapped := by
    have alive' := (View.live_of_without alive).2
    rw [View.without_mapped, View.mapped_writeBlock (backs.noLeaf mem) alive'] at mapped
    exact backs.own c inList j alive mapped
  apart := backs.apart

theorem View.Backs.takes (takes : x.Takes y blocks) (fills : y.Fills z blocks)
    (new : (blocksOf other).Perm (blocksOf extents ++ blocks)) : z.Backs ino other := by
  have leaks := takes.fills_leaks fills
  have cases_ : ∀ b ∈ blocksOf other, b ∈ blocksOf extents ∨ b ∈ blocks := fun b mem =>
    mem_append.mp (new.mem_iff.mp mem)
  have aside := backs.owned.without ino
  constructor
  case owned => exact backs.owned.leaks leaks
  case alive => exact leaks.live ▸ backs.alive
  case once =>
    refine new.nodup_iff.mpr (nodup_append'.mpr ⟨backs.once, takes.once, fun b old fresh => ?_⟩)
    have free := takes.fresh b fresh
    rw [backs.used b old] at free
    cases free
  case used =>
    intro b mem
    rcases cases_ b mem with old | fresh
    · exact leaks.grown b (backs.used b old)
    · rw [fills.used]
      exact takes.marked b fresh
  case own =>
    intro b mem
    have unowned : (x.without ino).Unowned b := by
      rcases cases_ b mem with old | fresh
      · exact backs.own b old
      · exact (backs.owned.unowned (takes.fresh b fresh)).without ino
    exact unowned.leaks aside (leaks.without ino)
  case apart =>
    intro b leaf mem
    rw [leaks.inode] at leaf
    rcases cases_ b mem with old | fresh
    · exact backs.apart leaf old
    · have inUse := backs.owned.used ino backs.alive b (x.child_subset_mappedBy _ leaf)
      rw [takes.fresh b fresh] at inUse
      cases inUse

end

/-! ## New extents -/

section
variable {n : Inode}

theorem View.Lays.mapped_remap (lays : x.Lays y n.mapping extents) :
    ({ y with inode := update y.inode ino n } : View).mapped ino =
      n.mapping.child ++ blocksOf extents := by
  rw [View.mapped]
  dsimp only
  rw [update_self, ← lays.extentsOf]
  exact View.mappedBy_congr fun _ _ => rfl

section
variable (backs : x.Backs ino extents)
include backs

/-- The inode is rewritten with the extents, which are in it or in a leaf block that was free. -/
theorem View.Backs.remap (lays : x.Lays y n.mapping extents) :
    ({ y with inode := update y.inode ino n } : View).Backs ino extents := by
  have leaks := lays.leaks
  have blocks : y.mappedBy n.mapping = n.mapping.child ++ blocksOf extents := by
    rw [View.mappedBy, lays.extentsOf]
  have owned : ({ y with inode := update y.inode ino n } : View).Owned := by
    apply (backs.owned.without ino).remap leaks <;> rw [blocks]
    case used =>
      intro b mem
      rcases mem_append.mp mem with leaf | old
      · exact (lays.child b leaf).2
      · exact leaks.grown b (backs.used b old)
    case once =>
      refine nodup_append'.mpr ⟨Mapping.nodup_child _, backs.once, fun b leaf old => ?_⟩
      have free := (lays.child b leaf).1
      rw [backs.used b old] at free
      cases free
    case own =>
      intro b mem
      rcases mem_append.mp mem with leaf | old
      · exact (backs.owned.unowned (lays.child b leaf).1).without ino
      · exact backs.own b old
  refine owned.backs (leaks.live ▸ backs.alive) (List.Perm.of_eq (congrArg blocksOf ?_))
  simp only [update_self]
  rw [← lays.extentsOf]
  exact (View.extentsOf_congr fun _ _ => rfl).symm

theorem View.Backs.spares_remap (lays : x.Lays y n.mapping extents) :
    x.Spares { y with inode := update y.inode ino n } [ino] :=
  (lays.leaks.spares backs.owned _).trans (y.spares_writeInode n mem_cons_self)

/-- What was used and only the inode could map, it maps no longer unless the extents say so. -/
theorem View.Backs.dropped (lays : x.Lays y n.mapping extents) (unowned : (x.without ino).Unowned b)
    (inUse : x.used b) (gone : b ∉ blocksOf extents) :
    ({ y with inode := update y.inode ino n } : View).Unowned b := by
  intro j alive mem
  have alive : x.live j := lays.leaks.live ▸ alive
  by_cases here : j = ino
  · subst here
    rw [lays.mapped_remap] at mem
    rcases mem_append.mp mem with leaf | old
    · rw [(lays.child b leaf).1] at inUse
      cases inUse
    · exact gone old
  · have outside : j ∉ [ino] := fun same => here (mem_singleton.mp same)
    rw [(backs.spares_remap lays).mapped alive outside] at mem
    exact unowned j ((x.without_live_of_ne here).trans alive) mem

theorem View.Backs.releases (releases : x.Releases y blocks) (unowned : ∀ b ∈ blocks, x.Unowned b)
    (synced : x.extentsOf (x.inode ino).mapping = extents) : y.Backs ino extents := by
  refine (backs.owned.releases releases unowned).backs (releases.live ▸ backs.alive) ?_
  rw [releases.inode, View.extentsOf_congr fun c _ => congrFun releases.block c, synced]

end

end

/-! ## The calls on an open file -/

/-- No call is under way, the inode may have the extents, and since `start` only it has changed. -/
structure Backed (v : Shape) (start s : FS) (ino : Nat) (extents : List Extent) : Prop
    extends Quiet s where
  frame : Frame start s
  backs : (view v s.now).Backs ino extents
  spares : (view v start.now).Spares (view v s.now) [ino]
  kind : ((view v s.now).inode ino).kind = ((view v start.now).inode ino).kind
  /-- What was in use and not the inode's stays so. -/
  idle : ∀ b, (view v start.now).used b → b ∉ (view v start.now).mapped ino →
    (view v s.now).used b ∧ b ∉ (view v s.now).mapped ino ∧ b ∉ blocksOf extents

/-- The extents of a mapping can be read: they are in the inode or in a leaf block. -/
def View.Lists (x : View) (m : Mapping) (extents : List Extent) : Prop :=
  m = .inline extents ∨ ∃ c, m = .index c ∧ x.block c = .leaf extents

structure File.Recorded (v : Shape) (s : FS) (f : File) : Prop where
  size : ((view v s.now).inode f.ino).size = f.size
  lists : (view v s.now).Lists ((view v s.now).inode f.ino).mapping f.extents

variable {start : FS} {m : Mapping}

theorem View.Lists.congr (lists : x.Lists m extents)
    (same : ∀ c ∈ m.child, y.block c = x.block c) : y.Lists m extents := by
  obtain inline | ⟨c, rfl, leaf⟩ := lists
  · exact .inl inline
  · exact .inr ⟨c, rfl, (same c (mem_singleton_self c)).trans leaf⟩

theorem View.Lists.extentsOf (lists : x.Lists m extents) : x.extentsOf m = extents := by
  obtain rfl | ⟨c, rfl, leaf⟩ := lists
  · rfl
  · simp [View.extentsOf, View.leaf, leaf]

theorem View.Lays.lists (lays : x.Lays y m extents) : y.Lists m extents := by
  obtain ⟨rfl, rfl⟩ | ⟨c, rfl, adds⟩ := lays
  · exact .inl rfl
  · exact .inr ⟨c, rfl, by rw [adds.block, update_self]⟩

theorem Backed.healthy (backed : Backed v start s ino extents) : Healthy v s :=
  ⟨backed.toQuiet, backed.backs.owned⟩

theorem File.InSync.backed (sync : f.InSync v s) (healthy : Healthy v s) : Backed v s s f.ino f.extents :=
  ⟨healthy.toQuiet, .refl s, healthy.owned.backs sync.alive sync.blocks, .refl _ _, rfl,
    fun _ inUse other => ⟨inUse, other, fun mem =>
      other (mem_append_right _ (sync.blocks.mem_iff.mp mem))⟩⟩

theorem FS.Opens.inSync {path : Path} {n : Inode} (opens : s.Opens v path n extents f)
    (closed : s.tx = none) (alive : (view v s.now).live f.ino) : f.InSync v s := by
  refine ⟨alive, ?_⟩
  have read := (readInode_ok (lookupPath_ok opens.found).2).2.2
  rw [now_of_none s closed, ← read, ← (parseExtents_ok opens.parsed).1, opens.sorted]
  exact (perm_insertionSort _ extents).flatMap_right _

theorem Backed.writeInBlock (backed : Backed v start s ino extents) (mem : b ∈ blocksOf extents)
    (at_ : Nat) (octets : Bytes) : Backed v start (s.writeInBlock v b at_ octets) ino extents := by
  obtain ⟨shown, frame⟩ := writeInBlock_spec backed.closed b at_ octets
  constructor
  case toQuiet => exact backed.toQuiet.frame frame
  case frame => exact backed.frame.trans frame
  case backs =>
    rw [shown]
    exact backed.backs.writeBlock mem _
  case kind =>
    rw [shown]
    exact backed.kind
  case idle =>
    rw [shown, View.mapped_writeBlock (backed.backs.noLeaf mem) backed.backs.alive]
    exact backed.idle
  case spares =>
    rw [shown]
    refine backed.spares.trans (View.spares_writeBlock _ fun j alive other mapped => ?_)
    have different : j ≠ ino := fun same => other (mem_singleton.mpr same)
    exact backed.backs.own b mem j ((View.without_live_of_ne _ different).trans alive) mapped

theorem File.Recorded.writeInBlock (recorded : f.Recorded v s) (backed : Backed v start s f.ino extents)
    (mem : b ∈ blocksOf extents) (at_ : Nat) (octets : Bytes) :
    f.Recorded v (s.writeInBlock v b at_ octets) := by
  obtain ⟨shown, _⟩ := writeInBlock_spec backed.closed b at_ octets
  constructor <;> rw [shown]
  · exact recorded.size
  · refine recorded.lists.congr fun c leaf => update_of_ne ?_ ..
    rintro rfl
    exact backed.backs.apart leaf mem

/-- The zeros go to a block of the file; by then the inode may be about to get more extents. -/
theorem Backed.zeroSlack (backed : Backed v start s ino extents) (sub : blocksOf f.extents ⊆ blocksOf extents)
    (oldSize newSize : Nat) : Backed v start (zeroSlack v f oldSize newSize s) ino extents := by
  unfold Volume.zeroSlack
  dsimp only
  split
  · exact backed
  · split
    · exact backed
    next b located => exact backed.writeInBlock (sub (locate_mem located)) _ _

theorem Backed.takes {u : FS} (backed : Backed v start s ino extents)
    (takes : (view v s.now).Takes (view v t.now) blocks) (fills : (view v t.now).Fills (view v u.now) blocks)
    (frame : Frame s u)
    (new : (blocksOf other).Perm (blocksOf extents ++ blocks)) : Backed v start u ino other := by
  have leaks := takes.fills_leaks fills
  constructor
  case toQuiet => exact backed.toQuiet.frame frame
  case frame => exact backed.frame.trans frame
  case backs => exact backed.backs.takes takes fills new
  case spares => exact backed.spares.trans (leaks.spares backed.backs.owned _)
  case kind => exact leaks.inode ▸ backed.kind
  case idle =>
    intro b inUse other
    obtain ⟨inUse, other, apart⟩ := backed.idle b inUse other
    rw [leaks.mapped backed.backs.owned backed.backs.alive]
    refine ⟨leaks.grown b inUse, other, fun mem => ?_⟩
    rcases mem_append.mp (new.mem_iff.mp mem) with old | fresh
    · exact apart old
    · rw [takes.fresh b fresh] at inUse
      cases inUse

theorem commitFile_backed (backed : Backed v start s f.ino extents) (size : Nat) :
    (commitFile v f extents size).Meets s (fun f' t => f' = { f with extents := extents, size := size } ∧
        Backed v start t f.ino extents ∧ f'.Recorded v t ∧
        ∀ b, ((view v s.now).without f.ino).Unowned b → (view v s.now).used b →
          b ∉ blocksOf extents → (view v t.now).Unowned b) fun _ => Healthy v := by
  have backs := backed.backs
  refine (commitFile_spec backed.closed extents size).mono ?_ fun _ t failed =>
    backed.healthy.leaks failed.2 (failed.1 ▸ View.Leaks.refl _)
  rintro _ t ⟨rfl, frame, y, n, lays, sized, kind, releases⟩
  set x := view v s.now
  -- The old leaf block is nobody's once the inode is written.
  have dropped : ∀ b ∈ staleChild (x.inode f.ino).mapping n.mapping,
      ({ y with inode := update y.inode f.ino n } : View).Unowned b := by
    intro b mem
    have leaf := staleChild_subset _ _ mem
    have mapped : b ∈ x.mapped f.ino := x.child_subset_mappedBy _ leaf
    exact backs.dropped lays (backs.owned.unowned_without backs.alive mapped)
      (backs.owned.used f.ino backs.alive b mapped) (backs.apart leaf)
  have inode : (view v t.now).inode f.ino = n := by
    rw [releases.inode]
    exact update_self ..
  have synced : View.extentsOf { y with inode := update y.inode f.ino n }
      (update y.inode f.ino n f.ino).mapping = extents := by
    rw [update_self, ← lays.extentsOf]
    exact View.extentsOf_congr fun _ _ => rfl
  refine ⟨rfl, ⟨backed.toQuiet.frame frame, backed.frame.trans frame,
    (backs.remap lays).releases releases dropped synced,
    backed.spares.trans ((backs.spares_remap lays).trans (releases.spares _)), ?_, ?_⟩, ?_, ?_⟩
  · rw [inode, kind]
    exact backed.kind
  · intro b inUse other
    obtain ⟨inUse, other, apart⟩ := backed.idle b inUse other
    rw [releases.mapped, lays.mapped_remap]
    refine ⟨releases.kept b (lays.leaks.grown b inUse) fun freed =>
      other (x.child_subset_mappedBy _ (staleChild_subset _ _ freed)), fun mem => ?_, apart⟩
    rcases mem_append.mp mem with leaf | old
    · rw [(lays.child b leaf).1] at inUse
      cases inUse
    · exact apart old
  · constructor <;> rw [inode]
    · exact sized
    · exact lays.lists.congr fun c _ => congrFun releases.block c
  · intro b unowned inUse gone j alive mem
    rw [releases.live] at alive
    rw [releases.mapped] at mem
    exact backs.dropped lays unowned inUse gone j alive mem

/-- The file `f` has become `f'` in a call that succeeded. -/
structure Followed (v : Shape) (start s t : FS) (f f' : File) : Prop
    extends Backed v start t f'.ino f'.extents where
  same : f'.ino = f.ino
  recorded : f.Recorded v s → f'.Recorded v t

theorem commitFile_followed (backed : Backed v start s f.ino extents) (size : Nat) (before : FS) :
    (commitFile v f extents size).Meets s (fun f' t => Followed v start before t f f')
      fun _ => Healthy v := by
  refine (commitFile_backed backed size).imp ?_
  rintro f' t ⟨rfl, backed', recorded, _⟩
  exact ⟨backed', rfl, fun _ => recorded⟩

theorem mapRange_followed (backed : Backed v start s f.ino f.extents) (off stop : Nat) :
    (mapRange v f off stop).Meets s (fun f' t => Followed v start s t f f') fun _ => Healthy v := by
  refine mapRange_rule backed.closed (Prog.Meets.any _ _) (fun _ _ => ⟨backed, rfl, fun recorded => recorded⟩)
    (fun _ => commitFile_followed (backed.zeroSlack (List.Subset.refl _) _ _) _ s)
    (fun _ _ _ same frame => backed.healthy.leaks frame (same ▸ View.Leaks.refl _))
    (fun _ _ _ _ _ zeroed _ => backed.healthy.leaks zeroed.frames zeroed.leaks) ?_
  rintro blocks held t u _ - ⟨takes, -, -, fills, frames⟩ - rfl perm
  exact commitFile_followed ((backed.takes takes fills frames perm).zeroSlack
    (fun b mem => perm.mem_iff.mpr (mem_append_left _ mem)) _ _) _ s

theorem writeAt_followed (backed : Backed v start s f.ino f.extents) (octets : Bytes) (off : Nat) :
    (writeAt v f octets off).Meets s (fun f' t => Followed v start s t f f') fun _ => Healthy v := by
  unfold writeAt
  split
  · exact ⟨backed, rfl, fun recorded => recorded⟩
  · refine (mapRange_followed backed _ _).step ?_
    intro f' t mapped
    -- The loop writes to blocks of the file only.
    refine (writeParts_rule (Followed v start s · f f') mapped ?_ octets off _).seq (fun _ _ after => after)
      fun _ _ failed => failed.2.healthy
    intro lb b u at_ part located during
    have mem := locate_mem located
    exact ⟨during.toBacked.writeInBlock mem at_ part, during.same, fun recorded =>
      (during.recorded recorded).writeInBlock during.toBacked mem at_ part⟩

theorem Backed.kept (backed : Backed v start s ino extents) (keep : Nat) :
    Backed v start s ino (keptExtents keep extents) :=
  have sub := (blocksOf_keptExtents keep extents).subset
  have once := (nodup_append'.mp ((kept_append_freed keep extents).nodup_iff.mpr backed.backs.once)).1
  { backed with
    backs := backed.backs.subset sub once
    idle := fun b inUse other =>
      have idle := backed.idle b inUse other
      ⟨idle.1, idle.2.1, fun mem => idle.2.2 (sub mem)⟩ }

theorem shrink_followed (backed : Backed v start s f.ino f.extents) (size : Nat) :
    (shrink v f size).Meets s (fun f' t => Followed v start s t f f') fun _ => Healthy v := by
  unfold shrink
  set keep := (size + v.blockSize - 1) / v.blockSize
  rw [meets_bind, meets_modify]
  set s' := (if size % v.blockSize = 0 then s else _) with cleared
  have backed : Backed v start s' f.ino f.extents := by
    rw [cleared]
    split
    · exact backed
    · split
      · exact backed
      next b located => exact backed.writeInBlock (locate_mem located) _ _
  have divided := kept_append_freed keep f.extents
  obtain ⟨_, _, apart⟩ := nodup_append'.mp (divided.nodup_iff.mpr backed.backs.once)
  have kept := backed.kept keep
  refine (commitFile_backed kept size).step ?_
  rintro f' t ⟨rfl, after, recorded, unowned⟩
  simp only [meets_bind, meets_modify, meets_pure]
  obtain ⟨releases, frame⟩ := freeBlocks_spec after.closed (freedBlocks keep f.extents)
  -- The blocks behind the end were the inode's, and are nobody's now.
  have dropped : ∀ b ∈ freedBlocks keep f.extents, (view v t.now).Unowned b := by
    intro b freed
    have old : b ∈ blocksOf f.extents := divided.mem_iff.mp (mem_append_right _ freed)
    exact unowned b (backed.backs.own b old) (backed.backs.used b old) fun inKept =>
      apart inKept freed
  have lists := recorded.lists.congr fun c _ => congrFun releases.block c
  refine ⟨⟨after.toQuiet.frame frame, after.frame.trans frame, after.backs.releases releases dropped recorded.lists.extentsOf,
    after.spares.trans (releases.spares _), releases.inode ▸ after.kind, ?_⟩, rfl, fun _ => ?_⟩
  · intro b inUse other
    obtain ⟨inUse', other', apart'⟩ := after.idle b inUse other
    rw [releases.mapped]
    refine ⟨releases.kept b inUse' fun freed => ?_, other', apart'⟩
    exact (backed.idle b inUse other).2.2 (divided.mem_iff.mp (mem_append_right _ freed))
  · constructor <;> rw [releases.inode]
    · exact recorded.size
    · exact lists

theorem truncate_followed (backed : Backed v start s f.ino f.extents) (size : Nat) :
    (truncate v f size).Meets s (fun f' t => Followed v start s t f f') fun _ => Healthy v := by
  unfold truncate
  split
  · exact ⟨backed, rfl, fun recorded => recorded⟩
  split
  · exact shrink_followed backed size
  · rw [meets_bind, meets_modify]
    exact commitFile_followed (backed.zeroSlack (List.Subset.refl _) _ _) _ s

theorem writeAt_healthy (healthy : Healthy v s) (sync : f.InSync v s) (octets : Bytes) (off : Nat) :
    (writeAt v f octets off).Meets s (fun _ => Healthy v) fun _ => Healthy v :=
  (writeAt_followed (sync.backed healthy) octets off).imp
    fun _ _ followed => followed.healthy

theorem truncate_healthy (healthy : Healthy v s) (sync : f.InSync v s) (size : Nat) :
    (truncate v f size).Meets s (fun _ => Healthy v) fun _ => Healthy v :=
  (truncate_followed (sync.backed healthy) size).imp
    fun _ _ followed => followed.healthy

end Ext4.Volume
