import Ext4.Volume.Tree

/-! Removing files and directories.
Whatever a removal does along its way, it frees only inodes that were live when it started, it
leaves the mappings of all inodes alone, and directories only lose entries. So a path can lead it
only to inodes that were live at the start, as long as every entry named a live inode then. -/

namespace Ext4.Volume
open Octets Alloc Store List Function FS

/-- The root is live, and the entries of live directories name live inodes; `count` bounds the
inode numbers that can be read. -/
def View.Linked (x : View) (count : Nat) : Prop :=
  x.live rootIno ∧ ∀ dir ∈ range (count + 1), x.live dir →
    (x.inode dir).kind = .dir → ∀ e ∈ x.entries dir, x.live e.ino

instance (x : View) (count : Nat) : Decidable (x.Linked count) :=
  inferInstanceAs (Decidable (_ ∧ _))

/-- How far a removal may have come from the view `x` to the view `y`. -/
structure View.Prunes (x y : View) : Prop where
  mapping : ∀ i, (y.inode i).mapping = (x.inode i).mapping
  kind : ∀ i, (y.inode i).kind = (x.inode i).kind
  live : ∀ i, y.live i → x.live i
  /-- Records are changed so that nothing new is listed. -/
  block : ∀ b, y.block b = x.block b ∨
    ∃ old new, x.block b = .slots old ∧ y.block b = .slots new ∧ listing new ⊆ listing old
  owned : y.Owned

variable {x y z : View} {b i : Nat} {n : Inode} {old new : List Slot} {t : FS}

theorem View.Prunes.refl (owned : x.Owned) : x.Prunes x :=
  ⟨fun _ => rfl, fun _ => rfl, fun _ alive => alive, fun _ => .inl rfl, owned⟩

section
variable (prunes : x.Prunes y)
include prunes

theorem View.Prunes.extentsOf (m : Mapping) : y.extentsOf m = x.extentsOf m := by
  cases m with
  | none | target _ | inline _ => rfl
  | index c =>
    rw [View.extentsOf, View.extentsOf, View.leaf, View.leaf]
    obtain same | ⟨old, new, was, is_, _⟩ := prunes.block c
    · rw [same]
    · rw [was, is_]

theorem View.Prunes.mapped (i : Nat) : y.mapped i = x.mapped i := by
  rw [View.mapped, View.mapped, View.mappedBy, View.mappedBy, prunes.mapping, prunes.extentsOf]

theorem View.Prunes.records (m : Mapping) :
    listing (y.records m) ⊆ listing (x.records m) := by
  rw [View.records, View.records, prunes.extentsOf, ← listing_flatMap, ← listing_flatMap]
  intro e mem
  obtain ⟨b, inBlocks, listed⟩ := mem_flatMap.mp mem
  refine mem_flatMap.mpr ⟨b, inBlocks, ?_⟩
  obtain same | ⟨old, new, was, is_, fewer⟩ := prunes.block b
  · rwa [same] at listed
  · rw [is_] at listed
    rw [was]
    exact fewer listed

theorem View.Prunes.entries (i : Nat) : y.entries i ⊆ x.entries i := by
  rw [View.entries, View.entries, prunes.mapping]
  exact prunes.records _

/-! ## The steps of a removal -/

theorem View.Prunes.patch (was : y.block b = .slots old)
    (fewer : listing new ⊆ listing old) : x.Prunes { y with block := update y.block b (.slots new) } where
  mapping := prunes.mapping
  kind := prunes.kind
  live := prunes.live
  owned := prunes.owned.writeSlots was new
  block c := by
    by_cases same : c = b
    · subst same
      right
      dsimp only
      rw [update_self]
      obtain unchanged | ⟨first, last, began, now, fewer'⟩ := prunes.block c
      · exact ⟨old, new, unchanged ▸ was, rfl, fewer⟩
      · rw [was] at now
        cases now
        exact ⟨first, new, began, rfl, fun e listed => fewer' (fewer listed)⟩
    · simpa only [update_of_ne same] using prunes.block c

theorem View.Prunes.writeInode (mapping : n.mapping = (y.inode i).mapping)
    (kind : n.kind = (y.inode i).kind) : x.Prunes { y with inode := update y.inode i n } where
  mapping j := by
    by_cases same : j = i
    · subst same
      simp [mapping, prunes.mapping]
    · simp [update_of_ne same, prunes.mapping]
  kind j := by
    by_cases same : j = i
    · subst same
      simp [kind, prunes.kind]
    · simp [update_of_ne same, prunes.kind]
  live := prunes.live
  block := prunes.block
  owned := prunes.owned.writeInode fun _ => mapping

theorem View.Prunes.release (owned : x.Owned) (alive : x.live i) {w : View}
    (releases : y.Releases w (blocksOf (y.extentsOf (y.inode i).mapping))) (retires : w.Retires z i)
    (only : ∀ j, z.live j → w.live j) : x.Prunes z := by
  have inode : z.inode = y.inode := retires.inode.trans releases.inode
  have block : z.block = y.block := retires.block.trans releases.block
  have live : ∀ j, z.live j → j ≠ i ∧ y.live j := by
    intro j alive'
    refine ⟨?_, releases.live ▸ only j alive'⟩
    rintro rfl
    rw [retires.gone] at alive'
    cases alive'
  have mapped : ∀ j, z.mapped j = y.mapped j := by
    intro j
    rw [View.mapped, View.mapped, inode]
    exact View.mappedBy_congr fun c _ => congrFun block c
  constructor
  case mapping => rw [inode]; exact prunes.mapping
  case kind => rw [inode]; exact prunes.kind
  case live => exact fun j alive' => prunes.live j (live j alive').2
  case block => rw [block]; exact prunes.block
  case owned =>
    refine prunes.owned.congr (fun j alive' => (live j alive').2) (fun j _ => mapped j) ?_
    intro j alive' c mem
    obtain ⟨other, alive'⟩ := live j alive'
    rw [retires.used]
    refine releases.kept c (prunes.owned.used j alive' c mem) fun freed => ?_
    -- At the start two live inodes did not share the block.
    rw [prunes.mapped] at mem
    apply owned.apart j i (prunes.live j alive') alive other mem
    rw [prunes.extentsOf, prunes.mapping] at freed
    exact mem_append_right _ freed

end

theorem zeroEntryInBlock_listing {name : Name}
    (changed : zeroEntryInBlock name old = some new) : listing new ⊆ listing old := by
  induction old generalizing new with
  | nil => cases changed
  | cons slot rest ih =>
    rw [zeroEntryInBlock] at changed
    split at changed
    · cases changed
      have free : Slot.listed { slot with ino := 0 } = false := by simp [Slot.listed]
      intro e mem
      rw [listing, filter_cons_of_neg (by simp [free])] at mem
      exact (((sublist_cons_self slot rest).filter _).map _).subset mem
    · obtain ⟨tail, later, rfl⟩ := Option.map_eq_some_iff.mp changed
      have fewer := ih later
      by_cases listed : slot.listed
      · simp only [listing, filter_cons_of_pos listed, map_cons]
        exact cons_subset_cons _ fewer
      · simp only [listing, filter_cons_of_neg listed]
        exact fewer

/-! ## The rule for removals -/

structure Quiet (s : FS) : Prop where
  closed : s.tx = none
  unreserved : Unreserved s

theorem Quiet.frame {s : FS} (quiet : Quiet s) (frame : Frame s t) : Quiet t :=
  ⟨frame.toOuter.closed quiet.closed, fun g => (frame.reserved g).trans (quiet.unreserved g)⟩

/-- What an invariant `holds` needs to be kept by every removal: the steps are taken with inodes that
a path led to, of which `knows` says what is known. -/
structure RemovalRule (v : Shape) (holds : FS → Prop) (knows : Nat → Inode → Prop) : Prop where
  parent : ∀ {s}, holds s → ∀ {path num dir name}, s.lookupParent v path = .ok (num, dir, name) →
    knows num dir
  target : ∀ {s}, holds s → ∀ {names i n}, s.lookupPath v names = .ok (i, n) → knows i n
  entry : ∀ {s}, holds s → ∀ {num dir}, knows num dir → ∀ name,
    (zeroDirEntry dir name).Meets s (fun _ => holds) fun _ => holds
  write : ∀ {s}, holds s → ∀ {i n}, knows i n → holds (s.writeInode v i n.dropLink)
  free : ∀ {s}, holds s → ∀ {i n}, knows i n →
    Prog.Meets (do freeInodeBlocks v n; Prog.modify fun s => s.freeInodeSlot v i) s
      (fun _ => holds) fun _ => holds

section
variable {v : Shape} {s : FS} {holds : FS → Prop} {knows : Nat → Inode → Prop}
  (rule : RemovalRule v holds knows)
include rule

section
variable (initially : holds s)
include initially

theorem RemovalRule.resolve (path : Path)
    {next : Nat → Inode → Name → Nat → Inode → Prog FS Err Unit}
    (later : ∀ parentNum parent name i n, knows parentNum parent → knows i n →
      (next parentNum parent name i n).Meets s (fun _ => holds) fun _ => holds) :
    (resolve v path next).Meets s (fun _ => holds) fun _ => holds := by
  unfold Volume.resolve
  rw [meets_bind, meets_read]
  split
  · exact initially
  · exact initially
  next parentNum parent name search =>
    rw [meets_bind, meets_read]
    split
    · exact initially
    · exact initially
    next i n search' => exact later _ _ _ _ _ (rule.parent initially search) (rule.target initially search')

theorem RemovalRule.decrement (known : knows i n) :
    (decrementAndFreeInode v i n).Meets s (fun _ => holds) fun _ => holds := by
  unfold decrementAndFreeInode
  split
  · exact rule.write initially known
  · have same : freeInodeBlocks v n.dropLink = freeInodeBlocks v n := rfl
    rw [same]
    exact rule.free initially known

theorem RemovalRule.removeFile (path : Path) :
    (removeFile v path).Meets s (fun _ => holds) fun _ => holds := by
  apply rule.resolve initially
  intro parentNum parent name i n parentKnown known
  split
  · exact initially
  · exact (rule.entry initially parentKnown name).step fun _ _ after => rule.decrement after known

theorem RemovalRule.dropDir {parentNum : Nat} {parent : Inode}
    (parentKnown : knows parentNum parent) (name : Name) (known : knows i n) :
    (dropDir v parentNum parent name i n).Meets s (fun _ => holds) fun _ => holds := by
  refine (rule.entry initially parentKnown name).step ?_
  intro _ t after
  have frees := rule.free after known
  rw [meets_bind] at frees ⊢
  apply frees.mono
  · intro _ u freed
    rw [meets_bind, meets_modify, meets_modify]
    exact rule.write freed parentKnown
  · exact fun _ _ failed => failed

theorem RemovalRule.removeDir (fuel : Nat) (path : Path) :
    (removeDir v fuel path).Meets s (fun _ => holds) fun _ => holds := by
  induction fuel generalizing s path with
  | zero => exact initially
  | succ fuel ih =>
    rw [removeDir]
    apply rule.resolve initially
    intro parentNum parent name i n parentKnown known
    split
    · exact initially
    refine .look (fun children _ => ?_) fun _ _ => initially
    refine (meets_forEach children initially ?_).step ?_
    · intro e _ t during
      split
      · exact during
      split
      · exact ih during _
      · exact rule.removeFile during _
    · exact fun _ t after => rule.dropDir after parentKnown name known

end

end

/-! ## The programs -/

/-- A removal is under way that began at the view `x`. -/
structure Removing (v : Shape) (x : View) (count : Nat) (s : FS) : Prop extends Quiet s where
  prunes : x.Prunes (view v s.now)
  count : s.sb.inodesCount = count

structure Known (x : View) (i : Nat) (n : Inode) : Prop where
  alive : x.live i
  low : 0 < i
  mapping : n.mapping = (x.inode i).mapping
  kind : n.kind = (x.inode i).kind

section
variable {v : Shape} {s : FS} {count : Nat}

theorem Removing.frame (removing : Removing v x count s) (frame : Frame s t)
    (prunes : x.Prunes (view v t.now)) : Removing v x count t :=
  ⟨removing.toQuiet.frame frame, prunes, frame.inodesCount.trans removing.count⟩

theorem Removing.shown (removing : Removing v x count s) : view v s.image = view v s.now := by
  rw [now_of_none s removing.closed]

variable (owned : x.Owned) (linked : x.Linked count)

include linked in
theorem Removing.follows (removing : Removing v x count s) (dir : Nat) (name : Name) (i : Nat) (n : Inode)
    (alive : x.live dir) (found : s.entryIn v dir name = .ok (i, n)) : x.live i := by
  obtain ⟨isDir, inRange, _, e, search, rfl⟩ := entryIn_ok found
  rw [removing.shown] at isDir search
  rw [removing.prunes.kind] at isDir
  rw [removing.count] at inRange
  exact linked.2 dir (mem_range.mpr (Nat.lt_succ_of_le inRange)) alive isDir e
    (removing.prunes.entries dir (mem_of_find?_eq_some search))

theorem Removing.known (removing : Removing v x count s) (alive : x.live i)
    (read : s.readInode v i = .ok n) : Known x i n := by
  obtain ⟨low, _, rfl⟩ := readInode_ok read
  rw [removing.shown]
  exact ⟨alive, low, removing.prunes.mapping i, removing.prunes.kind i⟩

theorem zeroDirEntry_removing (removing : Removing v x count s) (dir : Inode) (name : Name) :
    (zeroDirEntry dir name).Meets s (fun _ => Removing v x count) fun _ => Removing v x count := by
  apply (changeDir_meets (v := v) removing.closed dir (zeroEntryInBlock name)).mono
  · rintro _ t (⟨b, slots, place, shown, frame⟩ | ⟨_, rfl⟩)
    · obtain ⟨_, old, was, changed⟩ := firstChange_some place rfl
      apply removing.frame frame
      rw [shown]
      exact removing.prunes.patch was (zeroEntryInBlock_listing changed)
    · exact removing
  · rintro _ t rfl
    exact removing

include owned in
theorem freeInode_removing (removing : Removing v x count s) (alive : x.live i) (low : 0 < i)
    (mapping : n.mapping = (x.inode i).mapping) :
    Prog.Meets (do freeInodeBlocks v n; Prog.modify fun s => s.freeInodeSlot v i) s
      (fun _ => Removing v x count) fun _ => Removing v x count := by
  apply (freeInodeBlocks_meets removing.closed n).seq
  · rintro _ t ⟨releases, frame⟩
    have quiet := removing.toQuiet.frame frame
    obtain ⟨retires, frame', only⟩ := freeInodeSlot_spec quiet.closed low
    rw [mapping, ← removing.prunes.mapping] at releases
    apply removing.frame (frame.trans frame')
    exact removing.prunes.release owned alive releases retires (only quiet.unreserved)
  · rintro _ t rfl
    exact removing

include owned linked in
theorem removing_rule : RemovalRule v (Removing v x count) (Known x) where
  parent removing _ _ _ _ search := removing.known
    (lookupParent_at (removing.follows linked) linked.1 search) (lookupParent_read search)
  target removing _ _ _ search := removing.known
    (lookupPath_at (removing.follows linked) linked.1 search) (lookupPath_ok search).2
  entry removing _ dir _ name := zeroDirEntry_removing removing dir name
  write {s} removing i n known := by
    obtain ⟨shown, frame⟩ := writeInode_spec known.low n.dropLink
    apply removing.frame frame
    rw [shown]
    exact removing.prunes.writeInode (known.mapping.trans (removing.prunes.mapping i).symm)
      (known.kind.trans (removing.prunes.kind i).symm)
  free removing _ _ known := freeInode_removing owned removing known.alive known.low known.mapping

end

end Ext4.Volume
