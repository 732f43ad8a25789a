import Ext4.Volume.Creation

/-! What a call leaves alone.
A call changes the inodes that it is about. Every other live inode keeps its record and what is in
its blocks, and with them its extents and its entries; so a path that led to an inode before leads
to the same inode afterwards. -/

namespace Ext4.Volume
open Octets Alloc Store List Function FS

/-- Every live inode but the ones in the list stays as it is, with all its blocks. -/
structure View.Spares (x y : View) (except : List Nat) : Prop where
  live : ∀ j, x.live j → j ∉ except → y.live j
  inode : ∀ j, x.live j → j ∉ except → y.inode j = x.inode j
  block : ∀ j, x.live j → j ∉ except → ∀ b ∈ x.mapped j, y.block b = x.block b

variable {v : Shape} {s t : FS} {x y z : View} {i j b : Nat} {except : List Nat} {m : Mapping}

theorem View.Spares.refl (x : View) (except : List Nat) : x.Spares x except :=
  ⟨fun _ alive _ => alive, fun _ _ _ => rfl, fun _ _ _ _ _ => rfl⟩

theorem View.Spares.mapped (spares : x.Spares y except) (alive : x.live j)
    (other : j ∉ except) : y.mapped j = x.mapped j := by
  rw [View.mapped, spares.inode j alive other]
  exact View.mappedBy_congr fun c leaf =>
    spares.block j alive other c (x.child_subset_mappedBy _ leaf)

theorem View.Spares.trans (first : x.Spares y except) (second : y.Spares z except) : x.Spares z except where
  live j alive other := second.live j (first.live j alive other) other
  inode j alive other :=
    (second.inode j (first.live j alive other) other).trans (first.inode j alive other)
  block j alive other b mem := by
    have later := second.block j (first.live j alive other) other b
    rw [first.mapped alive other] at later
    exact (later mem).trans (first.block j alive other b mem)

theorem View.Spares.extentsOf (spares : x.Spares y except) (alive : x.live j) (other : j ∉ except) :
    y.extentsOf (y.inode j).mapping = x.extentsOf (x.inode j).mapping := by
  rw [spares.inode j alive other]
  exact View.extentsOf_congr fun c leaf =>
    spares.block j alive other c (x.child_subset_mappedBy _ leaf)

theorem View.records_congr (same : ∀ b ∈ x.mappedBy m, y.block b = x.block b) :
    y.records m = x.records m := by
  have extents := View.extentsOf_congr fun c mem => same c (x.child_subset_mappedBy m mem)
  rw [View.records, View.records, extents]
  exact flatMap_congr fun c mem => by rw [same c (mem_append_right _ mem)]

theorem View.entries_congr (mapping : (y.inode i).mapping = (x.inode i).mapping)
    (same : ∀ b ∈ x.mapped i, y.block b = x.block b) : y.entries i = x.entries i := by
  rw [View.entries, View.entries, mapping, View.records_congr same]

theorem View.Spares.entries (spares : x.Spares y except) (alive : x.live j)
    (other : j ∉ except) : y.entries j = x.entries j :=
  View.entries_congr (by rw [spares.inode j alive other]) (spares.block j alive other)

/-! ## The changes that spare inodes -/

theorem View.Leaks.spares (leaks : x.Leaks y) (owned : x.Owned) (except : List Nat) : x.Spares y except where
  live j alive _ := by rwa [leaks.live]
  inode j _ _ := by rw [leaks.inode]
  block j alive _ b mem := leaks.block b (owned.used j alive b mem)

theorem View.Releases.spares {blocks : List Nat} (releases : x.Releases y blocks)
    (except : List Nat) : x.Spares y except where
  live j alive _ := by rwa [releases.live]
  inode j _ _ := by rw [releases.inode]
  block j _ _ b _ := by rw [releases.block]

theorem View.Admits.spares (admits : x.Admits y i) (owned : x.Owned) (except : List Nat) :
    x.Spares y except where
  live j alive _ := admits.kept j alive
  inode j alive _ := by
    apply admits.inode
    rintro rfl
    rw [admits.fresh] at alive
    cases alive
  block j alive _ b mem := admits.block b (owned.used j alive b mem)

theorem View.spares_writeInode (x : View) (n : Inode) (among : i ∈ except) :
    x.Spares { x with inode := update x.inode i n } except where
  live _ alive _ := alive
  inode j _ other := by
    apply update_of_ne
    rintro rfl
    exact other among
  block _ _ _ _ _ := rfl

theorem View.spares_writeBlock (content : Block) (own : ∀ j, x.live j → j ∉ except → b ∉ x.mapped j) :
    x.Spares { x with block := update x.block b content } except where
  live _ alive _ := alive
  inode _ _ _ := rfl
  block j alive other c mem := by
    apply update_of_ne
    rintro rfl
    exact own j alive other mem

theorem View.Owned.spares_writeBlock (owned : x.Owned) (alive : x.live i) (mem : b ∈ x.mapped i)
    (among : i ∈ except) (content : Block) :
    x.Spares { x with block := update x.block b content } except := by
  refine View.spares_writeBlock content fun j alive' other mapped => ?_
  have different : j ≠ i := fun same => other (same ▸ among)
  exact owned.apart j i alive' alive different mapped mem

/-! ## Where paths lead -/

/-- From `s` to `t` only the regular file `ino` has changed. -/
structure OnlyFile (v : Shape) (s t : FS) (ino : Nat) : Prop where
  inodes : t.sb.inodesCount = s.sb.inodesCount
  blocks : t.sb.blocksCount = s.sb.blocksCount
  spares : (view v s.image).Spares (view v t.image) [ino]
  before : ((view v s.image).inode ino).kind = .regular
  after : ((view v t.image).inode ino).kind = .regular

section
variable {ino : Nat}

section
variable (blocks : t.sb.blocksCount = s.sb.blocksCount)
  (same : ∀ c ∈ m.child, t.image (.block c) = s.image (.block c))
include blocks same

theorem FS.parseExtents_congr :
    t.parseExtents m = s.parseExtents m := by
  cases m with
  | index child =>
    rw [parseExtents, parseExtents, blocks, same child (mem_singleton_self child)]
  | none | target _ | inline _ => rfl

theorem FS.readExtents_congr : t.readExtents m = s.readExtents m := by
  cases m with
  | none => rfl
  | index _ | target _ | inline _ => exact parseExtents_congr blocks same

end

theorem FS.readDir_congr {dir : Inode} (blocks : t.sb.blocksCount = s.sb.blocksCount)
    (same : ∀ b ∈ (view v s.image).mappedBy dir.mapping, t.image (.block b) = s.image (.block b)) :
    t.readDir dir = s.readDir dir := by
  have extents := readExtents_congr blocks fun c leaf =>
    same c (View.child_subset_mappedBy _ _ leaf)
  unfold readDir
  rw [extents]
  cases read : s.readExtents dir.mapping with
  | error e => rfl
  | ok runs =>
    have listed := readExtents_ok (v := v) read
    refine congrArg Except.ok (flatMap_congr fun b mem => ?_)
    rw [same b (mem_append_right _ (listed ▸ mem))]

variable {n : Inode}

theorem FS.readSymlink_congr (blocks : t.sb.blocksCount = s.sb.blocksCount)
    (same : ∀ b ∈ (view v s.image).mappedBy n.mapping, t.image (.block b) = s.image (.block b)) :
    t.readSymlink n = s.readSymlink n := by
  have extents := parseExtents_congr blocks fun c leaf =>
    same c (View.child_subset_mappedBy _ _ leaf)
  unfold readSymlink
  split
  · rfl
  · rw [extents]
    cases read : s.parseExtents n.mapping with
    | error e => rfl
    | ok runs =>
      have listed := (parseExtents_ok (v := v) read).1
      have first : (blocksOf runs).head?.map (fun b => t.image (.block b)) =
          (blocksOf runs).head?.map fun b => s.image (.block b) := by
        refine Option.map_congr fun b mem => ?_
        exact same b (mem_append_right _ (listed ▸ mem_of_mem_head? mem))
      simp only [bind, Except.bind, first]

variable (only : OnlyFile v s t ino)
include only

variable {j : Nat}

theorem OnlyFile.image (alive : (view v s.image).live j) (other : j ≠ ino)
    (mem : b ∈ (view v s.image).mappedBy ((view v s.image).inode j).mapping) :
    t.image (.block b) = s.image (.block b) :=
  only.spares.block j alive (fun same => other (mem_singleton.mp same)) b mem

theorem OnlyFile.readInode (read : s.readInode v j = .ok n) :
    t.readInode v j = .ok ((view v t.image).inode j) := by
  obtain ⟨low, high, _⟩ := readInode_ok read
  rw [FS.readInode, if_neg (by rw [only.inodes]; omega)]
  rfl

theorem OnlyFile.inode (alive : (view v s.image).live j) (other : j ≠ ino) :
    (view v t.image).inode j = (view v s.image).inode j :=
  only.spares.inode j alive fun same => other (mem_singleton.mp same)

variable {i dir : Nat} {name : Name}

theorem OnlyFile.entryIn (alive : (view v s.image).live dir) (found : s.entryIn v dir name = .ok (i, n)) :
    t.entryIn v dir name = .ok (i, (view v t.image).inode i) := by
  obtain ⟨isDir, _, readChild, _⟩ := entryIn_ok found
  have other : dir ≠ ino := by
    rintro rfl
    rw [only.before] at isDir
    cases isDir
  obtain ⟨cur, readCur, found⟩ := Prog.bind_eq_ok.mp found
  obtain ⟨_, _, rfl⟩ := readInode_ok readCur
  have readCur' := only.readInode readCur
  rw [only.inode alive other] at readCur'
  unfold FS.entryIn
  simp only [readCur', bind, Except.bind, isDir, ne_eq, not_true_eq_false, if_false]
  rw [readDir_congr only.blocks fun b mem => only.image alive other mem]
  simp only [isDir, ne_eq, not_true_eq_false, if_false] at found
  obtain ⟨entries, readEntries, found⟩ := Prog.bind_eq_ok.mp found
  simp only [readEntries]
  split at found
  · cases found
  next e search =>
    obtain ⟨child, readChild', same⟩ := Prog.bind_eq_ok.mp found
    cases same
    simp only [only.readInode readChild', pure, Except.pure]

variable (linked : (view v s.image).Linked s.sb.inodesCount)
include linked

omit only in
theorem entry_alive (alive : (view v s.image).live dir)
    (found : s.entryIn v dir name = .ok (i, n)) : (view v s.image).live i := by
  obtain ⟨isDir, high, _, e, search, rfl⟩ := entryIn_ok found
  exact linked.2 dir (mem_range.mpr (Nat.lt_succ_of_le high)) alive isDir e
    (mem_of_find?_eq_some search)

variable {cur : Nat} {names : List Name}

theorem OnlyFile.walk_step {rest : List Name} {next next' : Nat → Walk}
    (alive : (view v s.image).live cur)
    (later : ∀ i, (view v s.image).live i → (∀ e, next i ≠ .failed e) → next' i = next i)
    (arrives : ∀ e, walk.step v s cur name rest next ≠ .failed e) :
    walk.step v t cur name rest next' = walk.step v s cur name rest next := by
  unfold walk.step at arrives ⊢
  cases found : s.entryIn v cur name with
  | error e =>
    rw [found] at arrives
    exact absurd rfl (arrives e)
  | ok child =>
    obtain ⟨i, n⟩ := child
    have there := entry_alive linked alive found
    obtain ⟨_, _, read⟩ := readInode_ok (entryIn_ok found).2.2.1
    rw [found] at arrives
    rw [only.entryIn alive found]
    subst read
    dsimp only at arrives ⊢
    by_cases here : i = ino
    · -- The file itself is no symlink, before and after.
      subst here
      simp only [only.before, only.after, reduceCtorEq, if_false] at arrives ⊢
      split
      · rfl
      next more =>
        rw [if_neg more] at arrives
        exact later i there arrives
    · rw [only.inode there here]
      split
      next isLink =>
        rw [readSymlink_congr only.blocks fun b mem => only.image there here mem]
      next noLink =>
        rw [if_neg noLink] at arrives
        split
        · rfl
        next more =>
          rw [if_neg more] at arrives
          exact later i there arrives

theorem OnlyFile.walk (names : List Name) (alive : (view v s.image).live cur)
    (arrives : ∀ e, s.walk v cur names ≠ .failed e) : t.walk v cur names = s.walk v cur names := by
  fun_induction FS.walk v s cur names with
  | case1 | case2 | case3 => simp only [FS.walk]
  | case4 cur name rest other ih =>
    rw [FS.walk]
    · exact only.walk_step linked alive (fun i there => ih i there) arrives
    · exact other
  | case5 cur name rest _ _ _ ih =>
    rw [FS.walk]
    · exact only.walk_step linked alive (fun i there => ih i there) arrives
    all_goals assumption

theorem OnlyFile.lookupFrom {hops : Nat} (alive : (view v s.image).live cur)
    (found : s.lookupFrom v hops cur names = .ok i) : t.lookupFrom v hops cur names = .ok i := by
  have follows : ∀ dir name j n, (view v s.image).live dir →
      s.entryIn v dir name = .ok (j, n) → (view v s.image).live j :=
    fun _ _ _ _ here entry => entry_alive linked here entry
  induction hops generalizing cur names with
  | zero =>
    unfold lookupFrom at found ⊢
    cases walked : s.walk v cur names with
    | found j =>
      rw [walked] at found
      rw [only.walk linked names alive (by simp [walked]), walked]
      exact found
    | failed e | link dir target rest =>
      rw [walked] at found
      cases found
  | succ left ih =>
    unfold lookupFrom at found ⊢
    cases walked : s.walk v cur names with
    | found j =>
      rw [walked] at found
      rw [only.walk linked names alive (by simp [walked]), walked]
      exact found
    | failed e =>
      rw [walked] at found
      cases found
    | link dir target rest =>
      have at_ := walk_at follows names alive
      rw [walked] at found at_
      rw [only.walk linked names alive (by simp [walked]), walked]
      refine ih ?_ found
      split
      · exact linked.1
      · exact at_

theorem OnlyFile.lookupPath (found : s.lookupPath v names = .ok (i, n)) :
    t.lookupPath v names = .ok (i, (view v t.image).inode i) := by
  obtain ⟨search, read⟩ := lookupPath_ok found
  unfold FS.lookupPath
  simp only [only.lookupFrom linked linked.1 search, only.readInode read, bind, Except.bind, pure,
    Except.pure]

end

end Ext4.Volume
