import Ext4.Volume.Tree
import Ext4.Volume.Room

/-! What the operations take from the counters of the superblock in memory.
Every allocation subtracts at once what it takes; nothing is added back when a later step of the
same operation fails. Reading never runs out of anything. -/

namespace Ext4.Volume
open Octets Alloc Store FS

def Err.exhausted : Err → Bool
  | .noFreeBlocks | .noFreeInodes | .tooManyExtents => true
  | _ => false

def Err.benign (e : Err) : Bool := !e.exhausted && e != .noFuel

variable {v : Shape} {s t u : FS} {inTx : Bool} {n j k low high j' low' high' : Nat}

/-! ## Reading -/

def Benign {α : Type} (outcome : Except Err α) : Prop := ∀ e, outcome = .error e → e.benign

section
variable {α β : Type}

theorem Benign.ok (a : α) : Benign (.ok a) := fun _ failed => by cases failed

theorem Benign.error {e : Err} (other : e.benign) : Benign (.error e : Except Err α) :=
  fun _ same => by
    cases same
    exact other

theorem Benign.bind {prog : Except Err α} {next : α → Except Err β} (first : Benign prog)
    (later : ∀ a, Benign (next a)) : Benign (prog >>= next) := by
  cases prog with
  | ok a => exact later a
  | error e => exact Benign.error (first e rfl)

end

theorem FS.readInode_benign (i : Nat) : Benign (s.readInode v i) := by
  unfold readInode
  split
  · exact Benign.error rfl
  · exact Benign.ok _

theorem validateExtents_benign (extents : List Extent) : Benign (validateExtents extents) := by
  unfold validateExtents
  split
  · exact Benign.ok _
  · exact Benign.error rfl

theorem FS.parseExtents_benign (m : Mapping) : Benign (s.parseExtents m) := by
  cases m with
  | none | target _ => exact Benign.error rfl
  | inline extents => exact validateExtents_benign extents
  | index child =>
    unfold parseExtents
    dsimp only
    split
    · exact Benign.error rfl
    · split
      · exact validateExtents_benign _
      · exact Benign.error rfl

theorem FS.readDir_benign (dir : Inode) : Benign (s.readDir dir) := by
  unfold readDir readExtents
  refine Benign.bind ?_ fun _ => Benign.ok _
  split
  · exact Benign.ok _
  · exact parseExtents_benign _

theorem FS.findEntry_benign (dir : Inode) (name : Name) : Benign (s.findEntry v dir name) := by
  refine (readDir_benign dir).bind fun entries => ?_
  split
  · exact Benign.ok _
  · exact (readInode_benign _).bind fun _ => Benign.ok _

theorem FS.entryIn_benign (dir : Nat) (name : Name) : Benign (s.entryIn v dir name) := by
  refine (readInode_benign dir).bind fun cur => ?_
  split
  · exact Benign.error rfl
  · refine (readDir_benign _).bind fun entries => ?_
    split
    · exact Benign.error rfl
    · exact (readInode_benign _).bind fun _ => Benign.ok _

theorem FS.readSymlink_benign (x : Inode) : Benign (s.readSymlink x) := by
  unfold readSymlink
  split
  · exact Benign.ok _
  · refine (parseExtents_benign _).bind fun extents => ?_
    split
    · exact Benign.ok _
    · exact Benign.error rfl

theorem FS.walk_step_benign (cur : Nat) (name : Name) (rest : List Name) (next : Nat → Walk)
    (later : ∀ i e, next i = .failed e → e.benign) (e : Err)
    (failed : walk.step v s cur name rest next = .failed e) : e.benign := by
  unfold walk.step at failed
  split at failed
  next e' missing =>
    cases failed
    exact entryIn_benign cur name e missing
  next i child found =>
    split at failed
    · split at failed
      next e' unread =>
        cases failed
        exact readSymlink_benign child e unread
      · cases failed
    · split at failed
      · cases failed
      · exact later i e failed

theorem FS.walk_benign (cur : Nat) (names : List Name) :
    ∀ e, s.walk v cur names = .failed e → e.benign := by
  fun_induction walk v s cur names with
  | case1 | case2 | case3 => simp
  | case4 cur name rest _ ih => exact walk_step_benign cur name rest _ ih
  | case5 cur name rest _ _ _ ih => exact walk_step_benign cur name rest _ ih

theorem FS.lookupFrom_benign (hops cur : Nat) (names : List Name) :
    Benign (s.lookupFrom v hops cur names) := by
  induction hops generalizing cur names with
  | zero =>
    unfold lookupFrom
    split
    · exact Benign.ok _
    next e failed => exact Benign.error (walk_benign _ _ e failed)
    · exact Benign.error rfl
  | succ left ih =>
    unfold lookupFrom
    split
    · exact Benign.ok _
    next e failed => exact Benign.error (walk_benign _ _ e failed)
    · exact ih _ _

theorem FS.lookupPath_benign (names : List Name) : Benign (s.lookupPath v names) :=
  (lookupFrom_benign _ _ _).bind fun _ => (readInode_benign _).bind fun _ => Benign.ok _

theorem FS.lookupParent_benign (path : Path) : Benign (s.lookupParent v path) := by
  unfold lookupParent
  dsimp only
  split
  · exact Benign.error rfl
  split
  · exact Benign.error rfl
  split
  · refine (readInode_benign _).bind fun x => (Benign.ok _).bind fun found => ?_
    split
    · exact Benign.error rfl
    · exact Benign.ok _
  · refine (lookupPath_benign _).bind fun found => ?_
    split
    · exact Benign.error rfl
    · exact Benign.ok _

/-! ## The counters -/

/-- Between the states `blocks` blocks and `inodes` inodes were subtracted from the counters. -/
structure Spent (s t : FS) (blocks inodes : Nat) : Prop where
  blocks : (t.sb.freeBlocks + blocks) % 2 ^ 64 = s.sb.freeBlocks % 2 ^ 64
  inodes : (t.sb.freeInodes + inodes) % 2 ^ 32 = s.sb.freeInodes % 2 ^ 32

theorem Spent.of_sb (same : t.sb = s.sb) : Spent s t 0 0 := by
  constructor <;> rw [same, Nat.add_zero]

theorem Spent.trans {k' : Nat} (first : Spent s t k j) (second : Spent t u k' j') :
    Spent s u (k + k') (j + j') := by
  constructor
  · have := first.blocks
    have := second.blocks
    omega
  · have := first.inodes
    have := second.inodes
    omega

theorem Spent.of_eq (spent : Spent s t k j) (same : u.sb = t.sb) : Spent s u k j :=
  spent.trans (Spent.of_sb same)

theorem Spent.blocks_ne (spent : Spent s t k j) (some : 0 < k) (narrow : k < 2 ^ 64) :
    t.sb.freeBlocks ≠ s.sb.freeBlocks := by
  intro same
  have := spent.blocks
  omega

theorem Spent.inodes_ne (spent : Spent s t k j) (some : 0 < j) (narrow : j < 2 ^ 32) :
    t.sb.freeInodes ≠ s.sb.freeInodes := by
  intro same
  have := spent.inodes
  omega

@[simp] theorem FS.write_sb (write : Write Content) : (s.write inTx write).sb = s.sb := by
  cases inTx with
  | true => exact s.put_sb write
  | false => rfl

@[simp] theorem FS.writeSuper_sb : (s.writeSuper inTx).sb = s.sb := write_sb _

@[simp] theorem FS.writeDesc_sb (g : Nat) (change : Desc → Desc) :
    (s.writeDesc v inTx g change).sb = s.sb := write_sb _

@[simp] theorem FS.writeStray_sb : (s.writeStray v).sb = s.sb := by
  unfold writeStray
  split
  · exact writeSuper_sb
  · exact s.put_sb _

@[simp] theorem FS.writeBlock_sb (b : Nat) (content : Block) : (s.writeBlock b content).sb = s.sb :=
  s.put_sb _

@[simp] theorem FS.writeInode_sb (i : Nat) (x : Inode) : (s.writeInode v i x).sb = s.sb := s.put_sb _

theorem FS.takeBlocks_sb (g : Nat) (bits : List Nat) : (s.takeBlocks v inTx g bits).sb =
    { s.sb with freeBlocks := minus 64 bits.length s.sb.freeBlocks } := by
  cases inTx with
  | true => simp [takeBlocks, recount, reserve]
  | false => simp [takeBlocks, recount, reserve, unreserve]

theorem FS.takeInode_sb (g bit : Nat) (isDir : Bool) : (s.takeInode v inTx g bit isDir).sb =
    { s.sb with freeInodes := minus 32 1 s.sb.freeInodes } := by
  cases inTx with
  | true => simp [takeInode, recount, reserve]
  | false => simp [takeInode, recount, reserve, unreserve]

/-! ## Allocations -/

def FS.HasInode (v : Shape) (s : FS) : Prop :=
  ∃ g < s.groups v, (descAt v s.image g).freeInodes ≠ 0 ∧
    ∃ bit < v.inodesPerGroup, s.visible ⟨g, false⟩ bit = false

theorem allocInode_outcome (isDir : Bool) : (allocInode v inTx isDir).Meets s (fun _ _ => s.HasInode v)
      fun _ t => ¬ s.HasInode v ∧ t = s.advanceCursor := by
  refine allocInode_rule (fun chosen => ⟨?_, rfl⟩) fun g bit chosen => ?_
  · rintro ⟨g, inRange, counted, bit, inGroup, clear⟩
    have missed := List.findSome?_eq_none_iff.mp chosen g (mem_order_of_lt inRange)
    have counted' : ¬ (descAt v s.advanceCursor.image g).freeInodes = 0 := counted
    have clear' : s.advanceCursor.visible ⟨g, false⟩ bit = false := clear
    have found := findFreeBit_isSome inGroup clear'
    rw [if_neg counted', Option.map_eq_none_iff] at missed
    rw [missed] at found
    cases found
  · obtain ⟨inRange, clear, inGroup⟩ := chooseInode_spec chosen
    obtain ⟨h, _, found⟩ := List.exists_of_findSome?_eq_some chosen
    split at found
    · cases found
    next counted =>
      obtain ⟨_, _, same⟩ := Option.map_eq_some_iff.mp found
      cases same
      exact ⟨g, inRange, counted, bit, inGroup, clear⟩

theorem allocBlocks_spent (narrow : v.blocksPerGroup < 2 ^ 32) :
    (allocBlocks v inTx n).Meets s (fun _ t => Spent s t n 0 ∧ n < 2 ^ 32) fun _ t => Spent s t 0 0 := by
  refine allocBlocks_rule (fun _ => Spent.of_sb rfl) fun g bits chosen => ?_
  obtain ⟨_, long, _, _⟩ := chooseBlocks_spec chosen
  have fits := chooseBlocks_le chosen
  refine ⟨⟨?_, ?_⟩, by omega⟩
  · rw [takeBlocks_sb, long]
    change (minus 64 n s.sb.freeBlocks + n) % 2 ^ 64 = _
    unfold minus
    omega
  · rw [takeBlocks_sb]
    rfl

theorem allocInode_spent (isDir : Bool) :
    (allocInode v inTx isDir).Meets s (fun _ t => Spent s t 0 1) fun _ t => Spent s t 0 0 := by
  refine allocInode_rule (fun _ => Spent.of_sb rfl) fun g bit _ => ?_
  refine ⟨?_, ?_⟩
  · rw [takeInode_sb]
    rfl
  · rw [takeInode_sb]
    change (minus 32 1 s.sb.freeInodes + 1) % 2 ^ 32 = _
    unfold minus
    omega

/-! ## The building blocks -/

/-- At least `low` and at most `high` blocks were spent, and this number of inodes. -/
def Spends (low high inodes : Nat) (s t : FS) : Prop :=
  ∃ k, low ≤ k ∧ k ≤ high ∧ Spent s t k inodes

theorem Spends.exactly (spent : Spent s t k j) : Spends k k j s t :=
  ⟨k, Nat.le_refl k, Nat.le_refl k, spent⟩

theorem Spends.none (same : t.sb = s.sb) : Spends 0 0 0 s t := .exactly (.of_sb same)

theorem Spends.trans (first : Spends low high j s t)
    (second : Spends low' high' j' t u) : Spends (low + low') (high + high') (j + j') s u := by
  obtain ⟨k, atLeast, atMost, spent⟩ := first
  obtain ⟨k', atLeast', atMost', spent'⟩ := second
  exact ⟨k + k', Nat.add_le_add atLeast atLeast', Nat.add_le_add atMost atMost', spent.trans spent'⟩

theorem Spends.widen (spends : Spends low high j s t) (less : low' ≤ low)
    (more : high ≤ high') : Spends low' high' j s t := by
  obtain ⟨k, atLeast, atMost, spent⟩ := spends
  exact ⟨k, Nat.le_trans less atLeast, Nat.le_trans atMost more, spent⟩

theorem Spends.of_eq (spends : Spends low high j s t) (same : u.sb = t.sb) : Spends low high j s u := by
  obtain ⟨k, atLeast, atMost, spent⟩ := spends
  exact ⟨k, atLeast, atMost, spent.of_eq same⟩

theorem Began.spends (began : Began inTx s u) (spends : Spends low high j u t) : Spends low high j s t := by
  have same : u.sb = s.sb := by
    subst began
    cases inTx <;> rfl
  obtain ⟨k, atLeast, atMost, blocks, inodes⟩ := spends
  rw [same] at blocks inodes
  exact ⟨k, atLeast, atMost, blocks, inodes⟩

@[simp] theorem undo_sb (held : Cleanup) : (undo inTx held s).sb = s.sb := by
  cases inTx with
  | true => simp [undo, abort]
  | false => rfl

@[simp] theorem finish_sb (held : Cleanup) : (finish inTx held s).sb = s.sb := by
  cases inTx with
  | true => simp [finish]
  | false => rfl

section
variable (narrow : v.blocksPerGroup < 2 ^ 32)
include narrow

theorem allocBlocksAlone_spends : (allocBlocksAlone v n).Meets s
    (fun _ t => Spends n n 0 s t) fun _ t => Spends 0 0 0 s t := by
  refine meets_alone (allocBlocks v · n) id fun u began => (allocBlocks_spent narrow).mono ?_ ?_
  · exact fun r _ spent => (began.spends (.exactly spent.1)).of_eq (finish_sb r.2)
  · exact fun _ _ spent => (began.spends (.exactly spent)).of_eq (undo_sb [])

theorem writeLeaf_spends (extents : List Extent) : (writeLeaf v inTx extents).Meets s
    (fun _ t => Spends 1 1 0 s t) fun _ t => Spends 0 0 0 s t := by
  refine (allocBlocks_spent narrow).seq ?_ fun _ _ spent => .exactly spent
  rintro ⟨blocks, held⟩ t ⟨spent, _⟩
  simp only [meets_bind, meets_modify, meets_pure]
  exact Spends.of_eq (.exactly spent) (by simp)

theorem prepareExtentChild_spends (extents : List Extent) : (prepareExtentChild v extents).Meets s
    (fun _ t => Spends 1 1 0 s t) fun _ t => Spends 0 0 0 s t := by
  refine prepareExtentChild_rule (fun _ => .none rfl) (fun _ => writeLeaf_spends narrow extents)
    fun _ u began => (writeLeaf_spends narrow extents).mono ?_ ?_
  · exact fun r _ spends => (began.spends spends).of_eq (finish_sb r.2)
  · exact fun _ _ spends => (began.spends spends).of_eq (undo_sb [])

theorem layExtents_spends (extents : List Extent) : (layExtents v extents).Meets s
    (fun _ t => Spends 0 1 0 s t) fun _ t => Spends 0 0 0 s t := by
  unfold layExtents
  split
  · exact Spends.widen (.none rfl) (Nat.le_refl 0) (Nat.zero_le 1)
  · refine (prepareExtentChild_spends narrow extents).step ?_
    exact fun _ _ spends => spends.widen (Nat.zero_le 1) (Nat.le_refl 1)

theorem growBlocks_spends : (growBlocks v inTx).Meets s
    (fun _ t => Spends 1 1 0 s t) fun _ t => Spends 0 0 0 s t := by
  cases inTx with
  | true =>
    exact (allocBlocks_spent narrow).mono (fun _ _ spent => .exactly spent.1)
      fun _ _ spent => .exactly spent
  | false =>
    exact (allocBlocksAlone_spends narrow).step fun _ _ spends => spends

theorem addDirEntry_spends (num : Nat) (dir : Inode) (ino : Nat) (name : Name)
    (fileType : FileType) : (addDirEntry v inTx num dir ino name fileType).Meets s
    (fun _ t => Spends 0 2 0 s t) fun _ t => Spends 0 1 0 s t := by
  refine .look (fun extents _ => ?_) fun _ _ => Spends.widen (.none rfl) (Nat.le_refl 0) (Nat.zero_le 1)
  rw [meets_bind, meets_read]
  split
  · exact Spends.widen (.none (by simp)) (Nat.le_refl 0) (Nat.zero_le 2)
  · refine (growBlocks_spends narrow).seq ?_ fun _ _ spends =>
      spends.widen (Nat.le_refl 0) (Nat.zero_le 1)
    rintro ⟨blocks, held⟩ t spends
    rw [meets_bind, meets_modify]
    have written := spends.of_eq (writeBlock_sb (blocks.headD 0)
      (.slots [newSlot ino (v.blockSize - 12) name fileType]))
    refine (layExtents_spends narrow _).seq ?_ fun _ _ failed => (written.trans failed).widen
      (Nat.zero_le _) (Nat.le_refl 1)
    rintro ⟨m, heldLeaf⟩ u laid
    simp only [meets_bind, meets_modify, meets_pure]
    exact ((written.trans laid).of_eq (by simp)).widen (Nat.zero_le _) (Nat.le_refl 2)

end

end Ext4.Volume
