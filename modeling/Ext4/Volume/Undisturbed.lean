import Ext4.Volume.OwnedRuns

/-! One file's writes and the other files.
A call that creates or changes a file or a directory leaves every other file with its content, its
size and its block map, and every directory but the parent with its entries, as long as what it
changes is in use. A name whose inode was released makes it write to blocks of others. -/

namespace Ext4.Volume
open Octets Alloc Store List FS

inductive SingleCall where
  | writeFile (path : Path) (data : Bytes) (perm : Nat)
  | makeDir (path : Path) (perm : Nat)
  /-- `OpenFile`, then `WriteAt`. -/
  | writeAt (path : Path) (octets : Bytes) (off : Nat)
  /-- `OpenFile`, then `Truncate`. -/
  | truncate (path : Path) (size : Nat)

section
variable (v : Shape)

def SingleCall.run : SingleCall → Prog FS Err Unit
  | .writeFile path data perm => Volume.writeFile v path data perm
  | .makeDir path perm => Volume.makeDir v path perm
  | .writeAt path octets off => do
      let f ← openFile v path
      let _ ← Volume.writeAt v f octets off
      pure ()
  | .truncate path size => do
      let f ← openFile v path
      let _ ← Volume.truncate v f size
      pure ()

def SingleCall.target (s : FS) : SingleCall → Option Nat
  | .writeFile path _ _ =>
      match s.namedBy v path with
      | .ok (some (i, _)) => some i
      | _ => none
  | .makeDir _ _ => none
  | .writeAt path _ _ | .truncate path _ =>
      match s.lookupPath v (components path) with
      | .ok (i, _) => some i
      | _ => none

def SingleCall.parent (s : FS) : SingleCall → Option Nat
  | .writeFile path _ _ | .makeDir path _ =>
      match s.lookupParent v path with
      | .ok (num, _) => some num
      | _ => none
  | .writeAt _ _ _ | .truncate _ _ => none

/-- What the call changes is in use: the file that is there, or else the directory. -/
def SingleCall.Attached (s : FS) (call : SingleCall) : Prop :=
  ∀ i, (call.target v s).or (call.parent v s) = some i → (view v s.now).live i

/-- The call writes nothing: no octets, or the size that the file has. -/
def SingleCall.Idle (s : FS) : SingleCall → Prop
  | .writeFile _ _ _ | .makeDir _ _ => False
  | .writeAt _ octets _ => octets = []
  | .truncate path size => ∀ i n, s.lookupPath v (components path) = .ok (i, n) → n.size = size

/-- Of the files only the target has changed, of the directories only the parent, and every block
still has its one owner. -/
structure View.Undisturbed (x y : View) (target parent : Option Nat) : Prop where
  inode : ∀ j, x.live j → (x.inode j).kind = .regular → target ≠ some j →
    y.live j ∧ y.inode j = x.inode j
  map : ∀ j, x.live j → (x.inode j).kind = .regular → target ≠ some j →
    y.extentsOf (y.inode j).mapping = x.extentsOf (x.inode j).mapping
  content : ∀ j, x.live j → (x.inode j).kind = .regular → target ≠ some j → ∀ p,
    y.octetAt v (y.extentsOf (y.inode j).mapping) p = x.octetAt v (x.extentsOf (x.inode j).mapping) p
  entries : ∀ j, x.live j → (x.inode j).kind = .dir → parent ≠ some j →
    y.live j ∧ (y.inode j).kind = .dir ∧ y.entries j = x.entries j
  owned : y.Owned

end

variable {v : Shape} {s t : FS} {x y : View} {target parent : Option Nat} {except : List Nat} {path : Path}
  {i : Nat}

theorem View.Spares.undisturbed (spares : x.Spares y except) (owned : y.Owned)
    (files : ∀ j, x.live j → (x.inode j).kind = .regular → target ≠ some j → j ∉ except)
    (dirs : ∀ j, x.live j → (x.inode j).kind = .dir → parent ≠ some j → j ∉ except) :
    x.Undisturbed v y target parent where
  inode j alive regular other :=
    have outside := files j alive regular other
    ⟨spares.live j alive outside, spares.inode j alive outside⟩
  map j alive regular other := spares.extentsOf alive (files j alive regular other)
  content j alive regular other p := by
    have outside := files j alive regular other
    rw [spares.extentsOf alive outside]
    exact View.octetAt_congr (fun b mem =>
      spares.block j alive outside b (mem_append_right _ mem)) p
  entries j alive isDir other := by
    have outside := dirs j alive isDir other
    refine ⟨spares.live j alive outside, ?_, spares.entries alive outside⟩
    rw [spares.inode j alive outside, isDir]
  owned := owned

/-! ## WriteFile and MkDir -/

theorem FS.namedBy_ok {existing : Option (Nat × Inode)} (named : s.namedBy v path = .ok existing) :
    ∃ num dir name, s.lookupParent v path = .ok (num, dir, name) := by
  obtain ⟨⟨num, dir, name⟩, search, _⟩ := Prog.bind_eq_ok.mp named
  exact ⟨num, dir, name, search⟩

/-- What has changed is the directory, and an inode that was not in use or is the target. -/
theorem Gained.undisturbed {num : Nat} {dir : Inode} {name : Name} {new : List Entry}
    (gained : Gained v s t num i new) (closed : s.tx = none)
    (search : s.lookupParent v path = .ok (num, dir, name)) (subject : (view v s.now).live i →
      ((view v s.now).inode i).kind = .regular ∧ target = some i) :
    (view v s.now).Undisturbed v (view v t.now) target (some num) := by
  have isDir : ((view v s.now).inode num).kind = .dir := by
    have read := (readInode_ok (lookupParent_read search)).2.2
    rw [now_of_none s closed, ← read]
    exact (lookupParent_ok search).2.2.1
  apply gained.gains.spares.undisturbed gained.gains.owned
  · intro j alive regular other outside
    rcases mem_cons.mp outside with rfl | same
    · rw [isDir] at regular
      cases regular
    · rw [mem_singleton.mp same] at alive other
      exact other (subject alive).2
  · intro j alive kind other outside
    rcases mem_cons.mp outside with rfl | same
    · exact other rfl
    · rw [mem_singleton.mp same] at alive kind
      rw [(subject alive).1] at kind
      cases kind

theorem Placed.undisturbed {fileType : FileType} (placed : Placed v path fileType s t)
    (closed : s.tx = none)
    (within : ∀ num dir name, s.lookupParent v path = .ok (num, dir, name) → parent = some num) :
    (view v s.now).Undisturbed v (view v t.now) target parent := by
  obtain ⟨num, dir, name, i, new, search, fresh, _, gained, _⟩ := placed
  rw [within num dir name search]
  refine gained.undisturbed closed search fun alive => ?_
  rw [fresh] at alive
  cases alive

/-! ## OpenFile, then WriteAt or Truncate -/

theorem onFile_undisturbed (call : File → Prog FS Err File) (healthy : Healthy v s)
    (attached : ∀ i n, s.lookupPath v (components path) = .ok (i, n) → (view v s.now).live i)
    (addressed : ∀ i n, s.lookupPath v (components path) = .ok (i, n) → target = some i)
    (followed : ∀ f, Backed v s s f.ino f.extents →
      (call f).Meets s (fun f' t => Followed v s s t f f') fun _ => Healthy v) :
    (openFile v path >>= fun f => call f >>= fun _ => pure ()).Meets s
      (fun _ t => (view v s.now).Undisturbed v (view v t.now) target none) fun _ _ => True := by
  refine (openFile_opens path).seq ?_ fun _ _ _ => trivial
  rintro f u ⟨unchanged, n, extents, opens⟩
  subst u
  have sync := opens.inSync healthy.closed (attached f.ino n opens.found)
  refine (followed f (sync.backed healthy)).seq ?_ fun _ _ _ => trivial
  intro f' t after
  have regular : ((view v s.now).inode f.ino).kind = .regular := by
    have read := (readInode_ok (lookupPath_ok opens.found).2).2.2
    rw [now_of_none s healthy.closed, ← read]
    exact opens.regular
  have spares := after.spares
  rw [after.same] at spares
  apply spares.undisturbed after.backs.owned
  · intro j _ _ other same
    rw [mem_singleton.mp same] at other
    exact other (addressed f.ino n opens.found)
  · intro j _ isDir _ same
    rw [mem_singleton.mp same, regular] at isDir
    cases isDir

theorem openFile_still (call : File → Prog FS Err File) (still : ∀ f n extents, Opens v s path n extents f →
      (call f).Meets s (fun _ t => t = s) fun _ _ => True) :
    (openFile v path >>= fun f => call f >>= fun _ => pure ()).Meets s (fun _ t => t = s)
      fun _ _ => True := by
  refine (openFile_opens path).seq ?_ fun _ _ _ => trivial
  rintro f u ⟨rfl, n, extents, opens⟩
  refine (still f n extents opens).seq ?_ fun _ _ _ => trivial
  exact fun _ _ same => same

theorem SingleCall.Idle.unchanged {call : SingleCall} (idle : call.Idle v s) (ran : call.run v s = (.ok (), t)) :
    t = s := by
  cases call with
  | writeFile path data perm => exact idle.elim
  | makeDir path perm => exact idle.elim
  | writeAt path octets off =>
    have none : octets = [] := idle
    refine (openFile_still (fun f => Volume.writeAt v f octets off) fun f n extents _ => ?_).ok ran
    rw [Volume.writeAt, if_pos none]
    exact rfl
  | truncate path size =>
    refine (openFile_still (fun f => Volume.truncate v f size) fun f n extents opens => ?_).ok ran
    rw [Volume.truncate, if_pos ((idle f.ino n opens.found).symm.trans opens.size.symm)]
    exact rfl

/-- A volume with the file `a`, inode 11, and one free block. -/
def besideFile : FS :=
  (writeFile (fmtShape 23) ['/', 'a'] [1, 2, 3] 0o644 (formatted 23 [] true)).2

def strayShape : Shape where
  blocksPerGroup := 256
  inodesPerGroup := 16
  firstDataBlock := 0
  blockSize := 4096
  inodesPerBlock := 16
  descsPerBlock := 128
  descBits := 16
  metadata b := b < 20
  blocksPerGroup_pos := by decide
  inodesPerGroup_pos := Nat.succ_pos 15
  inodesPerBlock_pos := Nat.succ_pos 15

/-- The name `a` still leads to inode 11, which is not in use and maps block 21; the file `c`, inode
12, has that block now. -/
def strayImage : Image
  | .super => ⟨⟨24, 16, 1, 5, []⟩, none⟩
  | .descs _ => fun g => if g = 0 then ⟨1, 5, 1⟩ else ⟨0, 0, 0⟩
  | .bitmap ⟨g, true⟩ => fun bit => decide (g ≠ 0) || decide (bit ≠ 23)
  | .bitmap ⟨g, false⟩ => fun bit =>
      decide (g = 0) && (decide (bit < 10) || decide (bit = 11)) || decide (16 ≤ bit)
  | .itable _ _ => fun j =>
      if j = 1 then ⟨.dir, 0o755, 2, 4096, 8, .inline [⟨0, 20, 1⟩]⟩
      else if j = 10 then ⟨.regular, 0, 1, 1, 8, .inline [⟨0, 21, 1⟩]⟩
      else if j = 11 then ⟨.regular, 0, 1, 4097, 16, .inline [⟨0, 22, 1⟩, ⟨1, 21, 1⟩]⟩
      else .zero
  | .block b =>
      if b = 20 then .slots [⟨2, 12, dot, .dir⟩, ⟨2, 12, dotDot, .dir⟩, ⟨11, 12, ['a'], .regFile⟩,
        ⟨12, 4060, ['c'], .regFile⟩]
      else if b = 21 then .data [7]
      else .data []

def strayName : FS where
  device := ⟨strayImage, [], strayImage, rfl⟩
  journal := true
  tx := none
  reserved _ := []
  cursor := 0
  sb := ⟨24, 16, 1, 5, []⟩

theorem strayName_live (alive : (view strayShape strayName.now).live i) : (0 < i ∧ i ≤ 10) ∨ i = 12 := by
  change (decide (0 < i) && (decide ((i - 1) / 16 = 0) && (decide ((i - 1) % 16 < 10) ||
    decide ((i - 1) % 16 = 11)) || decide (16 ≤ (i - 1) % 16))) = true at alive
  simp only [Bool.and_eq_true, Bool.or_eq_true, decide_eq_true_eq] at alive
  omega

theorem strayName_mapped (alive : (view strayShape strayName.now).live i) :
    (view strayShape strayName.now).mapped i = if i = 2 then [20] else if i = 12 then [22, 21] else [] := by
  have first : ∀ i ∈ range' 1 10, (view strayShape strayName.now).mapped i =
      if i = 2 then [20] else [] := by decide
  rcases strayName_live alive with ⟨low, high⟩ | rfl
  · rw [first i (mem_range'_1.mpr ⟨low, by omega⟩), if_neg (by omega : i ≠ 12)]
  · decide

theorem strayName_healthy : Healthy strayShape strayName := by
  refine ⟨⟨rfl, fun _ => rfl⟩, ?_, ?_, ?_⟩
  · intro i alive b mem
    rw [strayName_mapped alive] at mem
    have number : b = 20 ∨ b = 22 ∨ b = 21 := by
      split at mem
      · simp_all
      · split at mem <;> simp_all
    rcases number with rfl | rfl | rfl <;> decide
  · intro i alive
    rw [strayName_mapped alive]
    split
    · decide
    · split <;> decide
  · intro i j alive alive' different
    rw [strayName_mapped alive, strayName_mapped alive']
    intro b mem mem'
    split at mem <;> split at mem' <;> simp_all

end Ext4.Volume
