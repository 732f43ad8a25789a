import Ext4.Volume.NewNames

/-! Names, from the call that makes one to the listing.
An octet holds the length of a name, so every call that creates a name keeps it whole up to 255
octets. A longer one is accepted all the same, and the directory lists it cut short or not at all. -/

namespace Ext4.Volume
open Octets Alloc Store List FS

variable {v : Shape} {s t : FS} {i num : Nat} {name : Name} {fileType : FileType}

/-! ## Listing and finding -/

/-- `ListDir`, from the inode of the directory on: the entries for itself and its parent are left
out. -/
def FS.listDir (v : Shape) (s : FS) (num : Nat) : Except Err (List Entry) := do
  let dir ← s.readInode v num
  if dir.kind ≠ .dir then throw .notDir
  let entries ← s.readDir dir
  return entries.filter fun e => e.name ≠ dot ∧ e.name ≠ dotDot

/-- The directory `num` lists the name, and looking it up there ends at inode `i`. -/
structure Found (v : Shape) (s : FS) (num : Nat) (name : Name) (i : Nat) : Prop where
  listed : ∃ entries, s.listDir v num = .ok entries ∧ name ∈ entries.map Entry.name
  found : s.entryIn v num name = .ok (i, (view v s.now).inode i)

section
variable (closed : s.tx = none) (low : num ≤ s.sb.inodesCount)
include closed low

theorem FS.readInode_now (positive : 0 < num) : s.readInode v num = .ok ((view v s.now).inode num) := by
  rw [readInode, if_neg (by omega), now_of_none s closed]
  rfl

theorem View.Parent.listDir (parent : (view v s.now).Parent s.sb.blocksCount num)
    (isDir : ((view v s.now).inode num).kind = .dir) : s.listDir v num =
      .ok (((view v s.now).entries num).filter fun e => e.name ≠ dot ∧ e.name ≠ dotDot) := by
  have read := readInode_now (v := v) closed low (live_pos parent.alive)
  have listed := parent.readable.readDir closed
  simp only [FS.listDir, read, isDir, ne_eq, not_true_eq_false, if_false, bind, Except.bind, listed, pure,
    Except.pure]
  rfl

theorem View.Shows.found {new : List Entry} (shows : (view v s.now).Shows s.sb.blocksCount num name new)
    (recorded : Recorded i name fileType new) (fit : Fit i name) (inRange : i ≤ s.sb.inodesCount)
    (plain : name ≠ dot ∧ name ≠ dotDot) : Found v s num name i := by
  rw [recorded.eq fit] at shows
  have mem := (shows.named ⟨i, name, fileType⟩ rfl).mpr (mem_singleton_self _)
  constructor
  case listed =>
    refine ⟨_, shows.toParent.listDir closed low shows.isDir, ?_⟩
    exact mem_map.mpr ⟨_, mem_filter.mpr ⟨mem, by simpa using plain⟩, rfl⟩
  case found =>
    have read := readInode_now (v := v) closed low (live_pos shows.alive)
    have listed := shows.readable.readDir closed
    have child := readInode_now (v := v) closed inRange (Nat.pos_of_ne_zero fit.taken)
    -- There is one entry of that name, so it is the first.
    have first : ((view v s.now).entries num).find? (fun e => e.name = name) = some ⟨i, name, fileType⟩ := by
      cases search : ((view v s.now).entries num).find? fun e => e.name = name with
      | none => simpa using find?_eq_none.mp search _ mem
      | some e =>
        have called : e.name = name := by simpa using find?_some search
        have only := (shows.named e called).mp (mem_of_find?_eq_some search)
        rw [mem_singleton.mp only]
    simp only [entryIn, read, shows.isDir, ne_eq, not_true_eq_false, if_false, bind, Except.bind, listed]
    rw [View.entries] at first
    simp only [first, child]
    rfl

omit low in
theorem not_found (absent : ∀ e ∈ (view v s.now).entries num, e.name ≠ name) : ¬ Found v s num name i := by
  intro found
  obtain ⟨_, _, _, e, search, _⟩ := entryIn_ok found.found
  rw [← now_of_none s closed] at search
  exact absent e (mem_of_find?_eq_some search) (by simpa using find?_some search)

end

/-! ## Round trips -/

inductive NameCall where
  | create (call : Create)
  | rename (fuel : Nat) (oldPath newPath : Path)

def NameCall.newPath : NameCall → Path
  | .create call => call.newPath
  | .rename _ _ newPath => newPath

def NameCall.run (v : Shape) : NameCall → Prog FS Err Unit
  | .create call => call.run v
  | .rename fuel oldPath newPath => Volume.rename v fuel oldPath newPath

/-- The object that the call makes the name for: a new one, or the one at the other path. -/
def NameCall.Object (v : Shape) (s t : FS) (i : Nat) : NameCall → Prop
  | .create (.writeFile ..) => Fresh .regular
  | .create (.mkDir ..) => Fresh .dir
  | .create (.symlink ..) => Fresh .symlink
  | .create (.link oldPath _) | .rename _ oldPath _ => s.Leads v oldPath i
where
  Fresh (kind : Kind) : Prop :=
    (view v s.now).live i = false ∧ (view v t.now).live i ∧ ((view v t.now).inode i).kind = kind

/-- The source of a `Rename` is another entry than the one it is to make. -/
def NameCall.Moves (v : Shape) (s : FS) (num : Nat) (name : Name) : NameCall → Prop
  | .create _ => True
  | .rename _ oldPath _ => ∀ dir, s.lookupParent v oldPath ≠ .ok (num, dir, name)

/-- After the call the directory `num` has the name for the object, or the call has failed and the
directory lists what it listed. -/
def NameCall.RoundTrips (v : Shape) (s : FS) (num : Nat) (name : Name) (call : NameCall) : Prop :=
  match call.run v s with
  | (.ok _, t) => ∃ i, call.Object v s t i ∧ Found v t num name i
  | (.error _, t) => t.listDir v num = s.listDir v num

theorem NameCall.outcome {copy : Inode} (big : 1024 ≤ v.blockSize) (healthy : Healthy v s)
    (linked : (view v s.now).Linked s.sb.inodesCount) (sound : s.DirsReadable v) (call : NameCall)
    (search : s.lookupParent v call.newPath = .ok (num, copy, name))
    (vacant : (view v s.now).Vacant s.sb.blocksCount num name) (upwards : name ≠ dotDot)
    (full : s.inodes v ≤ s.sb.inodesCount) : (call.run v).Meets s
      (fun _ t => Frame s t ∧ (call.Moves v s num name ∧ (∃ i fileType new, call.Object v s t i ∧
          0 < i ∧ i ≤ s.sb.inodesCount ∧ Recorded i name fileType new ∧
          (view v t.now).Shows s.sb.blocksCount num name new) ∨ ¬ call.Moves v s num name ∧ t = s))
      fun _ => Fails v s := by
  have made : ∀ {t fileType kind}, Makes v s t num name fileType kind →
      Frame s t ∧ ∃ i fileType new, NameCall.Object.Fresh v s t i kind ∧ 0 < i ∧ i ≤ s.sb.inodesCount ∧
        Recorded i name fileType new ∧ (view v t.now).Shows s.sb.blocksCount num name new := by
    rintro t fileType kind ⟨frame, i, fresh, inRange, makes⟩
    obtain ⟨new, recorded, shows⟩ := makes.shows
    exact ⟨frame, i, fileType, new, ⟨fresh, makes.marked, makes.kind⟩, live_pos makes.marked,
      Nat.le_trans inRange full, recorded, shows⟩
  have joined : ∀ {t oldPath}, Joined v s t oldPath num name →
      Frame s t ∧ ∃ i fileType new, s.Leads v oldPath i ∧ 0 < i ∧ i ≤ s.sb.inodesCount ∧
        Recorded i name fileType new ∧ (view v t.now).Shows s.sb.blocksCount num name new := by
    rintro t oldPath ⟨frame, i, fileType, new, leads, recorded, shows⟩
    obtain ⟨_, _, _, n, _, found⟩ := id leads
    obtain ⟨positive, inRange, _⟩ := readInode_ok (findEntry_ok found).1
    exact ⟨frame, i, fileType, new, leads, positive, inRange, recorded, shows⟩
  cases call with
  | create call =>
    cases call with
    | writeFile path data perm =>
      refine (writeFile_makes big healthy search vacant perm).imp ?_
      exact fun _ t makes => ⟨(made makes).1, .inl ⟨trivial, (made makes).2⟩⟩
    | mkDir path perm =>
      refine (makeDir_makes big healthy search vacant perm).imp ?_
      exact fun _ t makes => ⟨(made makes).1, .inl ⟨trivial, (made makes).2⟩⟩
    | symlink target path =>
      refine (makeSymlink_makes big healthy target search vacant).imp ?_
      exact fun _ t makes => ⟨(made makes).1, .inl ⟨trivial, (made makes).2⟩⟩
    | link oldPath path =>
      refine (makeLink_joined big healthy oldPath search vacant).imp ?_
      exact fun _ t link => ⟨(joined link).1, .inl ⟨trivial, (joined link).2⟩⟩
  | rename fuel oldPath path =>
    refine (rename_joined big healthy linked sound fuel oldPath search vacant upwards).imp ?_
    rintro _ t (⟨moves, link⟩ | ⟨⟨dir, onto⟩, rfl⟩)
    · exact ⟨(joined link).1, .inl ⟨moves, (joined link).2⟩⟩
    · exact ⟨Frame.refl t, .inr ⟨fun moves => moves dir onto, rfl⟩⟩

/-- The directory that a name is made in: it lists itself and its parent, and not the name. -/
structure Hosts (v : Shape) (s : FS) (path : Path) (num : Nat) (name : Name) : Prop where
  search : ∃ dir, s.lookupParent v path = .ok (num, dir, name)
  dots : ∀ given ∈ [dot, dotDot], given ∈ ((view v s.now).entries num).map Entry.name
  absent : name ∉ ((view v s.now).entries num).map Entry.name

theorem formatted_dirs_readable (total : Nat) (label : Bytes) (journal : Bool) :
    (formatted total label journal).DirsReadable (fmtShape total) := by
  intro j _ _ isDir
  rw [formatted_inode] at isDir ⊢
  split at isDir
  next root =>
    rw [if_pos root]
    exact View.readable_single _ _ _
  next => cases isDir

def shortCall : NameCall := .create (.mkDir ['/', 'd'] 0o755)

def longName : Name := replicate 257 'a'

def longCall : NameCall := .create (.mkDir ('/' :: longName) 0o755)

def longMade : FS := (longCall.run (fmtShape 23) (formatted 23 [] true)).2

end Ext4.Volume
