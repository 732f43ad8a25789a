import Ext4.Volume.Steps

/-! The directory tree that a view shows, and where a path can lead in it.
A directory is the list of its records; the listing is what `readDir` makes of them. -/

namespace Ext4.Volume
open Octets Alloc Store FS

def View.records (x : View) (m : Mapping) : List Slot :=
  (blocksOf (x.extentsOf m)).flatMap fun b => (x.block b).records

def View.entries (x : View) (i : Nat) : List Entry := listing (x.records (x.inode i).mapping)

variable {v : Shape} {s : FS} {i : Nat} {n dir : Inode} {name : Name} {path : Path} {names : List Name}
  {entries : List Entry}

theorem listing_append (one two : List Slot) : listing (one ++ two) = listing one ++ listing two := by
  simp [listing]

theorem listing_flatMap (blocks : List Nat) (records : Nat → List Slot) :
    (blocks.flatMap fun b => listing (records b)) = listing (blocks.flatMap records) := by
  induction blocks with
  | nil => rfl
  | cons b rest ih => rw [List.flatMap_cons, List.flatMap_cons, listing_append, ih]

/-! ## Reading -/

theorem FS.readInode_ok (read : s.readInode v i = .ok n) :
    0 < i ∧ i ≤ s.sb.inodesCount ∧ n = (view v s.image).inode i := by
  unfold readInode at read
  split at read
  · cases read
  next inRange =>
    rw [not_or, Nat.not_lt] at inRange
    exact ⟨Nat.pos_of_ne_zero inRange.1, inRange.2, (Except.ok.inj read).symm⟩

theorem FS.readExtents_ok {m : Mapping} {extents : List Extent}
    (read : s.readExtents m = .ok extents) : extents = (view v s.image).extentsOf m := by
  cases m with
  | none =>
    cases read
    rfl
  | target _ | inline _ | index _ =>
    rw [readExtents] at read
    · exact (parseExtents_ok read).1
    · simp

theorem FS.readDir_ok (read : s.readDir dir = .ok entries) :
    entries = listing ((view v s.image).records dir.mapping) := by
  obtain ⟨extents, runs, same⟩ := Prog.bind_eq_ok.mp read
  cases same
  rw [View.records, ← readExtents_ok runs, ← listing_flatMap]
  rfl

theorem FS.entryIn_ok {dir : Nat} (found : s.entryIn v dir name = .ok (i, n)) :
    ((view v s.image).inode dir).kind = .dir ∧ dir ≤ s.sb.inodesCount ∧ s.readInode v i = .ok n ∧
      ∃ e, ((view v s.image).entries dir).find? (fun e => e.name = name) = some e ∧ e.ino = i := by
  obtain ⟨cur, readCur, found⟩ := Prog.bind_eq_ok.mp found
  obtain ⟨_, inRange, rfl⟩ := readInode_ok readCur
  split at found
  · cases found
  next isDir =>
    obtain ⟨entries, readEntries, found⟩ := Prog.bind_eq_ok.mp found
    rw [readDir_ok (v := v) readEntries] at found
    split at found
    · cases found
    next e search =>
      obtain ⟨child, readChild, same⟩ := Prog.bind_eq_ok.mp found
      cases same
      exact ⟨not_not.mp isDir, inRange, readChild, e, search, rfl⟩

theorem FS.findEntry_ok
    (found : s.findEntry v dir name = .ok (some (i, n))) : s.readInode v i = .ok n ∧ ∃ e,
      (listing ((view v s.image).records dir.mapping)).find? (fun e => e.name = name) = some e ∧
        e.ino = i := by
  obtain ⟨entries, readEntries, found⟩ := Prog.bind_eq_ok.mp found
  rw [readDir_ok (v := v) readEntries] at found
  split at found
  · cases found
  next e search =>
    obtain ⟨child, readChild, same⟩ := Prog.bind_eq_ok.mp found
    cases same
    exact ⟨readChild, e, search, rfl⟩

theorem FS.findEntry_absent (found : s.findEntry v dir name = .ok none) :
    ∀ e ∈ listing ((view v s.image).records dir.mapping), e.name ≠ name := by
  obtain ⟨entries, readEntries, found⟩ := Prog.bind_eq_ok.mp found
  rw [readDir_ok readEntries] at found
  split at found
  next missing => simpa [List.find?_eq_none] using missing
  next e _ =>
    obtain ⟨child, _, same⟩ := Prog.bind_eq_ok.mp found
    cases same

theorem FS.findEntry_none (read : s.readDir dir = .ok entries) (absent : ∀ e ∈ entries, e.name ≠ name) :
    s.findEntry v dir name = .ok none := by
  have missing : entries.find? (fun e => decide (e.name = name)) = none := by
    simpa [List.find?_eq_none] using absent
  unfold findEntry
  rw [read]
  simp only [Bind.bind, Except.bind, missing]
  rfl

/-! ## Where a path leads -/

theorem FS.lookupParent_ok (found : s.lookupParent v path = .ok (i, n, name)) :
    name = (trimSlash (components path)).getLastD [] ∧ name ≠ [] ∧ n.kind = .dir ∧
      ((((trimSlash (components path)).dropLast = [] ∨ (trimSlash (components path)).dropLast = [[]]) ∧
          i = rootIno ∧ s.readInode v i = .ok n) ∨ (¬((trimSlash (components path)).dropLast = [] ∨
            (trimSlash (components path)).dropLast = [[]]) ∧
          s.lookupPath v ([] :: (trimSlash (components path)).dropLast) = .ok (i, n))) := by
  -- The check that both ways of finding the parent end with.
  have ends : ∀ {parent : Nat × Inode} {last : Name},
      (if parent.2.kind ≠ .dir then
        (do throw Err.notDir; pure (parent.1, parent.2, last) : Except Err (Nat × Inode × Name))
        else pure (parent.1, parent.2, last)) = .ok (i, n, name) →
      parent = (i, n) ∧ name = last ∧ n.kind = .dir := by
    intro parent last checked
    split at checked
    · cases checked
    next isDir =>
      cases checked
      exact ⟨rfl, rfl, not_not.mp isDir⟩
  unfold lookupParent at found
  dsimp only at found
  split at found
  · cases found
  split at found
  · cases found
  next named =>
    split at found
    next atRoot =>
      obtain ⟨x, read, found⟩ := Prog.bind_eq_ok.mp found
      obtain ⟨same, rfl, isDir⟩ := ends found
      cases same
      exact ⟨rfl, named, isDir, .inl ⟨atRoot, rfl, read⟩⟩
    next deeper =>
      obtain ⟨x, search, found⟩ := Prog.bind_eq_ok.mp found
      obtain ⟨rfl, rfl, isDir⟩ := ends found
      exact ⟨rfl, named, isDir, .inr ⟨deeper, search⟩⟩

theorem FS.lookupPath_ok (found : s.lookupPath v names = .ok (i, n)) :
    s.lookupFrom v maxSymlinks rootIno names = .ok i ∧ s.readInode v i = .ok n := by
  obtain ⟨j, search, found⟩ := Prog.bind_eq_ok.mp found
  obtain ⟨m, read, same⟩ := Prog.bind_eq_ok.mp found
  cases same
  exact ⟨search, read⟩

theorem FS.lookupParent_read
    (found : s.lookupParent v path = .ok (i, n, name)) : s.readInode v i = .ok n := by
  obtain ⟨_, _, _, ⟨_, _, read⟩ | ⟨_, search⟩⟩ := lookupParent_ok found
  · exact read
  · exact (lookupPath_ok search).2

def Walk.At (holds : Nat → Prop) : Walk → Prop
  | .found i => holds i
  | .link dir _ _ => holds dir
  | .failed _ => True

section
variable {holds : Nat → Prop}
  (follows : ∀ dir name i n, holds dir → s.entryIn v dir name = .ok (i, n) → holds i) {cur : Nat}

include follows

theorem FS.walk_step_at (name : Name) (rest : List Name) {next : Nat → Walk} (here : holds cur)
    (later : ∀ i, holds i → (next i).At holds) : (walk.step v s cur name rest next).At holds := by
  unfold walk.step
  cases found : s.entryIn v cur name with
  | error e => trivial
  | ok child =>
    obtain ⟨i, n⟩ := child
    have there := follows cur name i n here found
    dsimp only
    split
    · cases s.readSymlink n with
      | error e => trivial
      | ok target => exact here
    · split
      · exact there
      · exact later i there

theorem FS.walk_at (names : List Name) (here : holds cur) : (s.walk v cur names).At holds := by
  fun_induction walk v s cur names with
  | case1 | case2 | case3 => exact here
  | case4 cur name rest _ ih => exact walk_step_at follows name rest here fun i there => ih i there
  | case5 cur name rest _ _ _ ih =>
    exact walk_step_at follows name rest here fun i there => ih i there

theorem FS.lookupFrom_at (root : holds rootIno) {hops : Nat} (here : holds cur)
    (found : s.lookupFrom v hops cur names = .ok i) : holds i := by
  induction hops generalizing cur names with
  | zero =>
    unfold lookupFrom at found
    have walked := walk_at follows names here
    split at found
    next at_ =>
      cases found
      rwa [at_] at walked
    · cases found
    · cases found
  | succ left ih =>
    unfold lookupFrom at found
    have walked := walk_at follows names here
    split at found
    next at_ =>
      cases found
      rwa [at_] at walked
    · cases found
    next dir target rest at_ =>
      rw [at_] at walked
      refine ih ?_ found
      split
      · exact root
      · exact walked

theorem FS.lookupPath_at (root : holds rootIno) (found : s.lookupPath v names = .ok (i, n)) : holds i :=
  lookupFrom_at follows root root (lookupPath_ok found).1

theorem FS.lookupParent_at (root : holds rootIno)
    (found : s.lookupParent v path = .ok (i, n, name)) : holds i := by
  obtain ⟨_, _, _, ⟨_, rfl, _⟩ | ⟨_, search⟩⟩ := lookupParent_ok found
  · exact root
  · exact lookupPath_at follows root search

end

end Ext4.Volume
