import Ext4.Volume.NewNames

/-! Whether the records of a directory fill its blocks.
Insertions and deletions keep what the record lengths of a block add up to. `MkDir` leaves room for a
checksum tail where there is one; a block that a directory grows by always ends 12 octets early. -/

namespace Ext4.Volume
open Octets Alloc Store List Function FS

/-! ## The records of a block -/

/-- A record of whole words, long enough for its name, whose length fits its field. -/
structure Slot.Sized (slot : Slot) : Prop where
  words : 4 ∣ slot.recLen
  enough : minDirentSize slot.name.length ≤ slot.recLen
  short : slot.recLen < 2 ^ 16

structure Tiled (v : Shape) (slots : List Slot) : Prop where
  sized : ∀ slot ∈ slots, slot.Sized
  total : (slots.map Slot.recLen).sum + v.dirTail = v.blockSize

def Resized (old new : List Slot) : Prop :=
  (∀ slot ∈ old, slot.Sized) →
    (∀ slot ∈ new, slot.Sized) ∧ (new.map Slot.recLen).sum = (old.map Slot.recLen).sum

variable {v : Shape} {s t : FS} {x y z m : View} {num ino i j b : Nat} {dir dir' n : Inode} {name : Name}
  {fileType : FileType} {slot : Slot} {old new tail rest : List Slot}
  {change : List Slot → Option (List Slot)}

theorem Tiled.resized (tiled : Tiled v old) (resized : Resized old new) : Tiled v new := by
  obtain ⟨sized, same⟩ := resized tiled.sized
  exact ⟨sized, by rw [same, tiled.total]⟩

theorem Resized.cons (resized : Resized rest tail) : Resized (slot :: rest) (slot :: tail) := by
  intro sized
  obtain ⟨here, later⟩ := forall_mem_cons.mp sized
  obtain ⟨sized', same⟩ := resized later
  exact ⟨forall_mem_cons.mpr ⟨here, sized'⟩, by simp only [map_cons, sum_cons, same]⟩

theorem newSlot_enough (ino recLen : Nat) (name : Name) (fileType : FileType) :
    minDirentSize (newSlot ino recLen name fileType).name.length ≤ minDirentSize name.length := by
  have shorter : (newSlot ino recLen name fileType).name.length ≤ name.length := length_take_le' _ _
  unfold minDirentSize
  omega

theorem tryInsertDirEntry_resized (inserted : tryInsertDirEntry ino name fileType old = some new) :
    Resized old new := by
  induction old generalizing new with
  | nil => cases inserted
  | cons slot rest ih =>
    have passed : (tryInsertDirEntry ino name fileType rest).map (slot :: ·) = some new →
        Resized (slot :: rest) new := by
      intro later
      obtain ⟨tail, found, rfl⟩ := Option.map_eq_some_iff.mp later
      exact (ih found).cons
    simp only [tryInsertDirEntry] at inserted
    split_ifs at inserted with free fits narrow fits
    · cases inserted
      intro sized
      obtain ⟨here, later⟩ := forall_mem_cons.mp sized
      exact ⟨forall_mem_cons.mpr ⟨⟨here.words, (newSlot_enough ..).trans fits, here.short⟩, later⟩, rfl⟩
    · exact passed inserted
    · cases inserted
      intro sized
      obtain ⟨⟨words, enough, short⟩, later⟩ := forall_mem_cons.mp sized
      have slack := (newSlot_enough ino (slot.recLen - minDirentSize slot.name.length) name fileType).trans fits
      have whole : 4 ∣ minDirentSize slot.name.length := Nat.dvd_mul_left _ _
      refine ⟨forall_mem_cons.mpr ⟨⟨whole, Nat.le_refl _, ?_⟩, forall_mem_cons.mpr ⟨⟨?_, slack, ?_⟩, later⟩⟩, ?_⟩
      · exact Nat.lt_of_le_of_lt enough short
      · exact Nat.dvd_sub words whole
      · exact Nat.lt_of_le_of_lt (Nat.sub_le _ _) short
      · simp only [map_cons, sum_cons, newSlot]
        omega
    · exact passed inserted

theorem zeroEntryInBlock_resized (freed : zeroEntryInBlock name old = some new) : Resized old new := by
  induction old generalizing new with
  | nil => cases freed
  | cons slot rest ih =>
    simp only [zeroEntryInBlock] at freed
    split at freed
    · cases freed
      intro sized
      obtain ⟨⟨words, enough, short⟩, later⟩ := forall_mem_cons.mp sized
      exact ⟨forall_mem_cons.mpr ⟨⟨words, enough, short⟩, later⟩, rfl⟩
    · obtain ⟨tail, found, rfl⟩ := Option.map_eq_some_iff.mp freed
      exact (ih found).cons

/-- The block sizes that a superblock may state, without and with `metadata_csum`. -/
structure Shape.Sized (v : Shape) : Prop where
  big : 1024 ≤ v.blockSize
  small : v.blockSize ≤ 2 ^ 16
  words : 4 ∣ v.blockSize
  tail : v.dirTail = 0 ∨ v.dirTail = 12

theorem dirBlock_tiled (sized : v.Sized) : Tiled v (dirBlock v i num).records := by
  obtain ⟨big, small, words, tail⟩ := sized
  constructor
  · intro slot mem
    rcases mem_pair.mp mem with rfl | rfl
    · exact ⟨Nat.dvd_mul_left 4 3, (by decide : minDirentSize 1 ≤ 12), (by decide : 12 < 2 ^ 16)⟩
    · have least : minDirentSize dotDot.length = 12 := rfl
      constructor <;> dsimp only <;> omega
  · change 12 + (v.blockSize - 12 - v.dirTail + 0) + v.dirTail = v.blockSize
    omega

theorem newSlot_tiled (sized : v.Sized) (csum : v.dirTail = 12) :
    Tiled v [newSlot ino (v.blockSize - 12) name fileType] := by
  obtain ⟨big, small, words, _⟩ := sized
  have short : (newSlot ino (v.blockSize - 12) name fileType).name.length ≤ 255 := by
    simp only [newSlot, length_take]
    omega
  refine ⟨forall_mem_singleton.mpr ⟨?_, ?_, ?_⟩, ?_⟩
  · exact Nat.dvd_sub words (by decide)
  · unfold minDirentSize
    change _ ≤ v.blockSize - 12
    omega
  · change v.blockSize - 12 < _
    omega
  · change v.blockSize - 12 + 0 + v.dirTail = _
    omega

/-! ## The blocks of a directory -/

def View.dirBlocks (x : View) (i : Nat) : List Nat := blocksOf (x.extentsOf (x.inode i).mapping)

/-- The blocks of directory `j` are in use, and records fill each of them. -/
structure View.Filled (v : Shape) (x : View) (j : Nat) : Prop where
  alive : x.live j
  used : ∀ b ∈ x.mapped j, x.used b
  tiled : ∀ b ∈ x.dirBlocks j, ∃ slots, x.block b = .slots slots ∧ Tiled v slots

/-- The directory keeps its blocks, and each of them its content or the length of its records. -/
theorem View.Filled.kept (filled : x.Filled v j) (alive : y.live j)
    (mapping : (y.inode j).mapping = (x.inode j).mapping) (grown : ∀ b, x.used b → y.used b)
    (block : ∀ b ∈ x.mapped j, y.block b = x.block b ∨
      ∃ old new, x.block b = .slots old ∧ y.block b = .slots new ∧ Resized old new) : y.Filled v j := by
  have extents : y.extentsOf (x.inode j).mapping = x.extentsOf (x.inode j).mapping := by
    unfold View.mapped at block
    cases at_ : (x.inode j).mapping with
    | index c =>
      -- A block of records is no leaf block, before or after.
      rcases block c (by rw [at_]; exact mem_cons_self) with same | ⟨old, new, was, now, _⟩
      · simp only [View.extentsOf, View.leaf, same]
      · simp only [View.extentsOf, View.leaf, was, now]
    | none | target _ | inline _ => rfl
  refine ⟨alive, ?_, ?_⟩
  · rw [View.mapped, mapping, View.mappedBy, extents]
    exact fun b mem => grown b (filled.used b mem)
  · rw [View.dirBlocks, mapping, extents]
    intro b mem
    obtain ⟨slots, was, tiled⟩ := filled.tiled b mem
    rcases block b (mem_append_right _ mem) with same | ⟨old, new, was', now, resized⟩
    · exact ⟨slots, same.trans was, tiled⟩
    · cases was.symm.trans was'
      exact ⟨new, now, tiled.resized resized⟩

theorem View.Filled.aside (filled : x.Filled v j) (aside : x.Aside y) : y.Filled v j :=
  filled.kept (aside.live j filled.alive) (by rw [aside.inode j filled.alive]) aside.grown
    fun b mem => .inl (aside.block b (filled.used b mem))

theorem View.Filled.grows (filled : x.Filled v num)
    (grows : x.Grows y num dir dir' (x.extentsOf (x.inode num).mapping) slot) (fits : Tiled v [slot])
    (same : n.mapping = dir'.mapping) : View.Filled v { y with inode := update y.inode num n } num := by
  obtain ⟨mid, top, b, log, adds, lays, rfl, _⟩ := grows
  have leaks := adds.leaks.trans lays.leaks
  have extents : View.extentsOf { top with inode := update (update top.inode num dir') num n } dir'.mapping =
      x.extentsOf (x.inode num).mapping ++ [⟨log, b, 1⟩] := lays.extentsOf
  have blocks : blocksOf (x.extentsOf (x.inode num).mapping ++ [⟨log, b, 1⟩]) = x.dirBlocks num ++ [b] := by
    rw [blocksOf_append, blocksOf_single, View.dirBlocks]
  refine ⟨leaks.live ▸ filled.alive, ?_, ?_⟩
  · rw [View.mapped, View.mappedBy]
    dsimp only
    rw [update_self, same, extents, blocks]
    intro c mem
    rcases mem_append.mp mem with leaf | inside
    · exact (lays.child c leaf).2
    · rcases mem_append.mp inside with old | last
      · exact leaks.grown c (filled.used c (mem_append_right _ old))
      · exact mem_singleton.mp last ▸ lays.leaks.grown b adds.marked
  · rw [View.dirBlocks]
    dsimp only
    rw [update_self, same, extents, blocks]
    intro c mem
    rcases mem_append.mp mem with old | last
    · obtain ⟨slots, was, tiled⟩ := filled.tiled c old
      exact ⟨slots, (leaks.block c (filled.used c (mem_append_right _ old))).trans was, tiled⟩
    · refine ⟨[slot], ?_, fits⟩
      rw [mem_singleton.mp last, lays.leaks.block b adds.marked, adds.block, update_self]

def View.Seats (x : View) (num : Nat) (change : List Slot → Option (List Slot)) : Prop :=
  firstChange x.block change (x.dirBlocks num) ≠ none

/-- An entry is put into some directory, which may be this one, as the call found it. -/
theorem View.Filled.inserts (filled : x.Filled v j) (aside : x.Aside y) (read : m = x ∨ m = y)
    (inserts : m.Inserts y z num dir dir' change slot) (empty : change [] = none)
    (resizes : ∀ old new, change old = some new → Resized old new)
    (mapping : dir.mapping = (x.inode num).mapping) (fits : Tiled v [slot] ∨ x.Seats num change)
    (same : n.mapping = dir'.mapping) : View.Filled v { z with inode := update z.inode num n } j := by
  have seen : ∀ c ∈ x.mapped j, m.block c = x.block c := by
    intro c mem
    rcases read with rfl | rfl
    · rfl
    · exact aside.block c (filled.used c mem)
  obtain ⟨b, slots, place, rfl, rfl⟩ | ⟨full, grows⟩ := inserts
  · obtain ⟨_, old, was, changed⟩ := firstChange_some place empty
    refine filled.kept (aside.live j filled.alive) ?_ aside.grown fun c mem => ?_
    · dsimp only
      by_cases here : j = num
      · rw [here, update_self, same, mapping]
      · rw [update_of_ne here, aside.inode j filled.alive]
    · by_cases here : c = b
      · subst here
        exact .inr ⟨old, slots, (seen c mem).symm.trans was, update_self .., resizes old slots changed⟩
      · exact .inl ((update_of_ne here ..).trans (aside.block c (filled.used c mem)))
  · by_cases here : num = j
    · subst here
      have extents : m.extentsOf dir.mapping = x.extentsOf (x.inode num).mapping := by
        rw [mapping]
        exact View.extentsOf_congr fun c leaf => seen c (View.child_subset_mappedBy _ _ leaf)
      have extents' : y.extentsOf (y.inode num).mapping = x.extentsOf (x.inode num).mapping := by
        rw [aside.inode num filled.alive]
        exact View.extentsOf_congr fun c leaf =>
          aside.block c (filled.used c (View.child_subset_mappedBy _ _ leaf))
      rw [extents] at full
      rw [extents, ← extents'] at grows
      refine (filled.aside aside).grows grows (fits.resolve_right fun seats => seats ?_) same
      refine findSome?_eq_none_iff.mpr fun c mem => ?_
      rw [← seen c (mem_append_right _ mem)]
      exact findSome?_eq_none_iff.mp full c mem
    · obtain ⟨mid, top, b, log, adds, lays, rfl, _⟩ := grows
      have kept := filled.aside (aside.trans (adds.leaks.trans lays.leaks).aside)
      exact kept.kept kept.alive (by simp only [update_of_ne (Ne.symm here)]) (fun _ inUse => inUse)
        fun _ _ => .inl rfl

theorem View.Filled.inserts_self (filled : x.Filled v j)
    (inserts : x.Inserts x z num (x.inode num) dir' change slot) (empty : change [] = none)
    (resizes : ∀ old new, change old = some new → Resized old new)
    (fits : Tiled v [slot] ∨ x.Seats num change) : z.Filled v j := by
  have current : z.inode num = dir' := by
    obtain ⟨_, _, _, rfl, rfl⟩ | ⟨_, _, _, _, _, _, _, rfl, _⟩ := inserts
    · rfl
    · exact update_self ..
  have after := filled.inserts (View.Leaks.refl x).aside (.inl rfl) inserts empty resizes rfl fits
    (congrArg Inode.mapping current)
  rwa [update_eq_self] at after

/-! ## The calls -/

inductive TreeCall where
  | makeDir (path : Path) (perm : Nat)
  | add (num ino : Nat) (name : Name) (fileType : FileType)
  | zero (num : Nat) (name : Name)

def TreeCall.perform (v : Shape) : TreeCall → Prog FS Err Unit
  | .makeDir path perm => Volume.makeDir v path perm
  | .add num ino name fileType => do
      let dir ← .tryRead fun s => s.readInode v num
      let _ ← addDirEntry v false num dir ino name fileType
  | .zero num name => do
      let dir ← .tryRead fun s => s.readInode v num
      zeroDirEntry dir name

def TreeCall.Seated (v : Shape) (s : FS) : TreeCall → Prop
  | .makeDir path _ => ∀ num dir name, s.lookupParent v path = .ok (num, dir, name) →
      ∀ i, (view v s.now).Seats num (tryInsertDirEntry i name .dir)
  | .add num ino name fileType => (view v s.now).Seats num (tryInsertDirEntry ino name fileType)
  | .zero _ _ => True

def SeatedAll (v : Shape) : FS → List TreeCall → Prop
  | _, [] => True
  | s, call :: rest => (v.dirTail = 12 ∨ call.Seated v s) ∧ SeatedAll v (call.perform v s).2 rest

structure Keeps (v : Shape) (s : FS) (j : Nat) : Prop extends Quiet s where
  filled : (view v s.now).Filled v j

theorem readInode_inode (closed : s.tx = none) (read : s.readInode v num = .ok dir) :
    0 < num ∧ dir = (view v s.now).inode num := by
  unfold readInode at read
  split at read
  · cases read
  next inside =>
    cases read
    rw [now_of_none s closed]
    exact ⟨by omega, rfl⟩

theorem Keeps.aside (keeps : Keeps v s j) (frame : Frame s t) (aside : (view v s.now).Aside (view v t.now)) :
    Keeps v t j := ⟨keeps.toQuiet.frame frame, keeps.filled.aside aside⟩

section
variable (sized : v.Sized)
include sized

theorem Keeps.makeDir (keeps : Keeps v s j) {path : Path} {perm : Nat}
    (seated : v.dirTail = 12 ∨ (TreeCall.makeDir path perm).Seated v s) :
    (makeDir v path perm).Meets s (fun _ t => Keeps v t j) fun _ t => Keeps v t j := by
  refine makeDir_begins (fun _ _ => keeps) fun num dir name entries search _ _ => ?_
  obtain ⟨low, rfl⟩ := readInode_inode keeps.closed (lookupParent_read search)
  refine (newDir_rule keeps.toQuiet name perm (fun _ _ y => y.Filled v j)
    (fun _ _ y => (view v s.now).Aside y) fun inTx copy i b u mapping _ ready _ => ?_).mono ?_ ?_
  · refine (addDirEntry_beside ready low copy name perm).mono ?_ ?_
    · rintro r t ⟨ofBlocks, frame, m, y, read, admits, _, _, _, _, inserts⟩
      refine ⟨ofBlocks, fun n same _ => ?_⟩
      obtain ⟨shown, recorded⟩ := writeInode_spec low n
      refine ⟨frame.trans recorded, ?_⟩
      rw [shown]
      exact keeps.filled.inserts admits.aside read inserts (tryInsertDirEntry_nil i name .dir)
        (fun _ _ => tryInsertDirEntry_resized) mapping
        (seated.imp (newSlot_tiled sized) fun seats => seats num _ name search i) same
    · rintro e t ⟨frame, y, admits, leaks⟩
      exact ⟨frame, admits.aside.trans leaks.aside⟩
  · rintro _ t ⟨frame, i, b, _, filled⟩
    exact ⟨keeps.toQuiet.frame frame, filled⟩
  · rintro e t ⟨frame, same | ⟨_, ⟨i, joins, _⟩ | ⟨i, b, aside⟩⟩⟩
    · exact keeps.aside frame (same ▸ (View.Leaks.refl _).aside)
    · exact keeps.aside frame joins.admits.aside
    · exact keeps.aside frame aside

theorem Keeps.add (keeps : Keeps v s j)
    (seated : v.dirTail = 12 ∨ (TreeCall.add num ino name fileType).Seated v s) :
    ((TreeCall.add num ino name fileType).perform v).Meets s (fun _ t => Keeps v t j) fun _ t => Keeps v t j := by
  have closed := keeps.closed
  refine .look (fun dir read => ?_) fun _ _ => keeps
  obtain ⟨low, rfl⟩ := readInode_inode closed read
  refine (addDirEntry_meets (by rw [closed]; rfl : s.tx.isSome = false)
    (covered_of_none closed) low _ ino name fileType).seq ?_ fun _ _ failed => keeps.aside failed.2 failed.1.aside
  rintro ⟨dir', held⟩ t ⟨inserts, frame, _⟩
  rw [← now_of_none s closed] at inserts
  exact ⟨keeps.toQuiet.frame frame, keeps.filled.inserts_self inserts (tryInsertDirEntry_nil ino name fileType)
    (fun _ _ => tryInsertDirEntry_resized) (seated.imp_left (newSlot_tiled sized))⟩

omit sized in
theorem Keeps.zero (keeps : Keeps v s j) (num : Nat) (name : Name) :
    ((TreeCall.zero num name).perform v).Meets s (fun _ t => Keeps v t j) fun _ t => Keeps v t j := by
  refine .look (fun dir read => ?_) fun _ _ => keeps
  obtain ⟨low, rfl⟩ := readInode_inode keeps.closed read
  refine (changeDir_meets (v := v) keeps.closed _ (zeroEntryInBlock name)).mono ?_ ?_
  · rintro _ t (⟨b, slots, place, shown, frame⟩ | ⟨_, rfl⟩)
    · have seats : (view v s.now).Seats num (zeroEntryInBlock name) := fun full => by cases full.symm.trans place
      have patched : (view v s.now).Inserts (view v s.now) (view v t.now) num _ _ (zeroEntryInBlock name)
          ⟨0, 0, [], .dir⟩ := .inl ⟨b, slots, place, shown, rfl⟩
      exact ⟨keeps.toQuiet.frame frame, keeps.filled.inserts_self patched rfl
        (fun _ _ => zeroEntryInBlock_resized) (.inr seats)⟩
    · exact keeps
  · rintro e t rfl
    exact keeps

theorem Keeps.step (keeps : Keeps v s j) {call : TreeCall} (seated : v.dirTail = 12 ∨ call.Seated v s) :
    Keeps v (call.perform v s).2 j := by
  have meets : (call.perform v).Meets s (fun _ t => Keeps v t j) fun _ t => Keeps v t j := by
    cases call with
    | makeDir path perm => exact keeps.makeDir sized seated
    | add num ino name fileType => exact keeps.add sized seated
    | zero num name => exact keeps.zero num name
  rcases ran : call.perform v s with ⟨e | _, t⟩
  · exact meets.error ran
  · exact meets.ok ran

theorem Keeps.run (keeps : Keeps v s j) {calls : List TreeCall} (seated : SeatedAll v s calls) :
    Keeps v (calls.foldl (fun s call => (call.perform v s).2) s) j := by
  induction calls generalizing s with
  | nil => exact keeps
  | cons call rest ih => exact ih (keeps.step sized seated.1) seated.2

/-- With `metadata_csum`, or as long as no directory gets a block more, records fill every block of a
directory that `MkDir` made, whatever directories are made and entries put in or deleted later. -/
theorem directory_stays_tiled {path : Path} {perm : Nat} (healthy : Healthy v s)
    (linked : (view v s.now).Linked s.sb.inodesCount) (made : makeDir v path perm s = (.ok (), t))
    (unused : (view v s.now).live i = false) (inUse : (view v t.now).live i) (calls : List TreeCall)
    (seated : SeatedAll v t calls) :
    let final := view v (calls.foldl (fun s call => (call.perform v s).2) t).now
    ∀ b ∈ final.dirBlocks i, ∃ slots, final.block b = .slots slots ∧ Tiled v slots := by
  obtain ⟨healthy', _, num, dir, name, _, i', b, new⟩ := (makeDir_newDir healthy linked path perm).ok made
  obtain rfl : i = i' := (new.only i inUse).resolve_left (by simp [unused])
  have keeps : Keeps v t i := by
    refine ⟨healthy'.toQuiet, inUse, healthy'.owned.used i inUse, ?_⟩
    have blocks : (view v t.now).dirBlocks i = [b] := by
      rw [View.dirBlocks, new.inode]
      exact blocksOf_single 0 b
    rw [blocks]
    exact forall_mem_singleton.mpr ⟨_, new.block, dirBlock_tiled sized⟩
  exact (keeps.run sized seated).filled.tiled

end

def afterCalls (calls : List TreeCall) : View :=
  view (fmtShape 23) (calls.foldl (fun s call => (call.perform (fmtShape 23) s).2) madeDir.2).now

theorem directory_stays_tiled_reused :
    let final := afterCalls [.add 11 20 ['a'] .regFile, .zero 11 ['a']]
    ∀ b ∈ final.dirBlocks 11, ∃ slots, final.block b = .slots slots ∧ Tiled (fmtShape 23) slots := by
  have made : makeDir (fmtShape 23) ['/', 'd'] 0o755 (formatted 23 [] true) = (.ok (), madeDir.2) :=
    Prog.ended (by decide)
  refine directory_stays_tiled ⟨by decide, by decide, by decide, .inl rfl⟩
    (formatted_healthy 23 [] true (by decide)) (by decide +kernel) made (by decide +kernel) (by decide +kernel) _
    ⟨.inr ?_, .inr trivial, trivial⟩
  change firstChange _ _ _ ≠ none
  decide

/-- The sixteenth name of 255 octets needs a second block of 4096, whose only record has 4084. -/
theorem grown_block_untiled :
    let final := afterCalls ((range 16).map fun k =>
      .add 11 (20 + k) (Char.ofNat (97 + k) :: replicate 254 'a') .regFile)
    ¬ ∀ b ∈ final.dirBlocks 11, ∃ slots, final.block b = .slots slots ∧ Tiled (fmtShape 23) slots := by
  intro final filled
  have grown : ∃ b ∈ final.dirBlocks 11, (final.block b).records.map Slot.recLen = [4084] := by decide +kernel
  obtain ⟨b, mem, lengths⟩ := grown
  obtain ⟨slots, at_, tiled⟩ := filled b mem
  rw [at_] at lengths
  have total := tiled.total
  rw [show slots.map Slot.recLen = [4084] from lengths] at total
  exact absurd total (by decide)

end Ext4.Volume
