import Ext4.Volume.Spared

/-! What a call that creates a name does to the directories.
Every directory lists what it listed, one of them lists the new name as well, and every block still
has its one owner. A call that fails adds nothing. -/

namespace Ext4.Volume
open Octets Alloc Store List Function

variable {v : Shape} {s t : FS} {x y z : View} {i b num about : Nat} {new : List Entry}
  {old slots : List Slot} {slot : Slot} {dir dir' : Inode}

/-! ## The records of a block -/

/-- The entry of a new record: the octet for the length of its name wraps around. -/
def newEntry (ino : Nat) (name : Name) (fileType : FileType) : Entry :=
  ⟨ino, name.take (name.length % 256), fileType⟩

section
variable (ino : Nat) (name : Name) (fileType : FileType)

theorem listing_newSlot (recLen : Nat) :
    (listing [newSlot ino recLen name fileType]).Sublist [newEntry ino name fileType] := by
  have entry : (newSlot ino recLen name fileType).entry = newEntry ino name fileType := rfl
  rw [← entry, listing]
  exact (filter_sublist (l := [newSlot ino recLen name fileType])).map Slot.entry

theorem listing_cons (slot : Slot) (rest : List Slot) :
    listing (slot :: rest) = listing [slot] ++ listing rest := listing_append [slot] rest

theorem listing_shrunk (room : minDirentSize slot.name.length ≤ slot.recLen) :
    listing [{ slot with recLen := minDirentSize slot.name.length }] = listing [slot] := by
  have enough : slot.name.length + 8 ≤ minDirentSize slot.name.length := by
    unfold minDirentSize
    omega
  have enough' : slot.name.length + 8 ≤ slot.recLen := Nat.le_trans enough room
  have same : Slot.listed { slot with recLen := minDirentSize slot.name.length } = slot.listed := by
    simp [Slot.listed, enough, enough']
  cases listed : slot.listed <;> simp [listing, same, listed, Slot.entry]

theorem listing_free (free : slot.ino = 0) : listing [slot] = [] := by
  simp [listing, Slot.listed, free]

variable {ino name fileType}

theorem tryInsertDirEntry_lists {new : List Slot}
    (changed : tryInsertDirEntry ino name fileType old = some new) : ∃ recLen, name.length + 8 ≤ recLen ∧
      (listing new).Perm (listing [newSlot ino recLen name fileType] ++ listing old) := by
  have enough : ∀ {recLen}, minDirentSize name.length ≤ recLen → name.length + 8 ≤ recLen := by
    unfold minDirentSize
    omega
  induction old generalizing new with
  | nil => cases changed
  | cons slot rest ih =>
    -- The record is passed over.
    have later : ∀ {new}, (tryInsertDirEntry ino name fileType rest).map (slot :: ·) = some new →
        ∃ recLen, name.length + 8 ≤ recLen ∧
          (listing new).Perm (listing [newSlot ino recLen name fileType] ++ listing (slot :: rest)) := by
      intro new changed
      obtain ⟨tail, found, rfl⟩ := Option.map_eq_some_iff.mp changed
      obtain ⟨recLen, long, perm⟩ := ih found
      refine ⟨recLen, long, ?_⟩
      rw [listing_cons slot tail, listing_cons slot rest]
      exact (perm.append_left _).trans (perm_append_comm_assoc ..)
    simp only [tryInsertDirEntry] at changed
    split at changed
    next free =>
      split at changed
      next long =>
        cases changed
        refine ⟨slot.recLen, enough long, ?_⟩
        rw [listing_cons _ rest, listing_cons slot rest, listing_free free, nil_append]
      · exact later changed
    next =>
      split at changed
      · cases changed
      next room =>
        split at changed
        next long =>
          cases changed
          refine ⟨slot.recLen - minDirentSize slot.name.length, enough long, ?_⟩
          rw [listing_cons _ (_ :: rest), listing_cons _ rest, listing_cons slot rest,
            listing_shrunk (Nat.le_of_not_lt room)]
          exact perm_append_comm_assoc ..
        · exact later changed

theorem tryInsertDirEntry_listing {new : List Slot}
    (changed : tryInsertDirEntry ino name fileType old = some new) :
    ∃ added, added.Sublist [newEntry ino name fileType] ∧ (listing new).Perm (added ++ listing old) := by
  obtain ⟨recLen, _, perm⟩ := tryInsertDirEntry_lists changed
  exact ⟨_, listing_newSlot ino name fileType recLen, perm⟩

end

theorem listing_patch {blocks : List Nat} (once : blocks.Nodup) (mem : b ∈ blocks) {block : Nat → Block}
    (was : block b = .slots old) (perm : (listing slots).Perm (new ++ listing old)) :
    (listing (blocks.flatMap fun c => (update block b (.slots slots) c).records)).Perm
      (new ++ listing (blocks.flatMap fun c => (block c).records)) := by
  obtain ⟨before, after, rfl⟩ := append_of_mem mem
  have other : ∀ c ∈ before ++ after, c ≠ b := by
    rintro c inside rfl
    have := nodup_middle.mp once
    exact (nodup_cons.mp this).1 inside
  have same : ∀ part : List Nat, (∀ c ∈ part, c ∈ before ++ after) →
      (part.flatMap fun c => (update block b (.slots slots) c).records) =
        part.flatMap fun c => (block c).records := fun part inside =>
    flatMap_congr fun c mem => by rw [update_of_ne (other c (inside c mem))]
  rw [flatMap_append, flatMap_cons, flatMap_append, flatMap_cons,
    same before fun c mem => mem_append_left _ mem,
    same after fun c mem => mem_append_right _ mem, update_self, was]
  simp only [listing_append]
  refine ((perm.append_right _).append_left _).trans ?_
  rw [append_assoc]
  exact perm_append_comm_assoc ..

/-! ## What the directories gain -/

/-- Every directory lists what it listed, and `num` lists the new entries as well. The call is about
one more inode, which it creates or changes. -/
structure View.Gains (x y : View) (num about : Nat) (new : List Entry) : Prop where
  owned : y.Owned
  live : ∀ j, x.live j → y.live j
  kind : ∀ j, x.live j → (y.inode j).kind = (x.inode j).kind
  entries : ∀ j, x.live j → (x.inode j).kind = .dir →
    (y.entries j).Perm ((if j = num then new else []) ++ x.entries j)
  /-- A new directory does not list a name twice. -/
  fresh : ∀ j, y.live j → x.live j = false → (y.inode j).kind = .dir →
    ((y.entries j).map Entry.name).Nodup
  spares : x.Spares y [num, about]

theorem View.Gains.of_kept (owned : y.Owned) (live : ∀ j, x.live j → y.live j)
    (kind : ∀ j, x.live j → (y.inode j).kind = (x.inode j).kind)
    (mapping : ∀ j, x.live j → (x.inode j).kind = .dir → (y.inode j).mapping = (x.inode j).mapping)
    (block : ∀ j, x.live j → (x.inode j).kind = .dir → ∀ b ∈ x.mapped j, y.block b = x.block b)
    (fresh : ∀ j, y.live j → x.live j = false → (y.inode j).kind = .dir →
      ((y.entries j).map Entry.name).Nodup) (spares : x.Spares y [num, about]) : x.Gains y num about [] where
  owned := owned
  live := live
  kind := kind
  entries j alive isDir := by
    rw [View.entries_congr (mapping j alive isDir) (block j alive isDir), ite_self]
    exact List.Perm.refl _
  fresh := fresh
  spares := spares

theorem View.Gains.trans {more : List Entry} (first : x.Gains y num about new)
    (second : y.Gains z num about more) (alive : x.live num) : x.Gains z num about (more ++ new) where
  owned := second.owned
  live j before := second.live j (first.live j before)
  kind j before := (second.kind j (first.live j before)).trans (first.kind j before)
  entries j before isDir := by
    have one := first.entries j before isDir
    have two := second.entries j (first.live j before) ((first.kind j before).trans isDir)
    by_cases here : j = num
    · simp only [here, if_true] at one two ⊢
      rw [append_assoc]
      exact two.trans (one.append_left more)
    · simp only [here, if_false, nil_append] at one two ⊢
      exact two.trans one
  fresh j after before isDir := by
    cases between : y.live j with
    | false => exact second.fresh j after between isDir
    | true =>
      have other : j ≠ num := by
        rintro rfl
        rw [alive] at before
        cases before
      have isDir := (second.kind j between).symm.trans isDir
      have perm := second.entries j between isDir
      rw [if_neg other, nil_append] at perm
      exact (perm.map Entry.name).nodup_iff.mpr (first.fresh j between before isDir)
  spares := first.spares.trans second.spares

theorem View.Owned.gains_leaks (owned : x.Owned) (leaks : x.Leaks y) (num about : Nat) :
    x.Gains y num about [] :=
  .of_kept (owned.leaks leaks) (fun j alive => by rwa [leaks.live])
    (fun j _ => by rw [leaks.inode]) (fun j _ _ => by rw [leaks.inode])
    (fun j alive _ b mem => leaks.block b (owned.used j alive b mem))
    (fun j after before _ => by
      rw [leaks.live, before] at after
      cases after)
    (leaks.spares owned _)

theorem View.Admits.gains (admits : x.Admits y i) (owned : x.Owned) (owned' : y.Owned) (num about : Nat)
    (fresh : (y.inode i).kind = .dir → ((y.entries i).map Entry.name).Nodup) : x.Gains y num about [] := by
  have other : ∀ j, x.live j → j ≠ i := by
    rintro j alive rfl
    rw [admits.fresh] at alive
    cases alive
  refine .of_kept owned' admits.kept (fun j alive => by rw [admits.inode j (other j alive)])
    (fun j alive _ => by rw [admits.inode j (other j alive)])
    (fun j alive _ b mem => admits.block b (owned.used j alive b mem)) ?_
    (admits.spares owned _)
  intro j after before isDir
  rcases admits.live j after with alive | rfl
  · rw [before] at alive
    cases alive
  · exact fresh isDir

theorem View.extentsOf_slots (was : x.block b = .slots old) (m : Mapping) :
    View.extentsOf { x with block := update x.block b (.slots slots) } m = x.extentsOf m := by
  cases m with
  | index c =>
    by_cases here : c = b
    · subst here
      simp [View.extentsOf, View.leaf, was]
    · simp [View.extentsOf, View.leaf, update_of_ne here]
  | none | target _ | inline _ => rfl

theorem View.Owned.gains_patch (owned : x.Owned) (alive : x.live num) (about : Nat)
    (mem : b ∈ blocksOf (x.extentsOf (x.inode num).mapping)) (was : x.block b = .slots old)
    (perm : (listing slots).Perm (new ++ listing old)) :
    x.Gains { x with block := update x.block b (.slots slots) } num about new where
  owned := owned.writeSlots was slots
  live _ alive := alive
  kind _ _ := rfl
  entries j before _ := by
    rw [View.entries, View.records]
    dsimp only
    rw [View.extentsOf_slots was]
    by_cases here : j = num
    · subst here
      rw [if_pos rfl]
      exact listing_patch (owned.once j alive).of_append_right mem was perm
    · rw [if_neg here, nil_append, View.entries, View.records]
      refine List.Perm.of_eq (congrArg listing (flatMap_congr fun c inside => ?_))
      rw [update_of_ne]
      rintro rfl
      exact owned.apart j num before alive here (mem_append_right _ inside)
        (mem_append_right _ mem)
  fresh j after before _ := by
    rw [before] at after
    cases after
  spares := owned.spares_writeBlock alive (mem_append_right _ mem) mem_cons_self _

theorem View.Owned.gains_grows (owned : x.Owned) (alive : x.live num) (about : Nat)
    {extents : List Extent} (kind : dir.kind = (x.inode num).kind)
    (grows : x.Grows y num dir dir' extents slot)
    (copy : extents = x.extentsOf (x.inode num).mapping) : x.Gains y num about (listing [slot]) := by
  have owned' := owned.grows grows fun _ => copy
  obtain ⟨mid, top, b, log, adds, lays, rfl, kind', _⟩ := grows
  have leaks := adds.leaks.trans lays.leaks
  constructor
  case owned => exact owned'
  case live =>
    intro j before
    exact leaks.live ▸ before
  case kind =>
    intro j before
    by_cases here : j = num
    · subst here
      simp only [update_self]
      exact kind'.trans kind
    · simp only [update_of_ne here, leaks.inode]
  case entries =>
    intro j before _
    by_cases here : j = num
    · subst here
      rw [if_pos rfl, View.entries, View.entries, View.records, View.records]
      simp only [update_self]
      have shown : View.extentsOf { top with inode := update top.inode j dir' } dir'.mapping =
          extents ++ [⟨log, b, 1⟩] := by
        rw [← lays.extentsOf]
        exact View.extentsOf_congr fun _ _ => rfl
      rw [shown, blocksOf_append, blocksOf_single, flatMap_append, flatMap_singleton]
      have last : top.block b = .slots [slot] := by
        rw [lays.leaks.block b adds.marked, adds.block, update_self]
      rw [last, listing_append]
      refine (perm_append_comm).trans (List.Perm.of_eq ?_)
      rw [copy]
      refine congrArg (listing [slot] ++ ·) (congrArg listing (flatMap_congr fun c inside => ?_))
      rw [leaks.block c (owned.used j alive c (mem_append_right _ inside))]
    · rw [if_neg here, nil_append]
      refine List.Perm.of_eq (View.entries_congr ?_ fun c mem => ?_)
      · simp only [update_of_ne here, leaks.inode]
      · exact leaks.block c (owned.used j before c mem)
  case fresh =>
    intro j after before _
    have : x.live j := leaks.live ▸ after
    rw [before] at this
    cases this
  case spares => exact (leaks.spares owned _).trans (top.spares_writeInode dir' mem_cons_self)

theorem View.Owned.gains_inserts (owned : x.Owned) (alive : x.live num) (about : Nat) {m : View}
    {ino recLen : Nat} {name : Name} {fileType : FileType} (kind : dir.kind = (x.inode num).kind)
    (inserts : m.Inserts x y num dir dir' (tryInsertDirEntry ino name fileType)
      (newSlot ino recLen name fileType))
    (synced : ∀ b ∈ blocksOf (m.extentsOf dir.mapping), ∀ old, m.block b = .slots old →
      x.block b = .slots old) (copy : m.extentsOf dir.mapping = x.extentsOf (x.inode num).mapping) :
    ∃ new, new.Sublist [newEntry ino name fileType] ∧ x.Gains y num about new := by
  obtain ⟨b, slots, place, rfl, _⟩ | ⟨_, grows⟩ := inserts
  · obtain ⟨mem, old, was, changed⟩ := firstChange_some place (tryInsertDirEntry_nil ino name fileType)
    obtain ⟨new, few, perm⟩ := tryInsertDirEntry_listing changed
    exact ⟨new, few, owned.gains_patch alive about (copy ▸ mem) (synced b mem old was) perm⟩
  · exact ⟨_, listing_newSlot ino name fileType recLen, owned.gains_grows alive about kind grows copy⟩

theorem View.Owned.gains_writeInode (owned : x.Owned) {n : Inode} (mapping : n.mapping = (x.inode i).mapping)
    (kind : n.kind = (x.inode i).kind) (among : i ∈ [num, about]) :
    x.Gains { x with inode := update x.inode i n } num about [] := by
  have same : ∀ j, (update x.inode i n j).mapping = (x.inode j).mapping ∧
      (update x.inode i n j).kind = (x.inode j).kind := by
    intro j
    by_cases here : j = i
    · subst here
      simp [mapping, kind]
    · simp [update_of_ne here]
  have mapped : ∀ j, View.mapped { x with inode := update x.inode i n } j = x.mapped j := by
    intro j
    rw [View.mapped]
    rw [(same j).1]
    exact View.mappedBy_congr fun _ _ => rfl
  refine .of_kept ?_ (fun _ alive => alive) (fun j _ => (same j).2) (fun j _ _ => (same j).1)
    (fun _ _ _ _ _ => rfl) (fun j after before _ => ?_) (x.spares_writeInode n among)
  · exact owned.congr (fun _ alive => alive) (fun j _ => mapped j)
      fun j alive b mem => owned.used j alive b mem
  · rw [before] at after
    cases after

/-! ## A new entry -/

theorem addDirEntry_gains {inTx : Bool} (via : s.tx.isSome = inTx) (covered : Covered s)
    (owned : (view v s.now).Owned) (alive : (view v s.now).live num)
    (mapping : dir.mapping = ((view v s.now).inode num).mapping)
    (kind : dir.kind = ((view v s.now).inode num).kind)
    (reads : ∀ b ∈ (view v s.now).mapped num, (view v s.image).block b = (view v s.now).block b)
    (about ino : Nat) (name : Name) (fileType : FileType) :
    (addDirEntry v inTx num dir ino name fileType).Meets s
      (fun r t => (∃ new, new.Sublist [newEntry ino name fileType] ∧
          (view v s.now).Gains (view v t.now) num about new) ∧
        r.1.mapping = ((view v t.now).inode num).mapping ∧ r.1.kind = dir.kind ∧ Frame s t ∧ OfBlocks r.2)
      fun _ t => (view v s.now).Gains (view v t.now) num about [] ∧ Frame s t := by
  have extents : (view v s.image).extentsOf dir.mapping =
      (view v s.now).extentsOf ((view v s.now).inode num).mapping := by
    rw [mapping]
    exact View.extentsOf_congr fun c mem => reads c (View.child_subset_mappedBy _ _ mem)
  refine (addDirEntry_meets via covered (live_pos alive) dir ino name fileType).mono ?_ ?_
  · rintro ⟨dir', held⟩ t ⟨inserts, frame, ofBlocks⟩
    refine ⟨owned.gains_inserts alive about kind inserts (fun b mem old was => ?_) extents, ?_, ?_, frame,
      ofBlocks⟩
    · rw [extents] at mem
      rw [← reads b (mem_append_right _ mem), was]
    · obtain ⟨b, slots, _, shown, rfl⟩ | ⟨_, mid, top, b, log, adds, lays, shown, _⟩ := inserts
      · rw [shown]
        exact mapping
      · rw [shown]
        simp
    · obtain ⟨_, _, _, _, rfl⟩ | ⟨_, _, _, _, _, _, _, _, same, _⟩ := inserts
      · rfl
      · exact same
  · rintro e t ⟨leaks, frame⟩
    exact ⟨owned.gains_leaks leaks num about, frame⟩

end Ext4.Volume
