import Ext4.Library.Slots
import Ext4.Volume.OpenFiles

/-! A directory as a map from names to inodes.
Deleting an entry leaves its record with the name in it, and the next deletion of that name looks for
the name only. It finds the live record because a new one is never put behind an old one of the same
name: every record is long enough for its own name, so the first fit is at the old one or before. -/

namespace Ext4.Volume
open Octets Alloc Store Slots List Function

/-! ## The records -/

def Slot.held (slot : Slot) : Option (Nat × FileType) :=
  if slot.ino = 0 then none else some (slot.ino, slot.fileType)

def Slot.Roomy (slot : Slot) : Prop :=
  slot.name ≠ [] ∧ minDirentSize slot.name.length ≤ slot.recLen

abbrev namesOf : List Slot → Name → Option (Nat × FileType) := table Slot.name Slot.held

structure Tidy (slots : List Slot) : Prop where
  roomy : ∀ slot ∈ slots, slot.Roomy
  shadowed : Shadowed Slot.name Slot.held slots

variable {slot : Slot} {slots rest old new : List Slot} {ino recLen : Nat} {name : Name} {fileType : FileType}

theorem Tidy.cons : Tidy (slot :: rest) ↔ slot.Roomy ∧ namesOf rest slot.name = none ∧ Tidy rest := by
  constructor
  · intro tidy
    obtain ⟨absent, later⟩ := shadowed_cons.mp tidy.shadowed
    exact ⟨tidy.roomy slot mem_cons_self, absent,
      fun other mem => tidy.roomy other (mem_cons_of_mem _ mem), later⟩
  · rintro ⟨roomy, absent, tidy⟩
    exact ⟨forall_mem_cons.mpr ⟨roomy, tidy.roomy⟩, shadowed_cons.mpr ⟨absent, tidy.shadowed⟩⟩

theorem Slot.Roomy.listed_iff (roomy : slot.Roomy) : slot.listed = slot.held.isSome := by
  have long : slot.name.length + 8 ≤ slot.recLen := by
    have := roomy.2
    unfold minDirentSize at this
    omega
  unfold Slot.listed Slot.held
  split
  next free => simp [free]
  next taken => simp [taken, roomy.1, long]

theorem Tidy.mem_listing (tidy : Tidy slots) (e : Entry) :
    e ∈ listing slots ↔ namesOf slots e.name = some (e.ino, e.fileType) := by
  rw [tidy.shadowed.table_iff, listing, mem_map]
  constructor
  · rintro ⟨slot, mem, rfl⟩
    obtain ⟨inside, listed⟩ := mem_filter.mp mem
    rw [(tidy.roomy slot inside).listed_iff] at listed
    refine ⟨slot, inside, rfl, ?_⟩
    unfold Slot.held at listed ⊢
    split at listed
    · cases listed
    next taken => rw [if_neg taken]; rfl
  · rintro ⟨slot, inside, same, held⟩
    refine ⟨slot, mem_filter.mpr ⟨inside, ?_⟩, ?_⟩
    · rw [(tidy.roomy slot inside).listed_iff, held]
      rfl
    · unfold Slot.held at held
      split at held
      · cases held
      · cases e
        cases held
        cases same
        rfl

theorem Tidy.names_nodup (tidy : Tidy slots) : ((listing slots).map Entry.name).Nodup := by
  have same : slots.filter Slot.listed = slots.filter fun slot => slot.held.isSome :=
    filter_congr fun slot mem => (tidy.roomy slot mem).listed_iff
  rw [listing, map_map, same]
  exact tidy.shadowed.keys_nodup

/-! ## Inserting and freeing a record -/

structure Fit (ino : Nat) (name : Name) : Prop where
  taken : ino ≠ 0
  some : name ≠ []
  short : name.length ≤ 255

theorem Fit.newSlot_eq (fit : Fit ino name) : newSlot ino recLen name fileType = ⟨ino, recLen, name, fileType⟩ := by
  have short := fit.short
  rw [newSlot, Nat.mod_eq_of_lt (by omega), take_length]

theorem Fit.held (fit : Fit ino name) :
    Slot.held ⟨ino, recLen, name, fileType⟩ = Option.some (ino, fileType) := if_neg fit.taken

theorem Tidy.pass {held : Option (Nat × FileType)} (roomy : slot.Roomy) (first : namesOf rest slot.name = none)
    (other : slot.name ≠ name) (changed : Tidy new ∧ namesOf new = update (namesOf rest) name held) :
    Tidy (slot :: new) ∧ namesOf (slot :: new) = update (namesOf (slot :: rest)) name held := by
  refine ⟨Tidy.cons.mpr ⟨roomy, ?_, changed.1⟩, table_cons_update other changed.2⟩
  rw [changed.2, update_of_ne other, first]

theorem name_ne_of_taken (absent : namesOf (slot :: rest) name = none) (taken : slot.ino ≠ 0) :
    slot.name ≠ name := by
  intro same
  rw [namesOf, table_cons, if_pos same, Slot.held, if_neg taken] at absent
  cases absent

theorem tryInsertDirEntry_tidy (fit : Fit ino name) (tidy : Tidy old) (absent : namesOf old name = none)
    (inserted : tryInsertDirEntry ino name fileType old = some new) :
    Tidy new ∧ namesOf new = update (namesOf old) name (some (ino, fileType)) := by
  induction old generalizing new with
  | nil => cases inserted
  | cons slot rest ih =>
    obtain ⟨roomy, first, tidy⟩ := Tidy.cons.mp tidy
    -- The name is nowhere in the rest either.
    have later : namesOf rest name = none := by
      by_cases same : slot.name = name
      · exact same ▸ first
      · rwa [namesOf, table_cons, if_neg same] at absent
    simp only [tryInsertDirEntry] at inserted
    split at inserted
    next free =>
      have gone : slot.held = none := if_pos free
      split at inserted
      next fits =>
        cases inserted
        rw [fit.newSlot_eq]
        refine ⟨Tidy.cons.mpr ⟨⟨fit.some, fits⟩, later, tidy⟩, funext fun k => ?_⟩
        simp only [table_cons, fit.held, update_apply, eq_comm]
        split
        · rfl
        · split
          next same => exact (same ▸ first).trans gone.symm
          · rfl
      next short =>
        obtain ⟨tail, found, rfl⟩ := Option.map_eq_some_iff.mp inserted
        -- A record of that name would have been long enough.
        refine Tidy.pass roomy first (fun same => short ?_) (ih tidy later found)
        rw [← same]
        exact roomy.2
    next taken =>
      have other := name_ne_of_taken absent taken
      split at inserted
      · cases inserted
      · split at inserted
        next fits =>
          cases inserted
          rw [fit.newSlot_eq]
          refine ⟨Tidy.cons.mpr ⟨⟨roomy.1, Nat.le_refl _⟩, ?_, Tidy.cons.mpr ⟨⟨fit.some, fits⟩, later, tidy⟩⟩,
            funext fun k => ?_⟩
          · rw [namesOf, table_cons, if_neg (Ne.symm other)]
            exact first
          · simp only [table_cons, fit.held, update_apply, eq_comm (a := k)]
            by_cases here : slot.name = k
            · rw [if_pos here, if_pos here, if_neg (here ▸ Ne.symm other)]
              rfl
            · simp only [if_neg here]
        next =>
          obtain ⟨tail, found, rfl⟩ := Option.map_eq_some_iff.mp inserted
          exact Tidy.pass roomy first other (ih tidy later found)

theorem tryInsertDirEntry_none (tidy : Tidy old) (absent : namesOf old name = none)
    (full : tryInsertDirEntry ino name fileType old = none) : ∀ slot ∈ old, slot.name ≠ name := by
  induction old with
  | nil => exact fun _ mem => absurd mem not_mem_nil
  | cons slot rest ih =>
    obtain ⟨roomy, first, tidy⟩ := Tidy.cons.mp tidy
    simp only [tryInsertDirEntry] at full
    have other : slot.name ≠ name ∧ tryInsertDirEntry ino name fileType rest = none := by
      split at full
      next free =>
        split at full
        · cases full
        next short =>
          refine ⟨fun same => short ?_, Option.map_eq_none_iff.mp full⟩
          rw [← same]
          exact roomy.2
      next taken =>
        have other := name_ne_of_taken absent taken
        split at full
        next narrow => exact absurd roomy.2 (Nat.not_le_of_lt narrow)
        · split at full
          · cases full
          · exact ⟨other, Option.map_eq_none_iff.mp full⟩
    rw [namesOf, table_cons, if_neg other.1] at absent
    exact forall_mem_cons.mpr ⟨other.1, ih tidy absent other.2⟩

theorem zeroEntryInBlock_tidy (tidy : Tidy old) (freed : zeroEntryInBlock name old = some new) :
    Tidy new ∧ namesOf new = update (namesOf old) name none := by
  induction old generalizing new with
  | nil => cases freed
  | cons slot rest ih =>
    obtain ⟨roomy, first, tidy⟩ := Tidy.cons.mp tidy
    simp only [zeroEntryInBlock] at freed
    split at freed
    next found =>
      cases freed
      refine ⟨Tidy.cons.mpr ⟨roomy, first, tidy⟩, funext fun k => ?_⟩
      simp only [table_cons, update_apply, ← found.2, eq_comm (a := k)]
      split
      · exact if_pos rfl
      · rfl
    next passed =>
      have other : slot.name ≠ name := fun same => passed ⟨roomy.1, same⟩
      obtain ⟨tail, found, rfl⟩ := Option.map_eq_some_iff.mp freed
      exact Tidy.pass roomy first other (ih tidy found)

theorem zeroEntryInBlock_none (tidy : Tidy old) (missed : zeroEntryInBlock name old = none) :
    namesOf old name = none := by
  induction old with
  | nil => rfl
  | cons slot rest ih =>
    obtain ⟨roomy, _, tidy⟩ := Tidy.cons.mp tidy
    simp only [zeroEntryInBlock] at missed
    split at missed
    · cases missed
    next passed =>
      have other : slot.name ≠ name := fun same => passed ⟨roomy.1, same⟩
      rw [namesOf, table_cons, if_neg other]
      exact ih tidy (Option.map_eq_none_iff.mp missed)

theorem Tidy.concat (tidy : Tidy old) (roomy : slot.Roomy) (other : ∀ a ∈ old, a.name ≠ slot.name) :
    Tidy (old ++ [slot]) := by
  refine ⟨fun a mem => ?_, tidy.shadowed.concat other⟩
  rcases mem_append.mp mem with before | last
  · exact tidy.roomy a before
  · exact mem_singleton.mp last ▸ roomy

/-! ## The blocks of a directory -/

def Splits (change : List Slot → Option (List Slot)) (admitted : Slot → Prop) : Prop :=
  ∀ first rest, (∀ slot ∈ first, admitted slot) →
    change (first ++ rest) = ((change first).map (· ++ rest)).or ((change rest).map (first ++ ·))

theorem splits_later (slot : Slot) (others rest : List Slot) (here behind : Option (List Slot)) :
    ((here.map (· ++ rest)).or (behind.map (others ++ ·))).map (slot :: ·) =
      ((here.map (slot :: ·)).map (· ++ rest)).or (behind.map (slot :: others ++ ·)) := by
  cases here <;> cases behind <;> rfl

theorem tryInsertDirEntry_splits : Splits (tryInsertDirEntry ino name fileType) Slot.Roomy := by
  intro first rest roomy
  induction first with
  | nil => simp [tryInsertDirEntry]
  | cons slot others ih =>
    have ih := ih fun other mem => roomy other (mem_cons_of_mem _ mem)
    have enough := (roomy slot mem_cons_self).2
    simp only [cons_append, tryInsertDirEntry, ih, if_neg (Nat.not_lt.mpr enough)]
    split
    · split
      · rfl
      · exact splits_later slot others rest _ _
    · split
      · rfl
      · exact splits_later slot others rest _ _

theorem zeroEntryInBlock_splits : Splits (zeroEntryInBlock name) fun _ => True := by
  intro first rest _
  induction first with
  | nil => simp [zeroEntryInBlock]
  | cons slot others ih =>
    simp only [cons_append, zeroEntryInBlock, ih fun _ _ => trivial]
    split
    · rfl
    · exact splits_later slot others rest _ _

theorem firstChange_records {change : List Slot → Option (List Slot)} {admitted : Slot → Prop}
    (splits : Splits change admitted) (empty : change [] = none) {block : Nat → Block} {blocks : List Nat}
    (once : blocks.Nodup) (good : ∀ b ∈ blocks, ∀ slot ∈ (block b).records, admitted slot) :
    change (blocks.flatMap fun b => (block b).records) = (firstChange block change blocks).map fun place =>
      blocks.flatMap fun b => (update block place.1 (.slots place.2) b).records := by
  induction blocks with
  | nil => exact empty
  | cons b rest ih =>
    obtain ⟨absent, once⟩ := nodup_cons.mp once
    have ih := ih once fun c mem => good c (mem_cons_of_mem _ mem)
    -- A block that is not among the others is changed, or one that is not this one.
    have apart : ∀ {c : Nat} {slots : List Slot} {others : List Nat}, c ∉ others →
        (others.flatMap fun b => (update block c (.slots slots) b).records) =
          others.flatMap fun b => (block b).records := by
      intro c slots others missing
      refine flatMap_congr fun d mem => ?_
      have other : d ≠ c := by
        rintro rfl
        exact missing mem
      rw [update_of_ne other]
    have found : firstChange block change (b :: rest) =
        ((change (block b).records).map fun slots => (b, slots)).or (firstChange block change rest) := by
      rw [firstChange, findSome?_cons]
      cases change (block b).records <;> rfl
    rw [flatMap_cons, splits _ _ (good b mem_cons_self), ih, found]
    cases changed : change (block b).records with
    | some new =>
      simp only [Option.map_some, Option.some_or, flatMap_cons, update_self, apart absent]
      rfl
    | none =>
      simp only [Option.map_none, Option.none_or, Option.map_map]
      refine Option.map_congr fun place found => ?_
      have inside : place.1 ∈ rest := by
        obtain ⟨c, mem, here⟩ := exists_of_findSome?_eq_some found
        obtain ⟨slots, _, rfl⟩ := Option.map_eq_some_iff.mp here
        exact mem
      have other : b ≠ place.1 := fun same => absent (same ▸ inside)
      rw [flatMap_cons, update_of_ne other]
      rfl

end Ext4.Volume
