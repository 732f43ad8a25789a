import Ext4.Volume.FailedUpdate

/-! Logical block numbers.
A leaf has 32 bits for the number of its first block, and `WriteAt` checks no offset against that: a
block from 2^32 on is allocated and recorded under another number, and only the loop that would
write to it finds out. -/

namespace Ext4.Volume
open Octets Alloc Store List

def FS.Covers (v : Shape) (s : FS) (ino lb : Nat) : Prop := ∃ e ∈ s.recorded v ino, e.covers lb

section
variable (v : Shape)

def FitsLeaf (octets : Bytes) (off : Nat) : Prop := (off + octets.length - 1) / v.blockSize < 2 ^ 32

instance (octets : Bytes) (off : Nat) : Decidable (FitsLeaf v octets off) :=
  inferInstanceAs (Decidable ((off + octets.length - 1) / v.blockSize < 2 ^ 32))

/-- A write that fails leaves the size and the map of the inode as they were, and the device too when
a number does not fit; a write that succeeds has leaves for its blocks besides those that were
there, all without a common block. -/
def Numbered (s : FS) (f : File) (octets : Bytes) (off : Nat) : Prop :=
  match writeAt v f octets off s with
  | (.error e, t) => e ≠ .panicked ∧ (view v t.now).inode f.ino = (view v s.now).inode f.ino ∧
      t.recorded v f.ino = s.recorded v f.ino ∧ (¬ FitsLeaf v octets off → t.image = s.image)
  | (.ok _, t) => FitsLeaf v octets off ∧ (t.recorded v f.ino).Pairwise Extent.Apart ∧
      ∀ lb, t.Covers v f.ino lb ↔ s.Covers v f.ino lb ∨ lb ∈ touched v off (off + octets.length)

end

variable {v : Shape} {s t start : FS} {f : File} {extents : List Extent} {b lb off stop : Nat}
  {octets : Bytes}

theorem exists_places_iff : (∃ b, Places extents lb b) ↔ ∃ e ∈ extents, e.covers lb := by
  constructor
  · rintro ⟨_, e, mem, covers, _⟩
    exact ⟨e, mem, covers⟩
  · rintro ⟨e, mem, covers⟩
    exact ⟨_, e, mem, covers, rfl⟩

/-! ## Files that are up to date -/

theorem File.UpToDate.inSync (current : f.UpToDate v s) : f.InSync v s :=
  ⟨current.alive, current.leaves.flatMap_right _⟩

theorem File.UpToDate.covers_iff (current : f.UpToDate v s) :
    s.Covers v f.ino lb ↔ ∃ b, Places f.extents lb b := by
  rw [exists_places_iff, FS.Covers]
  simp only [current.leaves.mem_iff]

theorem File.UpToDate.apart (current : f.UpToDate v s) (laid : Laid f.extents) :
    (s.recorded v f.ino).Pairwise Extent.Apart :=
  have symm : ∀ {e g : Extent}, e.Apart g → g.Apart e := fun apart => apart.symm
  (current.leaves.pairwise_iff symm).mp (laid.ordered.imp .inl)

theorem File.Recorded.upToDate (recorded : f.Recorded v s) (alive : (view v s.now).live f.ino) :
    f.UpToDate v s :=
  ⟨alive, recorded.size, List.Perm.of_eq recorded.lists.extentsOf.symm⟩

theorem File.UpToDate.writeInBlock (current : f.UpToDate v s) (backed : Backed v start s f.ino f.extents)
    (mem : b ∈ blocksOf f.extents) (at_ : Nat) (octets : Bytes) :
    f.UpToDate v (s.writeInBlock v b at_ octets) := by
  obtain ⟨shown, _⟩ := FS.writeInBlock_spec backed.closed b at_ octets
  have leaves : (s.writeInBlock v b at_ octets).recorded v f.ino = s.recorded v f.ino := by
    rw [FS.recorded, shown]
    refine View.extentsOf_congr fun c leaf => Function.update_of_ne ?_ ..
    rintro rfl
    exact backed.backs.apart leaf mem
  constructor
  · rw [shown]
    exact current.alive
  · rw [shown]
    exact current.size
  · rw [leaves]
    exact current.leaves

/-! ## Numbers that fit -/

theorem mem_missing : lb ∈ f.missing v off stop ↔ lb ∈ touched v off stop ∧ f.locate lb = none := by
  rw [File.missing, mem_filter, Option.isNone_iff_eq_none]

theorem laid_missing {blocks : List Nat} (laid : Laid f.extents) (narrow : (stop - 1) / v.blockSize < 2 ^ 32)
    (long : blocks.length = (f.missing v off stop).length)
    (once : (blocksOf (coalesceExtents (f.extents ++ singles (f.missing v off stop) blocks))).Nodup) :
    Laid (coalesceExtents (f.extents ++ singles (f.missing v off stop) blocks)) ∧
      ∀ lb, (∃ b, Places (coalesceExtents (f.extents ++ singles (f.missing v off stop) blocks)) lb b) ↔
        (∃ b, Places f.extents lb b) ∨ lb ∈ touched v off stop := by
  have small : ∀ b ∈ f.missing v off stop, b < 2 ^ 32 := fun b mem =>
    touched_narrow narrow b (mem_missing.mp mem).1
  have full : ∀ e ∈ f.extents ++ singles (f.missing v off stop) blocks, 0 < e.count := by
    intro e mem
    rcases mem_append.mp mem with old | new
    · exact laid.full e old
    · rw [(mem_singles new).1]
      exact Nat.one_pos
  have spec := coalesceExtents_spec
    (apart_singles laid ((nodup_range' ..).filter _) small fun b mem => (mem_missing.mp mem).2)
    full ((blocksOf_coalesceExtents _).nodup_iff.mp once)
  refine ⟨spec.1, fun lb => ?_⟩
  simp only [places_coalesceExtents, Places.append, exists_or]
  constructor
  · rintro (old | ⟨b, new⟩)
    · exact .inl old
    · exact .inr (mem_missing.mp (new.of_singles small)).1
  · rintro (old | touches)
    · exact .inl old
    · cases located : f.locate lb with
      | some b => exact .inl ⟨b, places_of_locate located⟩
      | none => exact .inr (exists_places_singles long small (mem_missing.mpr ⟨touches, located⟩))

/-- The file has a map that its inode has, too, with leaves for the whole range. -/
structure Mapped (v : Shape) (s t : FS) (f f' : File) (off stop : Nat) : Prop
    extends Backed v s t f'.ino f'.extents where
  same : f'.ino = f.ino
  current : f'.UpToDate v t
  laid : Laid f'.extents
  covers : ∀ lb, (∃ b, Places f'.extents lb b) ↔ (∃ b, Places f.extents lb b) ∨ lb ∈ touched v off stop

theorem mapRange_mapped (healthy : Healthy v s) (current : f.UpToDate v s) (laid : Laid f.extents)
    (narrow : (stop - 1) / v.blockSize < 2 ^ 32) :
    (mapRange v f off stop).Meets s (fun f' t => Mapped v s t f f' off stop) fun _ _ => True := by
  have backed := current.inSync.backed healthy
  have closed := healthy.closed
  -- What is persisted is read back.
  have committed : ∀ {t : FS} {merged : List Extent} (size : Nat), Backed v s t f.ino merged → Laid merged →
      (∀ lb, (∃ b, Places merged lb b) ↔ (∃ b, Places f.extents lb b) ∨ lb ∈ touched v off stop) →
      (commitFile v f merged size).Meets t (fun f' u => Mapped v s u f f' off stop) fun _ _ => True := by
    intro t merged size grown laid' covers
    refine (commitFile_backed grown size).yields ?_
    rintro f' u ⟨rfl, backed', recorded, _⟩
    exact ⟨backed', rfl, recorded.upToDate backed'.backs.alive, laid', covers⟩
  have covers (none_ : f.missing v off stop = []) (lb : Nat) : (∃ b, Places f.extents lb b) ↔
      (∃ b, Places f.extents lb b) ∨ lb ∈ touched v off stop := by
    refine ⟨.inl, Or.rec id fun touches => ?_⟩
    cases located : f.locate lb with
    | some b => exact ⟨b, places_of_locate located⟩
    | none =>
      have hole : lb ∈ f.missing v off stop := mem_missing.mpr ⟨touches, located⟩
      rw [none_] at hole
      cases hole
  refine mapRange_rule closed (Prog.Meets.any _ _) (fun none_ _ => ⟨backed, rfl, current, laid, covers none_⟩)
    (fun none_ => committed _ (backed.zeroSlack (List.Subset.refl _) _ _) laid (covers none_))
    (fun _ _ _ _ _ => trivial) (fun _ _ _ _ _ _ _ => trivial) ?_
  rintro blocks held t u _ - ⟨takes, -, -, fills, frames⟩ long rfl perm
  have grown := backed.takes takes fills frames perm
  obtain ⟨laid', covers⟩ := laid_missing laid narrow long grown.backs.once
  exact committed _ (grown.zeroSlack
    (fun b mem => perm.mem_iff.mpr (mem_append_left _ mem)) _ _) laid' covers

theorem Mapped.writeInBlock {f' : File} (mapped : Mapped v s t f f' off stop) (mem : b ∈ blocksOf f'.extents)
    (at_ : Nat) (octets : Bytes) : Mapped v s (t.writeInBlock v b at_ octets) f f' off stop where
  toBacked := mapped.toBacked.writeInBlock mem at_ octets
  same := mapped.same
  current := mapped.current.writeInBlock mapped.toBacked mem at_ octets
  laid := mapped.laid
  covers := mapped.covers

theorem writeAt_mapped (positive : 0 < v.blockSize) (healthy : Healthy v s)
    (current : f.UpToDate v s) (laid : Laid f.extents) (some : octets ≠ []) (fits : FitsLeaf v octets off) :
    (writeAt v f octets off).Meets s (fun f' t => Mapped v s t f f' off (off + octets.length))
      fun _ t => (view v s.now).Cleared (view v t.now) v f f.size ∧ Frame s t := by
  unfold writeAt
  rw [if_neg some]
  refine ((mapRange_mapped healthy current laid fits).and
    (mapRange_failed healthy.closed positive off (off + octets.length))).seq ?_ fun _ _ failed => failed.2
  rintro f' t ⟨mapped, _⟩
  -- Every block of the range is found, so the loop gets to its end.
  have loop : (Prog.forEach (writePart v f' octets off) (touched v off (off + octets.length))).Meets t
      (fun _ u => Mapped v s u f f' off (off + octets.length)) fun _ _ => False := by
    refine meets_forEach _ mapped fun lb touches u during => ?_
    obtain ⟨b, place⟩ := (during.covers lb).mpr (.inr touches)
    have located : f'.locate lb = Option.some b := during.laid.locate_iff.mpr place
    unfold writePart
    rw [located]
    exact during.writeInBlock place.mem _ _
  exact loop.seq (fun _ _ after => after) fun _ _ => False.elim

/-! ## Fewer than 2^32 blocks at once -/

theorem writeLeaf_error (inTx : Bool) : (writeLeaf v inTx extents).Meets s (fun _ _ => True)
    fun e _ => e = .noFreeBlocks :=
  allocBlocks_error.seq (fun _ _ _ => trivial) fun _ _ full => full

theorem writeExtentTree_calm : (writeExtentTree v extents).Meets s (fun _ _ => True)
    fun e _ => e ≠ .panicked := by
  by_cases few : extents.length ≤ 4
  · exact Prog.Meets.of_ok (if_pos few) trivial
  by_cases many : v.leafCap < extents.length
  · exact Prog.Meets.of_error ((if_neg few).trans (if_pos many)) (fun no => Err.noConfusion no)
  have calm : ∀ inTx t, (writeLeaf v inTx extents).Meets t (fun _ _ => True) fun e _ => e ≠ .panicked :=
    fun inTx t => (writeLeaf_error inTx).mono (fun _ _ _ => trivial) fun _ _ full no =>
      Err.noConfusion (full.symm.trans no)
  by_cases journal : s.journal
  · refine Prog.Meets.of_eq ((if_neg few).trans ((if_neg many).trans (if_pos journal))) ?_
    rw [meets_bind, meets_onFailure]
    exact (calm true _).mono (fun _ _ _ => trivial) fun _ _ ok => ok
  · refine Prog.Meets.of_eq ((if_neg few).trans ((if_neg many).trans (if_neg journal))) ?_
    exact (calm false s).step fun _ _ _ => trivial

theorem commitFile_calm (extents : List Extent) (size : Nat) : (commitFile v f extents size).Meets s
    (fun _ _ => True) fun e _ => e ≠ .panicked := by
  refine .look (fun _ _ => ?_) fun e bad => ?_
  · exact writeExtentTree_calm.step fun _ _ _ => trivial
  · rintro rfl
    simp only [FS.readInode] at bad
    split at bad <;> cases bad

theorem writeAt_calm (closed : s.tx = none) (few : (f.missing v off (off + octets.length)).length < 2 ^ 32) :
    (writeAt v f octets off).Meets s (fun _ _ => True) fun e _ => e ≠ .panicked := by
  unfold writeAt
  split
  · trivial
  · have mapped : (mapRange v f off (off + octets.length)).Meets s (fun _ _ => True)
        fun e _ => e ≠ .panicked := by
      refine mapRange_rule closed allocBlocks_error (fun _ _ => trivial) (fun _ => commitFile_calm _ _) ?_
        (fun _ _ _ _ _ _ many => absurd few (Nat.not_lt.mpr many)) fun _ _ _ _ _ _ _ _ _ _ => commitFile_calm _ _
      rintro _ _ rfl _ _ no
      cases no
    refine mapped.step fun f' t _ => ?_
    refine (writeParts_rule (fun _ => True) trivial (fun _ _ _ _ _ _ _ => trivial) octets off _).seq
      (fun _ _ _ => trivial) ?_
    rintro _ _ ⟨rfl, _⟩ no
    cases no

/-! ## Numbers that do not fit -/

theorem mapRange_missing (holes : f.missing v off stop ≠ []) : mapRange v f off stop = (do
    let (blocks, _) ← allocBlocks v false ((f.missing v off stop).length % 2 ^ 32)
    .modify fun s => blocks.foldl (fun s b => s.writeBlock b (.data (replicate v.blockSize 0))) s
    if blocks.length < (f.missing v off stop).length then .fail .panicked
    else do
      .modify (zeroSlack v f f.size (max f.size stop))
      commitFile v f (coalesceExtents (f.extents ++ singles (f.missing v off stop) blocks))
        (max f.size stop)) :=
  if_neg holes

theorem mapRange_takes (healthy : Healthy v s) (positive : 0 < v.blockSize)
    (holes : f.missing v off stop ≠ []) (room : s.HasRoom v ((f.missing v off stop).length % 2 ^ 32) []) :
    (mapRange v f off stop).Meets s (fun f' _ => (f.missing v off stop).length < 2 ^ 32 ∧
        ∃ b ∈ blocksOf f'.extents, (view v s.now).used b = false)
      fun e t => e = .panicked ∨ (f.missing v off stop).length < 2 ^ 32 ∧
        ∃ b, (view v s.now).used b = false ∧ (view v t.now).used b := by
  have closed := healthy.closed
  have began : Began false s s := rfl
  refine mapRange_rule closed ((allocBlocks_outcome (began.unopened closed)).and
      (allocBlocks_meets (by rw [closed]; rfl) (covered_of_none closed)))
    (fun none_ => absurd none_ holes) (fun none_ => absurd none_ holes)
    (fun _ _ lost => absurd room lost.1.1) (fun _ _ _ _ _ _ _ => .inl rfl) ?_
  rintro blocks held t u _ ⟨-, -, -, asked, -⟩ ⟨takes, -, -, fills, frames⟩ long rfl perm
  have few : (f.missing v off stop).length < 2 ^ 32 := by
    rw [← long, asked]
    exact Nat.mod_lt _ (by decide)
  obtain ⟨b, mem⟩ := exists_mem_of_length_pos (long ▸ length_pos_iff.mpr holes)
  have fresh := takes.fresh b mem
  refine ((commitFile_result _ _).and
    (growFile_failed (frames.toOuter.closed closed) (View.Leaks.refl _) frames positive _ _)).mono ?_ ?_
  · rintro f' w ⟨rfl, _⟩
    exact ⟨few, b, perm.mem_iff.mpr (mem_append_right _ mem), fresh⟩
  · rintro e w ⟨_, cleared, _⟩
    refine .inr ⟨few, b, fresh, cleared.grown b ?_⟩
    rw [fills.used]
    exact takes.marked b mem

theorem writeAt_takes (healthy : Healthy v s) (positive : 0 < v.blockSize)
    (current : f.UpToDate v s) (some : octets ≠ []) (holes : f.missing v off (off + octets.length) ≠ [])
    (room : s.HasRoom v ((f.missing v off (off + octets.length)).length % 2 ^ 32) []) :
    (writeAt v f octets off).Meets s
      (fun _ _ => (f.missing v off (off + octets.length)).length < 2 ^ 32)
      fun e t => e = .panicked ∨ (f.missing v off (off + octets.length)).length < 2 ^ 32 ∧
        ∃ b, (view v s.now).used b = false ∧ (view v t.now).used b := by
  unfold writeAt
  rw [if_neg some]
  refine ((mapRange_takes healthy positive holes room).and
    (mapRange_followed (current.inSync.backed healthy) off (off + octets.length))).seq ?_
    fun _ _ failed => failed.1
  rintro f' t ⟨⟨few, b, mem, fresh⟩, mapped⟩
  refine (writeParts_rule (Backed v s · f'.ino f'.extents) mapped.toBacked ?_ octets off _).seq
    (fun _ _ _ => few) fun _ u after => .inr ⟨few, b, fresh, after.2.backs.used b mem⟩
  exact fun _ _ _ _ _ located during => during.writeInBlock (locate_mem located) _ _

theorem writeAt_noRoom (closed : s.tx = none) (some : octets ≠ [])
    (holes : f.missing v off (off + octets.length) ≠ [])
    (full : ¬ s.HasRoom v ((f.missing v off (off + octets.length)).length % 2 ^ 32) []) :
    (writeAt v f octets off).Meets s (fun _ _ => False)
      fun e t => e = .noFreeBlocks ∧ t = s.advanceCursor := by
  unfold writeAt
  rw [if_neg some]
  refine (?_ : Prog.Meets _ _ (fun _ _ => False) fun e t => e = Err.noFreeBlocks ∧ t = s.advanceCursor).step
    fun _ _ => False.elim
  rw [mapRange_missing holes]
  have began : Began false s s := rfl
  exact ((allocBlocks_outcome (began.unopened closed)).and allocBlocks_error).seq
    (fun _ _ room => absurd room.1 full) fun _ _ failed => ⟨failed.2, failed.1.2⟩

/-- A write gives every block its own number exactly when the numbers fit 32 bits and so does the
count of the blocks that the file has not, or when there is no room for as many as are asked for. -/
theorem numbered_iff {octets : Bytes} (positive : 0 < v.blockSize) (healthy : Healthy v s)
    (current : f.UpToDate v s) (laid : Laid f.extents)
    (narrow : ∀ e ∈ f.extents, e.logBlock + e.count ≤ 2 ^ 32) (some : octets ≠ []) :
    Numbered v s f octets off ↔
      FitsLeaf v octets off ∧ (f.missing v off (off + octets.length)).length < 2 ^ 32 ∨
        ¬ s.HasRoom v ((f.missing v off (off + octets.length)).length % 2 ^ 32) [] := by
  unfold Numbered
  by_cases both : FitsLeaf v octets off ∧ (f.missing v off (off + octets.length)).length < 2 ^ 32
  · refine iff_of_true ?_ (.inl both)
    have fits := both.1
    cases ran : writeAt v f octets off s with
    | mk result t =>
      cases result with
      | ok f' =>
        have mapped := (writeAt_mapped positive healthy current laid some fits).ok ran
        have current' := mapped.current
        have apart := current'.apart mapped.laid
        rw [mapped.same] at apart
        refine ⟨fits, apart, fun lb => ?_⟩
        rw [current.covers_iff, ← mapped.covers, ← current'.covers_iff, mapped.same]
      | error e =>
        obtain ⟨cleared, frame⟩ := (writeAt_mapped positive healthy current laid some fits).error ran
        have backs := current.backs healthy
        refine ⟨(writeAt_calm healthy.closed both.2).error ran, congrFun cleared.inode f.ino, ?_,
          fun wide => absurd fits wide⟩
        rw [FS.recorded, cleared.inode]
        refine View.extentsOf_congr fun c leaf => ?_
        -- The leaf block is in use and no block of the file.
        have inUse := healthy.owned.used f.ino current.alive c (View.child_subset_mappedBy _ _ leaf)
        exact (cleared.block c inUse).resolve_right fun held =>
          backs.apart leaf (locate_mem held.1)
  · have holes : f.missing v off (off + octets.length) ≠ [] := by
      by_cases fits : FitsLeaf v octets off
      · intro none_
        exact both ⟨fits, by simp [none_]⟩
      -- The last block of the range is in no leaf.
      refine ne_nil_of_mem (mem_missing.mpr ⟨mem_touched_last some, ?_⟩)
      rw [Option.eq_none_iff_forall_ne_some]
      intro b located
      obtain ⟨e, mem, covers, _⟩ := places_of_locate located
      have := narrow e mem
      have := covers.2
      unfold FitsLeaf at fits
      omega
    by_cases room : s.HasRoom v ((f.missing v off (off + octets.length)).length % 2 ^ 32) []
    · refine iff_of_false ?_ fun either => either.elim both (fun full => full room)
      have takes := writeAt_takes healthy positive current some holes room
      cases ran : writeAt v f octets off s with
      | mk result t =>
        cases result with
        | ok f' => exact fun numbered => both ⟨numbered.1, takes.ok ran⟩
        | error e =>
          rintro ⟨calm, _, _, untouched⟩
          obtain ⟨few, b, free, taken⟩ := (takes.error ran).resolve_left calm
          have after : Healthy v t := (writeAt_healthy healthy current.inSync octets off).error ran
          rw [FS.now_of_none t after.closed, untouched fun fits => both ⟨fits, few⟩,
            ← FS.now_of_none s healthy.closed, free] at taken
          cases taken
    · refine iff_of_true ?_ (.inr room)
      cases ran : writeAt v f octets off s with
      | mk result t =>
        cases result with
        | ok f' => exact ((writeAt_noRoom healthy.closed some holes room).ok ran).elim
        | error e =>
          obtain ⟨rfl, rfl⟩ := (writeAt_noRoom healthy.closed some holes room).error ran
          exact ⟨fun no => Err.noConfusion no, rfl, rfl, fun _ => rfl⟩

theorem numbered_three : ∃ f u, threeOpened = (.ok f, u) ∧ Numbered (fmtShape 22) u f [9] 1 := by
  have laid : Laid [⟨0, 21, 1⟩] := ⟨pairwise_singleton _ _, by decide, by decide⟩
  exact ⟨_, _, threeOpened_eq, (numbered_iff (by decide) threeOpened_healthy threeOpened_current laid
    (by decide) (by decide)).mpr (.inl ⟨by decide, by decide⟩)⟩

def oneSpare : Except Err File × FS :=
  (do
    writeFile (fmtShape 23) ['/', 'a'] [1, 2, 3] 0o644
    openFile (fmtShape 23) ['/', 'a'] : Prog FS Err File) (formatted 23 [] true)

/-- Writing to logical block 2^32 fails, but the inode has the new size by then, and two leaves for
logical block 0. -/
theorem wrapped_block_recorded : ∃ f u t, oneSpare = (.ok f, u) ∧
    writeAt (fmtShape 23) f [9] (2 ^ 32 * 4096) u = (.error .unmapped, t) ∧
    u.recorded (fmtShape 23) f.ino = [⟨0, 21, 1⟩] ∧
    t.recorded (fmtShape 23) f.ino = [⟨0, 21, 1⟩, ⟨0, 22, 1⟩] ∧
    ((view (fmtShape 23) t.now).inode f.ino).size = 2 ^ 32 * 4096 + 1 := by
  have opened : oneSpare = (.ok ⟨11, [⟨0, 21, 1⟩], 3⟩, oneSpare.2) := Prog.ended (by decide)
  have failed : writeAt (fmtShape 23) ⟨11, [⟨0, 21, 1⟩], 3⟩ [9] (2 ^ 32 * 4096) oneSpare.2 = (.error .unmapped,
      (writeAt (fmtShape 23) ⟨11, [⟨0, 21, 1⟩], 3⟩ [9] (2 ^ 32 * 4096) oneSpare.2).2) :=
    Prog.ended (by decide)
  refine ⟨_, _, _, opened, failed, ?_, ?_, ?_⟩
  all_goals decide

end Ext4.Volume
