import Ext4.Volume.Creators
import Ext4.Volume.OpenFiles

/-! Who owns which block, over whole runs.
Every call leaves each block with its one owner, whether it succeeds or fails, as long as it is
taken where directories name live inodes, where a file that is written over or an inode that needs
a block finds room, and through files that are in step with their inodes. -/

namespace Ext4.Volume
open Octets Alloc Store FS

variable {v : Shape} {s t : FS} {x y : View} {path : Path}

/-! ## Removals and renames -/

theorem Removing.healthy {count : Nat} (removing : Removing v x count s) : Healthy v s :=
  ⟨removing.toQuiet, removing.prunes.owned⟩

section
variable (healthy : Healthy v s)
include healthy

theorem Healthy.removing : Removing v (view v s.now) s.sb.inodesCount s :=
  ⟨healthy.toQuiet, .refl healthy.owned, rfl⟩

theorem changeDir_healthy (dir : Inode) (change : List Slot → Option (List Slot))
    (empty : change [] = none) : (changeDir dir change).Meets s
      (fun _ t => Healthy v t ∧ (view v t.now).inode = (view v s.now).inode) fun _ t => Healthy v t := by
  apply (changeDir_meets (v := v) healthy.closed dir change).mono
  · rintro _ t (⟨b, slots, place, shown, frame⟩ | ⟨_, rfl⟩)
    · obtain ⟨_, old, was, _⟩ := firstChange_some place empty
      refine ⟨healthy.frame frame ?_, by rw [shown]⟩
      rw [shown]
      exact healthy.owned.writeSlots was slots
    · exact ⟨healthy, rfl⟩
  · rintro _ t rfl
    exact healthy

theorem Healthy.writeInode {i : Nat} (low : 0 < i) {n : Inode}
    (mapping : n.mapping = ((view v s.now).inode i).mapping) : Healthy v (s.writeInode v i n) := by
  obtain ⟨shown, frame⟩ := writeInode_spec low n
  apply healthy.frame frame
  rw [shown]
  exact healthy.owned.writeInode fun _ => mapping

theorem moveEntry_healthy {oldNum newNum src : Nat} {oldParent newParent n : Inode}
    (oldLow : 0 < oldNum) (newLow : 0 < newNum)
    (oldMapping : oldParent.mapping = ((view v s.now).inode oldNum).mapping)
    (newMapping : newParent.mapping = ((view v s.now).inode newNum).mapping) (oldName newName : Name) :
    (moveEntry v oldNum oldParent oldName newNum newParent newName src n).Meets s
      (fun _ => Healthy v) fun _ => Healthy v := by
  refine (addDirEntry_healthy healthy newLow newMapping src newName n.fileType).step ?_
  rintro ⟨parent, held⟩ t ⟨healthy', mapping, others⟩
  refine (changeDir_healthy healthy' oldParent (zeroEntryInBlock oldName) rfl).step ?_
  rintro _ u ⟨healthy'', inode⟩
  split
  next moved =>
    refine (changeDir_healthy healthy'' n (setDotDot newNum) rfl).step ?_
    rintro _ w ⟨dotted, inode'⟩
    simp only [meets_bind, meets_modify]
    have first : Healthy v (w.writeInode v oldNum oldParent.dropLink) := by
      apply dotted.writeInode oldLow
      rw [inode', inode, others oldNum moved.2]
      exact oldMapping
    apply first.writeInode newLow
    rw [(writeInode_spec oldLow _).1]
    dsimp only
    rw [Function.update_of_ne (Ne.symm moved.2), inode', inode]
    exact mapping
  · exact healthy''

/-- The parents' inodes are read before the destination is removed; a removal keeps all mappings. -/
theorem rename_healthy (linked : (view v s.now).Linked s.sb.inodesCount) (fuel : Nat)
    (oldPath newPath : Path) :
    (rename v fuel oldPath newPath).Meets s (fun _ => Healthy v) fun _ => Healthy v := by
  have rule := removing_rule (v := v) healthy.owned linked
  refine .look ?_ fun _ _ => healthy
  rintro ⟨oldNum, oldParent, oldName⟩ searchOld
  have oldKnown := healthy.parent linked searchOld
  refine .look ?_ fun _ _ => healthy
  rintro ⟨newNum, newParent, newName⟩ searchNew
  have newKnown := healthy.parent linked searchNew
  dsimp only
  split
  · exact healthy
  refine .look (fun found _ => ?_) fun _ _ => healthy
  cases found with
  | none => exact healthy
  | some source =>
    obtain ⟨src, n⟩ := source
    -- Whatever was removed at the destination, the parents map what they mapped.
    have moves : ∀ t, Removing v (view v s.now) s.sb.inodesCount t →
        (moveEntry v oldNum oldParent oldName newNum newParent newName src n).Meets t
          (fun _ => Healthy v) fun _ => Healthy v := by
      intro t removing
      apply moveEntry_healthy removing.healthy oldKnown.low newKnown.low
      · rw [removing.prunes.mapping, oldKnown.mapping]
      · rw [removing.prunes.mapping, newKnown.mapping]
    refine .look (fun existing _ => ?_) fun _ _ => healthy
    cases existing with
    | none => exact moves s healthy.removing
    | some old =>
      obtain ⟨dst, m⟩ := old
      have replaced : (replace v fuel newPath n m).Meets s
          (fun _ => Removing v (view v s.now) s.sb.inodesCount)
          fun _ => Removing v (view v s.now) s.sb.inodesCount := by
        unfold replace
        split
        · exact healthy.removing
        split
        · exact healthy.removing
        split
        · exact rule.removeDir healthy.removing fuel newPath
        · exact rule.removeFile healthy.removing newPath
      exact replaced.seq (fun _ t => moves t) fun _ _ failed => failed.healthy

/-! ## The other calls -/

theorem chmod_healthy (path : Path) (bits : Nat) :
    (chmod v path bits).Meets s (fun _ => Healthy v) fun _ => Healthy v := by
  refine .look ?_ fun _ _ => healthy
  rintro ⟨i, _⟩ _
  refine .look (fun n read => ?_) fun _ _ => healthy
  obtain ⟨low, _, rfl⟩ := readInode_ok read
  rw [meets_modify, healthy.shown]
  exact healthy.writeInode low rfl

theorem setLabel_healthy (label : Bytes) :
    (setLabel label).Meets s (fun _ => Healthy v) fun _ => Healthy v := by
  have closed := healthy.closed
  unfold setLabel
  split
  · exact healthy
  · rw [meets_modify]
    refine ⟨⟨closed, healthy.unreserved⟩, ?_⟩
    have owned := healthy.owned
    rw [now_of_none s closed] at owned
    rw [now_of_none]
    · change (view v (Function.update s.image .super _)).Owned
      rwa [view_super]
    · exact closed

end

/-! ## Runs -/

def Action.Safe (v : Shape) (action : Action) (w : World) : Prop :=
  match action with
  | .writeFile path data _ => (view v w.fs.now).Linked w.fs.sb.inodesCount ∧ w.fs.Fits v path data
  | .mkDir _ _ => (view v w.fs.now).Linked w.fs.sb.inodesCount ∧
      (w.fs.journal = false → w.fs.Spare v)
  | .symlink target _ => (view v w.fs.now).Linked w.fs.sb.inodesCount ∧
      (60 < target.length → w.fs.Spare v)
  | .link _ _ | .deleteFile _ | .deleteDir _ _ | .rename _ _ _ =>
      (view v w.fs.now).Linked w.fs.sb.inodesCount
  | .writeAt file _ _ | .truncate file _ => ∀ f, w.files[file]? = some f → f.InSync v w.fs
  | .openFile _ | .chmod _ _ | .setLabel _ => True

def Action.TakesBlock : Action → Prop
  | .mkDir _ _ | .symlink _ _ => True
  | _ => False

variable {w w' : World} {action : Action}

theorem World.call_keeps {prog : Prog FS Err Unit} {holds : FS → Prop}
    (spec : prog.Meets w.fs (fun _ => holds) fun _ => holds) : holds (w.call prog).2.fs := by
  unfold World.call
  unfold Prog.Meets at spec
  split at spec <;> simp_all

theorem World.onFile_healthy (healthy : Healthy v w.fs) {file : Nat} {prog : File → Prog FS Err File}
    {left : File → FS → File}
    (spec : ∀ f, w.files[file]? = some f → (prog f).Meets w.fs (fun _ => Healthy v) fun _ => Healthy v) :
    Healthy v (w.onFile file prog left).2.fs := by
  unfold World.onFile
  split
  · exact healthy
  next f opened =>
    have meets := spec f opened
    unfold Prog.Meets at meets
    split at meets <;> simp_all

theorem Entered.healthy (entered : Entered v path s t) : Healthy v t := by
  obtain ⟨_, _, _, gained, _⟩ := entered
  exact gained.healthy

theorem perform_healthy (narrow : action.TakesBlock → v.blocksPerGroup < 2 ^ v.descBits)
    (healthy : Healthy v w.fs) (safe : action.Safe v w) : Healthy v (perform v w action).2.fs := by
  have entered : ∀ {prog : Prog FS Err Unit} {path : Path},
      (prog.Meets w.fs (fun _ => Entered v path w.fs) fun _ => Entered v path w.fs) →
        Healthy v (w.call prog).2.fs := fun spec => (World.call_keeps spec).healthy
  have removed : ∀ {prog : Prog FS Err Unit},
      (prog.Meets w.fs (fun _ => Removing v (view v w.fs.now) w.fs.sb.inodesCount)
        fun _ => Removing v (view v w.fs.now) w.fs.sb.inodesCount) →
        Healthy v (w.call prog).2.fs := fun spec => (World.call_keeps spec).healthy
  cases action with
  | writeFile path data perm => exact entered (writeFile_entered healthy safe.1 path safe.2 perm)
  | mkDir path perm => exact entered (makeDir_entered (narrow trivial) healthy safe.1 path safe.2 perm)
  | symlink target path =>
    exact entered (makeSymlink_entered (narrow trivial) healthy safe.1 target path safe.2)
  | link oldPath newPath => exact entered (makeLink_entered healthy safe oldPath newPath)
  | deleteFile path =>
    exact removed ((removing_rule healthy.owned safe).removeFile healthy.removing path)
  | deleteDir fuel path =>
    exact removed ((removing_rule healthy.owned safe).removeDir healthy.removing fuel path)
  | rename fuel oldPath newPath =>
    exact World.call_keeps (rename_healthy healthy safe fuel oldPath newPath)
  | openFile path =>
    have same := (openFile_opens (v := v) (s := w.fs) path).imp fun _ _ opens => opens.1
    unfold Prog.Meets at same
    simp only [perform]
    split at same <;> simp_all
  | writeAt file data off =>
    exact World.onFile_healthy healthy fun f opened => writeAt_healthy healthy (safe f opened) data off
  | truncate file size =>
    exact World.onFile_healthy healthy fun f opened => truncate_healthy healthy (safe f opened) size
  | chmod path bits => exact World.call_keeps (chmod_healthy healthy path bits)
  | setLabel label => exact World.call_keeps (setLabel_healthy healthy label)

theorem step_eq (taken : step v action w = some w') : (perform v w action).2 = w' := by
  unfold step at taken
  split at taken
  · cases taken
  next ended =>
    cases taken
    rw [ended]

theorem step_healthy (narrow : v.blocksPerGroup < 2 ^ v.descBits) (healthy : Healthy v w.fs)
    (safe : action.Safe v w) (taken : step v action w = some w') : Healthy v w'.fs :=
  step_eq taken ▸ perform_healthy (fun _ => narrow) healthy safe

/-! ## From a formatted volume -/

section
variable (total : Nat) (label : Bytes) (journal : Bool)

theorem fmtDescBlocks_le (addressable : total + fmtBlocksPerGroup ≤ 2 ^ 32) : fmtDescBlocks total ≤ 1024 := by
  unfold fmtBlocksPerGroup at addressable
  unfold fmtDescBlocks fmtGroups fmtBlocksPerGroup fmtBlockSize
  omega

theorem formatted_inode (i : Nat) : (view (fmtShape total) (formatted total label journal).now).inode i =
      if i = rootIno then fmtRootInode total else .zero := by
  change (if i = 0 then Inode.zero else if (i - 1) / 256 = 0 ∧ (i - 1) % 256 / 16 = 0 ∧
    (i - 1) % 256 % 16 = 1 then fmtRootInode total else .zero) = _
  unfold rootIno
  split
  next none_ => rw [if_neg (by omega)]
  next => exact if_congr (by omega) rfl rfl

theorem formatted_mapped (i : Nat) : (view (fmtShape total) (formatted total label journal).now).mapped i =
      if i = rootIno then [fmtRootBlock total] else [] := by
  rw [View.mapped, formatted_inode]
  split
  · exact blocksOf_single 0 _
  · rfl

theorem formatted_healthy (addressable : total + fmtBlocksPerGroup ≤ 2 ^ 32) :
    Healthy (fmtShape total) (formatted total label journal) := by
  have few := fmtDescBlocks_le total addressable
  have mapped := formatted_mapped total label journal
  refine ⟨⟨rfl, fun _ => rfl⟩, ?_, ?_, ?_⟩
  · intro i alive b mem
    rw [mapped] at mem
    split at mem
    · rw [List.mem_singleton.mp mem]
      have inFirst : fmtRootBlock total < fmtBlocksPerGroup := by
        unfold fmtRootBlock fmtInodeTableBlocks fmtBlocksPerGroup
        omega
      have marked : fmtRootBlock total < fmtMetaBlocks total 0 := by
        change _ < (1 + fmtDescBlocks total) + 2 + fmtInodeTableBlocks + 1
        unfold fmtRootBlock
        omega
      change (decide (fmtRootBlock total < 0) || (decide (fmtRootBlock total % fmtBlocksPerGroup <
        fmtMetaBlocks total (fmtRootBlock total / fmtBlocksPerGroup)) || _))
      rw [Nat.mod_eq_of_lt inFirst, Nat.div_eq_of_lt inFirst]
      simp [marked]
    · cases mem
  · intro i alive
    rw [mapped]
    split
    · exact List.nodup_singleton _
    · exact List.nodup_nil
  · intro i j alive alive' different
    rw [mapped, mapped]
    intro b mem mem'
    split at mem
    · split at mem'
      next first second => exact different (first.trans second.symm)
      · cases mem'
    · cases mem

end

/-- Over every run of safe calls from a formatted volume, every block that a live inode maps is
marked used, and is mapped by that inode alone and once. -/
theorem blocks_owned {total : Nat} (addressable : total + fmtBlocksPerGroup ≤ 2 ^ 32) (label : Bytes) (journal : Bool)
    {final : World} (run : Machine.Reaches (step (fmtShape total)) (Action.Safe (fmtShape total))
      ⟨formatted total label journal, []⟩ final) : (view (fmtShape total) final.fs.image).Owned := by
  have narrow : (fmtShape total).blocksPerGroup < 2 ^ (fmtShape total).descBits := by
    change 32768 < 2 ^ 16
    decide
  have healthy : (fun w : World => Healthy (fmtShape total) w.fs) final :=
    run.invariant (formatted_healthy total label journal addressable)
      fun _ _ _ before safe taken => step_healthy narrow before safe taken
  rw [healthy.shown]
  exact healthy.owned

/-! ## An overwrite without room -/

section
variable {inTx : Bool} {i k : Nat} {n : Inode} {data : Bytes} {extents : List Extent}

theorem allocBlocks_error : (allocBlocks v inTx k).Meets s (fun _ _ => True) fun e _ => e = .noFreeBlocks :=
  allocBlocks_rule (fun _ => rfl) fun _ _ _ => trivial

theorem storeFile_unfit {start : FS} (closed : start.tx = none) (began : Began inTx start s)
    (full : ¬ start.HasRoom v (blocksFor v data) []) (num : Nat) (dir : Inode) (name : Name)
    (existing : Option (Nat × Inode)) (perm : Nat) :
    (storeFile v inTx num dir name existing perm data).Meets s (fun _ _ => False)
      fun e t => e = .noFreeBlocks ∧ t.now = start.now ∧ t.tx = none := by
  unfold storeFile
  rw [meets_bind, meets_onFailure]
  refine ((allocBlocks_outcome (began.unopened closed)).and allocBlocks_error).mono ?_ ?_
  · exact fun _ _ good => (full ((began.room _ _).mp good.1)).elim
  · rintro e t ⟨⟨_, rfl⟩, rfl⟩
    refine ⟨rfl, ?_⟩
    subst began
    cases inTx with
    | true =>
      rw [now_of_none start closed]
      exact ⟨rfl, rfl⟩
    | false => exact ⟨rfl, closed⟩

theorem writeFile_unfit (closed : s.tx = none) (named : s.namedBy v path = .ok (some (i, n)))
    (regular : n.kind = .regular) (parsed : s.parseExtents n.mapping = .ok extents)
    (full : ¬ s.HasRoom v (blocksFor v data) (blocksOf extents)) (perm : Nat) :
    (writeFile v path data perm).Meets s (fun _ _ => False) fun e t => e = .noFreeBlocks ∧
      t.tx = none ∧ (view v s.image).Releases (view v t.image) (blocksOf extents) ∧
      ∀ b ∈ blocksOf extents, v.firstDataBlock ≤ b → (view v t.image).used b = false := by
  obtain ⟨⟨num, parent, name⟩, search, named⟩ := Prog.bind_eq_ok.mp named
  obtain ⟨dir, read, found⟩ := Prog.bind_eq_ok.mp named
  obtain ⟨releases, frame⟩ := freeBlocks_spec closed (blocksOf extents)
  refine .known search (.known read (.known found ?_))
  rw [if_neg (by simp [regular])]
  refine (freeInodeBlocks_state n).seq ?_ fun _ _ failed => by simp [parsed] at failed
  rintro _ t rfl
  simp only [meets_bind, meets_read, meets_modify]
  rw [← (parseExtents_ok parsed).1]
  refine (storeFile_unfit (frame.toOuter.closed closed) rfl (fun room => full ((hasRoom_released closed).mp room)) num dir
    name _ perm).mono (fun _ _ no => no) ?_
  rintro e t ⟨rfl, now, ended⟩
  rw [now_of_none t ended] at now
  rw [now, ← now_of_none s closed]
  exact ⟨rfl, ended, releases, fun b mem low => freeBlocks_free closed mem low⟩

theorem step_unfit (closed : w.fs.tx = none) (named : w.fs.namedBy v path = .ok (some (i, n)))
    (regular : n.kind = .regular) (parsed : w.fs.parseExtents n.mapping = .ok extents)
    (full : ¬ w.fs.HasRoom v (blocksFor v data) (blocksOf extents)) (perm : Nat) : ∃ final,
    step v (.writeFile path data perm) w = some final ∧ final.files = w.files ∧
      final.fs.tx = none ∧ (view v w.fs.image).Releases (view v final.fs.image) (blocksOf extents) ∧
      ∀ b ∈ blocksOf extents, v.firstDataBlock ≤ b → (view v final.fs.image).used b = false := by
  have lost := writeFile_unfit closed named regular parsed full perm
  cases ran : writeFile v path data perm w.fs with
  | mk outcome t =>
    cases outcome with
    | ok a => exact (lost.ok ran).elim
    | error e =>
      obtain ⟨rfl, ended, releases, free⟩ := lost.error ran
      exact ⟨⟨t, w.files⟩, by simp only [step, perform, World.call, ran], rfl, ended, releases, free⟩

end

def lastBlock : World := (perform (fmtShape 22) ⟨formatted 22 [] true, []⟩ (.writeFile ['/', 'a'] [] 0)).2

theorem lastBlock_taken :
    perform (fmtShape 22) ⟨formatted 22 [] true, []⟩ (.writeFile ['/', 'a'] [] 0) = (.ok (), lastBlock) := by
  have ended : (perform (fmtShape 22) ⟨formatted 22 [] true, []⟩ (.writeFile ['/', 'a'] [] 0)).1 = .ok () := by
    decide
  rw [← ended]
  rfl

theorem lastBlock_step :
    step (fmtShape 22) (.writeFile ['/', 'a'] [] 0) ⟨formatted 22 [] true, []⟩ = some lastBlock := by
  rw [step, lastBlock_taken]

theorem lastBlock_safe :
    Action.Safe (fmtShape 22) (.writeFile ['/', 'a'] [] 0) ⟨formatted 22 [] true, []⟩ := by
  refine ⟨by decide +kernel, fun existing named => ?_⟩
  cases named
  exact fun unjournaled => by cases unjournaled

theorem blocks_owned_one : (view (fmtShape 22) lastBlock.fs.image).Owned :=
  blocks_owned (by decide) [] true (.next _ .start lastBlock_safe lastBlock_step)

def tooMuch : Bytes := List.replicate 4097 0

theorem full_of_marks (groups : s.groups (fmtShape 22) = 1) (unreserved : s.reserved ⟨0, true⟩ = [])
    (marks : ∀ bit, s.image (.bitmap ⟨0, true⟩) bit =
      (decide (bit ∈ [21]) || fmtImage 22 [] (.bitmap ⟨0, true⟩) bit)) :
    ¬ s.HasRoom (fmtShape 22) (blocksFor (fmtShape 22) tooMuch) (blocksOf [⟨0, 21, 1⟩]) := by
  have two : blocksFor (fmtShape 22) tooMuch = 2 := by
    rw [blocksFor, tooMuch, List.length_replicate]
    decide
  rw [two, blocksOf_single]
  rintro ⟨g, inRange, -, enough⟩
  have first : g = 0 := by omega
  subst first
  -- Every block is marked, so the one that is released is the only free one.
  have window : ∀ bit < fmtBlocksPerGroup, s.freed (fmtShape 22) [21] 0 bit =
      (decide (bit < 21) || decide (22 ≤ bit)) := by
    intro bit _
    have number : (fmtShape 22).blockOf 0 bit = bit := by
      change 0 * fmtBlocksPerGroup + 0 + bit = bit
      omega
    have formatted : fmtImage 22 [] (.bitmap ⟨0, true⟩) bit = (decide (bit < 21) || decide (22 ≤ bit)) :=
      rfl
    rw [freed, visible, unreserved, marks, formatted, number]
    by_cases here : bit = 21
    · simp [here]
    · have marked : (decide (bit < 21) || decide (22 ≤ bit)) := by
        simp only [Bool.or_eq_true, decide_eq_true_eq]
        omega
      simp [here, marked]
  have one := clearCount_window window
  change 2 ≤ clearCount fmtBlocksPerGroup _ at enough
  rw [one] at enough
  revert enough
  decide

theorem lastBlock_full : ¬ lastBlock.fs.HasRoom (fmtShape 22) (blocksFor (fmtShape 22) tooMuch)
    (blocksOf [⟨0, 21, 1⟩]) := by
  refine full_of_marks (by decide) (by decide) fun bit => ?_
  change (decide (bit ∈ [21]) || (fmtImage 22 [] (.bitmap ⟨0, true⟩) bit || false)) = _
  rw [Bool.or_false]

/-- Writing the file over with one octet too much leaves it with a block that is marked free. -/
theorem overwrite_frees_mapped : ∃ final,
    Machine.takeAll (step (fmtShape 22)) [.writeFile ['/', 'a'] [] 0, .writeFile ['/', 'a'] tooMuch 0]
      ⟨formatted 22 [] true, []⟩ = some final ∧ (view (fmtShape 22) final.fs.image).live 11 ∧
    21 ∈ (view (fmtShape 22) final.fs.image).mapped 11 ∧
    (view (fmtShape 22) final.fs.image).used 21 = false := by
  have named : lastBlock.fs.namedBy (fmtShape 22) ['/', 'a'] =
      .ok (some (11, ⟨.regular, 0, 1, 0, 8, .inline [⟨0, 21, 1⟩]⟩)) := by decide
  have closed : lastBlock.fs.tx = none := by decide
  have full := lastBlock_full
  have parsed : lastBlock.fs.parseExtents (.inline [⟨0, 21, 1⟩]) = .ok [⟨0, 21, 1⟩] := by decide
  have alive : (view (fmtShape 22) lastBlock.fs.image).live 11 := by decide
  have mapped : 21 ∈ (view (fmtShape 22) lastBlock.fs.image).mapped 11 := by decide
  have began := lastBlock_step
  -- What the state is made of is not needed any more.
  generalize lastBlock = world at closed named full parsed alive mapped began
  obtain ⟨final, taken, _, _, releases, free⟩ := step_unfit closed named rfl parsed full 0
  refine ⟨final, ?_, ?_, ?_, free 21 (by decide) (Nat.zero_le _)⟩
  · refine Option.bind_eq_some_iff.mpr ⟨world, began, ?_⟩
    exact Option.bind_eq_some_iff.mpr ⟨final, taken, rfl⟩
  · rwa [releases.live]
  · rwa [releases.mapped]

/-! ## Runs of removals -/

def Action.Removes : Action → Prop
  | .deleteFile _ | .deleteDir _ _ => True
  | _ => False

/-- Whatever is deleted and however the calls end, directories only lose entries and no block changes hands. -/
theorem removals_prune (healthy : Healthy v w.fs) (linked : (view v w.fs.now).Linked w.fs.sb.inodesCount)
    (run : Machine.Reaches (step v) (fun action _ => action.Removes) w w') :
    (view v w.fs.now).Prunes (view v w'.fs.now) := by
  have rule := removing_rule (v := v) healthy.owned linked
  have removing : Removing v (view v w.fs.now) w.fs.sb.inodesCount w'.fs := by
    induction run with
    | start => exact healthy.removing
    | next action _ removes taken removing =>
      rw [← step_eq taken]
      cases action with
      | deleteFile path => exact World.call_keeps (rule.removeFile removing path)
      | deleteDir fuel path => exact World.call_keeps (rule.removeDir removing fuel path)
      | _ => exact removes.elim
  exact removing.prunes

theorem removals_prune_last : ∃ final,
    perform (fmtShape 22) lastBlock (.deleteFile ['/', 'a']) = (.ok (), final) ∧
    ¬ (view (fmtShape 22) final.fs.now).live 11 ∧
    (view (fmtShape 22) lastBlock.fs.now).Prunes (view (fmtShape 22) final.fs.now) := by
  have ended : (perform (fmtShape 22) lastBlock (.deleteFile ['/', 'a'])).1 = .ok () := by decide
  have healthy : Healthy (fmtShape 22) lastBlock.fs :=
    step_healthy (by decide) (formatted_healthy 22 [] true (by decide)) lastBlock_safe lastBlock_step
  refine ⟨_, Prog.ended ended, by decide, removals_prune healthy (by decide +kernel)
    (.next (.deleteFile ['/', 'a']) .start trivial ?_)⟩
  rw [step, Prog.ended ended]

end Ext4.Volume
