import Ext4.Volume.OwnedRuns
import Ext4.Volume.Written

/-! Where an open file writes.
A file whose blocks its inode still has writes data to blocks of that inode, zeros to blocks it has
just taken for it, and commits only maps of such blocks; at every moment each of these blocks is
marked used and nobody else's. -/

namespace Ext4.Volume
open Octets Alloc Store List Function FS

variable {v : Shape} {s t start : FS} {first : Image} {x y : View} {ino b : Nat}
  {extents : List Extent} {f : File}

def View.dataBlocks (x : View) (ino : Nat) : List Nat := blocksOf (x.extentsOf (x.inode ino).mapping)

/-- The inode is live, and the block is marked used and mapped by no other inode. -/
structure View.Belongs (x : View) (ino b : Nat) : Prop where
  alive : x.live ino
  used : x.used b
  own : (x.without ino).Unowned b

/-- What a call on a file of inode `ino` may write; `first` is the image that the call found. -/
def MayWrite (v : Shape) (first : Image) (ino : Nat) (img : Image) : Write Content → Prop
  | ⟨.block b, .data content⟩ => (view v img).Belongs ino b ∧
      (b ∈ (view v img).dataBlocks ino ∨
        -- A block that was free is set to zeros before the map has it.
        (view v first).used b = false ∧ content = replicate v.blockSize 0)
  | ⟨.itable g k, inodes⟩ => ∀ b ∈ (view v (update img (.itable g k) inodes)).mapped ino,
      (view v (update img (.itable g k) inodes)).Belongs ino b
  | _ => True

theorem Metadata.mayWrite {img : Image} {write : Write Content} (meta_ : Metadata write) :
    MayWrite v first ino img write := by
  obtain ⟨cell, content⟩ := write
  cases cell with
  | block b =>
    cases content with
    | data octets => exact meta_.elim
    | target _ | slots _ | leaf _ => trivial
  | itable g k => exact meta_.elim
  | super | descs _ | bitmap _ => trivial

theorem Plainly.did (plainly : Plainly s t) (closed : s.tx = none) : Did (MayWrite v first ino) s t :=
  (plainly (plain_of_none closed)).2.mono fun _ _ meta_ => meta_.mayWrite

theorem View.Backs.belongs (backs : x.Backs ino extents) (mem : b ∈ blocksOf extents) : x.Belongs ino b :=
  ⟨backs.alive, backs.used b mem, backs.own b mem⟩

theorem View.Owned.belongs (owned : x.Owned) (alive : x.live ino) (mapped : b ∈ x.mapped ino) :
    x.Belongs ino b :=
  ⟨alive, owned.used ino alive b mapped, owned.unowned_without alive mapped⟩

/-! ## Writes into the blocks of the file -/

theorem View.dataBlocks_writeBlock (other : b ∉ (x.inode ino).mapping.child) (content : Block) :
    ({ x with block := update x.block b content } : View).dataBlocks ino = x.dataBlocks ino :=
  congrArg blocksOf (View.extentsOf_congr fun c leaf => update_of_ne (fun same => other (by rwa [← same])) ..)

theorem View.Leaks.dataBlocks (leaks : x.Leaks y) (owned : x.Owned) (alive : x.live ino) :
    y.dataBlocks ino = x.dataBlocks ino := by
  rw [View.dataBlocks, leaks.inode]
  exact congrArg blocksOf (View.extentsOf_congr fun c leaf =>
    leaks.block c (owned.used ino alive c (x.child_subset_mappedBy _ leaf)))

def StillHas (v : Shape) (s : FS) (ino : Nat) (extents : List Extent) : Prop :=
  blocksOf extents ⊆ (view v s.now).dataBlocks ino

section
variable (backed : Backed v start s ino extents)
include backed

theorem Backed.did_writeInBlock (mem : b ∈ blocksOf extents) (mapped : b ∈ (view v s.now).dataBlocks ino)
    (at_ : Nat) (octets : Bytes) : Did (MayWrite v first ino) s (s.writeInBlock v b at_ octets) := by
  refine Did.direct ⟨?_, .inl ?_⟩ <;> rw [← now_of_none s backed.closed]
  · exact backed.backs.belongs mem
  · exact mapped

theorem Backed.dataBlocks_writeInBlock (mem : b ∈ blocksOf extents) (at_ : Nat) (octets : Bytes) :
    (view v (s.writeInBlock v b at_ octets).now).dataBlocks ino = (view v s.now).dataBlocks ino := by
  rw [(writeInBlock_spec backed.closed b at_ octets).1]
  exact View.dataBlocks_writeBlock (backed.backs.noLeaf mem ino backed.backs.alive) _

theorem Backed.did_zeroSlack (sub : blocksOf f.extents ⊆ blocksOf extents)
    (known : StillHas v s ino f.extents) (oldSize newSize : Nat) :
    Did (MayWrite v first ino) s (Volume.zeroSlack v f oldSize newSize s) := by
  unfold Volume.zeroSlack
  dsimp only
  split
  · exact Did.refl s
  · split
    · exact Did.refl s
    next b located =>
      exact backed.did_writeInBlock (sub (locate_mem located)) (known (locate_mem located)) _ _

end

/-! ## New blocks -/

/-- Blocks that nobody has yet are written; their number says nothing about the leaf blocks. -/
theorem did_zeroFill (blocks : List Nat) (closed : s.tx = none) (owned : (view v s.now).Owned)
    (alive : (view v s.now).live ino)
    (taken : ∀ b ∈ blocks, (view v s.now).used b ∧ (view v s.now).Unowned b)
    (fresh : ∀ b ∈ blocks, (view v first).used b = false) :
    Did (MayWrite v first ino) s (blocks.foldl (fun s b =>
      s.writeBlock b (.data (replicate v.blockSize 0))) s) := by
  induction blocks generalizing s with
  | nil => exact Did.refl s
  | cons b rest ih =>
    obtain ⟨inUse, nobody⟩ := taken b mem_cons_self
    have noLeaf : ∀ i, (view v s.now).live i → b ∉ ((view v s.now).inode i).mapping.child :=
      fun i alive => nobody.child alive
    have shown : view v (s.writeBlock b (.data (replicate v.blockSize 0))).now = _ :=
      (writeBlock_spec b _).1
    have wrote : Did (MayWrite v first ino) s
        (s.writeBlock b (.data (replicate v.blockSize 0))) := by
      refine Did.put closed ⟨?_, .inr ⟨fresh b mem_cons_self, rfl⟩⟩
      rw [← now_of_none s closed]
      exact ⟨alive, inUse, nobody.without ino⟩
    refine wrote.trans
      (ih (put_closed _ closed) ?_ ?_ ?_ fun c later => fresh c (mem_cons_of_mem _ later))
    · rw [shown]
      exact owned.writeBlock _ noLeaf
    · rw [shown]
      exact alive
    · intro c later
      obtain ⟨inUse', nobody'⟩ := taken c (mem_cons_of_mem _ later)
      rw [shown]
      refine ⟨inUse', fun i alive' mapped => nobody' i alive' ?_⟩
      rwa [View.mapped_writeBlock noLeaf alive'] at mapped

/-! ## The map -/

theorem commitFile_did (backed : Backed v start s f.ino extents) (size : Nat) :
    (commitFile v f extents size).Meets s (fun _ => Did (MayWrite v first f.ino) s)
      fun _ => Did (MayWrite v first f.ino) s := by
  have closed := backed.closed
  have backs := backed.backs
  refine .look (fun n read => ?_) fun _ _ => Did.refl s
  refine ((writeExtentTree_meets closed extents).and
    (writeExtentTree_plainly extents s)).seq ?_ fun _ t failed => failed.2.did closed
  rintro m t ⟨⟨lays, frame⟩, plainly⟩
  simp only [meets_bind, meets_modify, meets_pure]
  have closed' := frame.toOuter.closed closed
  set new : Inode := { n with
    mapping := m
    size := size
    sectors := (extents.map Extent.count).sum * (v.blockSize / 512) % 2 ^ 32 }
  have lays : (view v s.now).Lays (view v t.now) new.mapping extents := lays
  obtain ⟨shown, frame'⟩ := writeInode_spec (live_pos backs.alive) new
  have remapped := backs.remap lays
  have wrote : Did (MayWrite v first f.ino) t (t.writeInode v f.ino new) := by
    have now := put_now t ⟨.itable (v.inodeGroup f.ino) (v.inodeTableBlock f.ino),
      setInode v f.ino new (t.now (.itable (v.inodeGroup f.ino) (v.inodeTableBlock f.ino)))⟩
    refine Did.put closed' fun b mapped => ?_
    rw [← now_of_none t closed', ← now] at mapped ⊢
    change b ∈ (view v (t.writeInode v f.ino new).now).mapped f.ino at mapped
    change (view v (t.writeInode v f.ino new).now).Belongs f.ino b
    rw [shown] at mapped ⊢
    exact remapped.owned.belongs remapped.alive mapped
  refine ((plainly.did closed).trans wrote).trans ?_
  exact (Plainly.freeBlocks _ _).did (frame'.toOuter.closed closed')

theorem commitFile_has (backed : Backed v start s f.ino extents) (size : Nat) :
    (commitFile v f extents size).Meets s (fun f' t => StillHas v t f'.ino f'.extents) fun _ _ => True := by
  refine (commitFile_backed backed size).yields ?_
  rintro f' t ⟨rfl, _, recorded, _⟩
  rw [StillHas, View.dataBlocks, recorded.lists.extentsOf]
  exact List.Subset.refl _

theorem mapRange_did (backed : Backed v start s f.ino f.extents) (known : StillHas v s f.ino f.extents)
    (fresh : (view v first).Leaks (view v s.now)) (off stop : Nat) : (mapRange v f off stop).Meets s
      (fun f' t => Did (MayWrite v first f.ino) s t ∧ StillHas v t f'.ino f'.extents)
      fun _ => Did (MayWrite v first f.ino) s := by
  have closed := backed.closed
  -- Both branches end with the slack and the commit.
  have finish {u : FS} {others : List Extent} (did : Did (MayWrite v first f.ino) s u)
      (backed : Backed v start u f.ino others) (sub : blocksOf f.extents ⊆ blocksOf others)
      (known : StillHas v u f.ino f.extents) (size : Nat) :
      (commitFile v f others size).Meets (zeroSlack v f f.size size u)
        (fun f' t => Did (MayWrite v first f.ino) s t ∧ StillHas v t f'.ino f'.extents)
        fun _ => Did (MayWrite v first f.ino) s := by
    have slack : Did (MayWrite v first f.ino) s _ :=
      did.trans (backed.did_zeroSlack sub known f.size size)
    have backed' := backed.zeroSlack sub f.size size
    exact ((commitFile_did backed' size).and (commitFile_has backed' size)).mono
      (fun _ _ good => ⟨slack.trans good.1, good.2⟩) fun _ _ bad => slack.trans bad.1
  have owned := backed.backs.owned
  have filled {t u : FS} {blocks : List Nat} (plainly : Plainly s t) (zeroed : Zeroed v s t u blocks) :
      Did (MayWrite v first f.ino) s u := by
    obtain ⟨takes, frame, rfl, _, _⟩ := zeroed
    refine (plainly.did closed).trans (did_zeroFill blocks (frame.toOuter.closed closed)
      (owned.leaks takes.leaks) (takes.leaks.live ▸ backed.backs.alive) (fun b mem => ?_)
      fun b mem => fresh.free (takes.fresh b mem))
    exact ⟨takes.marked b mem, (owned.unowned (takes.fresh b mem)).leaks owned takes.leaks⟩
  refine mapRange_rule closed (allocBlocks_plainly _ _ s) (fun _ _ => ⟨Did.refl s, known⟩)
    (fun _ => finish (Did.refl s) backed (List.Subset.refl _) known _)
    (fun _ _ plainly _ _ => plainly.did closed) (fun _ _ _ _ plainly zeroed _ => filled plainly zeroed) ?_
  rintro blocks held t u _ plainly zeroed - rfl perm
  have known' : StillHas v u f.ino f.extents := fun b mem => by
    rw [zeroed.leaks.dataBlocks owned backed.backs.alive]
    exact known mem
  exact finish (filled plainly zeroed) (backed.takes zeroed.takes zeroed.fills zeroed.frames perm)
    (fun b mem => perm.mem_iff.mpr (mem_append_left _ mem)) known' _

/-! ## The calls -/

section
variable (backed : Backed v start s f.ino f.extents)
include backed

theorem writeAt_did (known : StillHas v s f.ino f.extents) (octets : Bytes) (off : Nat) :
    (writeAt v f octets off).Meets s (fun _ => Did (MayWrite v s.image f.ino) s)
      fun _ => Did (MayWrite v s.image f.ino) s := by
  have fresh : (view v s.image).Leaks (view v s.now) := by
    rw [now_of_none s backed.closed]
    exact View.Leaks.refl _
  unfold writeAt
  split
  · exact Did.refl s
  · refine ((mapRange_followed backed _ _).and (mapRange_did backed known fresh _ _)).seq ?_
      fun _ _ failed => failed.2
    rintro f' t ⟨mapped, did, known'⟩
    -- The loop leaves the map alone, so every block it finds is still the inode's.
    refine (writeParts_rule (fun u => Backed v start u f'.ino f'.extents ∧ StillHas v u f'.ino f'.extents ∧
      Did (MayWrite v s.image f.ino) s u) ⟨mapped.toBacked, known', did⟩ ?_ octets off _).seq
      (fun _ _ after => after.2.2) fun _ _ failed => failed.2.2.2
    rintro lb b u at_ part located ⟨backed', known', did'⟩
    have mem := locate_mem located
    refine ⟨backed'.writeInBlock mem at_ part, ?_, did'.trans ?_⟩
    · rw [StillHas, backed'.dataBlocks_writeInBlock mem]
      exact known'
    · rw [← mapped.same]
      exact backed'.did_writeInBlock mem (known' mem) at_ part

theorem shrink_did (known : StillHas v s f.ino f.extents) (size : Nat) :
    (shrink v f size).Meets s (fun _ => Did (MayWrite v first f.ino) s)
      fun _ => Did (MayWrite v first f.ino) s := by
  unfold shrink
  set keep := (size + v.blockSize - 1) / v.blockSize
  rw [meets_bind, meets_modify]
  set s' := (if size % v.blockSize = 0 then s else _) with cleared
  obtain ⟨backed', did⟩ : Backed v start s' f.ino f.extents ∧ Did (MayWrite v first f.ino) s s' := by
    rw [cleared]
    split
    · exact ⟨backed, Did.refl s⟩
    · split
      · exact ⟨backed, Did.refl s⟩
      next b located =>
        have mem := locate_mem located
        exact ⟨backed.writeInBlock mem _ _, backed.did_writeInBlock mem (known mem) _ _⟩
  have kept := backed'.kept keep
  refine ((commitFile_backed kept size).and (commitFile_did kept size)).seq ?_
    fun _ _ failed => did.trans failed.2
  rintro f' t ⟨⟨rfl, after, _, _⟩, wrote⟩
  simp only [meets_bind, meets_modify, meets_pure]
  exact (did.trans wrote).trans ((Plainly.freeBlocks _ _).did after.closed)

theorem truncate_did (known : StillHas v s f.ino f.extents) (size : Nat) :
    (truncate v f size).Meets s (fun _ => Did (MayWrite v first f.ino) s)
      fun _ => Did (MayWrite v first f.ino) s := by
  unfold truncate
  split
  · exact Did.refl s
  split
  · exact shrink_did backed known size
  · rw [meets_bind, meets_modify]
    have all := List.Subset.refl (blocksOf f.extents)
    have slack : Did (MayWrite v first f.ino) s _ := backed.did_zeroSlack all known f.size size
    exact (commitFile_did (backed.zeroSlack all _ _) size).mono (fun _ _ did => slack.trans did)
      fun _ _ did => slack.trans did

end

/-! ## Runs -/

structure File.Current (v : Shape) (s : FS) (f : File) : Prop where
  alive : (view v s.now).live f.ino
  blocks : (blocksOf f.extents).Subperm ((view v s.now).dataBlocks f.ino)

theorem File.Current.backed (current : f.Current v s) (healthy : Healthy v s) :
    Backed v s s f.ino f.extents := by
  have all := healthy.owned.backs current.alive (List.Perm.refl _)
  refine ⟨healthy.toQuiet, .refl s, all.subset current.blocks.subset ?_, .refl _ _, rfl, ?_⟩
  · obtain ⟨part, same, sub⟩ := current.blocks
    exact same.nodup_iff.mp (all.once.sublist sub)
  · exact fun _ inUse other => ⟨inUse, other, fun mem =>
      other (mem_append_right _ (current.blocks.subset mem))⟩

def Action.file? : Action → Option Nat
  | .writeAt file _ _ | .truncate file _ => some file
  | _ => none

/-- Where a call keeps the owners of all blocks; an open file may lag behind its inode as long as
the inode still has its blocks. -/
def Action.Sound (v : Shape) (action : Action) (w : World) : Prop :=
  match action with
  | .writeAt file _ _ | .truncate file _ => ∀ f, w.files[file]? = some f → f.Current v w.fs
  | .mkDir _ _ | .symlink _ _ => v.blocksPerGroup < 2 ^ v.descBits ∧ action.Safe v w
  | _ => action.Safe v w

variable {w w' before : World} {action : Action} {file : Nat}

theorem onFile_sound (healthy : Healthy v w.fs) (through : action.file? = some file)
    (current : ∀ f, w.files[file]? = some f → f.Current v w.fs) : Healthy v (perform v w action).2.fs := by
  cases action with
  | writeAt file' data off =>
    cases through
    exact World.onFile_healthy healthy fun f opened =>
      (writeAt_followed ((current f opened).backed healthy) data off).imp
        fun _ _ followed => followed.healthy
  | truncate file' size =>
    cases through
    exact World.onFile_healthy healthy fun f opened =>
      (truncate_followed ((current f opened).backed healthy) size).imp
        fun _ _ followed => followed.healthy
  | _ => cases through

theorem step_sound (healthy : Healthy v w.fs) (sound : action.Sound v w)
    (taken : step v action w = some w') : Healthy v w'.fs := by
  have after : Healthy v (perform v w action).2.fs := by
    cases action with
    | writeAt file data off => exact onFile_sound healthy rfl sound
    | truncate file size => exact onFile_sound healthy rfl sound
    | mkDir path perm => exact perform_healthy (fun _ => sound.1) healthy sound.2
    | symlink target path => exact perform_healthy (fun _ => sound.1) healthy sound.2
    | _ => exact perform_healthy (fun takes => takes.elim) healthy sound
  unfold step at taken
  split at taken
  · cases taken
  next outcome _ _ ended =>
    cases taken
    rwa [ended] at after

theorem World.onFile_did {prog : File → Prog FS Err File} {left : File → FS → File} {ok : Image → Write Content → Prop}
    (opened : w.files[file]? = some f)
    (spec : (prog f).Meets w.fs (fun _ => Did ok w.fs) fun _ => Did ok w.fs) :
    Did ok w.fs (w.onFile file prog left).2.fs := by
  unfold World.onFile
  rw [opened]
  unfold Prog.Meets at spec
  split at spec <;> simp_all

/-- Over every run of sound calls, every call on an open file writes data only to blocks of its
inode, zeros only to blocks it takes for it, and only maps of such blocks: where it writes, the
block is marked used and no other inode maps it. -/
theorem file_writes_own (healthy : Healthy v before.fs)
    (run : Machine.Reaches (step v) (Action.Sound v) before w) (sound : action.Sound v w)
    (through : action.file? = some file) (opened : w.files[file]? = some f) :
    Did (MayWrite v w.fs.image f.ino) w.fs (perform v w action).2.fs := by
  have healthy : Healthy v w.fs := by
    have kept : (fun w : World => Healthy v w.fs) w :=
      run.invariant healthy fun _ _ _ before sound taken => step_sound before sound taken
    exact kept
  cases action with
  | writeAt file' data off =>
    cases through
    have current := sound f opened
    exact World.onFile_did opened
      (writeAt_did (current.backed healthy) current.blocks.subset data off)
  | truncate file' size =>
    cases through
    have current := sound f opened
    exact World.onFile_did opened
      (truncate_did (current.backed healthy) current.blocks.subset size)
  | _ => cases through

/-! ## After an overwrite without room -/

def lastFile (size : Nat) : File := ⟨11, [⟨0, 21, 1⟩], size⟩

def lastOpened : World := (perform (fmtShape 22) lastBlock (.openFile ['/', 'a'])).2

theorem lastOpened_step : step (fmtShape 22) (.openFile ['/', 'a']) lastBlock = some lastOpened := by
  have ended : (perform (fmtShape 22) lastBlock (.openFile ['/', 'a'])).1 = .ok () := by decide
  rw [step, Prog.ended ended]
  rfl

theorem lastOpened_current : (lastFile 0).Current (fmtShape 22) lastOpened.fs :=
  ⟨by decide, (List.Perm.of_eq (by decide)).subperm⟩

theorem lastOpened_sound : Action.Sound (fmtShape 22) (.writeAt 0 [5] 0) lastOpened := by
  intro f opened
  have file : lastOpened.files[0]? = some (lastFile 0) := by decide
  cases file.symm.trans opened
  exact lastOpened_current

theorem file_writes_own_new : Did (MayWrite (fmtShape 22) lastOpened.fs.image 11) lastOpened.fs
    (perform (fmtShape 22) lastOpened (.writeAt 0 [5] 0)).2.fs :=
  file_writes_own (f := lastFile 0) (formatted_healthy 22 [] true (by decide))
    (.next (.openFile ['/', 'a']) (.next (.writeFile ['/', 'a'] [] 0) .start lastBlock_safe
      lastBlock_step) trivial lastOpened_step)
    lastOpened_sound rfl (by decide)

def lastWritten : World := (perform (fmtShape 22) lastOpened (.writeAt 0 [5] 0)).2

theorem lastWritten_step : step (fmtShape 22) (.writeAt 0 [5] 0) lastOpened = some lastWritten := by
  have ended : (perform (fmtShape 22) lastOpened (.writeAt 0 [5] 0)).1 = .ok () := by decide
  rw [step, Prog.ended ended]
  rfl

theorem lastWritten_full : ¬ lastWritten.fs.HasRoom (fmtShape 22) (blocksFor (fmtShape 22) tooMuch)
    (blocksOf [⟨0, 21, 1⟩]) := by
  refine full_of_marks (by decide) (by decide) fun bit => ?_
  change (decide (bit ∈ [21]) || (fmtImage 22 [] (.bitmap ⟨0, true⟩) bit || false)) = _
  rw [Bool.or_false]

theorem writeAt_lastFile (s : FS) : writeAt (fmtShape 22) (lastFile 1) [1] 0 s =
    (.ok (lastFile 1), s.writeInBlock (fmtShape 22) 21 0 [1]) := rfl

/-- An overwrite that finds no room releases the blocks of the file; what is then written through a
file that knows exactly the blocks of its inode goes to a block that is marked free. -/
theorem file_writes_free : ∃ final,
    Machine.takeAll (step (fmtShape 22)) [.writeFile ['/', 'a'] [] 0, .openFile ['/', 'a'],
      .writeAt 0 [5] 0, .writeFile ['/', 'a'] tooMuch 0] ⟨formatted 22 [] true, []⟩ = some final ∧
    final.files = [lastFile 1] ∧ (lastFile 1).Current (fmtShape 22) final.fs ∧
    ¬ Did (MayWrite (fmtShape 22) final.fs.image 11) final.fs
      (perform (fmtShape 22) final (.writeAt 0 [1] 0)).2.fs := by
  have named : lastWritten.fs.namedBy (fmtShape 22) ['/', 'a'] =
      .ok (some (11, ⟨.regular, 0, 1, 1, 8, .inline [⟨0, 21, 1⟩]⟩)) := by decide
  have closed : lastWritten.fs.tx = none := by decide
  have files : lastWritten.files = [lastFile 1] := by decide
  have full := lastWritten_full
  have parsed : lastWritten.fs.parseExtents (.inline [⟨0, 21, 1⟩]) = .ok [⟨0, 21, 1⟩] := by
    decide
  have alive : (view (fmtShape 22) lastWritten.fs.image).live 11 := by decide
  have inode : ((view (fmtShape 22) lastWritten.fs.image).inode 11).mapping = .inline [⟨0, 21, 1⟩] := by
    decide
  have began := lastWritten_step
  generalize lastWritten = world at closed named files full parsed alive inode began
  obtain ⟨final, taken, kept, ended, releases, free⟩ := step_unfit closed named rfl parsed full 0
  have free := free 21 (by decide) (Nat.zero_le _)
  refine ⟨final, ?_, kept.trans files, ⟨?_, ?_⟩, ?_⟩
  · refine Option.bind_eq_some_iff.mpr ⟨lastBlock, lastBlock_step, ?_⟩
    refine Option.bind_eq_some_iff.mpr ⟨lastOpened, lastOpened_step, ?_⟩
    refine Option.bind_eq_some_iff.mpr ⟨world, began, ?_⟩
    exact Option.bind_eq_some_iff.mpr ⟨final, taken, rfl⟩
  · rw [now_of_none _ ended, releases.live]
    exact alive
  · rw [now_of_none _ ended, View.dataBlocks, releases.inode]
    refine (List.Perm.of_eq (congrArg blocksOf ?_)).subperm
    change _ = View.extentsOf _ ((view (fmtShape 22) world.fs.image).inode 11).mapping
    rw [inode]
    rfl
  · have ran : (perform (fmtShape 22) final (.writeAt 0 [1] 0)).2.fs =
        final.fs.writeInBlock (fmtShape 22) 21 0 [1] := by
      simp [perform, World.onFile, kept, files, writeAt_lastFile]
    rw [ran, writeInBlock, did_direct_iff]
    rintro ⟨belongs, -⟩
    rw [belongs.used] at free
    cases free

end Ext4.Volume
