import Ext4.Volume.FailedCreate

/-! The free counts of the group descriptors when a journal is enabled.
A transaction stages a bitmap together with the descriptor it charges, and takes the count it
charges from the device. The counts stay exact while a transaction allocates at most once from the
bitmaps of each kind. -/

namespace Ext4.Volume
open Octets Alloc Store Machine List Function FS

variable {v : Shape} {s t start : FS} {held : Cleanup} {key : Key} {bits : List Nat} {name : Name}
  {dir : Inode} {isBlock : Bool} {data : Bytes} {path : Path}

def Desc.free (d : Desc) (isBlock : Bool) : Nat := if isBlock then d.freeBlocks else d.freeInodes

def Counters.free (sb : Counters) (isBlock : Bool) : Nat :=
  if isBlock then sb.freeBlocks else sb.freeInodes

@[simp] theorem Counters.free_true (sb : Counters) : sb.free true = sb.freeBlocks := rfl

@[simp] theorem Counters.free_false (sb : Counters) : sb.free false = sb.freeInodes := rfl

def Shape.perGroup (v : Shape) (isBlock : Bool) : Nat :=
  if isBlock then v.blocksPerGroup else v.inodesPerGroup

def Exact (v : Shape) (groups : Nat) (img : Image) : Prop :=
  ∀ key : Key, key.group < groups →
    (descAt v img key.group).free key.isBlock =
      clearCount (v.perGroup key.isBlock) (img (.bitmap key))

theorem Exact.congr {groups : Nat} {one two : Image} (exact_ : Exact v groups one)
    (marks : ∀ key, two (.bitmap key) = one (.bitmap key))
    (counts : ∀ g, descAt v two g = descAt v one g) : Exact v groups two := by
  intro key inRange
  rw [marks, counts]
  exact exact_ key inRange

/-! ## Steps that touch neither a bitmap nor a descriptor -/

structure Aside (v : Shape) (s t : FS) : Prop where
  outer : Outer s t
  marks : ∀ key, t.now (.bitmap key) = s.now (.bitmap key)
  counts : ∀ g, descAt v t.now g = descAt v s.now g
  reserved : t.reserved = s.reserved

theorem Aside.refl (s : FS) : Aside v s s := ⟨(Frame.refl s).toOuter, fun _ => rfl, fun _ => rfl, rfl⟩

theorem Aside.trans {r : FS} (first : Aside v r s) (second : Aside v s t) : Aside v r t where
  outer := first.outer.trans second.outer
  marks key := (second.marks key).trans (first.marks key)
  counts g := (second.counts g).trans (first.counts g)
  reserved := second.reserved.trans first.reserved

theorem Aside.put (s : FS) (write : Write Content) (bitmap : ∀ key, Addr.bitmap key ≠ write.1)
    (descs : ∀ k, Addr.descs k ≠ write.1) : Aside v s (s.put write) where
  outer := (Frame.put_other s write bitmap).toOuter
  marks key := by rw [put_now, update_of_ne (bitmap key)]
  counts g := by
    unfold descAt
    rw [put_now, update_of_ne (descs _)]
  reserved := s.put_reserved write

theorem Aside.advanceCursor : Aside v s s.advanceCursor :=
  ⟨Frame.advanceCursor.toOuter, fun _ => rfl, fun _ => rfl, rfl⟩

theorem Aside.writeInode (i : Nat) (x : Inode) : Aside v s (s.writeInode v i x) :=
  Aside.put s _ (by simp) (by simp)

theorem Aside.writeBlock (b : Nat) (content : Block) : Aside v s (s.writeBlock b content) :=
  Aside.put s _ (by simp) (by simp)

theorem Aside.writeSuper (closed : s.tx = none) : Aside v s (s.writeSuper false) where
  outer := Outer.direct s _ closed
  marks key := by rw [FS.writeSuper, write_now (by rw [closed]; rfl)]; simp
  counts g := by
    unfold descAt
    rw [FS.writeSuper, write_now (by rw [closed]; rfl)]
    simp
  reserved := rfl

theorem Aside.writeChunks (data : Bytes) (blocks : List Nat) : Aside v s (writeChunks v data blocks s) := by
  unfold Volume.writeChunks
  generalize blocks.zipIdx = items
  induction items generalizing s with
  | nil => exact Aside.refl s
  | cons item rest ih => exact (Aside.writeBlock _ _).trans ih

/-! ## Allocations in a transaction -/

/-- Between the states the bits were taken from the bitmap `key`, its descriptor charged from the
count on the device. -/
structure Charged (v : Shape) (s t : FS) (key : Key) (bits : List Nat) : Prop where
  marks : ∀ k, t.now (.bitmap k) =
    if k = key then setBits bits (s.visible key) else s.now (.bitmap k)
  counts : ∀ k : Key, (descAt v t.now k.group).free k.isBlock =
    if k = key then (descAt v s.image key.group).free key.isBlock - bits.length
    else (descAt v s.now k.group).free k.isBlock
  reserved : t.reserved = (s.reserve key bits).reserved

theorem charged_of_writes (change : Desc → Desc) (counters : Counters → Counters) (opened : s.tx.isSome)
    (charges : ∀ d : Desc, ∀ isBlock, (change d).free isBlock =
      if isBlock = key.isBlock then (descAt v s.image key.group).free key.isBlock - bits.length
      else d.free isBlock) (super : ∃ c, t.now = update (((s.reserve key bits).write true
      ⟨.bitmap key, setBits bits (s.visible key)⟩).recount v true key.group change counters).now .super c)
    (reserved : t.reserved = (s.reserve key bits).reserved) : Charged v s t key bits := by
  let m := (s.reserve key bits).write true ⟨.bitmap key, setBits bits (s.visible key)⟩
  have marked : m.now = update s.now (.bitmap key) (setBits bits (s.visible key)) :=
    (mark_spec opened key bits).1
  have via : m.tx.isSome := (mark_spec opened key bits).2.inTx.trans opened
  obtain ⟨bitmaps, descs⟩ := account_now via key.group change counters
  have counted : ((m.recount v true key.group change counters).writeSuper true).now =
      update (m.recount v true key.group change counters).now .super _ :=
    put_now _ _
  rw [counted] at bitmaps descs
  obtain ⟨c, super⟩ := super
  have sameMarks : ∀ k, t.now (.bitmap k) = m.now (.bitmap k) := fun k => by
    rw [super, update_of_ne (by simp), ← bitmaps k, update_of_ne (by simp)]
  have sameDescs : ∀ g, descAt v t.now g =
      if g = key.group then change (descAt v m.now key.group) else descAt v m.now g := fun g => by
    rw [super]
    have := descs g
    simp only [descAt, if_true] at this ⊢
    rw [update_of_ne (by simp)] at this ⊢
    exact this
  refine ⟨fun k => ?_, fun k => ?_, reserved⟩
  · rw [sameMarks, marked]
    by_cases same : k = key
    · rw [if_pos same, same, update_self]
    · rw [if_neg same, update_of_ne (by simpa using same)]
  · rw [sameDescs]
    have before : ∀ g, descAt v m.now g = descAt v s.now g := fun g => by rw [marked, descAt_bitmap]
    by_cases group : k.group = key.group
    · rw [if_pos group, charges, before]
      by_cases kind : k.isBlock = key.isBlock
      · have same : k = key := congrArg₂ Key.mk group kind
        rw [if_pos kind, if_pos same]
      · have other : k ≠ key := fun same => kind (by rw [same])
        rw [if_neg kind, if_neg other, group]
    · have other : k ≠ key := fun same => group (by rw [same])
      rw [if_neg group, if_neg other, before]

theorem FS.takeBlocks_charged (opened : s.tx.isSome) (g : Nat) (bits : List Nat) :
    Charged v s (s.takeBlocks v true g bits) ⟨g, true⟩ bits := by
  apply charged_of_writes
    (fun d => { d with freeBlocks := (descAt v s.image g).freeBlocks - bits.length })
    (fun sb => { sb with freeBlocks := minus 64 bits.length sb.freeBlocks }) opened
  · intro d isBlock
    cases isBlock <;> rfl
  · unfold takeBlocks writeStray
    rw [if_pos rfl]
    split <;> exact ⟨_, put_now _ _⟩
  · unfold takeBlocks writeStray
    rw [if_pos rfl]
    split
    · rw [writeSuper, write_reserved, recount_reserved, write_reserved]
    · rw [put_reserved, recount_reserved, write_reserved]

theorem FS.takeInode_charged (opened : s.tx.isSome) (g bit : Nat) (isDir : Bool) :
    Charged v s (s.takeInode v true g bit isDir) ⟨g, false⟩ [bit] := by
  apply charged_of_writes
    (s.inodeTaken v g isDir) (fun sb => { sb with freeInodes := minus 32 1 sb.freeInodes }) opened
  · intro d isBlock
    cases isBlock <;> rfl
  · exact ⟨_, put_now _ _⟩
  · exact takeInode_reserved g bit isDir

structure Sound (v : Shape) (s : FS) : Prop where
  closed : s.tx = none
  journal : s.journal
  unreserved : ∀ key, s.reserved key = []
  counts : Exact v (s.groups v) s.image

/-- The transaction of a call: committed or aborted now, the counts would be exact. Every
reservation is known to the caller. -/
structure Pending (v : Shape) (start s : FS) (held : Cleanup) : Prop where
  outer : Outer start.startTx s
  counts : Exact v (start.groups v) s.now
  known : ∀ key, ∀ bit ∈ s.reserved key, ∃ part ∈ held, part.1 = key ∧ bit ∈ part.2

def Untaken (s : FS) (isBlock : Bool) : Prop := ∀ key : Key, key.isBlock = isBlock →
  s.reserved key = [] ∧ s.now (.bitmap key) = s.image (.bitmap key)

theorem Sound.begin_ (sound : Sound v s) : Pending v s s.startTx [] where
  outer := (Frame.refl _).toOuter
  counts := by
    rw [startTx_now sound.closed, now_of_none s sound.closed]
    exact sound.counts
  known key bit mem := by
    have none : s.startTx.reserved key = [] := sound.unreserved key
    rw [none] at mem
    cases mem

theorem Sound.untaken (sound : Sound v s) (isBlock : Bool) : Untaken s.startTx isBlock :=
  fun key _ => ⟨sound.unreserved key, by
    rw [startTx_now sound.closed, now_of_none s sound.closed]
    rfl⟩

theorem Sound.aside (sound : Sound v s) (aside : Aside v s t) : Sound v t where
  closed := aside.outer.closed sound.closed
  journal := aside.outer.journal.trans sound.journal
  unreserved key := by rw [aside.reserved, sound.unreserved]
  counts := by
    have groups : t.groups v = s.groups v := by rw [groups, aside.outer.blocksCount, groups]
    rw [groups, ← now_of_none t (aside.outer.closed sound.closed)]
    refine Exact.congr ?_ aside.marks aside.counts
    rw [now_of_none s sound.closed]
    exact sound.counts

section
variable (pending : Pending v start s held)
include pending

theorem Pending.opened : s.tx.isSome := pending.outer.inTx

theorem Pending.device : s.device = start.device :=
  pending.outer.still rfl

theorem Pending.image : s.image = start.image := by
  rw [FS.image, pending.device, FS.image]

theorem Pending.groups : s.groups v = start.groups v := by
  rw [FS.groups, pending.outer.blocksCount]
  rfl

theorem Pending.aside (aside : Aside v s t) : Pending v start t held where
  outer := pending.outer.trans aside.outer
  counts := pending.counts.congr aside.marks aside.counts
  known key bit mem := pending.known key bit (by rwa [aside.reserved] at mem)

end

theorem Untaken.aside (untaken : Untaken s isBlock) (opened : s.tx.isSome)
    (aside : Aside v s t) : Untaken t isBlock := by
  intro key kind
  obtain ⟨none, same⟩ := untaken key kind
  refine ⟨by rw [aside.reserved, none], ?_⟩
  rw [aside.marks, same, image, image, aside.outer.still opened]

theorem Pending.known_by {other : Cleanup} (pending : Pending v start s held)
    (more : ∀ part ∈ held, part ∈ other) : Pending v start s other where
  outer := pending.outer
  counts := pending.counts
  known key bit mem := by
    obtain ⟨part, found, same⟩ := pending.known key bit mem
    exact ⟨part, more part found, same⟩

theorem Pending.charge (sound : Sound v start) (pending : Pending v start s held)
    (untaken : Untaken s key.isBlock) (once : bits.Nodup) (inRange : key.group < start.groups v)
    (clear : ∀ b ∈ bits, s.visible key b = false ∧ b < v.perGroup key.isBlock) (outer : Outer s t)
    (charged : Charged v s t key bits) : Pending v start t ((key, bits) :: held) := by
  obtain ⟨none, same⟩ := untaken key rfl
  have seen : s.visible key = s.image (.bitmap key) := by
    funext bit
    simp [visible, none]
  refine ⟨pending.outer.trans outer, fun k inside => ?_, fun k bit mem => ?_⟩
  · rw [charged.marks, charged.counts]
    by_cases here : k = key
    · rw [if_pos here, if_pos here, here, clearCount_setBits once clear, seen, pending.image]
      rw [sound.counts key inRange]
    · rw [if_neg here, if_neg here]
      exact pending.counts k inside
  · rw [charged.reserved] at mem
    by_cases here : k = key
    · subst here
      simp only [reserve, update_self, none, append_nil] at mem
      exact ⟨(k, bits), mem_cons_self, rfl, mem⟩
    · simp only [reserve, update_of_ne here] at mem
      obtain ⟨part, found, part'⟩ := pending.known k bit mem
      exact ⟨part, mem_cons_of_mem _ found, part'⟩

theorem Untaken.charge (untaken : Untaken s isBlock) (other : key.isBlock ≠ isBlock)
    (opened : s.tx.isSome) (outer : Outer s t) (charged : Charged v s t key bits) :
    Untaken t isBlock := by
  intro k kind
  obtain ⟨none, same⟩ := untaken k kind
  have different : k ≠ key := by
    rintro rfl
    exact other kind
  constructor
  · rw [charged.reserved, reserve]
    simpa only [update_of_ne different] using none
  · rw [charged.marks, if_neg different, same, image, image, outer.still opened]

section
variable (sound : Sound v start) (pending : Pending v start s held)
include sound pending

theorem Pending.ended (closed : t.tx = none)
    (journal : t.journal = s.journal) (sb : t.sb = s.sb) (reserved : t.reserved = s.reserved)
    (counts : Exact v (start.groups v) t.image) : Sound v (t.cleanup held) := by
  have outer := Outer.cleanup closed held
  refine ⟨outer.closed closed, ?_, fun key => ?_, ?_⟩
  · rw [outer.journal, journal, pending.outer.journal]
    exact sound.journal
  · rw [cleanup_reserved, filter_eq_nil_iff, reserved]
    intro bit mem
    obtain ⟨part, found, same, inside⟩ := pending.known key bit mem
    simp only [decide_eq_true_eq, not_forall]
    exact ⟨part, found, same, fun absent => absent inside⟩
  · have groups : (t.cleanup held).groups v = start.groups v := by
      rw [FS.groups, outer.blocksCount, sb, pending.outer.blocksCount]
      rfl
    rw [groups, FS.image, cleanup_device]
    exact counts

theorem Pending.undo :
    Sound v (undo true held s) := by
  apply pending.ended sound (t := s.abort) rfl rfl rfl rfl
  change Exact v (start.groups v) s.image
  rw [pending.image]
  exact sound.counts

theorem Pending.finish :
    Sound v (finish true held s) := by
  have closed := commit_closed s
  apply pending.ended sound closed
  · exact commit_journal s
  · exact commit_sb s
  · exact commit_reserved s
  · rw [← now_of_none _ closed, commit_now]
    exact pending.counts

/-! ## The allocators -/

theorem Pending.taken (untaken : Untaken s key.isBlock) (once : bits.Nodup)
    (inRange : key.group < s.advanceCursor.groups v) (clear : ∀ b ∈ bits,
      s.advanceCursor.visible key b = false ∧ b < v.perGroup key.isBlock) (outer : Outer s.advanceCursor t)
    (charged : Charged v s.advanceCursor t key bits) : Pending v start t ((key, bits) :: held) ∧
      (Untaken s (!key.isBlock) → Untaken t (!key.isBlock)) := by
  have aside : Aside v s s.advanceCursor := Aside.advanceCursor
  have pending' := pending.aside aside
  rw [pending'.groups] at inRange
  refine ⟨pending'.charge sound (untaken.aside pending.opened aside) once inRange clear outer charged,
    fun others => ?_⟩
  exact (others.aside pending.opened aside).charge (by simp) pending'.opened outer charged

theorem allocBlocks_pending
    (untaken : Untaken s true) (n : Nat) : (allocBlocks v true n).Meets s
      (fun r t => Pending v start t (r.2 ++ held) ∧ (Untaken s false → Untaken t false))
      fun _ t => Pending v start t held := by
  have opened : s.advanceCursor.tx.isSome := pending.opened
  refine allocBlocks_rule (fun _ => pending.aside Aside.advanceCursor) fun g bits chosen => ?_
  obtain ⟨once, _, inRange, clear⟩ := chooseBlocks_spec chosen
  exact pending.taken sound untaken once inRange clear (takeBlocks_spec opened g bits).2.toOuter
    (takeBlocks_charged opened g bits)

theorem allocInode_pending
    (untaken : Untaken s false) (isDir : Bool) : (allocInode v true isDir).Meets s
      (fun r t => Pending v start t (r.2 ++ held) ∧ (Untaken s true → Untaken t true))
      fun _ t => Pending v start t held := by
  have opened : s.advanceCursor.tx.isSome := pending.opened
  refine allocInode_rule (fun _ => pending.aside Aside.advanceCursor) fun g bit chosen => ?_
  obtain ⟨inRange, clear⟩ := chooseInode_spec chosen
  exact pending.taken sound untaken (nodup_singleton bit) inRange
    (fun b mem => mem_singleton.mp mem ▸ clear) (takeInode_spec opened g bit isDir).2 (takeInode_charged opened g bit isDir)

end

section
variable (sound : Sound v s)
include sound

theorem Sound.alone {α : Type} (prog : Bool → Prog FS Err (α × Cleanup)) (meets : (prog true).Meets s.startTx
      (fun r t => Pending v s t r.2) fun _ t => Pending v s t []) : ∀ u, Began s.journal s u →
    (prog s.journal).Meets u (fun r t => Sound v (finish s.journal r.2 t))
      fun _ t => Sound v (undo s.journal [] t) := by
  rw [sound.journal]
  rintro u rfl
  exact meets.mono (fun _ _ pending => pending.finish sound) fun _ _ pending => pending.undo sound

theorem allocBlocksAlone_sound (n : Nat) :
    (allocBlocksAlone v n).Meets s (fun _ => Sound v) fun _ => Sound v := by
  refine meets_alone (allocBlocks v · n) id (sound.alone (allocBlocks v · n) ?_)
  refine (allocBlocks_pending sound sound.begin_ (sound.untaken true) n).imp ?_
  rintro ⟨blocks, held⟩ t ⟨pending, _⟩
  rwa [append_nil] at pending

theorem allocInodeAlone_sound (isDir : Bool) :
    (allocInodeAlone v isDir).Meets s (fun _ => Sound v) fun _ => Sound v := by
  refine meets_alone (allocInode v · isDir) id (sound.alone (allocInode v · isDir) ?_)
  refine (allocInode_pending sound sound.begin_ (sound.untaken false) isDir).imp ?_
  rintro ⟨i, held⟩ t ⟨pending, _⟩
  rwa [append_nil] at pending

theorem writeLeaf_pending (extents : List Extent) :
    (writeLeaf v true extents).Meets s.startTx (fun r t => Pending v s t r.2)
      fun _ t => Pending v s t [] := by
  refine (allocBlocks_pending sound sound.begin_ (sound.untaken true) 1).step ?_
  rintro ⟨blocks, held⟩ t ⟨pending, _⟩
  rw [append_nil] at pending
  simp only [meets_bind, meets_modify, meets_pure]
  exact pending.aside (Aside.writeBlock _ _)

theorem prepareExtentChild_sound (extents : List Extent) :
    (prepareExtentChild v extents).Meets s (fun _ => Sound v) fun _ => Sound v := by
  refine prepareExtentChild_rule (fun _ => sound) (fun opened => ?_) fun _ =>
    sound.alone (writeLeaf v · extents) (writeLeaf_pending sound extents)
  rw [sound.closed] at opened
  cases opened

theorem layExtents_sound (extents : List Extent) :
    (layExtents v extents).Meets s (fun _ => Sound v) fun _ => Sound v := by
  unfold layExtents
  split
  · exact sound
  · exact (prepareExtentChild_sound sound extents).step fun _ _ after => after

theorem addDirEntry_sound (num : Nat) (dir : Inode) (ino : Nat) (name : Name) (fileType : FileType) :
    (addDirEntry v false num dir ino name fileType).Meets s (fun _ => Sound v) fun _ => Sound v := by
  refine .look (fun extents _ => ?_) fun _ _ => sound
  rw [meets_bind, meets_read]
  split
  · exact sound.aside (Aside.writeBlock _ _)
  unfold growDir growBlocks
  rw [meets_bind]
  refine (allocBlocksAlone_sound sound 1).step ?_
  intro blocks t taken
  rw [meets_pure, meets_bind, meets_modify]
  refine (layExtents_sound (taken.aside (Aside.writeBlock _ _)) _).step ?_
  intro mapping u laid
  simp only [meets_bind, meets_modify, meets_pure]
  exact laid.aside (Aside.writeInode _ _)

end

/-! ## Releases -/

section
variable (narrow : ∀ isBlock, v.perGroup isBlock < 2 ^ v.descBits)
include narrow

theorem Exact.recount {groups g : Nat} (closed : s.tx = none)
    (others : ∀ key : Key, key.group ≠ g → key.group < groups →
      (descAt v s.image key.group).free key.isBlock =
        clearCount (v.perGroup key.isBlock) (s.image (.bitmap key)))
    (change : Desc → Desc) (counters : Counters → Counters) :
    Exact v groups ((s.recount v false g change counters).writeSuper false).image := by
  obtain ⟨bitmaps, descs⟩ := account_now (by rw [closed]; rfl : _ = false) g
    change counters
  have closed' : ((s.recount v false g change counters).writeSuper false).tx = none := closed
  rw [now_of_none _ closed', now_of_none s closed] at bitmaps descs
  intro key inRange
  rw [bitmaps, descs]
  by_cases here : key.group = g
  · subst here
    rw [if_pos rfl, if_neg (by decide)]
    have most := clearCount_le (v.perGroup key.isBlock) (s.image (.bitmap key))
    have fits := narrow key.isBlock
    have counted : (s.counted v key.group (change (descAt v s.image key.group))).free key.isBlock =
        clearCount (v.perGroup key.isBlock) (s.image (.bitmap key)) % 2 ^ v.descBits := by
      obtain ⟨g, isBlock⟩ := key
      cases isBlock <;> rfl
    rw [counted, Nat.mod_eq_of_lt (by omega)]
  · rw [if_neg here]
    exact others key here inRange

theorem FS.freeBlock_sound (sound : Sound v s) (b : Nat) : Sound v (s.freeBlock v b) := by
  have outer := (freeBlock_spec (v := v) sound.closed b).2.toOuter
  have groups : (s.freeBlock v b).groups v = s.groups v := by
    rw [groups, outer.blocksCount, groups]
  refine ⟨outer.closed sound.closed, outer.journal.trans sound.journal, fun key => ?_, ?_⟩
  · unfold freeBlock
    split
    · exact sound.unreserved key
    · by_cases here : key = v.blockKey b
      · subst here
        simp [unreserve, writeSuper, write_reserved, recount_reserved, direct, sound.unreserved]
      · simpa [unreserve, writeSuper, write_reserved, recount_reserved, direct, here]
          using sound.unreserved key
  · rw [groups]
    unfold freeBlock
    split
    · exact sound.counts
    · apply Exact.recount narrow (s := s.direct _) sound.closed
      intro key other inRange
      have apart : key ≠ v.blockKey b := fun same => other (by rw [same])
      rw [direct_image, descAt_bitmap, update_of_ne (by simpa using apart)]
      exact sound.counts key inRange

theorem FS.freeBlocks_sound (sound : Sound v s) (blocks : List Nat) :
    Sound v (blocks.foldl (freeBlock v) s) := by
  induction blocks generalizing s with
  | nil => exact sound
  | cons b rest ih => exact ih (freeBlock_sound narrow sound b)

theorem freeInodeBlocks_sound (sound : Sound v s) (x : Inode) :
    (freeInodeBlocks v x).Meets s (fun _ => Sound v) fun _ => Sound v := by
  refine (freeInodeBlocks_state x).mono ?_ fun _ _ failed => failed.1 ▸ sound
  exact fun _ _ freed => freed ▸ freeBlocks_sound narrow sound _

end

/-! ## The calls -/

def takesName (name : Name) (slots : List Slot) : Bool :=
  (tryInsertDirEntry 0 name .regFile slots).isSome

theorem tryInsertDirEntry_isSome (ino : Nat) (name : Name) (fileType : FileType) (slots : List Slot) :
    (tryInsertDirEntry ino name fileType slots).isSome = takesName name slots := by
  unfold takesName
  induction slots with
  | nil => rfl
  | cons slot rest ih =>
    simp only [tryInsertDirEntry]
    split_ifs <;> simp [ih]

def FS.HasSlot (s : FS) (dir : Inode) (name : Name) : Prop :=
  ∀ extents, s.parseExtents dir.mapping = .ok extents →
    ∃ b ∈ blocksOf extents, takesName name (s.image (.block b)).records

theorem addDirEntry_pending (pending : Pending v start s held) (slot : start.HasSlot dir name)
    (num ino : Nat) {copy : Inode} (same : copy.mapping = dir.mapping)
    (fileType : FileType) : (addDirEntry v true num copy ino name fileType).Meets s
      (fun r t => r.2 = [] ∧ Pending v start t held) fun _ t => Pending v start t held := by
  refine .look (fun extents parsed => ?_) fun _ _ => pending
  have parsed : start.parseExtents dir.mapping = .ok extents := by
    rw [same] at parsed
    rw [← parsed]
    unfold parseExtents
    rw [pending.image, pending.outer.blocksCount]
    rfl
  rw [meets_bind, meets_read]
  split
  next b slots _ =>
    rw [meets_bind, meets_modify, meets_pure]
    exact ⟨rfl, pending.aside (Aside.writeBlock b _)⟩
  next full =>
    obtain ⟨b, mem, fits⟩ := slot extents parsed
    have missed := findSome?_eq_none_iff.mp full b mem
    rw [Option.map_eq_none_iff, pending.image] at missed
    rw [← tryInsertDirEntry_isSome ino name fileType, missed] at fits
    cases fits

theorem enterFile_pending (pending : Pending v start s held) {isNew : Bool}
    (slot : isNew → start.HasSlot dir name) {blocks : List Nat} (short : (buildExtents blocks).length ≤ 4)
    (num i : Nat) (x : Inode) (perm : Nat) (data : Bytes) :
    (enterFile v true num dir name isNew i x perm data blocks).Meets s
      (fun r t => r = [] ∧ Pending v start t held) fun _ t => Pending v start t held := by
  refine (fileMapping_meets short).seq ?_ fun _ _ no => no.elim
  rintro m t ⟨rfl, rfl⟩
  rw [meets_bind, meets_modify]
  have written := pending.aside (Aside.writeInode i { x with
    kind := .regular
    perm := perm % 512
    links := 1
    size := data.length
    sectors := blocks.length * (v.blockSize / 512) % 2 ^ 32
    mapping := .inline (buildExtents blocks) })
  cases isNew with
  | true =>
    exact (addDirEntry_pending written (slot rfl) num i rfl .regFile).step fun _ _ good => good
  | false => exact ⟨rfl, written⟩

theorem fileInode_pending (sound : Sound v start) (pending : Pending v start s held)
    (untaken : Untaken s false) (existing : Option (Nat × Inode)) :
    (fileInode v true existing).Meets s (fun r t => Pending v start t (r.2.2 ++ held))
      fun _ t => Pending v start t held := by
  cases existing with
  | some found => exact pending
  | none =>
    exact (allocInode_pending sound pending untaken false).step fun _ _ good => good.1

section
variable (sound : Sound v s)
include sound

theorem storeFile_sound {existing : Option (Nat × Inode)} (slot : existing.isNone → s.HasSlot dir name)
    (inlines : s.Inlines v (blocksFor v data) []) (num perm : Nat) :
    (storeFile v true num dir name existing perm data).Meets s.startTx (fun _ => Sound v)
      fun _ => Sound v := by
  unfold storeFile
  rw [meets_bind, meets_onFailure]
  refine ((allocBlocks_pending sound sound.begin_ (sound.untaken true) _).and
    (allocBlocks_inlines ?_)).mono ?_ fun _ _ failed => failed.1.undo sound
  · exact fun staged opened => (Option.some.inj opened).symm
  rintro ⟨blocks, held⟩ t ⟨⟨pending, kept⟩, short⟩
  rw [append_nil] at pending
  rw [meets_bind, meets_modify, meets_bind, meets_onFailure]
  have chunks := Aside.writeChunks (v := v) (s := t) data blocks
  have untaken := (kept (sound.untaken false)).aside pending.opened chunks
  refine (fileInode_pending sound (pending.aside chunks) untaken existing).mono ?_
    fun _ _ failed => failed.undo sound
  rintro ⟨i, x, heldIno⟩ u pending
  rw [meets_bind, meets_onFailure]
  have pending : Pending v s u (held ++ heldIno) := pending.known_by fun part mem => by
    simpa [or_comm] using mem
  refine (enterFile_pending pending slot (short inlines) num i x perm data).mono ?_
    fun _ _ failed => failed.undo sound
  rintro heldDir w ⟨rfl, entered⟩
  rw [meets_modify, append_nil]
  exact entered.finish sound

theorem makeDirTx_sound {parent : Inode} (slot : s.HasSlot parent name) (num perm : Nat) :
    (makeDirTx v num parent name perm).Meets s (fun _ => Sound v) fun _ => Sound v := by
  unfold makeDirTx
  rw [meets_bind, meets_modify, meets_bind, meets_onFailure]
  refine (allocInode_pending sound sound.begin_ (sound.untaken false) true).mono ?_
    fun _ _ failed => failed.undo sound
  rintro ⟨i, heldIno⟩ t ⟨pending, kept⟩
  rw [append_nil] at pending
  rw [meets_bind, meets_onFailure]
  refine (allocBlocks_pending sound pending (kept (sound.untaken true)) 1).mono ?_
    fun _ _ failed => failed.undo sound
  rintro ⟨blocks, held⟩ u ⟨pending, _⟩
  rw [meets_bind, meets_onFailure]
  unfold enterDirTx
  simp only [meets_bind, meets_modify, meets_pure]
  have written := (pending.aside (Aside.writeBlock (blocks.headD 0) (dirBlock v i num))).aside
    (Aside.writeInode i (dirInode v perm (blocks.headD 0)))
  refine (addDirEntry_pending written slot num i (by rfl : parent.addLink.mapping = _) .dir).mono ?_
    fun _ _ failed => failed.undo sound
  rintro ⟨parent', heldDir⟩ w ⟨rfl, entered⟩
  have finished := (entered.aside (Aside.writeInode num parent')).finish sound
  exact finished.aside (Aside.writeSuper finished.closed)

theorem linkInode_sound (target : Path) :
    (linkInode v target).Meets s (fun _ => Sound v) fun _ => Sound v := by
  unfold linkInode
  split
  · exact sound
  · refine (allocBlocksAlone_sound sound 1).step ?_
    intro blocks t taken
    simp only [meets_bind, meets_modify, meets_pure]
    have written := taken.aside (Aside.writeBlock (blocks.headD 0) (.target target))
    exact written.aside (Aside.writeSuper written.closed)

theorem makeSymlink_sound (target linkPath : Path) :
    (makeSymlink v target linkPath).Meets s (fun _ => Sound v) fun _ => Sound v := by
  refine makeSymlink_begins (fun _ _ => sound) fun num dir name entries _ _ _ => ?_
  refine (allocInodeAlone_sound sound false).step ?_
  intro i t taken
  refine (linkInode_sound taken target).step ?_
  intro x u content
  rw [meets_bind, meets_modify]
  exact (addDirEntry_sound (content.aside (Aside.writeInode i x)) _ _ _ _ _).step
    fun _ _ after => after

theorem makeLink_sound (oldPath newPath : Path) :
    (makeLink v oldPath newPath).Meets s (fun _ => Sound v) fun _ => Sound v := by
  refine makeLink_begins (fun _ _ => sound) fun _ _ _ src x num dir name entries _ _ _ _ _ => ?_
  refine (addDirEntry_sound sound _ _ _ _ _).step ?_
  intro _ t entered
  exact .look (fun x _ => entered.aside (Aside.writeInode _ _)) fun _ _ => entered

end

def FS.Seats (v : Shape) (s : FS) (path : Path) : Prop :=
  ∀ num dir name, s.lookupParent v path = .ok (num, dir, name) →
    s.findEntry v dir name = .ok none → s.HasSlot dir name

theorem makeDir_sound (sound : Sound v s) (seats : s.Seats v path) (perm : Nat) :
    (makeDir v path perm).Meets s (fun _ => Sound v) fun _ => Sound v := by
  refine makeDir_begins (fun _ _ => sound) fun num dir name entries search listed unlisted => ?_
  rw [if_pos sound.journal]
  exact makeDirTx_sound sound (seats num dir name search (findEntry_none listed unlisted)) num perm

/-- Once the old blocks of the file are released, its new content is mapped without a leaf block. -/
def FS.Compact (v : Shape) (s : FS) (path : Path) (data : Bytes) : Prop :=
  ∀ existing, s.namedBy v path = .ok existing →
    s.Inlines v (blocksFor v data) (s.replaced v existing)

theorem writeFile_sound (narrow : ∀ isBlock, v.perGroup isBlock < 2 ^ v.descBits) (sound : Sound v s)
    (seats : s.Seats v path) (compact : s.Compact v path data)
    (perm : Nat) : (writeFile v path data perm).Meets s (fun _ => Sound v) fun _ => Sound v := by
  refine writeFile_begins (fun _ _ => sound) (fun num dir name search found => ?_)
    fun num dir name i x search found _ => ?_
  · have inlines := compact none (namedBy_eq search found)
    rw [sound.journal, if_pos rfl]
    exact storeFile_sound sound (fun _ => seats num dir name search found) inlines num perm
  · have inlines := compact _ (namedBy_eq search found)
    refine ((freeInodeBlocks_sound narrow sound x).and (freeInodeBlocks_state x)).mono ?_
      fun _ _ failed => failed.1
    rintro _ t ⟨released, rfl⟩
    rw [released.journal, if_pos rfl]
    exact storeFile_sound released (fun no => by cases no) (inlines.released sound.closed) num perm

/-- The call allocates at most once in its transaction: the content of a file needs no leaf block,
and the directory need not grow. -/
def Create.Once (v : Shape) (create : Create) (s : FS) : Prop :=
  match create with
  | .writeFile path data _ => s.Seats v path ∧ s.Compact v path data
  | .mkDir path _ => s.Seats v path
  | .symlink _ _ | .link _ _ => True

def Create.step (v : Shape) (create : Create) (s : FS) : Option FS := some (create.run v s).2

theorem Create.step_sound (narrow : ∀ isBlock, v.perGroup isBlock < 2 ^ v.descBits) {create : Create}
    (sound : Sound v s) (once : create.Once v s) (taken : create.step v s = some t) : Sound v t := by
  have meets : (create.run v).Meets s (fun _ => Sound v) fun _ => Sound v := by
    cases create with
    | writeFile path data perm => exact writeFile_sound narrow sound once.1 once.2 perm
    | mkDir path perm => exact makeDir_sound sound once perm
    | symlink target linkPath => exact makeSymlink_sound sound target linkPath
    | link oldPath newPath => exact makeLink_sound sound oldPath newPath
  cases taken
  cases ran : create.run v s with
  | mk outcome u =>
    cases outcome with
    | ok done => exact meets.ok ran
    | error e => exact meets.error ran

theorem formatted_exact (total : Nat) (label : Bytes) (journal : Bool) :
    Exact (fmtShape total) ((formatted total label journal).groups (fmtShape total))
      (formatted total label journal).image := by
  rintro ⟨g, isBlock⟩ inRange
  have desc : descAt (fmtShape total) (fmtImage total label) g = fmtDesc total g := by
    change fmtDesc total (g / 128 * 128 + g % 128) = _
    rw [Nat.div_add_mod']
  change (descAt (fmtShape total) (fmtImage total label) g).free isBlock = _
  rw [desc]
  cases isBlock with
  | true =>
    have count : clearCount fmtBlocksPerGroup (fmtImage total label (.bitmap ⟨g, true⟩)) =
        min (fmtGroupBlocks total g) fmtBlocksPerGroup - fmtMetaBlocks total g :=
      clearCount_window fun i _ => rfl
    refine Eq.trans ?_ count.symm
    change fmtGroupBlocks total g - fmtMetaBlocks total g = _
    unfold fmtGroupBlocks
    omega
  | false =>
    have count : clearCount fmtInodesPerGroup (fmtImage total label (.bitmap ⟨g, false⟩)) =
        min fmtInodesPerGroup fmtInodesPerGroup - (if g = 0 then fmtReservedInodes else 0) := by
      apply clearCount_window
      intro i _
      change (decide (g = 0) && decide (i < fmtReservedInodes) || decide (fmtInodesPerGroup ≤ i)) = _
      split <;> simp_all
    refine Eq.trans ?_ count.symm
    change (if g = 0 then fmtInodesPerGroup - fmtReservedInodes else fmtInodesPerGroup) = _
    split <;> rfl

theorem formatted_sound (total : Nat) (label : Bytes) : Sound (fmtShape total) (formatted total label true) :=
  ⟨rfl, rfl, fun _ => rfl, formatted_exact total label true⟩

def oneFile : Create := .writeFile ['/', 'a'] [1] 0o644

theorem oneFile_once : oneFile.Once (fmtShape 22) (formatted 22 [] true) := by
  refine ⟨fun num dir name resolved _ extents parsed => ?_, fun _ _ => .inl (by decide)⟩
  cases resolved
  cases parsed
  exact ⟨fmtRootBlock 22, by decide, by decide⟩

def crowdedShape : Shape where
  blocksPerGroup := 64
  inodesPerGroup := 16
  firstDataBlock := 1
  blockSize := 1024
  inodesPerBlock := 4
  descsPerBlock := 32
  descBits := 16
  metadata b := b < 10
  blocksPerGroup_pos := by decide
  inodesPerGroup_pos := Nat.two_pow_pos 4
  inodesPerBlock_pos := by decide

def crowdedRoot : Block := .slots [⟨2, 12, dot, .dir⟩, ⟨2, 12, dotDot, .dir⟩,
  ⟨11, 264, replicate 255 'a', .regFile⟩, ⟨11, 264, replicate 255 'b', .regFile⟩,
  ⟨11, 264, replicate 255 'c', .regFile⟩, ⟨11, 208, replicate 200 'd', .regFile⟩]

def crowdedCounters : Counters := ⟨41, 16, 29, 5, []⟩

def crowdedImage : Image
  | .super => ⟨crowdedCounters, none⟩
  | .descs _ => fun _ => ⟨29, 5, 1⟩
  | .bitmap ⟨_, true⟩ => fun i => i < 11 || 40 ≤ i
  | .bitmap ⟨_, false⟩ => fun i => i < 11 || 16 ≤ i
  | .itable _ k => fun j =>
      if k = 0 ∧ j = 1 then ⟨.dir, 0o755, 2, 1024, 2, .inline [⟨0, 10, 1⟩]⟩
      else if k = 2 ∧ j = 2 then ⟨.regular, 0o644, 4, 0, 2, .inline [⟨0, 11, 1⟩]⟩
      else .zero
  | .block b => if b = 10 then crowdedRoot else .data []

def crowded : FS where
  device := ⟨crowdedImage, [], crowdedImage, rfl⟩
  journal := true
  tx := none
  reserved _ := []
  cursor := 0
  sb := crowdedCounters

theorem crowded_sound : Sound crowdedShape crowded := by
  refine ⟨rfl, rfl, fun _ => rfl, ?_⟩
  rintro ⟨g, isBlock⟩ inRange
  have first : g = 0 := by
    change g < 1 at inRange
    omega
  subst first
  cases isBlock <;> decide

def crowdedMkDir : Create := .mkDir ['/', 'd'] 0o755

end Ext4.Volume
