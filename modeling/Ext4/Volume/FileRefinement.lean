import Ext4.Volume.FileContent

/-! An open file refines an array of octets.
Each call on the file changes the content that its extents carry as the same call changes the
array; reading delivers a window of it. -/

namespace Ext4.Volume
open Octets Alloc Store Overlay List FS

/-- Inode `ino` is open with the extents, which carry the content. -/
structure Tracks (v : Shape) (s : FS) (ino : Nat) (extents : List Extent) (content : Disk) : Prop where
  closed : s.tx = none
  low : 0 < ino
  carries : (view v s.now).Carries v s.sb.blocksCount ((view v s.now).inode ino).mapping.child extents
    content

variable {v : Shape} {s t : FS} {ino b size p : Nat} {extents : List Extent} {content : Disk} {f : File}
  {array : Bytes}

theorem Tracks.step (tracks : Tracks v s ino extents content) (frame : Frame s t)
    (inode : (view v t.now).inode = (view v s.now).inode) {other : List Extent} {content' : Disk}
    (carries : (view v t.now).Carries v s.sb.blocksCount
      ((view v s.now).inode ino).mapping.child other content') : Tracks v t ino other content' where
  closed := frame.toOuter.closed tracks.closed
  low := tracks.low
  carries := by
    rw [frame.blocksCount, inode]
    exact carries

theorem Tracks.writeInBlock (tracks : Tracks v s ino extents content) {lb : Nat}
    (places : Places extents lb b) (at_ : Nat) (octets : Bytes) (fits : at_ + octets.length ≤ v.blockSize)
    (positive : 0 < v.blockSize) : Tracks v (s.writeInBlock v b at_ octets) ino extents
      (content.writeAt (lb * v.blockSize + at_) octets) := by
  obtain ⟨shown, frame⟩ := writeInBlock_spec tracks.closed b at_ octets
  apply tracks.step frame
  · rw [shown]
  · rw [shown]
    exact tracks.carries.splice places fits positive

/-! ## Zeros behind the end -/

theorem writeAt_zeros {off n : Nat} (blank : ∀ p, off ≤ p → p < off + n → content p = 0) :
    content.writeAt off (replicate n 0) = content := by
  funext p
  by_cases inside : off ≤ p ∧ p < off + n
  · obtain ⟨i, rfl⟩ := Nat.exists_eq_add_of_le inside.1
    rw [Disk.writeAt_inside _ _ _ _ (by rw [length_replicate]; omega), blank _ (by omega) inside.2,
      getElem_replicate]
  · exact Disk.writeAt_outside _ _ _ _ (by rw [length_replicate]; omega)

/-- Zeros written where there are zeros already: `other` is a longer list of extents than the one
the file still has. -/
theorem Tracks.zeroSlack (tracks : Tracks v s ino extents content) (positive : 0 < v.blockSize)
    (found : ∀ lb b, f.locate lb = some b → Places extents lb b) {oldSize : Nat}
    (blank : ∀ p, oldSize ≤ p → content p = 0) (newSize : Nat) :
    Tracks v (zeroSlack v f oldSize newSize s) ino extents content := by
  unfold Volume.zeroSlack
  dsimp only
  split
  · exact tracks
  · split
    · exact tracks
    next b located =>
      have divided := Nat.div_add_mod' oldSize v.blockSize
      have modest := Nat.mod_lt oldSize positive
      have written := tracks.writeInBlock (found _ b located) (oldSize % v.blockSize)
        (replicate (min (v.blockSize - oldSize % v.blockSize) (newSize - oldSize)) 0)
        (by rw [length_replicate]; omega) positive
      rwa [divided, writeAt_zeros fun p low _ => blank p low] at written

/-! ## commitFile -/

theorem staleChild_subset (old new : Mapping) : staleChild old new ⊆ old.child := by
  unfold staleChild
  split
  · split
    · exact nil_subset _
    · exact List.Subset.refl _
  · exact nil_subset _

/-- The extents are laid out, then the inode gets the new map, and a leaf block that only the old map
had is released. -/
theorem commitFile_spec (closed : s.tx = none) (extents : List Extent) (size : Nat) :
    (commitFile v f extents size).Meets s (fun f' t => f' = { f with extents := extents, size := size } ∧
        Frame s t ∧ ∃ (y : View) (n : Inode), (view v s.now).Lays y n.mapping extents ∧ n.size = size ∧
          n.kind = ((view v s.now).inode f.ino).kind ∧
          View.Releases { y with inode := Function.update y.inode f.ino n } (view v t.now)
            (staleChild ((view v s.now).inode f.ino).mapping n.mapping))
      fun _ t => view v t.now = view v s.now ∧ Frame s t := by
  refine .look (fun n read => ?_) fun _ _ => ⟨rfl, Frame.refl s⟩
  obtain ⟨low, _, rfl⟩ := readInode_ok read
  rw [← now_of_none s closed]
  refine (writeExtentTree_meets closed extents).step ?_
  rintro m t ⟨lays, frame⟩
  simp only [meets_bind, meets_modify, meets_pure, true_and]
  set new : Inode := { (view v s.now).inode f.ino with
    mapping := m
    size := size
    sectors := (extents.map Extent.count).sum * (v.blockSize / 512) % 2 ^ 32 }
  obtain ⟨shown, frame'⟩ := writeInode_spec low new
  have frames := frame.trans frame'
  obtain ⟨releases, frame''⟩ := freeBlocks_spec (frames.toOuter.closed closed)
    (staleChild ((view v s.now).inode f.ino).mapping m)
  rw [shown] at releases
  exact ⟨frames.trans frame'', view v t.now, new, lays, rfl, rfl, releases⟩

theorem commitFile_meets (tracks : Tracks v s f.ino extents content) (size : Nat) :
    (commitFile v f extents size).Meets s (fun f' t => f' = { f with extents := extents, size := size } ∧
        Tracks v t f.ino extents content ∧ t.sb.blocksCount = s.sb.blocksCount ∧
        ∀ b ∈ ((view v t.now).inode f.ino).mapping.child, (view v s.now).used b = false) fun _ _ => True := by
  refine (commitFile_spec tracks.closed extents size).yields ?_
  rintro _ t ⟨rfl, frame, y, n, lays, -, -, releases⟩
  have mapping : ((view v t.now).inode f.ino).mapping = n.mapping := by
    rw [releases.inode]
    exact congrArg Inode.mapping (Function.update_self ..)
  have old : ∀ b ∈ staleChild ((view v s.now).inode f.ino).mapping n.mapping,
      b ∈ ((view v s.now).inode f.ino).mapping.child := fun b mem => staleChild_subset _ _ mem
  refine ⟨rfl, ⟨frame.toOuter.closed tracks.closed, tracks.low, ?_⟩, frame.blocksCount, ?_⟩ <;> rw [mapping]
  · rw [frame.blocksCount]
    refine View.Carries.releases ?_ releases ?_ ?_
    · exact (tracks.carries.lays lays).keeps (fun _ inUse => inUse) fun _ _ => rfl
    · exact fun b mem => tracks.carries.inside b (mem_append_left _ (old b mem))
    · intro b mem kept
      rcases mem_append.mp kept with leaf | inRuns
      · exact (tracks.carries.of_free (lays.child b leaf).1).2 (mem_append_left _ (old b mem))
      · exact tracks.carries.apart (old b mem) inRuns
  · exact fun b leaf => (lays.child b leaf).1

/-! ## WriteAt -/

section
variable {off stop : Nat} {octets : Bytes}

theorem mem_touched : b ∈ touched v off stop ↔
    off / v.blockSize ≤ b ∧ b < off / v.blockSize + ((stop - 1) / v.blockSize + 1 - off / v.blockSize) :=
  mem_range'_1

theorem touched_narrow (narrow : (stop - 1) / v.blockSize < 2 ^ 32) :
    ∀ b ∈ touched v off stop, b < 2 ^ 32 := by
  intro b mem
  have := mem_touched.mp mem
  omega

theorem locate_places (tracks : Tracks v s ino f.extents content) (lb b : Nat)
    (located : f.locate lb = some b) : Places f.extents lb b :=
  tracks.carries.laid.locate_iff.mp located

def File.missing (v : Shape) (f : File) (off stop : Nat) : List Nat :=
  (touched v off stop).filter fun b => (f.locate b).isNone

/-- `mapRange` has taken new blocks and has written zeros to them. -/
structure Zeroed (v : Shape) (s t u : FS) (blocks : List Nat) : Prop where
  takes : (view v s.now).Takes (view v t.now) blocks
  frame : Frame s t
  writes : u = blocks.foldl (fun s b => s.writeBlock b (.data (replicate v.blockSize 0))) t
  fills : (view v t.now).Fills (view v u.now) blocks
  frames : Frame s u

theorem Zeroed.leaks {u : FS} {blocks : List Nat} (zeroed : Zeroed v s t u blocks) :
    (view v s.now).Leaks (view v u.now) :=
  zeroed.takes.fills_leaks zeroed.fills

/-- Both branches end with the slack and the commit; the new blocks are zeroed before. -/
theorem mapRange_rule {post : File → FS → Prop} {failed lost : Err → FS → Prop}
    {took : List Nat × Cleanup → FS → Prop} (closed : s.tx = none)
    (alloc : (allocBlocks v false ((f.missing v off stop).length % 2 ^ 32)).Meets s took lost)
    (still : f.missing v off stop = [] → max f.size stop = f.size → post f s)
    (grows : f.missing v off stop = [] → (commitFile v f f.extents (max f.size stop)).Meets
      (zeroSlack v f f.size (max f.size stop) s) post failed)
    (full : ∀ e t, lost e t → t.now = s.now → Frame s t → failed e t)
    (cut : ∀ blocks held t u, took (blocks, held) t → Zeroed v s t u blocks →
      2 ^ 32 ≤ (f.missing v off stop).length → failed .panicked u)
    (fills : ∀ blocks held t u merged, took (blocks, held) t → Zeroed v s t u blocks →
      blocks.length = (f.missing v off stop).length →
      merged = coalesceExtents (f.extents ++ singles (f.missing v off stop) blocks) →
      (blocksOf merged).Perm (blocksOf f.extents ++ blocks) → (commitFile v f merged (max f.size stop)).Meets
        (zeroSlack v f f.size (max f.size stop) u) post failed) : (mapRange v f off stop).Meets s post failed := by
  unfold mapRange
  dsimp only
  split
  next none_ =>
    split
    next same => exact still none_ same
    next => exact grows none_
  next =>
    refine ((allocBlocks_meets (by rw [closed]; rfl) (covered_of_none closed)).and alloc).seq ?_ fun e t lost =>
      full e t lost.2 lost.1.1 lost.1.2
    rintro ⟨blocks, held⟩ t ⟨⟨takes, frame, long, _⟩, taken⟩
    obtain ⟨filled, frame'⟩ := writeBlocks_spec id (fun _ => .data (replicate v.blockSize 0)) blocks t
    rw [map_id] at filled
    have zeroed : Zeroed v s t _ blocks := ⟨takes, frame, rfl, filled, frame.trans frame'⟩
    simp only [meets_bind, meets_modify]
    split
    next fewer =>
      refine cut blocks held t _ taken zeroed (Nat.le_of_not_lt fun narrow => ?_)
      rw [Nat.mod_eq_of_lt narrow] at long
      exact (Nat.ne_of_lt fewer) long
    next enough =>
      have long : blocks.length = (f.missing v off stop).length :=
        le_antisymm (long ▸ Nat.mod_le _ _) (Nat.le_of_not_lt enough)
      have perm := blocksOf_coalesceExtents (f.extents ++ singles (f.missing v off stop) blocks)
      rw [blocksOf_append, blocksOf_singles long] at perm
      simp only [meets_bind, meets_modify]
      exact fills blocks held t _ _ taken zeroed long rfl perm

theorem mapRange_meets (tracks : Tracks v s f.ino f.extents content) (positive : 0 < v.blockSize)
    (blank : ∀ p, f.size ≤ p → content p = 0) (narrow : (stop - 1) / v.blockSize < 2 ^ 32) :
    (mapRange v f off stop).Meets s
      (fun f' t => f'.ino = f.ino ∧ f'.size = max f.size stop ∧ Tracks v t f.ino f'.extents content)
      fun _ _ => True := by
  have committed : ∀ {t : FS} {merged : List Extent}, Tracks v t f.ino merged content →
      (commitFile v f merged (max f.size stop)).Meets t
        (fun f' t => f'.ino = f.ino ∧ f'.size = max f.size stop ∧ Tracks v t f.ino f'.extents content)
        fun _ _ => True := by
    intro t merged tracks
    refine (commitFile_meets tracks _).yields ?_
    rintro _ u ⟨rfl, tracks, _⟩
    exact ⟨rfl, rfl, tracks⟩
  refine mapRange_rule tracks.closed (Prog.Meets.any _ _) (fun _ same => ⟨rfl, same.symm, tracks⟩)
    (fun _ => committed (tracks.zeroSlack positive (locate_places tracks) blank _))
    (fun _ _ _ _ _ => trivial) (fun _ _ _ _ _ _ _ => trivial) ?_
  rintro blocks held t _ _ - ⟨takes, frame, rfl, fills, frames⟩ long rfl -
  have zero := writeBlocks_content (v := v) id
    (fun _ => .data (replicate v.blockSize 0)) blocks (by simpa using takes.once) t
  have distinct : (f.missing v off stop).Nodup := (nodup_range' ..).filter _
  have low : ∀ b ∈ f.missing v off stop, b < 2 ^ 32 := fun b mem =>
    touched_narrow narrow b (mem_of_mem_filter mem)
  have unmapped : ∀ b ∈ f.missing v off stop, locate f.extents b = none := fun b mem =>
    Option.isNone_iff_eq_none.mp (mem_filter.mp mem).2
  have filled := tracks.carries.fill takes fills zero long distinct low unmapped
  have tracks' := tracks.step frames (fills.inode.trans takes.inode) filled
  apply committed
  refine tracks'.zeroSlack positive (fun lb b located => ?_) blank _
  obtain ⟨_, places, _⟩ := tracks.carries.merges takes long distinct low unmapped
  exact (places lb b).mpr (.inl (locate_places tracks lb b located))

theorem writeAt_within (positive : 0 < v.blockSize) (content : Disk) (octets : Bytes) (off b p : Nat) :
    content.writeAt (b * v.blockSize + (off - b * v.blockSize)) (within v octets off b) p =
      if p / v.blockSize = b then content.writeAt off octets p else content p := by
  have divided := Nat.div_add_mod' p v.blockSize
  have modest := Nat.mod_lt p positive
  have length : (within v octets off b).length =
      min (b * v.blockSize + v.blockSize - max off (b * v.blockSize))
        (octets.length - (b * v.blockSize - off)) := by
    rw [within, length_take, length_drop]
  by_cases here : p / v.blockSize = b
  · rw [if_pos here]
    rw [here] at divided
    by_cases inside : off ≤ p ∧ p < off + octets.length
    · obtain ⟨i, shifted⟩ := Nat.exists_eq_add_of_le (by omega :
        b * v.blockSize + (off - b * v.blockSize) ≤ p)
      have position : p = off + (b * v.blockSize - off + i) := by omega
      have inPart : i < (within v octets off b).length := by omega
      have inWhole : b * v.blockSize - off + i < octets.length := by omega
      have part := Disk.writeAt_inside content (b * v.blockSize + (off - b * v.blockSize)) i _ inPart
      have whole := Disk.writeAt_inside content off _ _ inWhole
      rw [← shifted] at part
      rw [← position] at whole
      rw [part, whole]
      simp only [within, getElem_take, getElem_drop]
    · rw [Disk.writeAt_outside _ off _ _ (by omega), Disk.writeAt_outside _ _ _ _ (by omega)]
  · rw [if_neg here]
    apply Disk.writeAt_outside
    rcases Nat.lt_or_gt_of_ne here with less | more
    · have := Nat.mul_le_mul_right v.blockSize less
      rw [Nat.succ_mul] at this
      omega
    · have := Nat.mul_le_mul_right v.blockSize more
      rw [Nat.succ_mul] at this
      omega

theorem writeAt_again {other : Disk}
    (agrees : ∀ p, other p = content.writeAt off octets p ∨ other p = content p) :
    other.writeAt off octets = content.writeAt off octets := by
  funext p
  by_cases inside : off ≤ p ∧ p < off + octets.length
  · obtain ⟨i, rfl⟩ := Nat.exists_eq_add_of_le inside.1
    rw [Disk.writeAt_inside _ _ _ _ (by omega), Disk.writeAt_inside _ _ _ _ (by omega)]
  · have outside : p < off ∨ off + octets.length ≤ p := by omega
    have kept : ∀ disk : Disk, disk.writeAt off octets p = disk p := fun disk =>
      Disk.writeAt_outside _ _ _ _ outside
    rcases agrees p with same | same <;> rw [kept, kept, same]
    exact kept content

theorem writeParts_meets (tracks : Tracks v s f.ino f.extents content) (positive : 0 < v.blockSize)
    (octets : Bytes) (blocks : List Nat) (later : ∀ b ∈ blocks, off / v.blockSize ≤ b) :
    (Prog.forEach (writePart v f octets off) blocks).Meets s (fun _ t => Tracks v t f.ino f.extents fun p =>
        if p / v.blockSize ∈ blocks then content.writeAt off octets p else content p) fun _ _ => True := by
  induction blocks generalizing s content with
  | nil => simpa [Prog.forEach] using tracks
  | cons b rest ih =>
    rw [Prog.forEach, meets_bind, writePart]
    cases located : f.locate b with
    | none => trivial
    | some phys =>
      rw [meets_modify]
      have reached : off < (b + 1) * v.blockSize :=
        (Nat.div_lt_iff_lt_mul positive).mp (Nat.lt_succ_of_le (later b mem_cons_self))
      have fits : off - b * v.blockSize + (within v octets off b).length ≤ v.blockSize := by
        rw [Nat.succ_mul] at reached
        rw [within, length_take]
        omega
      have written := tracks.writeInBlock (locate_places tracks b phys located) _ _ fits positive
      have part := writeAt_within positive content octets off b
      have again : Disk.writeAt (content.writeAt (b * v.blockSize + (off - b * v.blockSize))
          (within v octets off b)) off octets = content.writeAt off octets := by
        apply writeAt_again
        intro p
        rw [part p]
        split <;> simp
      refine (ih written fun c mem => later c (mem_cons_of_mem _ mem)).yields
        fun _ t tracks' => ?_
      rw [again] at tracks'
      convert tracks' using 2 with p
      rw [part p]
      by_cases here : p / v.blockSize = b <;> simp [here]

theorem writeParts_rule (holds : FS → Prop) (initially : holds s)
    (part : ∀ lb b u at_ octets, f.locate lb = some b → holds u → holds (u.writeInBlock v b at_ octets))
    (octets : Bytes) (off : Nat) (blocks : List Nat) : (Prog.forEach (writePart v f octets off) blocks).Meets s
      (fun _ => holds) fun e t => e = .unmapped ∧ holds t := by
  refine meets_forEach _ initially fun lb _ t during => ?_
  unfold writePart
  split
  · exact ⟨rfl, during⟩
  next b located => exact part lb b t _ _ located during

theorem touched_covers (octets : Bytes) :
    (fun p => if p / v.blockSize ∈ touched v off (off + octets.length) then content.writeAt off octets p
      else content p) = content.writeAt off octets := by
  funext p
  split
  · rfl
  next untouched =>
    refine (Disk.writeAt_outside _ _ _ _ ?_).symm
    by_contra inside
    have first : off / v.blockSize ≤ p / v.blockSize := Nat.div_le_div_right (by omega)
    have last : p / v.blockSize ≤ (off + octets.length - 1) / v.blockSize :=
      Nat.div_le_div_right (by omega)
    exact untouched (mem_touched.mpr (by omega))

theorem writeAt_meets (tracks : Tracks v s f.ino f.extents content) (positive : 0 < v.blockSize)
    (blank : ∀ p, f.size ≤ p → content p = 0) (some : octets ≠ [])
    (narrow : (off + octets.length - 1) / v.blockSize < 2 ^ 32) : (writeAt v f octets off).Meets s
      (fun f' t => f'.ino = f.ino ∧ f'.size = max f.size (off + octets.length) ∧
        Tracks v t f.ino f'.extents (content.writeAt off octets)) fun _ _ => True := by
  unfold writeAt
  rw [if_neg some]
  refine (mapRange_meets tracks positive blank narrow).seq ?_ fun _ _ _ => trivial
  rintro f' t ⟨same, size, tracks⟩
  rw [← same] at tracks ⊢
  refine (writeParts_meets tracks positive octets _ fun b mem => (mem_touched.mp mem).1).seq ?_
    fun _ _ _ => trivial
  rintro _ u tracks
  rw [touched_covers octets] at tracks
  exact ⟨rfl, size, tracks⟩

end

/-! ## Truncate -/

def cut (content : Disk) (size : Nat) : Disk := fun p => if p < size then content p else 0

/-- The kept extents carry what is before the cut, once the rest of the last block is zero. -/
theorem View.Carries.cut {x : View} {count : Nat} {child : List Nat} (positive : 0 < v.blockSize)
    (carries : x.Carries v count child extents content)
    (blank : ∀ p, size ≤ p → p / v.blockSize < (size + v.blockSize - 1) / v.blockSize → content p = 0) :
    x.Carries v count child (keptExtents ((size + v.blockSize - 1) / v.blockSize) extents)
      (cut content size) := by
  set keep := (size + v.blockSize - 1) / v.blockSize with kept
  have sub := blocksOf_keptExtents keep extents
  have laid := carries.laid.keptExtents keep
  have runs : ∀ b ∈ child ++ blocksOf (keptExtents keep extents), b ∈ child ++ blocksOf extents :=
    fun b mem => mem_append.mpr ((mem_append.mp mem).imp_right fun inRuns =>
      sub.subset inRuns)
  constructor
  case padded => exact carries.padded
  case laid => exact laid
  case used => exact fun b mem => carries.used b (runs b mem)
  case inside => exact fun b mem => carries.inside b (runs b mem)
  case apart => exact fun b leaf inRuns => carries.apart leaf (sub.subset inRuns)
  case data => exact fun b mem => carries.data b (sub.subset mem)
  case holds =>
    intro p
    have before := carries.holds p
    unfold View.octetAt at before ⊢
    by_cases below : p / v.blockSize < keep
    · -- The block is kept: the same octet, and zeros behind the cut.
      have same : locate (keptExtents keep extents) (p / v.blockSize) =
          locate extents (p / v.blockSize) :=
        laid.locate_congr carries.laid fun phys => by simp [places_keptExtents, below]
      rw [same, before, Volume.cut]
      split
      · rfl
      next past => exact blank p (Nat.le_of_not_lt past) below
    · have none : locate (keptExtents keep extents) (p / v.blockSize) = none := by
        apply Option.eq_none_iff_forall_ne_some.mpr
        intro phys located
        exact below (places_keptExtents.mp (laid.locate_iff.mp located)).1
      have lower := (Nat.le_div_iff_mul_le positive).mp (Nat.le_of_not_lt below)
      have upper : size ≤ keep * v.blockSize := by
        have divided := Nat.div_add_mod' (size + v.blockSize - 1) v.blockSize
        have modest := Nat.mod_lt (size + v.blockSize - 1) positive
        rw [← kept] at divided
        omega
      rw [none, Volume.cut, if_neg (by omega)]

theorem kept_block (positive : 0 < v.blockSize) (past : size ≤ p)
    (below : p / v.blockSize < (size + v.blockSize - 1) / v.blockSize) :
    size % v.blockSize ≠ 0 ∧ p / v.blockSize = size / v.blockSize ∧
      p < size + (v.blockSize - size % v.blockSize) := by
  have upper := (Nat.le_div_iff_mul_le positive).mp (Nat.succ_le_of_lt below)
  rw [Nat.succ_mul] at upper
  have same : p / v.blockSize = size / v.blockSize := by
    refine Nat.le_antisymm ?_ (Nat.div_le_div_right past)
    rw [Nat.le_div_iff_mul_le positive]
    omega
  have first := Nat.div_add_mod' p v.blockSize
  have second := Nat.div_add_mod' size v.blockSize
  have modest := Nat.mod_lt p positive
  rw [same] at first upper
  exact ⟨by omega, same, by omega⟩

section
variable (tracks : Tracks v s f.ino f.extents content) (positive : 0 < v.blockSize)
include tracks positive

theorem Tracks.trim (size : Nat) :
    ∃ trimmed : Disk, Tracks v (if size % v.blockSize = 0 then s else
        match f.locate (size / v.blockSize) with
        | none => s
        | some b => s.writeInBlock v b (size % v.blockSize)
            (replicate (v.blockSize - size % v.blockSize) 0)) f.ino f.extents trimmed ∧
      (∀ p < size, trimmed p = content p) ∧
      ∀ p, size ≤ p → p / v.blockSize < (size + v.blockSize - 1) / v.blockSize → trimmed p = 0 := by
  split
  next even =>
    refine ⟨content, tracks, fun _ _ => rfl, fun p past below => ?_⟩
    exact absurd even (kept_block positive past below).1
  · split
    next hole =>
      refine ⟨content, tracks, fun _ _ => rfl, fun p past below => ?_⟩
      have unmapped : locate f.extents (p / v.blockSize) = none := by
        rw [(kept_block positive past below).2.1]
        exact hole
      rw [← tracks.carries.holds p, View.octetAt, unmapped]
    next b located =>
      have modest := Nat.mod_lt size positive
      have written := tracks.writeInBlock (locate_places tracks _ b located) (size % v.blockSize)
        (replicate (v.blockSize - size % v.blockSize) 0)
        (by rw [length_replicate]; omega) positive
      rw [Nat.div_add_mod'] at written
      refine ⟨_, written, fun p below => Disk.writeAt_outside _ _ _ _ (.inl below), ?_⟩
      intro p past below
      obtain ⟨i, rfl⟩ := Nat.exists_eq_add_of_le past
      have inBlock := (kept_block positive past below).2.2
      rw [Disk.writeAt_inside _ _ _ _ (by rw [length_replicate]; omega), getElem_replicate]

theorem shrink_meets (size : Nat) :
    (shrink v f size).Meets s
      (fun f' t => f'.ino = f.ino ∧ f'.size = size ∧ Tracks v t f.ino f'.extents (cut content size))
      fun _ _ => True := by
  unfold shrink
  rw [meets_bind, meets_modify]
  obtain ⟨trimmed, tracks, before, blank⟩ := tracks.trim positive size
  set keep := (size + v.blockSize - 1) / v.blockSize
  have same : cut trimmed size = cut content size := by
    funext p
    unfold cut
    split
    next below => exact before p below
    · rfl
  have carries := tracks.carries
  have shorter := carries.cut positive blank
  rw [same] at shorter
  refine (commitFile_meets ⟨tracks.closed, tracks.low, shorter⟩ size).seq ?_ fun _ _ _ => trivial
  rintro _ t ⟨rfl, tracks', blocksCount, fresh⟩
  rw [meets_bind, meets_modify, meets_pure]
  obtain ⟨releases, frame⟩ := freeBlocks_spec tracks'.closed (freedBlocks keep f.extents)
  refine ⟨rfl, rfl, tracks'.step frame releases.inode ?_⟩
  have freed : ∀ b ∈ freedBlocks keep f.extents, b ∈ blocksOf f.extents := fun b gone => by
    obtain ⟨lb, _, places⟩ := mem_freedBlocks gone
    exact places.mem
  refine tracks'.carries.releases releases ?_ ?_
  · intro b gone
    rw [blocksCount]
    exact carries.inside b (mem_append_right _ (freed b gone))
  · intro b gone kept
    rcases mem_append.mp kept with leaf | inRuns
    · exact (carries.of_free (fresh b leaf)).2 (mem_append_right _ (freed b gone))
    · -- A kept block is before the cut, a freed one behind it.
      obtain ⟨lb, behind, places⟩ := mem_freedBlocks gone
      obtain ⟨lb', places'⟩ := exists_places inRuns
      obtain ⟨below, places'⟩ := places_keptExtents.mp places'
      have := Places.injective carries.laid.once places places'
      omega

theorem truncate_meets
    (blank : ∀ p, f.size ≤ p → content p = 0) (size : Nat) : (truncate v f size).Meets s
      (fun f' t => f'.ino = f.ino ∧ f'.size = size ∧ Tracks v t f.ino f'.extents (cut content size))
      fun _ _ => True := by
  have whole : f.size ≤ size → cut content size = content := fun longer => by
    funext p
    unfold cut
    split
    · rfl
    · exact (blank p (by omega)).symm
  unfold truncate
  split
  next same =>
    refine ⟨rfl, same.symm, ?_⟩
    rwa [whole (Nat.le_of_eq same.symm)]
  · split
    · exact shrink_meets tracks positive size
    next longer =>
      rw [meets_bind, meets_modify, whole (Nat.le_of_not_lt longer)]
      have zeroed := tracks.zeroSlack positive (locate_places tracks) blank size
      refine (commitFile_meets zeroed size).yields ?_
      rintro _ u ⟨rfl, tracks, _⟩
      exact ⟨rfl, rfl, tracks⟩

end

/-! ## The array -/

def octetsOf (array : Bytes) : Disk := fun p => array[p]?.getD 0

theorem octetsOf_past (past : array.length ≤ p) : octetsOf array p = 0 := by
  rw [octetsOf, getElem?_eq_none past]
  rfl

theorem octetsOf_writeAt (array octets : Bytes) (off : Nat) :
    octetsOf (Octets.writeAt array off octets) = (octetsOf array).writeAt off octets := by
  funext p
  by_cases inside : off ≤ p ∧ p < off + octets.length
  · obtain ⟨i, rfl⟩ := Nat.exists_eq_add_of_le inside.1
    have bound : i < octets.length := by omega
    rw [octetsOf, writeAt_inside _ _ _ _ bound, Disk.writeAt_inside _ _ _ _ bound,
      getElem?_eq_getElem bound]
    rfl
  · rw [Disk.writeAt_outside _ _ _ _ (by omega)]
    rcases Nat.lt_or_ge p array.length with present | past
    · rw [octetsOf, writeAt_outside _ _ _ _ present (by omega), octetsOf]
    · -- Behind the old end: the gap before the written octets, or the end of the new array.
      rw [octetsOf_past past, octetsOf, Octets.writeAt]
      rcases Nat.lt_or_ge p off with gap | behind
      · rw [append_assoc, getElem?_append_left (by simp; omega),
          getElem?_append_right (by simp; omega), getElem?_replicate]
        split <;> rfl
      · rw [getElem?_eq_none (by simp; omega)]
        rfl

theorem octetsOf_resize (array : Bytes) (size : Nat) :
    octetsOf (array.take size ++ replicate (size - array.length) 0) = cut (octetsOf array) size := by
  funext p
  rw [octetsOf, getD_pad, cut, octetsOf, getElem?_take]
  split <;> rfl

inductive FileCall where
  | writeAt (octets : Bytes) (off : Nat)
  | truncate (size : Nat)

def FileCall.perform (v : Shape) (f : File) : FileCall → Prog FS Err File
  | .writeAt octets off => Volume.writeAt v f octets off
  | .truncate size => Volume.truncate v f size

def FileCall.onArray (array : Bytes) : FileCall → Bytes
  | .writeAt octets off => if octets = [] then array else Octets.writeAt array off octets
  | .truncate size => array.take size ++ List.replicate (size - array.length) 0

def FileCall.Narrow (v : Shape) : FileCall → Prop
  | .writeAt octets off => octets ≠ [] → (off + octets.length - 1) / v.blockSize < 2 ^ 32
  | .truncate _ => True

def performAll (v : Shape) : List FileCall → File → Prog FS Err File
  | [], f => pure f
  | call :: rest, f => do
      let f ← call.perform v f
      performAll v rest f

def readArray (array : Bytes) (off len : Nat) : Bytes × Option (Stop Err) :=
  if array.length ≤ off then ([], some .eof)
  else ((array.drop off).take len, if array.length < off + len then some .eof else none)

structure Refines (v : Shape) (s : FS) (f : File) (array : Bytes) : Prop where
  tracks : Tracks v s f.ino f.extents (octetsOf array)
  size : f.size = array.length

section
variable (refines : Refines v s f array) (positive : 0 < v.blockSize)
include refines positive

theorem Refines.perform
    {call : FileCall} (narrow : call.Narrow v) :
    (call.perform v f).Meets s (fun f' t => Refines v t f' (call.onArray array)) fun _ _ => True := by
  have blank : ∀ p, f.size ≤ p → octetsOf array p = 0 := fun p past =>
    octetsOf_past (refines.size ▸ past)
  cases call with
  | writeAt octets off =>
    by_cases empty : octets = []
    · rw [FileCall.perform, writeAt, FileCall.onArray, if_pos empty, if_pos empty]
      exact refines
    · refine (writeAt_meets refines.tracks positive blank empty (narrow empty)).yields ?_
      rintro f' t ⟨same, size, tracks⟩
      rw [FileCall.onArray, if_neg empty]
      refine ⟨?_, by rw [size, refines.size, writeAt_length]⟩
      rw [octetsOf_writeAt, same]
      exact tracks
  | truncate size =>
    refine (truncate_meets refines.tracks positive blank size).yields ?_
    rintro f' t ⟨same, size', tracks⟩
    refine ⟨?_, ?_⟩
    · rw [FileCall.onArray, octetsOf_resize, same]
      exact tracks
    · rw [size', FileCall.onArray, length_append, length_take, length_replicate]
      omega

theorem Refines.performAll
    {calls : List FileCall} (narrow : ∀ call ∈ calls, call.Narrow v) : (performAll v calls f).Meets s
      (fun f' t => Refines v t f' (calls.foldl FileCall.onArray array)) fun _ _ => True := by
  induction calls generalizing s f array with
  | nil => exact refines
  | cons call rest ih =>
    refine (refines.perform positive (narrow call mem_cons_self)).seq ?_ fun _ _ _ => trivial
    exact fun f' t refines => ih refines fun other mem => narrow other (mem_cons_of_mem _ mem)

/-! ## ReadAt -/

theorem Refines.holds :
    Holds (s.fetch v) v.blockSize f.size f.extents (octetsOf array) where
  run e mem cur chunk covers some _ fits := by
    have carries := refines.tracks.carries
    -- The octet at `cur + i` is in the block that the extent has for it.
    have place : ∀ i < chunk, Places f.extents ((cur + i) / v.blockSize)
        (e.physBlock + (cur / v.blockSize - e.logBlock) + (cur % v.blockSize + i) / v.blockSize) :=
      fun i inside => covers.places mem positive fits inside
    have last := place (chunk - 1) (by omega)
    have inRange := carries.inside _ (mem_append_right _ last.mem)
    rw [← Nat.add_sub_assoc some] at inRange
    rw [fetch, if_neg fun refused => Nat.not_le.mpr inRange refused.2]
    congr 1
    rw [range'_eq_map_range, range'_eq_map_range, map_map, map_map]
    refine map_congr_left fun i inside => ?_
    have located := carries.laid.locate_iff.mpr (place i (mem_range.mp inside))
    have octet := carries.holds (cur + i)
    rw [View.octetAt, located] at octet
    dsimp only [Function.comp_apply] at octet ⊢
    rw [← octet, Nat.mod_add_mod, ← now_of_none s refines.tracks.closed]
    rfl
  hole cur _ uncovered := by
    have carries := refines.tracks.carries
    have unmapped : locate f.extents (cur / v.blockSize) = none := by
      apply Option.eq_none_iff_forall_ne_some.mpr
      intro phys located
      obtain ⟨e, mem, covers, _⟩ := carries.laid.locate_iff.mp located
      exact uncovered e mem covers
    rw [← carries.holds cur, View.octetAt, unmapped]

end

theorem window_octetsOf (array : Bytes) (off len : Nat) :
    window (octetsOf array) array.length off len = (array.drop off).take len := by
  apply ext_getElem?
  intro i
  rw [window, getElem?_map, List.getElem?_take]
  split
  next inside =>
    rw [getElem?_drop]
    rcases Nat.lt_or_ge (off + i) array.length with present | past
    · rw [getElem?_range' (by omega), Option.map_some, octetsOf, getElem?_eq_getElem (by omega)]
      simp
    · rw [getElem?_eq_none (by simp; omega), getElem?_eq_none past]
      rfl
  next outside =>
    rw [getElem?_eq_none (by simp; omega)]
    rfl

theorem Refines.readAt (refines : Refines v s f array) (positive : 0 < v.blockSize)
    (off len : Nat) : f.readAt v s off len = readArray array off len := by
  have size := refines.size
  unfold File.readAt readArray
  by_cases past : array.length ≤ off
  · rw [readMapped, if_pos (by omega), if_pos past]
  rw [if_neg past]
  cases len with
  | zero =>
    rw [readMapped, if_neg (by omega), readLoop, take_zero, if_neg (by omega)]
  | succ n =>
    rw [readMapped_eq (refines.tracks.carries.laid.searchable _) positive (refines.holds positive) off
      (Nat.succ_pos n), size, window_octetsOf]

/-! ## OpenFile -/

/-- The checks that a path passes before it is opened as `f`; `n` is the inode it leads to. -/
structure FS.Opens (v : Shape) (s : FS) (path : Path) (n : Inode) (extents : List Extent) (f : File) :
    Prop where
  found : s.lookupPath v (components path) = .ok (f.ino, n)
  regular : n.kind = .regular
  parsed : s.parseExtents n.mapping = .ok extents
  fits : n.size ≤ s.sb.blocksCount * v.blockSize
  mapped : 0 < n.size → extents ≠ []
  sorted : f.extents = extents.insertionSort fun e f => e.logBlock ≤ f.logBlock
  size : f.size = n.size

theorem openFile_opens (path : Path) :
    (openFile v path).Meets s (fun f t => t = s ∧ ∃ n extents, s.Opens v path n extents f)
      fun _ t => t = s := by
  refine .look ?_ fun _ _ => rfl
  rintro ⟨i, n⟩ found
  dsimp only
  split
  · rfl
  next regular =>
    refine .look (fun m read => ?_) fun _ _ => rfl
    -- The inode is read a second time.
    cases (lookupPath_ok found).2.symm.trans read
    refine .look (fun extents parsed => ?_) fun _ _ => rfl
    rw [meets_bind, meets_read]
    split
    · rfl
    next fits =>
      split
      · rfl
      next mapped =>
        exact ⟨rfl, n, extents, found, not_not.mp regular, parsed, Nat.le_of_not_lt fits,
          fun present empty => mapped ⟨present, empty⟩, rfl, rfl⟩

theorem FS.Opens.opened {path : Path} {n : Inode}
    (opens : s.Opens v path n extents f) : openFile v path s = (.ok f, s) := by
  obtain ⟨ino, runs, size⟩ := f
  have sorted := opens.sorted
  have same := opens.size
  subst sorted same
  have mapped : ¬(0 < n.size ∧ extents = []) := fun both => opens.mapped both.1 both.2
  simp [openFile, bind, pure, Prog.tryRead, Prog.read, opens.found, (lookupPath_ok opens.found).2,
    opens.regular, opens.parsed, Nat.not_lt.mpr opens.fits, mapped]

end Ext4.Volume
