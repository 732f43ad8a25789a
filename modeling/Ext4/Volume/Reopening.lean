import Ext4.Volume.NewFile
import Ext4.Volume.OwnedRuns

/-! What an open file has written can be opened again.
The readers check the size of a file against that of the filesystem, and that a file with a size
maps some block. Both can be told from the calls: the outline of a file is its size and the logical
blocks that were stored and not cut off since. -/

namespace Ext4.Volume
open Octets Alloc Store List FS

structure Outline where
  size : Nat
  stored : Nat → Bool

section
variable (v : Shape)

/-- `WriteFile` stores at least one block. -/
def Outline.ofData (data : Bytes) : Outline := ⟨data.length, fun b => b < blocksFor v data⟩

/-- A write stores the blocks it touches; cutting drops the blocks behind the end, growing stores
nothing. -/
def FileCall.onOutline (o : Outline) : FileCall → Outline
  | .writeAt octets off =>
      if octets = [] then o
      else ⟨max o.size (off + octets.length),
        fun b => o.stored b || decide (b ∈ touched v off (off + octets.length))⟩
  | .truncate size =>
      if size < o.size then ⟨size, fun b => o.stored b && decide (b * v.blockSize < size)⟩
      else ⟨size, o.stored⟩

def Outline.Readable (o : Outline) (blocksCount : Nat) : Prop :=
  o.size ≤ blocksCount * v.blockSize ∧ (0 < o.size → ∃ b, o.stored b)

end

structure Outline.Of (o : Outline) (f : File) : Prop where
  size : f.size = o.size
  stored : ∀ lb, (∃ b, Places f.extents lb b) ↔ o.stored lb

variable {v : Shape} {s t : FS} {f : File} {o : Outline} {off stop : Nat} {octets : Bytes}

/-! ## What the calls do to the outline -/

theorem commitFile_result (extents : List Extent) (size : Nat) : (commitFile v f extents size).Meets s
      (fun f' _ => f' = { f with extents := extents, size := size }) fun _ _ => True := by
  refine .seq (Prog.Meets.any _ _) (fun x t _ => ?_) fun _ _ _ => trivial
  rw [meets_bind]
  exact (Prog.Meets.any _ _).yields fun _ _ _ => rfl

/-- The extents of the file after `mapRange`: new ones are for blocks that the file had not. -/
theorem mapRange_result : (mapRange v f off stop).Meets s
      (fun f' _ => f'.size = max f.size stop ∧ ∃ blocks, ∀ lb b, Places f'.extents lb b ↔
        Places f.extents lb b ∨
          Places (singles ((touched v off stop).filter fun b => (f.locate b).isNone) blocks) lb b)
      fun _ _ => True := by
  have nothing : ∀ missing lb b, ¬ Places (singles missing []) lb b := by
    rintro missing lb b ⟨e, mem, _⟩
    simp [singles] at mem
  unfold mapRange
  dsimp only
  split
  · split
    next same => exact ⟨same.symm, [], fun lb b => by simp [nothing]⟩
    · rw [meets_bind, meets_modify]
      refine (commitFile_result _ _).yields ?_
      rintro f' t rfl
      exact ⟨rfl, [], fun lb b => by simp [nothing]⟩
  · refine .seq (Prog.Meets.any _ _) ?_ fun _ _ _ => trivial
    rintro ⟨blocks, held⟩ t _
    simp only [meets_bind, meets_modify]
    split
    · trivial
    simp only [meets_bind, meets_modify]
    refine (commitFile_result _ _).yields ?_
    rintro f' u rfl
    exact ⟨rfl, blocks, fun lb b => places_coalesceExtents.trans Places.append⟩

theorem writeParts_located (octets : Bytes) (blocks : List Nat) :
    (Prog.forEach (writePart v f octets off) blocks).Meets s
      (fun _ _ => ∀ lb ∈ blocks, ∃ b, Places f.extents lb b) fun _ _ => True := by
  induction blocks generalizing s with
  | nil => exact fun lb mem => absurd mem not_mem_nil
  | cons lb rest ih =>
    rw [Prog.forEach, meets_bind]
    unfold writePart
    split
    · trivial
    next b located =>
      rw [meets_modify]
      refine ih.yields fun _ _ others => ?_
      rintro lb' mem
      rcases mem_cons.mp mem with rfl | later
      · exact ⟨b, places_of_locate located⟩
      · exact others lb' later

/-- A write that succeeds maps the blocks it touches and no others. A logical block from 2^32 on is
recorded under another number, and the loop does not find it. -/
theorem Outline.Of.writeAt (of : o.Of f) (laid : Laid f.extents) (some : octets ≠ []) :
    (writeAt v f octets off).Meets s
      (fun f' _ => (FileCall.onOutline v o (.writeAt octets off)).Of f' ∧
        ∀ lb ∈ touched v off (off + octets.length), o.stored lb ∨ lb < 2 ^ 32) fun _ _ => True := by
  unfold Volume.writeAt
  rw [if_neg some]
  refine mapRange_result.seq ?_ fun _ _ _ => trivial
  rintro f' t ⟨size, blocks, places⟩
  refine (writeParts_located octets _).seq ?_ fun _ _ _ => trivial
  intro _ u found
  -- What is new is the number of a touched block that the file had not, modulo 2^32.
  have new : ∀ lb b, Places (singles ((touched v off (off + octets.length)).filter fun b =>
      (f.locate b).isNone) blocks) lb b → ∃ lb' ∈ touched v off (off + octets.length),
        o.stored lb' = false ∧ lb = lb' % 2 ^ 32 := by
    rintro lb b ⟨e, mem, covers, _⟩
    obtain ⟨one, lb', missing, log⟩ := mem_singles mem
    obtain ⟨inRange, hole⟩ := mem_filter.mp missing
    refine ⟨lb', inRange, Bool.eq_false_iff.mpr fun stored => ?_, ?_⟩
    · obtain ⟨phys, placed⟩ := (of.stored lb').mpr stored
      rw [File.locate, laid.locate_iff.mpr placed] at hole
      cases hole
    · rw [Extent.covers, one, log] at covers
      omega
  have low : ∀ lb ∈ touched v off (off + octets.length), o.stored lb ∨ lb < 2 ^ 32 := by
    intro lb mem
    obtain ⟨b, placed⟩ := found lb mem
    rcases (places lb b).mp placed with old | fresh
    · exact .inl ((of.stored lb).mp ⟨b, old⟩)
    · obtain ⟨lb', _, _, rfl⟩ := new lb b fresh
      exact .inr (Nat.mod_lt _ (by decide))
  refine ⟨⟨?_, fun lb => ?_⟩, low⟩
  · rw [size, FileCall.onOutline, if_neg some, of.size]
  · rw [FileCall.onOutline, if_neg some]
    simp only [Bool.or_eq_true, decide_eq_true_eq]
    constructor
    · rintro ⟨b, placed⟩
      rcases (places lb b).mp placed with old | fresh
      · exact .inl ((of.stored lb).mp ⟨b, old⟩)
      · obtain ⟨lb', mem, hole, same⟩ := new lb b fresh
        have narrow := (low lb' mem).resolve_left (by simp [hole])
        rw [Nat.mod_eq_of_lt narrow] at same
        exact .inr (same ▸ mem)
    · rintro (stored | mem)
      · obtain ⟨b, old⟩ := (of.stored lb).mpr stored
        exact ⟨b, (places lb b).mpr (.inl old)⟩
      · exact found lb mem

theorem lt_keep (positive : 0 < v.blockSize) (lb size : Nat) :
    lb < (size + v.blockSize - 1) / v.blockSize ↔ lb * v.blockSize < size := by
  rw [Nat.lt_iff_add_one_le, Nat.le_div_iff_mul_le positive, Nat.succ_mul]
  omega

theorem Outline.Of.truncate (of : o.Of f) (positive : 0 < v.blockSize) (size : Nat) :
    (truncate v f size).Meets s
      (fun f' _ => (FileCall.onOutline v o (.truncate size)).Of f') fun _ _ => True := by
  have grown : o.size ≤ size → FileCall.onOutline v o (.truncate size) = ⟨size, o.stored⟩ :=
    fun longer => if_neg (Nat.not_lt.mpr longer)
  unfold Volume.truncate
  split
  next same =>
    rw [grown (by rw [← of.size, same])]
    exact ⟨same.symm, of.stored⟩
  · split
    next shorter =>
      unfold shrink
      rw [meets_bind, meets_modify]
      refine (commitFile_result _ _).seq ?_ fun _ _ _ => trivial
      rintro f' t rfl
      rw [meets_bind, meets_modify, meets_pure, FileCall.onOutline, if_pos (of.size ▸ shorter)]
      refine ⟨rfl, fun lb => ?_⟩
      simp only [places_keptExtents, exists_and_left, of.stored, Bool.and_eq_true, decide_eq_true_eq,
        lt_keep positive]
      exact and_comm
    next longer =>
      rw [meets_bind, meets_modify, grown (by rw [← of.size]; omega)]
      refine (commitFile_result _ _).yields ?_
      rintro f' t rfl
      exact ⟨rfl, of.stored⟩

/-! ## A file through a sequence of calls -/

/-- An open file holds the array, its outline is known, and its inode says what it knows; since
`start` nothing else has changed. -/
structure Session (v : Shape) (start s : FS) (f : File) (o : Outline) (array : Bytes) : Prop where
  refines : Refines v s f array
  of : o.Of f
  low : ∀ lb, o.stored lb → lb < 2 ^ 32
  backed : Backed v start s f.ino f.extents
  recorded : f.Recorded v s

variable {start : FS} {array data : Bytes} {path : Path} {n : Inode} {extents : List Extent} {i : Nat}

theorem mem_touched_last (some : octets ≠ []) :
    (off + octets.length - 1) / v.blockSize ∈ touched v off (off + octets.length) := by
  have long := length_pos_iff.mpr some
  have first : off / v.blockSize ≤ (off + octets.length - 1) / v.blockSize :=
    Nat.div_le_div_right (by omega)
  rw [mem_touched]
  omega

section
variable (session : Session v start s f o array) (positive : 0 < v.blockSize)
include session positive

theorem Session.outline
    (call : FileCall) : (call.perform v f).Meets s (fun f' _ => (call.onOutline v o).Of f' ∧ call.Narrow v ∧
        ∀ lb, (call.onOutline v o).stored lb → lb < 2 ^ 32) fun _ _ => True := by
  cases call with
  | writeAt octets off =>
    by_cases empty : octets = []
    · rw [FileCall.perform, writeAt, FileCall.onOutline, if_pos empty, if_pos empty]
      exact ⟨session.of, fun some => absurd empty some, session.low⟩
    · refine (session.of.writeAt session.refines.tracks.carries.laid empty).yields ?_
      rintro f' t ⟨of, touched⟩
      have low : ∀ lb ∈ Volume.touched v off (off + octets.length), lb < 2 ^ 32 := fun lb mem =>
        (touched lb mem).elim (session.low lb) id
      refine ⟨of, fun _ => low _ (mem_touched_last empty), fun lb stored => ?_⟩
      rw [FileCall.onOutline, if_neg empty, Bool.or_eq_true, decide_eq_true_eq] at stored
      exact stored.elim (session.low lb) (low lb)
  | truncate size =>
    refine (session.of.truncate positive size).yields ?_
    intro f' t of
    refine ⟨of, trivial, fun lb stored => session.low lb ?_⟩
    rw [FileCall.onOutline] at stored
    by_cases shorter : size < o.size
    · rw [if_pos shorter] at stored
      exact (Bool.and_eq_true_iff.mp stored).1
    · rwa [if_neg shorter] at stored

theorem Session.perform
    (call : FileCall) : (call.perform v f).Meets s
      (fun f' t => f'.ino = f.ino ∧ Session v start t f' (call.onOutline v o) (call.onArray array))
      fun _ _ => True := by
  have outline := session.outline positive call
  by_cases narrow : call.Narrow v
  · have followed : (call.perform v f).Meets s (fun f' t => Followed v start s t f f')
        fun _ _ => True := by
      cases call with
      | writeAt octets off =>
        exact (writeAt_followed session.backed octets off).yields fun _ _ done => done
      | truncate size =>
        exact (truncate_followed session.backed size).yields fun _ _ done => done
    refine ((outline.and followed).and (session.refines.perform positive narrow)).yields ?_
    rintro f' t ⟨⟨⟨of, _, low⟩, after⟩, refines⟩
    exact ⟨after.same, refines, of, low, after.toBacked, after.recorded session.recorded⟩
  · exact outline.yields fun _ _ done => absurd done.2.1 narrow

theorem Session.performAll
    (calls : List FileCall) : (performAll v calls f).Meets s (fun f' t => f'.ino = f.ino ∧
        Session v start t f' (calls.foldl (FileCall.onOutline v) o) (calls.foldl FileCall.onArray array))
      fun _ _ => True := by
  induction calls generalizing s f o array with
  | nil => exact ⟨rfl, session⟩
  | cons call rest ih =>
    refine (session.perform positive call).seq ?_ fun _ _ _ => trivial
    rintro f' t ⟨same, session⟩
    rw [← same]
    exact ih session

end

/-! ## The readers -/

theorem Session.shown (session : Session v start s f o array) : view v s.now = view v s.image := by
  rw [now_of_none s session.backed.closed]

theorem FS.parseExtents_lists {m : Mapping}
    (parsed : s.parseExtents m = .ok extents) : (view v s.image).Lists m extents := by
  have listed := (parseExtents_ok (v := v) parsed).1
  cases m with
  | inline runs => exact .inl (congrArg Mapping.inline listed.symm)
  | index c =>
    refine .inr ⟨c, rfl, ?_⟩
    rw [parseExtents] at parsed
    split at parsed
    · cases parsed
    · split at parsed
      next runs leaf =>
        have block : (view v s.image).block c = .leaf runs := leaf
        rw [View.extentsOf, View.leaf, block] at listed
        rw [listed]
        exact block
      · cases parsed
  | none => cases parsed
  | target target => cases parsed

theorem Session.parses (session : Session v start s f o array) (origin : (view v start.now).used 0)
    (foreign : 0 ∉ (view v start.now).mapped f.ino) :
    s.parseExtents ((view v s.image).inode f.ino).mapping = .ok f.extents := by
  have valid := session.refines.tracks.carries.laid.validates
  have other := (session.backed.idle 0 origin foreign).2.1
  have inside := session.refines.tracks.carries.inside
  have lists := session.recorded.lists
  rw [session.shown] at lists inside other
  obtain inline | ⟨c, index, leaf⟩ := lists
  · rw [inline]
    exact valid
  · have child : c ∈ ((view v s.image).inode f.ino).mapping.child := by
      rw [index]
      exact mem_singleton_self c
    have nonzero : c ≠ 0 := by
      rintro rfl
      exact other (View.child_subset_mappedBy _ _ child)
    have bound := inside c (mem_append_left _ child)
    have block : s.image (.block c) = .leaf f.extents := leaf
    rw [index, parseExtents, if_neg (by omega), block]
    exact valid

theorem Session.onlyFile (session : Session v start s f o array) (closed : start.tx = none)
    (regular : ((view v start.now).inode f.ino).kind = .regular) : OnlyFile v start s f.ino where
  inodes := session.backed.frame.inodesCount
  blocks := session.backed.frame.blocksCount
  spares := by
    rw [← session.shown, ← now_of_none start closed]
    exact session.backed.spares
  before := by rwa [← now_of_none start closed]
  after := by
    rw [← session.shown, session.backed.kind]
    exact regular

theorem Outline.Of.extents_ne_nil (of : o.Of f) (laid : Laid f.extents) :
    f.extents ≠ [] ↔ ∃ lb, o.stored lb := by
  constructor
  · intro some
    obtain ⟨e, rest, shape⟩ := exists_cons_of_ne_nil some
    have mem : e ∈ f.extents := by
      rw [shape]
      exact mem_cons_self
    have long := laid.full e mem
    exact ⟨e.logBlock, (of.stored _).mp ⟨_, e, mem, ⟨Nat.le_refl _, by omega⟩, rfl⟩⟩
  · rintro ⟨lb, stored⟩ none
    obtain ⟨b, e, mem, _⟩ := (of.stored lb).mpr stored
    rw [none] at mem
    cases mem

theorem copyBlocks_ok (size : Nat) (blocks : List (Nat × Nat)) (out : Bytes)
    (inside : ∀ p ∈ blocks, p.2 < s.sb.blocksCount) :
    ∃ content, blocks.foldlM (s.copyBlock v size) out = .ok content := by
  induction blocks generalizing out with
  | nil => exact ⟨out, rfl⟩
  | cons p rest ih =>
    have here := inside p mem_cons_self
    have copied : ∃ out', s.copyBlock v size out p = .ok out' := by
      unfold copyBlock
      rw [if_neg (by omega)]
      dsimp only
      split
      · exact ⟨_, rfl⟩
      · exact ⟨_, rfl⟩
    obtain ⟨out', copied⟩ := copied
    obtain ⟨content, later⟩ := ih out' fun q mem => inside q (mem_cons_of_mem _ mem)
    refine ⟨content, ?_⟩
    rw [foldlM_cons, copied]
    exact later

/-! ## The created file -/

theorem writeFile_short (perm : Nat) :
    (writeFile v path data perm).Meets s (fun _ _ => blocksFor v data ≤ v.blocksPerGroup)
      fun _ _ => True := by
  have stored : ∀ (u : FS) inTx num dir name existing,
      (storeFile v inTx num dir name existing perm data).Meets u
        (fun _ _ => blocksFor v data ≤ v.blocksPerGroup) fun _ _ => True := by
    intro u inTx num dir name existing
    have short : (allocBlocks v inTx (blocksFor v data)).Meets u
        (fun _ _ => blocksFor v data ≤ v.blocksPerGroup) fun _ _ => True := by
      unfold Prog.Meets allocBlocks
      dsimp only
      cases chosen : u.advanceCursor.chooseBlocks v inTx (blocksFor v data) with
      | none => trivial
      | some choice => exact chooseBlocks_le chosen
    unfold storeFile
    rw [meets_bind, meets_onFailure]
    refine short.yields fun r w fits => ?_
    exact (Prog.Meets.any _ _).yields fun _ _ _ => fits
  exact writeFile_begins (fun _ _ => trivial) (fun num dir name _ _ => stored _ _ _ _ _ _)
    fun num dir name i x _ _ _ => (Prog.Meets.any _ _).yields fun _ _ _ => stored _ _ _ _ _ _

theorem Placed.linked {fileType : FileType} (placed : Placed v path fileType s t)
    (linked : (view v s.now).Linked s.sb.inodesCount) (count : t.sb.inodesCount = s.sb.inodesCount)
    (only : ∀ j, (view v t.now).live j → (view v s.now).live j ∨ j = i)
    (regular : ((view v t.now).inode i).kind = .regular) : (view v t.now).Linked t.sb.inodesCount := by
  obtain ⟨num, dir, name, k, new, _, _, alive, gained, few, _⟩ := placed
  have gains := gained.gains
  refine ⟨gains.live _ linked.1, ?_⟩
  intro j inRange live isDir e mem
  rcases only j live with before | rfl
  · rw [gains.kind j before] at isDir
    rcases mem_append.mp ((gains.entries j before isDir).mem_iff.mp mem) with added | old
    · split at added
      · rw [mem_singleton.mp (few.subset added)]
        exact alive
      · cases added
    · rw [count] at inRange
      exact gains.live _ (linked.2 j inRange before isDir e old)
  · rw [regular] at isDir
    cases isDir

theorem Created.session (created : Created v s t data i) (healthy : Healthy v t)
    (small : blocksFor v data ≤ 2 ^ 32) (opens : t.Opens v path n extents f) (same : f.ino = i)
    (alive : (view v t.now).live i) : Session v t t f (Outline.ofData v data) data := by
  have refines := (openFile_refines created).ok opens.opened same
  have read := (readInode_ok (lookupPath_ok opens.found).2).2.2
  rw [← now_of_none t created.closed, same] at read
  have listed := (parseExtents_ok (v := v) opens.parsed).1
  rw [← now_of_none t created.closed, read] at listed
  have sorted : f.extents = extents := by
    have searchable := (created.stores.carries.laid.searchable 0).sorted.insertionSort_eq
    rw [opens.sorted, listed, searchable]
  have spread := created.stores.spread
  rw [← listed, ← sorted] at spread
  refine ⟨refines, ⟨refines.size, fun lb => ?_⟩, fun lb stored => ?_, ?_, ?_, ?_⟩
  · exact (spread lb).trans decide_eq_true_iff.symm
  · have bound := of_decide_eq_true stored
    omega
  · exact (opens.inSync created.closed (same ▸ alive)).backed healthy
  · rw [same, opens.size, read]
  · rw [same, ← read, sorted]
    rw [now_of_none t created.closed]
    exact parseExtents_lists opens.parsed

/-! ## Reopening -/

/-- `OpenFile` of the path finds the size and the map of the file, and `ReadFile` succeeds unless
its limit is too small. -/
def FS.Reopens (v : Shape) (s : FS) (limit : Nat) (path : Path) (f : File) : Prop :=
  (∃ f', openFile v path s = (.ok f', s) ∧ f'.size = f.size ∧ ∀ lb, f'.locate lb = f.locate lb) ∧
    (f.size ≤ limit → ∃ content, s.readFile v limit path = .ok content)

structure FS.Shows (v : Shape) (s : FS) (path : Path) (n : Inode) (f : File) : Prop where
  found : s.lookupPath v (components path) = .ok (f.ino, n)
  regular : n.kind = .regular
  parsed : s.parseExtents n.mapping = .ok f.extents
  size : n.size = f.size
  laid : Laid f.extents
  inside : ∀ b ∈ blocksOf f.extents, b < s.sb.blocksCount

section
variable (shows : s.Shows v path n f) (fits : f.size ≤ s.sb.blocksCount * v.blockSize)
  (mapped : 0 < f.size → f.extents ≠ [])
include shows fits mapped

theorem FS.Shows.opens : s.Opens v path n f.extents f where
  found := shows.found
  regular := shows.regular
  parsed := shows.parsed
  fits := shows.size ▸ fits
  mapped := shows.size ▸ mapped
  sorted := (shows.laid.searchable 0).sorted.insertionSort_eq.symm
  size := shows.size.symm

theorem FS.Shows.readFile {limit : Nat}
    (allowed : f.size ≤ limit) : ∃ content, s.readFile v limit path = .ok content := by
  have small : ¬ min (s.sb.blocksCount * v.blockSize) limit < f.size := by omega
  have some : ¬ (0 < f.size ∧ f.extents = []) := fun both => mapped both.1 both.2
  obtain ⟨content, copied⟩ := copyBlocks_ok (v := v) f.size
    (f.extents.flatMap fun e => (range e.count).map fun k => (e.logBlock + k, e.physBlock + k))
    (replicate f.size 0) (by
      intro p mem
      obtain ⟨e, listed, mem⟩ := mem_flatMap.mp mem
      obtain ⟨k, bound, rfl⟩ := mem_map.mp mem
      refine shows.inside _ (mem_flatMap.mpr ⟨e, listed, ?_⟩)
      have := mem_range.mp bound
      exact mem_range'_1.mpr ⟨Nat.le_add_right _ _, by omega⟩)
  refine ⟨content, ?_⟩
  simp [FS.readFile, bind, Except.bind, shows.found,
    (lookupPath_ok shows.found).2, shows.regular, shows.parsed, shows.size, small, some, copied]

end

theorem FS.Shows.reopens_iff (shows : s.Shows v path n f) (of : o.Of f)
    (limit : Nat) : s.Reopens v limit path f ↔ o.Readable v s.sb.blocksCount := by
  constructor
  · rintro ⟨⟨f', opened, _⟩, _⟩
    obtain ⟨_, n', extents, opens⟩ := (openFile_opens path).ok opened
    obtain ⟨_, rfl⟩ := Prod.mk.inj (Except.ok.inj (shows.found.symm.trans opens.found))
    cases shows.parsed.symm.trans opens.parsed
    have fits := opens.fits
    have mapped := opens.mapped
    rw [shows.size, of.size] at fits mapped
    exact ⟨fits, fun some => (of.extents_ne_nil shows.laid).mp (mapped some)⟩
  · rintro ⟨fits, stored⟩
    rw [← of.size] at fits stored
    have mapped := fun some => (of.extents_ne_nil shows.laid).mpr (stored some)
    exact ⟨⟨f, (shows.opens fits mapped).opened, rfl, fun _ => rfl⟩, shows.readFile fits mapped⟩

theorem Creates.namedBy (creates : Creates v s path) : s.namedBy v path = .ok none := by
  obtain ⟨num, dir, name, search, absent, _⟩ := creates.absent
  have read := lookupParent_read search
  simp [FS.namedBy, bind, Except.bind, search, read, absent]

/-- What the calls left in a file that `WriteFile` created can be reopened exactly when the file is
no longer than the filesystem and, unless it is empty, some block of it is stored. -/
theorem reopened_iff {u w : FS} {path other : Path} {data : Bytes} {perm : Nat} {f f' : File}
    {calls : List FileCall} (positive : 0 < v.blockSize) (few : v.blocksPerGroup ≤ 2 ^ 32)
    (healthy : Healthy v s) (linked : (view v s.now).Linked s.sb.inodesCount)
    (origin : (view v s.now).used 0) (creates : Creates v s path)
    (wrote : writeFile v path data perm s = (.ok (), t)) (opened : openFile v other t = (.ok f, u))
    (unused : (view v s.now).live f.ino = false) (inUse : (view v t.now).live f.ino)
    (ran : performAll v calls f u = (.ok f', w)) (limit : Nat) : w.Reopens v limit other f' ↔
      (calls.foldl (FileCall.onOutline v) (Outline.ofData v data)).Readable v s.sb.blocksCount := by
  obtain ⟨i, created⟩ := (writeFile_created creates positive perm).ok wrote
  have short := (writeFile_short perm).ok wrote
  obtain ⟨unchanged, n, extents, opens⟩ := (openFile_opens other).ok opened
  subst u
  have same : f.ino = i := (created.only f.ino inUse).resolve_left (by simp [unused])
  have regular : ((view v t.now).inode f.ino).kind = .regular := by
    rw [now_of_none t created.closed, ← (readInode_ok (lookupPath_ok opens.found).2).2.2]
    exact opens.regular
  have placed : Placed v path .regFile s t := by
    refine ((writeFile_placed healthy (healthy.attached linked path) perm).ok wrote).resolve_right ?_
    rintro ⟨_, _, _, named, _⟩
    cases creates.namedBy.symm.trans named
  have sound : Healthy v t := by
    obtain ⟨_, _, _, _, _, _, _, _, gained, _⟩ := placed
    exact gained.healthy
  have connected := placed.linked linked created.count created.only (same ▸ regular)
  rw [now_of_none t created.closed] at connected
  have session := created.session sound (short.trans few) opens same (same ▸ inUse)
  have foreign : 0 ∉ (view v t.now).mapped f.ino := fun mem => by
    rw [same] at mem
    rw [created.stores.fresh 0 mem] at origin
    cases origin
  obtain ⟨kept, last⟩ := (session.performAll positive calls).ok ran
  rw [← kept] at regular foreign
  have only := last.onlyFile created.closed regular
  have found := only.lookupPath connected (kept ▸ opens.found)
  have shows : w.Shows v other ((view v w.image).inode f'.ino) f' := by
    refine ⟨found, only.after, last.parses (created.stores.grown 0 origin) foreign, ?_,
      last.refines.tracks.carries.laid, ?_⟩
    · rw [← last.shown]
      exact last.recorded.size
    · exact fun b mem => last.refines.tracks.carries.inside b (mem_append_right _ mem)
  rw [shows.reopens_iff last.of limit, only.blocks, created.blocks]

theorem reopened_iff_three : ∃ f u f' w, threeOpened = (.ok f, u) ∧
    performAll (fmtShape 22) threeCalls f u = (.ok f', w) ∧ w.Reopens (fmtShape 22) 100 ['/', 'a'] f' := by
  have readable : (threeCalls.foldl (FileCall.onOutline (fmtShape 22))
      (Outline.ofData (fmtShape 22) [1, 2, 3])).Readable (fmtShape 22) 22 := by
    refine ⟨by decide, fun _ => ⟨0, by decide⟩⟩
  exact ⟨_, _, _, _, threeOpened_eq, threeCalls_eq, (reopened_iff (by decide) (by decide)
    (formatted_healthy 22 [] true (by decide)) (by decide +kernel) (by decide +kernel)
    creates_formatted threeOctets_eq threeOpened_eq (by decide) (by decide) threeCalls_eq 100).mpr readable⟩

/-- A file cut to nothing and then made one octet long: all calls succeed, and it can neither be
opened nor read. -/
theorem truncated_not_reopened : ∃ f u f' w, threeOpened = (.ok f, u) ∧
    performAll (fmtShape 22) [.truncate 0, .truncate 1] f u = (.ok f', w) ∧ f'.size = 1 ∧
    (openFile (fmtShape 22) ['/', 'a'] w).1 = .error .noExtents ∧
    w.readFile (fmtShape 22) 100 ['/', 'a'] = .error .noExtents := by
  have ran : performAll (fmtShape 22) [.truncate 0, .truncate 1] ⟨11, [⟨0, 21, 1⟩], 3⟩ threeOpened.2 =
      (.ok ⟨11, [], 1⟩, (performAll (fmtShape 22) [.truncate 0, .truncate 1]
        ⟨11, [⟨0, 21, 1⟩], 3⟩ threeOpened.2).2) :=
    Prog.ended (by decide)
  exact ⟨_, _, _, _, threeOpened_eq, ran, rfl, by decide, by decide⟩

end Ext4.Volume
