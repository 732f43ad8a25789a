import Ext4.Volume.Reopening
import Ext4.Volume.Undisturbed

/-! Calls on an open file that run out of space.
Until the new map is written such a call has taken blocks that were free and cleared the end of one
block of the file: from the old size on when the file grows, from the new size on when it is cut. -/

namespace Ext4.Volume
open Octets Alloc Store List Function FS

def FS.recorded (v : Shape) (s : FS) (ino : Nat) : List Extent :=
  (view v s.now).extentsOf ((view v s.now).inode ino).mapping

/-- What the file knows is what the device has; `OpenFile` sorts the leaves. -/
structure File.UpToDate (v : Shape) (s : FS) (f : File) : Prop where
  alive : (view v s.now).live f.ino
  size : ((view v s.now).inode f.ino).size = f.size
  leaves : f.extents.Perm (s.recorded v f.ino)

/-- Free blocks were taken, and octets of the file's block at offset `from_` were cleared, from there
on. -/
structure View.Cleared (x y : View) (v : Shape) (f : File) (from_ : Nat) : Prop where
  inode : y.inode = x.inode
  live : y.live = x.live
  grown : ∀ b, x.used b → y.used b
  block : ∀ b, x.used b → y.block b = x.block b ∨
    (f.locate (from_ / v.blockSize) = some b ∧ ∃ n, 0 < from_ % v.blockSize ∧
      from_ % v.blockSize + n ≤ v.blockSize ∧
      y.block b = splice v (from_ % v.blockSize) (replicate n 0) (x.block b))

variable {v : Shape} {s t start : FS} {x y z : View} {f : File} {extents : List Extent} {b size : Nat}
  {e : Err} {path : Path} {n : Inode}

theorem View.Leaks.cleared (leaks : x.Leaks y) (from_ : Nat) : x.Cleared y v f from_ :=
  ⟨leaks.inode, leaks.live, leaks.grown, fun b inUse => .inl (leaks.block b inUse)⟩

theorem View.Leaks.clear (leaks : x.Leaks y) {from_ n : Nat} (located : f.locate (from_ / v.blockSize) = some b)
    (slack : 0 < from_ % v.blockSize) (fits : from_ % v.blockSize + n ≤ v.blockSize) : x.Cleared ({ y with
        block := update y.block b (splice v (from_ % v.blockSize) (replicate n 0) (y.block b)) } :
      View) v f from_ where
  inode := leaks.inode
  live := leaks.live
  grown := leaks.grown
  block c inUse := by
    by_cases same : c = b
    · subst same
      refine .inr ⟨located, n, slack, fits, ?_⟩
      rw [← leaks.block c inUse]
      exact update_self ..
    · left
      rw [← leaks.block c inUse]
      exact update_of_ne same ..

/-! ## What a failed call leaves -/

theorem zeroSlack_cleared (closed : t.tx = none) (leaks : x.Leaks (view v t.now)) (positive : 0 < v.blockSize)
    (oldSize newSize : Nat) : x.Cleared (view v (zeroSlack v f oldSize newSize t).now) v f oldSize ∧
      Frame t (zeroSlack v f oldSize newSize t) := by
  have modest := Nat.mod_lt oldSize positive
  unfold zeroSlack
  dsimp only
  split
  · exact ⟨leaks.cleared _, Frame.refl t⟩
  next grows =>
    split
    · exact ⟨leaks.cleared _, Frame.refl t⟩
    next b located =>
      obtain ⟨shown, frame⟩ := writeInBlock_spec closed b (oldSize % v.blockSize)
        (replicate (min (v.blockSize - oldSize % v.blockSize) (newSize - oldSize)) 0)
      refine ⟨?_, frame⟩
      rw [shown]
      exact leaks.clear located (by omega) (by omega)

theorem growFile_failed (closed : t.tx = none) (leaks : x.Leaks (view v t.now)) (frame : Frame s t)
    (positive : 0 < v.blockSize) (merged : List Extent) (size : Nat) : (do
      .modify (zeroSlack v f f.size size)
      commitFile v f merged size : Prog FS Err File).Meets t (fun _ _ => True)
      fun _ u => x.Cleared (view v u.now) v f f.size ∧ Frame s u := by
  rw [meets_bind, meets_modify]
  obtain ⟨cleared, frame'⟩ := zeroSlack_cleared closed leaks positive f.size size
  refine (commitFile_spec (frame'.toOuter.closed closed) merged size).mono (fun _ _ _ => trivial) ?_
  rintro e u ⟨shown, frame''⟩
  rw [shown]
  exact ⟨cleared, (frame.trans frame').trans frame''⟩

theorem mapRange_failed (closed : s.tx = none) (positive : 0 < v.blockSize) (off stop : Nat) :
    (mapRange v f off stop).Meets s (fun _ _ => True)
      fun _ t => (view v s.now).Cleared (view v t.now) v f f.size ∧ Frame s t := by
  have failed {t : FS} (leaks : (view v s.now).Leaks (view v t.now)) (frame : Frame s t) :=
    growFile_failed (f := f) (frame.toOuter.closed closed) leaks frame positive
  refine mapRange_rule closed (Prog.Meets.any _ _) (fun _ _ => trivial)
    (fun _ => failed (View.Leaks.refl _) (Frame.refl s) _ _) (fun _ _ _ same frame => ?_)
    (fun _ _ _ _ _ zeroed _ => ⟨zeroed.leaks.cleared _, zeroed.frames⟩) ?_
  · rw [same]
    exact ⟨(View.Leaks.refl _).cleared _, frame⟩
  · rintro blocks held t u _ - zeroed - rfl -
    exact failed zeroed.leaks zeroed.frames _ _

theorem writeAt_failed (closed : s.tx = none) (positive : 0 < v.blockSize) (octets : Bytes) (off : Nat) :
    (writeAt v f octets off).Meets s (fun _ _ => True) fun e t => e = .unmapped ∨
      (view v s.now).Cleared (view v t.now) v f f.size ∧ Frame s t := by
  unfold writeAt
  split
  · trivial
  · refine (mapRange_failed closed positive _ _).seq ?_ fun _ _ failed => .inr failed
    rintro f' t _
    exact (writeParts_rule (fun _ => True) trivial (fun _ _ _ _ _ _ _ => trivial) octets off _).seq
      (fun _ _ _ => trivial) fun _ _ failed => .inl failed.1

theorem shrink_failed (closed : s.tx = none) (size : Nat) :
    (shrink v f size).Meets s (fun _ _ => True) fun _ t =>
      Frame s t ∧ view v t.now = view v (if size % v.blockSize = 0 then s else
        match f.locate (size / v.blockSize) with
        | none => s
        | some b => s.writeInBlock v b (size % v.blockSize)
            (replicate (v.blockSize - size % v.blockSize) 0)).now := by
  unfold shrink
  rw [meets_bind, meets_modify]
  set cut := (if size % v.blockSize = 0 then s else _) with trimmed
  have frame : Frame s cut := by
    rw [trimmed]
    split
    · exact Frame.refl s
    · split
      · exact Frame.refl s
      · exact (writeInBlock_spec closed _ _ _).2
  refine (commitFile_spec (frame.toOuter.closed closed) _ size).seq (fun _ _ _ => trivial) ?_
  rintro e t ⟨shown, frame'⟩
  exact ⟨frame.trans frame', shown⟩

/-! ## What the readers see -/

def SameOctets (v : Shape) (s t : FS) (extents : List Extent) (size : Nat) : Prop :=
  ∀ lb b i, Places extents lb b → (s.sb.blocksCount ≠ 0 → b < s.sb.blocksCount) → i < v.blockSize →
    lb * v.blockSize + i < size → (t.image (.block b)).octet i = (s.image (.block b)).octet i

theorem SameOctets.perm {other : List Extent} (same : SameOctets v s t extents size)
    (listed : other.Perm extents) : SameOctets v s t other size := by
  rintro lb b i ⟨e, mem, place⟩
  exact same lb b i ⟨e, listed.mem_iff.mp mem, place⟩

theorem SameOctets.readAt (same : SameOctets v s t f.extents f.size) (positive : 0 < v.blockSize)
    (blocks : t.sb.blocksCount = s.sb.blocksCount) (off len : Nat) :
    f.readAt v t off len = f.readAt v s off len := by
  refine readMapped_congr positive (fun e mem cur chunk covers some inside fits => ?_) off len
  unfold fetch
  rw [blocks]
  split
  · rfl
  next checked =>
    refine congrArg Except.ok (map_congr_left fun i listed => ?_)
    obtain ⟨j, short, rfl⟩ := mem_range'.mp listed
    rw [Nat.one_mul]
    have place := covers.places mem positive fits short
    have spot : (cur + j) / v.blockSize * v.blockSize + (cur % v.blockSize + j) % v.blockSize = cur + j := by
      rw [Nat.mod_add_mod]
      exact Nat.div_add_mod' _ _
    refine same _ _ _ place (fun bounded => ?_) (Nat.mod_lt _ positive) (by omega)
    -- The check is of the last block that is fetched.
    have last := Nat.div_le_div_right (c := v.blockSize) (show cur % v.blockSize + j ≤ cur % v.blockSize + chunk - 1 by
      omega)
    omega

section
variable (same : SameOctets v s t extents size) (blocks : t.sb.blocksCount = s.sb.blocksCount)
include same blocks

theorem SameOctets.copyBlock {lb : Nat} (place : Places extents lb b) (out : Bytes) :
    t.copyBlock v size out (lb, b) = s.copyBlock v size out (lb, b) := by
  unfold FS.copyBlock
  rw [blocks]
  split
  · rfl
  next checked =>
    dsimp only at checked ⊢
    split
    · rfl
    next starts =>
      have octets : (range (min v.blockSize (size - lb * v.blockSize))).map (t.image (.block b)).octet =
          (range (min v.blockSize (size - lb * v.blockSize))).map (s.image (.block b)).octet := by
        refine map_congr_left fun i listed => ?_
        have short := mem_range.mp listed
        exact same lb b i place (fun bounded => by omega) (by omega) (by omega)
      rw [octets]

theorem SameOctets.copyBlocks (pairs : List (Nat × Nat))
    (placed : ∀ p ∈ pairs, Places extents p.1 p.2) (out : Bytes) :
    pairs.foldlM (t.copyBlock v size) out = pairs.foldlM (s.copyBlock v size) out := by
  induction pairs generalizing out with
  | nil => rfl
  | cons p rest ih =>
    rw [foldlM_cons, foldlM_cons, same.copyBlock blocks (placed p mem_cons_self)]
    exact congrArg _ (funext fun out => ih (fun q mem => placed q (mem_cons_of_mem _ mem)) out)

end

/-- `OpenFile` and one `ReadAt`, with the size that the new file has. -/
def FS.readFresh (v : Shape) (s : FS) (path : Path) (off len : Nat) :
    Except Err (Nat × Bytes × Option (Stop Err)) :=
  match openFile v path s with
  | (.error e, _) => .error e
  | (.ok g, u) => .ok (g.size, g.readAt v u off len)

/-- The size and the octets of the file are what they were, for its own reads, for those of a file
that is opened afterwards and for `ReadFile`. -/
structure SameContent (v : Shape) (s t : FS) (f : File) : Prop where
  own : ∀ off len, f.readAt v t off len = f.readAt v s off len
  fresh : ∀ path n, s.lookupPath v (components path) = .ok (f.ino, n) →
    ∀ off len, t.readFresh v path off len = s.readFresh v path off len
  whole : ∀ path n, s.lookupPath v (components path) = .ok (f.ino, n) →
    ∀ limit, t.readFile v limit path = s.readFile v limit path

theorem openFile_congr {i : Nat} (found : s.lookupPath v (components path) = .ok (i, n))
    (found' : t.lookupPath v (components path) = .ok (i, n))
    (parsed : t.parseExtents n.mapping = s.parseExtents n.mapping)
    (blocks : t.sb.blocksCount = s.sb.blocksCount) : openFile v path t = ((openFile v path s).1, t) := by
  have read := (lookupPath_ok found).2
  have read' := (lookupPath_ok found').2
  by_cases regular : n.kind = .regular
  · cases extents : s.parseExtents n.mapping with
    | error e =>
      simp [openFile, bind, Prog.tryRead, found, found', read, read', regular, parsed, extents]
    | ok extents' =>
      by_cases fits : s.sb.blocksCount * v.blockSize < n.size
      · simp [openFile, bind, Prog.tryRead, Prog.read, Prog.fail, found, found', read, read', regular,
          parsed, extents, blocks, fits]
      · by_cases mapped : 0 < n.size ∧ extents' = []
        all_goals
          simp [openFile, bind, pure, Prog.tryRead, Prog.read, Prog.fail, found, found', read, read',
            regular, parsed, extents, blocks, fits, mapped]
  · simp [openFile, bind, Prog.tryRead, Prog.fail, found, found', regular]

theorem OnlyFile.sameContent (only : OnlyFile v s t f.ino) (positive : 0 < v.blockSize)
    (linked : (view v s.image).Linked s.sb.inodesCount)
    (inode : (view v t.image).inode f.ino = (view v s.image).inode f.ino)
    (leaf : ∀ c ∈ ((view v s.image).inode f.ino).mapping.child, t.image (.block c) = s.image (.block c))
    (size : ((view v s.image).inode f.ino).size = f.size)
    (leaves : f.extents.Perm ((view v s.image).extentsOf ((view v s.image).inode f.ino).mapping))
    (same : SameOctets v s t f.extents f.size) : SameContent v s t f := by
  have found' : ∀ path n, s.lookupPath v (components path) = .ok (f.ino, n) →
      n = (view v s.image).inode f.ino ∧ t.lookupPath v (components path) = .ok (f.ino, n) := by
    intro path n found
    obtain ⟨_, _, rfl⟩ := readInode_ok (lookupPath_ok found).2
    have later := only.lookupPath linked found
    rw [inode] at later
    exact ⟨rfl, later⟩
  have parsed : t.parseExtents ((view v s.image).inode f.ino).mapping =
      s.parseExtents ((view v s.image).inode f.ino).mapping := parseExtents_congr only.blocks leaf
  -- The readers take the leaves as they are parsed, and the file has them sorted.
  have shared : ∀ extents, s.parseExtents ((view v s.image).inode f.ino).mapping = .ok extents →
      SameOctets v s t extents ((view v s.image).inode f.ino).size := by
    intro extents read
    rw [size]
    refine same.perm ?_
    rw [← (parseExtents_ok read).1] at leaves
    exact leaves.symm
  constructor
  case own => exact same.readAt positive only.blocks
  case fresh =>
    intro path n found off len
    obtain ⟨rfl, later⟩ := found' path n found
    unfold readFresh
    rw [openFile_congr found later parsed only.blocks]
    cases opened : openFile v path s with
    | mk result u =>
      cases result with
      | error e => rfl
      | ok g =>
        obtain ⟨rfl, n, extents, opens⟩ := (openFile_opens path).ok opened
        obtain ⟨_, rfl⟩ := Prod.mk.inj (Except.ok.inj (found.symm.trans opens.found))
        have sorted : SameOctets v u t g.extents g.size := by
          rw [opens.sorted, opens.size]
          exact (shared extents opens.parsed).perm (perm_insertionSort _ _)
        dsimp only
        rw [sorted.readAt positive only.blocks]
  case whole =>
    intro path n found limit
    obtain ⟨rfl, later⟩ := found' path n found
    unfold readFile
    simp only [bind, Except.bind, found, later, (lookupPath_ok found).2, (lookupPath_ok later).2,
      parsed, only.blocks]
    split
    · rfl
    · cases read : s.parseExtents ((view v s.image).inode f.ino).mapping with
      | error e => rfl
      | ok extents =>
        have copied := (shared extents read).copyBlocks only.blocks
          (extents.flatMap fun e => (range e.count).map fun k => (e.logBlock + k, e.physBlock + k))
          (fun p mem => by
            obtain ⟨e, listed, mem⟩ := mem_flatMap.mp mem
            obtain ⟨k, bound, rfl⟩ := mem_map.mp mem
            have below := mem_range.mp bound
            exact ⟨e, listed, ⟨Nat.le_add_right _ _, Nat.add_lt_add_left below _⟩, by simp⟩)
        dsimp only
        split
        · rfl
        · split
          · rfl
          · exact copied _

/-! ## What is cleared inside the file -/

theorem octet_splice_zeros (at_ n : Nat) (short : at_ + n ≤ v.blockSize) (block : Block) (i : Nat) :
    (splice v at_ (replicate n 0) block).octet i =
      if at_ ≤ i ∧ i < at_ + n then 0 else block.octet i := by
  have data : ∀ old : Bytes, (splice v at_ (replicate n 0) (.data old)).octet i =
      if at_ ≤ i ∧ i < at_ + n then 0 else old[i]?.getD 0 := by
    intro old
    rw [octet_splice at_ _ old (by simpa using short), length_replicate, getElem?_replicate]
    split
    · split <;> rfl
    · rfl
  cases block with
  | data old => exact data old
  | target _ | slots _ | leaf _ => exact data []

theorem File.readAt_one (positive : 0 < v.blockSize) {p : Nat} (below : p < f.size) :
    (f.readAt v s p 1).1 = match f.locate (p / v.blockSize) with
      | none => [0]
      | some b => if s.sb.blocksCount ≠ 0 ∧ s.sb.blocksCount ≤ b then []
          else [(s.image (.block b)).octet (p % v.blockSize)] := by
  have modest := Nat.mod_lt p positive
  rw [File.readAt, readMapped, if_neg (by omega), readLoop, if_neg Nat.one_ne_zero, if_neg (by omega),
    File.locate, Volume.locate]
  have want : min 1 (f.size - p) = 1 := by omega
  simp only [want]
  cases found : seek f.extents (p / v.blockSize) with
  | none => rfl
  | some e =>
    dsimp only
    split
    next hole =>
      have later := (Nat.div_lt_iff_lt_mul positive).mp hole
      rw [show min 1 (e.logBlock * v.blockSize - p) = 1 by omega]
      rfl
    next low =>
      obtain ⟨_, covers⟩ := seek_covers found low
      obtain ⟨ends, later⟩ := covers.rest positive
      rw [show min 1 ((e.count - (p / v.blockSize - e.logBlock)) * v.blockSize - p % v.blockSize) = 1 by
        omega, fetch, Nat.add_sub_cancel, Nat.div_eq_of_lt modest, Nat.add_zero]
      by_cases past : s.sb.blocksCount ≠ 0 ∧
          s.sb.blocksCount ≤ e.physBlock + (p / v.blockSize - e.logBlock)
      · simp only [if_pos past]
      · simp only [if_neg past, range'_one, map_singleton, Nat.mod_mod, readLoop, append_nil]
        rw [Nat.div_eq_of_lt modest, Nat.add_zero]

theorem File.UpToDate.backs (current : f.UpToDate v s) (healthy : Healthy v s) :
    (view v s.now).Backs f.ino f.extents :=
  healthy.owned.backs current.alive (current.leaves.flatMap_right _)

section
variable {from_ : Nat} (cleared : (view v s.now).Cleared (view v t.now) v f from_) (frame : Frame s t)
  (healthy : Healthy v s) (current : f.UpToDate v s)
include cleared frame healthy current

omit current in
theorem View.Cleared.image (inUse : (view v s.now).used b) (other : b ∉ blocksOf f.extents) :
    t.image (.block b) = s.image (.block b) := by
  have same : (view v t.now).block b = (view v s.now).block b := by
    rcases cleared.block b inUse with same | ⟨located, _⟩
    · exact same
    · exact absurd (locate_mem located) other
  rwa [now_of_none s healthy.closed, now_of_none t (frame.toOuter.closed healthy.closed)] at same

theorem View.Cleared.onlyFile (regular : ((view v s.now).inode f.ino).kind = .regular) :
    OnlyFile v s t f.ino := by
  have backs := current.backs healthy
  have spares : (view v s.now).Spares (view v t.now) [f.ino] := by
    refine ⟨fun j alive _ => cleared.live ▸ alive, fun j _ _ => by rw [cleared.inode], ?_⟩
    intro j alive other b mapped
    have inUse := healthy.owned.used j alive b mapped
    rcases cleared.block b inUse with same | ⟨located, _⟩
    · exact same
    · have different : j ≠ f.ino := fun same => other (mem_singleton.mpr same)
      exact absurd mapped (backs.own b (locate_mem located) j ((View.without_live_of_ne _ different).trans alive))
  have after : ((view v t.now).inode f.ino).kind = .regular := by rw [cleared.inode, regular]
  rw [now_of_none s healthy.closed] at spares regular
  rw [now_of_none t (frame.toOuter.closed healthy.closed)] at spares after
  exact ⟨frame.inodesCount, frame.blocksCount, spares, regular, after⟩

theorem View.Cleared.sameOctets (positive : 0 < v.blockSize)
    (zero : ∀ p, from_ ≤ p → p < f.size → p / v.blockSize = from_ / v.blockSize →
      0 < from_ % v.blockSize → ∀ o, (f.readAt v s p 1).1 = [o] → o = 0) :
    SameOctets v s t f.extents f.size := by
  have backs := current.backs healthy
  intro lb b i place readable short inside
  have blocks := cleared.block b (backs.used b place.mem)
  rw [now_of_none s healthy.closed, now_of_none t (frame.toOuter.closed healthy.closed)] at blocks
  rcases blocks with same | ⟨located, n, slack, fits, spliced⟩
  · exact congrArg (fun block : Block => block.octet i) same
  · have here : lb = from_ / v.blockSize := place.injective backs.once (places_of_locate located)
    subst here
    refine (congrArg (fun block : Block => block.octet i) spliced).trans ?_
    rw [octet_splice_zeros _ _ fits]
    split
    next hit =>
      have divided := Nat.div_add_mod' from_ v.blockSize
      have block : (from_ / v.blockSize * v.blockSize + i) / v.blockSize = from_ / v.blockSize := by
        rw [Nat.mul_comm, Nat.mul_add_div positive, Nat.div_eq_of_lt short, Nat.add_zero]
      have spot : (from_ / v.blockSize * v.blockSize + i) % v.blockSize = i := by
        rw [Nat.mul_comm, Nat.mul_add_mod, Nat.mod_eq_of_lt short]
      refine (zero _ (by omega) inside block slack _ ?_).symm
      rw [File.readAt_one positive inside, block, located, spot]
      refine if_neg fun past => ?_
      omega
    · rfl

theorem View.Cleared.sameContent (positive : 0 < v.blockSize)
    (linked : (view v s.now).Linked s.sb.inodesCount) (regular : ((view v s.now).inode f.ino).kind = .regular)
    (zero : ∀ p, from_ ≤ p → p < f.size → p / v.blockSize = from_ / v.blockSize →
      0 < from_ % v.blockSize → ∀ o, (f.readAt v s p 1).1 = [o] → o = 0) : SameContent v s t f := by
  have backs := current.backs healthy
  have only := cleared.onlyFile frame healthy current regular
  have inode := congrFun cleared.inode f.ino
  have leaf : ∀ c ∈ ((view v s.now).inode f.ino).mapping.child, t.image (.block c) = s.image (.block c) :=
    fun c child => cleared.image frame healthy
      (healthy.owned.used f.ino current.alive c (View.child_subset_mappedBy _ _ child)) (backs.apart child)
  have size := current.size
  have leaves := current.leaves
  have octets := cleared.sameOctets frame healthy current positive zero
  unfold recorded at leaves
  rw [now_of_none s healthy.closed] at linked inode leaf size leaves
  rw [now_of_none t (frame.toOuter.closed healthy.closed)] at inode
  exact only.sameContent positive linked inode leaf size leaves octets

end

/-! ## Calls that run out of space -/

/-- Cutting the file inside a block loses nothing: what the file delivers of that block behind the
cut is zeros. -/
def FileCall.Lossless (v : Shape) (s : FS) (f : File) : FileCall → Prop
  | .writeAt _ _ => True
  | .truncate size => size < f.size → 0 < size % v.blockSize → ∀ p, size ≤ p → p < f.size →
      p / v.blockSize = size / v.blockSize → ∀ o, (f.readAt v s p 1).1 = [o] → o = 0

theorem shrink_trims (closed : s.tx = none) (failed : shrink v f size s = (.error e, t))
    (located : f.locate (size / v.blockSize) = some b) (slack : 0 < size % v.blockSize) :
    t.image (.block b) = splice v (size % v.blockSize)
      (replicate (v.blockSize - size % v.blockSize) 0) (s.image (.block b)) := by
  obtain ⟨frame, shown⟩ := (shrink_failed closed size).error failed
  rw [if_neg slack.ne', located] at shown
  rw [(writeInBlock_spec closed _ _ _).1] at shown
  have block := congrFun (congrArg View.block shown) b
  dsimp only at block
  rw [update_self, now_of_none s closed, now_of_none t (frame.toOuter.closed closed)] at block
  exact block

theorem shrink_cleared (positive : 0 < v.blockSize) (closed : s.tx = none)
    (failed : shrink v f size s = (.error e, t)) :
    (view v s.now).Cleared (view v t.now) v f size ∧ Frame s t := by
  obtain ⟨frame, shown⟩ := (shrink_failed closed size).error failed
  refine ⟨?_, frame⟩
  rw [shown]
  split
  · exact (View.Leaks.refl _).cleared _
  next slack =>
    split
    · exact (View.Leaks.refl _).cleared _
    next b located =>
      have modest := Nat.mod_lt size positive
      rw [(writeInBlock_spec closed _ _ _).1]
      exact (View.Leaks.refl _).clear located (Nat.pos_of_ne_zero slack) (by omega)

theorem FileCall.perform_failed {call : FileCall} (positive : 0 < v.blockSize) (closed : s.tx = none)
    (exhausted : e.exhausted) (failed : call.perform v f s = (.error e, t)) :
    (∃ size, call = .truncate size ∧ size < f.size ∧ shrink v f size s = (.error e, t)) ∨
      call.Lossless v s f ∧ (view v s.now).Cleared (view v t.now) v f f.size ∧ Frame s t := by
  cases call with
  | writeAt octets off =>
    rcases (writeAt_failed closed positive octets off).error failed with rfl | kept
    · cases exhausted
    · exact .inr ⟨trivial, kept⟩
  | truncate size =>
    change Volume.truncate v f size s = _ at failed
    unfold Volume.truncate at failed
    split at failed
    · cases failed
    · split at failed
      next less => exact .inl ⟨size, rfl, less, failed⟩
      next more =>
        exact .inr ⟨fun less => absurd less more,
          (growFile_failed closed (View.Leaks.refl _) (Frame.refl s) positive _ _).error failed⟩

/-- A call on an open file that runs out of space leaves the size and the octets of the file alone
exactly when it is not a cut inside a block behind which the file has more than zeros. -/
theorem exhausted_keeps_content {call : FileCall} {e : Err} (positive : 0 < v.blockSize)
    (healthy : Healthy v s) (linked : (view v s.now).Linked s.sb.inodesCount) (current : f.UpToDate v s)
    (regular : ((view v s.now).inode f.ino).kind = .regular) (exhausted : e.exhausted)
    (failed : call.perform v f s = (.error e, t)) : SameContent v s t f ↔ call.Lossless v s f := by
  rcases FileCall.perform_failed positive healthy.closed exhausted failed with
    ⟨size, rfl, less, cut⟩ | ⟨lossless, cleared, frame⟩
  · constructor
    · intro same _ slack p behind inside block o read
      have later := congrArg Prod.fst (same.own p 1)
      rw [read, File.readAt_one positive inside, block] at later
      rw [File.readAt_one positive inside, block] at read
      cases located : f.locate (size / v.blockSize) with
      | none =>
        rw [located] at read
        exact (singleton_inj.mp read).symm
      | some b =>
        rw [located] at later
        dsimp only at later
        split at later
        · cases later
        · -- The octet is one of those that were cleared.
          have before := Nat.div_add_mod' size v.blockSize
          have divided := Nat.div_add_mod' p v.blockSize
          have modest := Nat.mod_lt p positive
          rw [block] at divided
          rw [shrink_trims healthy.closed cut located slack, octet_splice_zeros _ _ (by omega),
            if_pos ⟨by omega, by omega⟩] at later
          exact (singleton_inj.mp later).symm
    · intro lossless
      obtain ⟨cleared, frame⟩ := shrink_cleared positive healthy.closed cut
      exact cleared.sameContent frame healthy current positive linked regular
        fun p behind inside block slack => lossless less slack p behind inside block
  · refine iff_of_true (cleared.sameContent frame healthy current positive linked regular ?_) lossless
    intro p behind inside
    omega

theorem FS.Opens.upToDate (opens : s.Opens v path n extents f) (closed : s.tx = none)
    (alive : (view v s.now).live f.ino) : f.UpToDate v s := by
  have read := (readInode_ok (lookupPath_ok opens.found).2).2.2
  refine ⟨alive, ?_, ?_⟩
  · rw [opens.size, now_of_none s closed, read]
  · rw [recorded, now_of_none s closed, opens.sorted, (parseExtents_ok opens.parsed).1, read]
    exact perm_insertionSort _ _

theorem threeOpened_healthy : Healthy (fmtShape 22) threeOpened.2 := by
  have sound := formatted_healthy 22 [] true (by decide)
  have linked : (view (fmtShape 22) (formatted 22 [] true).now).Linked (formatted 22 [] true).sb.inodesCount := by
    decide +kernel
  rw [((openFile_opens ['/', 'a']).ok threeOpened_eq).1]
  exact ((writeFile_placed sound (sound.attached linked _) _).ok threeOctets_eq).elim
    (fun placed => placed.entered.healthy) fun ⟨_, _, _, _, _, _, gained⟩ => gained.healthy

theorem threeOpened_current : File.UpToDate (fmtShape 22) threeOpened.2 ⟨11, [⟨0, 21, 1⟩], 3⟩ := by
  obtain ⟨same, n, extents, opens⟩ := (openFile_opens ['/', 'a']).ok threeOpened_eq
  have closed := threeOpened_healthy.closed
  rw [same] at closed ⊢
  exact opens.upToDate closed (by decide)

theorem exhausted_keeps_content_three : ∃ f u t, threeOpened = (.ok f, u) ∧
    writeAt (fmtShape 22) f [9] 4096 u = (.error .noFreeBlocks, t) ∧ SameContent (fmtShape 22) u t f := by
  have failed : (FileCall.writeAt [9] 4096).perform (fmtShape 22) ⟨11, [⟨0, 21, 1⟩], 3⟩ threeOpened.2 =
      (.error .noFreeBlocks, (writeAt (fmtShape 22) ⟨11, [⟨0, 21, 1⟩], 3⟩ [9] 4096 threeOpened.2).2) :=
    Prog.ended (by decide)
  exact ⟨_, _, _, threeOpened_eq, failed, (exhausted_keeps_content (by decide) threeOpened_healthy
    (by decide +kernel) threeOpened_current (by decide +kernel) rfl failed).mpr trivial⟩

/-- A volume without a free block; the file `a`, inode 11, has five extents and so a leaf block. -/
def packedImage : Image
  | .super => ⟨⟨27, 16, 0, 5, []⟩, none⟩
  | .descs _ => fun g => if g = 0 then ⟨0, 5, 1⟩ else ⟨0, 0, 0⟩
  | .bitmap ⟨_, true⟩ => fun _ => true
  | .bitmap ⟨g, false⟩ => fun bit => decide (g = 0) && decide (bit < 11) || decide (16 ≤ bit)
  | .itable _ _ => fun j =>
      if j = 1 then ⟨.dir, 0o755, 2, 4096, 8, .inline [⟨0, 20, 1⟩]⟩
      else if j = 10 then ⟨.regular, 0o644, 1, 32771, 40, .index 26⟩
      else .zero
  | .block b =>
      if b = 20 then .slots [⟨2, 12, dot, .dir⟩, ⟨2, 12, dotDot, .dir⟩, ⟨11, 4072, ['a'], .regFile⟩]
      else if b = 25 then .data [7, 8, 9]
      else if b = 26 then .leaf [⟨0, 21, 1⟩, ⟨2, 22, 1⟩, ⟨4, 23, 1⟩, ⟨6, 24, 1⟩, ⟨8, 25, 1⟩]
      else .data []

def packed : FS where
  device := ⟨packedImage, [], packedImage, rfl⟩
  journal := true
  tx := none
  reserved _ := []
  cursor := 0
  sb := ⟨27, 16, 0, 5, []⟩

def packedFile : File := ⟨11, [⟨0, 21, 1⟩, ⟨2, 22, 1⟩, ⟨4, 23, 1⟩, ⟨6, 24, 1⟩, ⟨8, 25, 1⟩], 32771⟩

/-- Cutting the file inside its last block fails, because the five extents that stay need a new leaf
block, and its last two octets are gone for every reader. -/
theorem failed_cut_loses_octets : ∃ t, openFile strayShape ['/', 'a'] packed = (.ok packedFile, packed) ∧
    truncate strayShape packedFile 32769 packed = (.error .noFreeBlocks, t) ∧
    packedFile.readAt strayShape packed 32768 3 = ([7, 8, 9], none) ∧
    packedFile.readAt strayShape t 32768 3 = ([7, 0, 0], none) ∧
    t.readFresh strayShape ['/', 'a'] 32768 3 = .ok (32771, [7, 0, 0], none) := by
  have opened : openFile strayShape ['/', 'a'] packed =
      (.ok packedFile, (openFile strayShape ['/', 'a'] packed).2) := Prog.ended (by decide)
  rw [((openFile_opens ['/', 'a']).ok opened).1] at opened
  have failed : truncate strayShape packedFile 32769 packed =
      (.error .noFreeBlocks, (truncate strayShape packedFile 32769 packed).2) :=
    Prog.ended (by decide)
  refine ⟨_, opened, failed, ?_, ?_, ?_⟩
  all_goals decide

end Ext4.Volume
