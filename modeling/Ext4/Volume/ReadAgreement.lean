import Mathlib.Data.List.Sort
import Ext4.Volume.BlockMap

/-! `ReadAt` on an open file against `ReadFile`.
Both read one content, a function of the leaves and the device. The copy loops deliver it for any
list of leaves without overlaps; the binary search of `ReadAt` needs more. -/

namespace Ext4.InodeData
open Octets Overlay Volume List

section
variable {v : Geometry} {dev : Device} {size p off : Nat} {leaves sorted : List Extent} {data out : Bytes}
  {e : Extent} {x : Inode} {inside : Nat → Prop}

/-! ## The content of a list of leaves -/

def content (v : Geometry) (dev : Device) (leaves : List Extent) (p : Nat) : UInt8 :=
  match leaves.find? fun e => decide (e.covers (p / v.blockSize)) with
  | some e => dev.octets (v.fsOffset + (e.physBlock + (p / v.blockSize - e.logBlock)) * v.blockSize +
      p % v.blockSize)
  | none => 0

def Disjoint (leaves : List Extent) : Prop :=
  leaves.Pairwise fun e f => overlaps Extent.logBlock e f = false

theorem overlaps_symm (start : Extent → Nat) (e f : Extent) : overlaps start e f = overlaps start f e := by
  simp only [overlaps, Bool.and_comm, Bool.and_left_comm]

theorem Disjoint.unique (disjoint : Disjoint leaves) {f : Extent} {b : Nat} (first : e ∈ leaves)
    (second : f ∈ leaves) (covers : e.covers b) (covers' : f.covers b) : e = f := by
  by_contra different
  have : Std.Symm fun e f => overlaps Extent.logBlock e f = false :=
    ⟨fun e f free => by rw [overlaps_symm]; exact free⟩
  have apart := List.Pairwise.forall disjoint first second different
  obtain ⟨low, high⟩ := covers
  obtain ⟨low', high'⟩ := covers'
  simp only [overlaps, Bool.and_eq_false_iff, decide_eq_false_iff_not] at apart
  omega

theorem content_covered (disjoint : Disjoint leaves) (mem : e ∈ leaves)
    (covers : e.covers (p / v.blockSize)) : content v dev leaves p = dev.octets (v.fsOffset +
      (e.physBlock + (p / v.blockSize - e.logBlock)) * v.blockSize + p % v.blockSize) := by
  unfold content
  cases found : leaves.find? fun e => decide (e.covers (p / v.blockSize)) with
  | none =>
    have none := find?_eq_none.mp found e mem
    exact absurd covers (by simpa using none)
  | some f =>
    have same := disjoint.unique (mem_of_find?_eq_some found) mem
      (by simpa using find?_some found) covers
    rw [same]

theorem content_hole
    (hole : ∀ e ∈ leaves, ¬ e.covers (p / v.blockSize)) : content v dev leaves p = 0 := by
  have none : (leaves.find? fun e => decide (e.covers (p / v.blockSize))) = none :=
    find?_eq_none.mpr fun e mem => by simpa using hole e mem
  rw [content, none]

/-! ## The copy loops -/

theorem Device.readAt_some {n : Nat} (read : dev.readAt off n = some data) :
    data = dev.octets.readAt off n ∧ (0 < n → off + n ≤ dev.length) := by
  unfold Device.readAt at read
  split at read
  · rename_i inside
    exact ⟨(Option.some.inj read).symm, fun some => inside.resolve_left (by omega)⟩
  · cases read

theorem writeAt_piece {content : Nat → UInt8} (length : out.length = size)
    (fits : off + data.length ≤ size) (holds : ∀ i < data.length, data[i]? = some (content (off + i))) :
    (writeAt out off data).length = size ∧
    (∀ p < size, off ≤ p → p < off + data.length → (writeAt out off data)[p]? = some (content p)) ∧
    ∀ p < size, p < off ∨ off + data.length ≤ p → (writeAt out off data)[p]? = out[p]? := by
  refine ⟨by rw [writeAt_length]; omega, fun p _ low high => ?_, fun p inside outside =>
    writeAt_outside _ _ _ _ (by omega) outside⟩
  obtain ⟨i, rfl⟩ := Nat.exists_eq_add_of_le low
  rw [writeAt_inside _ _ _ _ (by omega), holds i (by omega)]

/-- What a copy loop over some pieces has delivered: the content where a piece lies, the old buffer
elsewhere. -/
structure Copied (size : Nat) (content : Nat → UInt8) (inside : Nat → Prop) (out data : Bytes) : Prop where
  length : data.length = size
  copied : ∀ p < size, inside p → data[p]? = some (content p)
  kept : ∀ p < size, ¬ inside p → data[p]? = out[p]?

theorem Copied.nil {content : Nat → UInt8} (length : out.length = size) :
    Copied size content (fun _ => False) out out :=
  ⟨length, fun _ _ absent => absent.elim, fun _ _ _ => rfl⟩

theorem Copied.cons {content : Nat → UInt8} {piece : Bytes} (length : out.length = size)
    (fits : off + piece.length ≤ size) (holds : ∀ i < piece.length, piece[i]? = some (content (off + i)))
    (rest : Copied size content inside (writeAt out off piece) data) :
    Copied size content (fun p => off ≤ p ∧ p < off + piece.length ∨ inside p) out data := by
  obtain ⟨_, written, kept⟩ := writeAt_piece length fits holds
  refine ⟨rest.length, fun p bound place => ?_, fun p bound outside => ?_⟩
  · by_cases later : inside p
    · exact rest.copied p bound later
    · obtain ⟨low, high⟩ := place.resolve_right later
      rw [rest.kept p bound later, written p bound low high]
  · rw [rest.kept p bound fun later => outside (.inr later), kept p bound (by
      by_contra reached
      exact outside (.inl (by omega)))]

theorem Copied.congr {content : Nat → UInt8} {inside' : Nat → Prop}
    (copied : Copied size content inside out data) (same : ∀ p < size, inside p ↔ inside' p) :
    Copied size content inside' out data :=
  ⟨copied.length, fun p bound place => copied.copied p bound ((same p bound).mpr place),
    fun p bound outside => copied.kept p bound fun place => outside ((same p bound).mp place)⟩

theorem covers_iff (positive : 0 < size) :
    e.covers (p / size) ↔ e.logBlock * size ≤ p ∧ p < e.logBlock * size + e.count * size := by
  unfold Extent.covers
  rw [Nat.le_div_iff_mul_le positive, Nat.div_lt_iff_lt_mul positive, Nat.add_mul]

theorem covered_place (covers : e.covers (p / size)) :
    (e.physBlock + (p / size - e.logBlock)) * size + p % size =
      e.physBlock * size + (p - e.logBlock * size) := by
  have low := covers.1
  have whole := Nat.div_add_mod' p size
  have split : p / size = e.logBlock + (p / size - e.logBlock) := by omega
  have product : p / size * size = e.logBlock * size + (p / size - e.logBlock) * size := by
    rw [← Nat.add_mul, ← split]
  rw [Nat.add_mul]
  omega

theorem copyLeaves_spec {content : Nat → UInt8} (length : out.length = size)
    (holds : ∀ e ∈ leaves, ∀ p, e.covers (p / v.blockSize) →
      content p = dev.octets (v.fsOffset + (e.physBlock + (p / v.blockSize - e.logBlock)) * v.blockSize +
        p % v.blockSize)) (done : copyLeaves v dev size leaves out = .ok data) :
    Copied size content (fun p => ∃ e ∈ leaves, e.covers (p / v.blockSize)) out data ∧
      ∀ e ∈ leaves, ∀ p < size, e.covers (p / v.blockSize) →
        v.fsOffset + (e.physBlock + (p / v.blockSize - e.logBlock)) * v.blockSize + p % v.blockSize <
          dev.length := by
  have positive := v.positive
  induction leaves generalizing out with
  | nil =>
    cases done
    exact ⟨(Copied.nil length).congr fun _ _ => by simp, fun _ mem => nomatch mem⟩
  | cons e rest ih =>
    have later := fun f (mem : f ∈ rest) => holds f (mem_cons_of_mem _ mem)
    rw [copyLeaves] at done
    split at done
    · rename_i past
      obtain ⟨copied, facts⟩ := ih length later done
      have outside : ∀ p < size, ¬ e.covers (p / v.blockSize) := fun p bound covers => by
        have := ((covers_iff positive).mp covers).1
        omega
      refine ⟨copied.congr fun p bound => ?_, fun f mem => ?_⟩
      · simp [outside p bound]
      · rcases mem_cons.mp mem with rfl | there
        · exact fun p bound covers => absurd covers (outside p bound)
        · exact facts f there
    · rename_i inside
      split at done
      · cases done
      rename_i piece read
      obtain ⟨rfl, backed⟩ := Device.readAt_some read
      set n := min (e.count * v.blockSize) (size - e.logBlock * v.blockSize) with copiedLen
      have fits : e.logBlock * v.blockSize +
          (dev.octets.readAt (v.fsOffset + e.physBlock * v.blockSize) n).length ≤ size := by
        rw [Disk.readAt_length]
        omega
      have place : ∀ p < size, e.covers (p / v.blockSize) ↔
          e.logBlock * v.blockSize ≤ p ∧ p < e.logBlock * v.blockSize + n := fun p bound => by
        rw [covers_iff positive]
        omega
      have here : ∀ i < (dev.octets.readAt (v.fsOffset + e.physBlock * v.blockSize) n).length,
          (dev.octets.readAt (v.fsOffset + e.physBlock * v.blockSize) n)[i]? =
            some (content (e.logBlock * v.blockSize + i)) := fun i bound => by
        rw [Disk.readAt_length] at bound
        have covers : e.covers ((e.logBlock * v.blockSize + i) / v.blockSize) :=
          (covers_iff positive).mpr (by omega)
        have device := covered_place covers
        rw [Disk.readAt_getElem? _ _ _ _ bound, holds e mem_cons_self _ covers]
        congr 2
        omega
      obtain ⟨copied, facts⟩ := ih (writeAt_piece length fits here).1 later done
      refine ⟨(Copied.cons length fits here copied).congr fun p bound => ?_, fun f mem => ?_⟩
      · rw [Disk.readAt_length, ← place p bound]
        simp
      · rcases mem_cons.mp mem with rfl | there
        · intro p bound covers
          obtain ⟨low, high⟩ := (place p bound).mp covers
          have device := covered_place covers
          omega
        · exact facts f there

theorem Copied.eq
    (copied : Copied size (content v dev leaves) (fun p => ∃ e ∈ leaves, e.covers (p / v.blockSize))
      (replicate size 0) data) : data = (range size).map (content v dev leaves) := by
  apply ext_getElem?
  intro p
  by_cases bound : p < size
  · rw [getElem?_map, getElem?_range bound, Option.map_some]
    by_cases inside : ∃ e ∈ leaves, e.covers (p / v.blockSize)
    · exact copied.copied p bound inside
    · rw [copied.kept p bound inside, content_hole fun e mem covers => inside ⟨e, mem, covers⟩]
      simp [bound]
  · rw [getElem?_eq_none (by rw [copied.length]; omega), getElem?_eq_none (by simp; omega)]

/-! ## The reads of `ReadAt` -/

/-- What a successful `ReadFile` says about the leaves, and what `ReadAt` will check. -/
structure Readable (v : Geometry) (dev : Device) (size : Nat) (leaves : List Extent) : Prop where
  disjoint : Disjoint leaves
  backed : ∀ e ∈ leaves, ∀ p < size, e.covers (p / v.blockSize) →
    v.fsOffset + (e.physBlock + (p / v.blockSize - e.logBlock)) * v.blockSize + p % v.blockSize < dev.length
  ranged : ∀ e ∈ leaves, ∀ p < size, e.covers (p / v.blockSize) → v.blocksCount ≠ 0 →
    e.physBlock + (p / v.blockSize - e.logBlock) < v.blocksCount

theorem Readable.fetched (readable : Readable v dev size leaves) (mem : e ∈ leaves) {cur chunk : Nat}
    (covers : e.covers (cur / v.blockSize)) (some : 0 < chunk) (inside : cur + chunk ≤ size)
    (ends : cur + chunk ≤ (e.logBlock + e.count) * v.blockSize) :
    fetch v dev (e.physBlock + (cur / v.blockSize - e.logBlock)) (cur % v.blockSize) chunk =
      .ok ((range' cur chunk).map (content v dev leaves)) := by
  have positive := v.positive
  -- every octet of the run is covered by the leaf
  have run : ∀ i < chunk, e.covers ((cur + i) / v.blockSize) := fun i less => by
    rw [covers_iff positive]
    have start := ((covers_iff positive).mp covers).1
    rw [Nat.add_mul] at ends
    omega
  have place := covered_place covers
  have lastCovers : e.covers ((cur + (chunk - 1)) / v.blockSize) := run (chunk - 1) (by omega)
  have lastPlace := covered_place lastCovers
  have lastBlock : cur / v.blockSize + (cur % v.blockSize + chunk - 1) / v.blockSize =
      (cur + (chunk - 1)) / v.blockSize := by
    have whole := Nat.div_add_mod' cur v.blockSize
    have sum : cur + (chunk - 1) = v.blockSize * (cur / v.blockSize) + (cur % v.blockSize + chunk - 1) := by
      rw [Nat.mul_comm]; omega
    rw [sum, Nat.mul_add_div positive]
  have low := ((covers_iff positive).mp covers).1
  have backed := readable.backed e mem _ (by omega) lastCovers
  have ranged := readable.ranged e mem _ (by omega) lastCovers
  unfold InodeData.fetch
  rw [if_neg (by
    rintro ⟨known, beyond⟩
    have := covers.1
    omega)]
  have start : v.fsOffset + (e.physBlock + (cur / v.blockSize - e.logBlock)) * v.blockSize + cur % v.blockSize =
      v.fsOffset + e.physBlock * v.blockSize + (cur - e.logBlock * v.blockSize) := by omega
  have read : dev.readAt (v.fsOffset + (e.physBlock + (cur / v.blockSize - e.logBlock)) * v.blockSize +
      cur % v.blockSize) chunk = Option.some (dev.octets.readAt
        (v.fsOffset + e.physBlock * v.blockSize + (cur - e.logBlock * v.blockSize)) chunk) := by
    rw [start, Device.readAt, if_pos (.inr (by omega))]
  rw [read]
  simp only [Except.ok.injEq]
  apply ext_getElem?
  intro i
  by_cases less : i < chunk
  · rw [Disk.readAt_getElem? _ _ _ _ less, getElem?_map, getElem?_range' less, Option.map_some,
      content_covered readable.disjoint mem (by simpa using run i less)]
    have device := covered_place (run i less)
    congr 2
    simp only [Nat.one_mul]
    omega
  · rw [getElem?_eq_none (by simp; omega), getElem?_eq_none (by simp; omega)]

theorem Readable.holds (readable : Readable v dev size leaves)
    (perm : sorted.Perm leaves) : Holds (fetch v dev) v.blockSize size sorted (content v dev leaves) where
  run := fun _ mem _ _ covers some inside ends =>
    readable.fetched (perm.mem_iff.mp mem) covers some inside ends
  hole := fun _ _ hole => content_hole fun e mem => hole e (perm.mem_iff.mpr mem)

/-! ## The leaves that are read -/

theorem blockMapExtents_ordered [Safeio]
    (done : blockMapExtents v dev x = .ok leaves) : Disjoint leaves ∧ ∀ e ∈ leaves, 0 < e.count := by
  obtain ⟨expanded, nonempty⟩ := blockMapExtents_found done
  refine ⟨(ascending_of_found expanded nonempty).imp fun {e f} follows => ?_, nonempty⟩
  simp only [overlaps, Bool.and_eq_false_iff, decide_eq_false_iff_not]
  omega

theorem parseExtentRoot_disjoint [Safeio] {buf : Bytes} (done : parseExtentRoot v dev buf = .ok leaves) :
    Disjoint leaves ∧ leaves.Pairwise fun e f => overlaps Extent.physBlock e f = false := by
  unfold parseExtentRoot at done
  split at done
  · cases done
  split at done
  · cases done
  obtain ⟨parsed, _, done⟩ := Prog.bind_eq_ok.mp done
  simp only [validated] at done
  split at done
  · rename_i valid
    cases done
    obtain ⟨logical, physical⟩ := Bool.and_eq_true_iff.mp valid
    exact ⟨(disjointRuns_iff _ _).mp logical, (disjointRuns_iff _ _).mp physical⟩
  · cases done

/-! ## Agreement -/

/-- The layouts for which `ReadAt` can follow `ReadFile`. -/
structure Agreeable [Safeio] (v : Geometry) (dev : Device) (sort : List Extent → List Extent) (x : Inode) :
    Prop where
  /-- No zero-length leaf behind another one starts inside it and before the end of the file. -/
  clear : ∀ leaves, readExtents v dev x = .ok leaves → (sort leaves).Pairwise fun e z =>
    z.count = 0 → z.logBlock * v.blockSize < x.size → ¬ e.covers z.logBlock
  /-- A block map points inside the filesystem. -/
  ranged : x.isMapped = false → v.blocksCount ≠ 0 → ∀ leaves, readExtents v dev x = .ok leaves →
    ∀ e ∈ leaves, e.physBlock + e.count ≤ v.blocksCount
  /-- A superblock that does not give the size of the filesystem leaves the leaves as the bound. -/
  bounded : v.blocksCount = 0 → ∀ leaves, readExtents v dev x = .ok leaves → x.size ≤ mappedEnd v leaves

/-- `sort.Slice` by the logical block. -/
def Sorts (sort : List Extent → List Extent) : Prop :=
  ∀ leaves, (sort leaves).Perm leaves ∧ (sort leaves).Pairwise fun e f => e.logBlock ≤ f.logBlock

theorem Disjoint.perm (disjoint : Disjoint leaves) (perm : sorted.Perm leaves) : Disjoint sorted :=
  (perm.pairwise_iff fun {e f} free => by rw [overlaps_symm]; exact free).mpr disjoint

variable {sort : List Extent → List Extent} {bytes fallback : Nat}

theorem mapped_reads (sorts : Sorts sort) (readable : Readable v dev size leaves)
    (clear : (sort leaves).Pairwise fun e z =>
      z.count = 0 → z.logBlock * v.blockSize < size → ¬ e.covers z.logBlock) (off : Nat) {len : Nat}
    (nonempty : 0 < len) : (File.mk none (sort leaves) size).readAt v dev off len =
      (window (content v dev leaves) size off len, if size < off + len then some .eof else none) := by
  obtain ⟨perm, sorted⟩ := sorts leaves
  have ready : Searchable (sort leaves) ((size + v.blockSize - 1) / v.blockSize) := by
    refine ⟨sorted, readable.disjoint.perm perm, clear.imp fun {e z} outside empty below => outside empty ?_⟩
    have := (Nat.le_div_iff_mul_le v.positive).mp (Nat.succ_le_of_lt below)
    rw [Nat.succ_mul] at this
    have := v.positive
    omega
  exact readMapped_eq ready v.positive (readable.holds perm) off nonempty

theorem window_eq (content : Nat → UInt8) (size off len : Nat) :
    window content size off len = (((range size).map content).drop off).take len := by
  unfold window
  apply ext_getElem?
  intro i
  by_cases inside : i < min len (size - off)
  · rw [getElem?_map, getElem?_range' inside, getElem?_take_of_lt (by omega),
      getElem?_drop, getElem?_map, getElem?_range (by omega), Nat.one_mul]
  · rw [getElem?_eq_none (by simp; omega), getElem?_eq_none (by simp; omega)]

theorem makeBytes_ok [Safeio] {max : Nat} (made : makeBytes size max = .ok out) :
    out = replicate size 0 ∧ size ≤ max := by
  unfold makeBytes at made
  split at made
  · cases made
  next got =>
    cases made
    obtain ⟨rfl, fits, small⟩ := Safeio.makeBytes_some got
    have same : min size maxInt64 = size := by omega
    exact ⟨by rw [same], by omega⟩

theorem declaredBytes_pos (declared : declaredBytes v = some bytes) : 0 < bytes := by
  have positive := v.positive
  unfold declaredBytes at declared
  split at declared
  · cases declared
  · rename_i known
    split at declared
    · cases declared
      decide
    · cases declared
      exact Nat.mul_pos (by omega) positive

theorem fileSizeCeiling_le (declared : declaredBytes v = some bytes) (fallback : Nat) :
    fileSizeCeiling v fallback ≤ bytes := by
  have positive := declaredBytes_pos declared
  unfold fileSizeCeiling
  rw [declared]
  simp only [Option.getD_some]
  split
  · omega
  · exact Nat.le_refl _

theorem size_accepted {top : Nat} (fits : size ≤ fileSizeCeiling v fallback)
    (bounded : v.blocksCount = 0 → size ≤ top) : ¬ (declaredBytes v).getD top < size := by
  cases declared : declaredBytes v with
  | some bytes =>
    have := fileSizeCeiling_le declared fallback
    rw [Option.getD_some]
    omega
  | none =>
    have unknown : v.blocksCount = 0 := by
      unfold declaredBytes at declared
      split at declared
      · assumption
      · split at declared <;> cases declared
    rw [Option.getD_none]
    omega

theorem mem_leafBlocks {b : Nat × Nat} :
    b ∈ leafBlocks leaves ↔ ∃ e ∈ leaves, ∃ k < e.count, b = (e.logBlock + k, e.physBlock + k) := by
  simp only [leafBlocks, mem_flatMap, mem_map, mem_range]
  constructor
  · rintro ⟨e, mem, k, less, rfl⟩
    exact ⟨e, mem, k, less, rfl⟩
  · rintro ⟨e, mem, k, less, rfl⟩
    exact ⟨e, mem, k, less, rfl⟩

theorem copyBlocks_leaves {blocks : List (Nat × Nat)}
    (done : copyBlocks v dev size blocks out = .ok data) :
    copyLeaves v dev size (blocks.map fun b => ⟨b.1, b.2, 1⟩) out = .ok data ∧
      (v.blocksCount ≠ 0 → ∀ b ∈ blocks, b.2 < v.blocksCount) := by
  induction blocks generalizing out with
  | nil => exact ⟨done, fun _ _ mem => nomatch mem⟩
  | cons block rest ih =>
    obtain ⟨log, phys⟩ := block
    rw [copyBlocks] at done
    split at done
    · cases done
    rename_i inRange
    have valid (known : v.blocksCount ≠ 0) : phys < v.blocksCount := by
      by_contra beyond
      exact inRange ⟨known, Nat.le_of_not_lt beyond⟩
    rw [map_cons, copyLeaves, Nat.one_mul]
    split at done
    · rename_i past
      obtain ⟨copied, ranged⟩ := ih done
      exact ⟨by rwa [if_pos past], fun known => forall_mem_cons.mpr ⟨valid known, ranged known⟩⟩
    · rename_i inside
      split at done
      · cases done
      rename_i piece read
      obtain ⟨copied, ranged⟩ := ih done
      refine ⟨?_, fun known => forall_mem_cons.mpr ⟨valid known, ranged known⟩⟩
      rw [if_neg inside, read]
      exact copied

theorem copyBlocks_content (disjoint : Disjoint leaves)
    (done : copyBlocks v dev size (leafBlocks leaves) (replicate size 0) = .ok data) :
    data = (range size).map (content v dev leaves) ∧ Readable v dev size leaves := by
  obtain ⟨done, ranged⟩ := copyBlocks_leaves done
  -- the block of a leaf that covers `p` is the one-block leaf that covers it
  have whole {e : Extent} (mem : e ∈ leaves) {p : Nat} (covers : e.covers (p / v.blockSize)) :
      (p / v.blockSize, e.physBlock + (p / v.blockSize - e.logBlock)) ∈ leafBlocks leaves := by
    obtain ⟨low, high⟩ := covers
    refine mem_leafBlocks.mpr ⟨e, mem, p / v.blockSize - e.logBlock, by omega, ?_⟩
    rw [Nat.add_sub_of_le low]
  have part {e : Extent} (mem : e ∈ (leafBlocks leaves).map fun b => (⟨b.1, b.2, 1⟩ : Extent)) {p : Nat}
      (covers : e.covers (p / v.blockSize)) : ∃ f ∈ leaves, f.covers (p / v.blockSize) ∧
        e = ⟨p / v.blockSize, f.physBlock + (p / v.blockSize - f.logBlock), 1⟩ := by
    obtain ⟨b, listed, rfl⟩ := mem_map.mp mem
    obtain ⟨f, there, k, less, rfl⟩ := mem_leafBlocks.mp listed
    obtain ⟨low, high⟩ := covers
    have same : p / v.blockSize = f.logBlock + k := by
      simp only at low high
      omega
    rw [same]
    refine ⟨f, there, ⟨Nat.le_add_right _ _, Nat.add_lt_add_left less _⟩, ?_⟩
    rw [Nat.add_sub_cancel_left]
  have holds : ∀ e ∈ (leafBlocks leaves).map fun b => (⟨b.1, b.2, 1⟩ : Extent), ∀ p, e.covers (p / v.blockSize) →
      content v dev leaves p = dev.octets (v.fsOffset +
        (e.physBlock + (p / v.blockSize - e.logBlock)) * v.blockSize + p % v.blockSize) := fun e mem p covers => by
    obtain ⟨f, there, inside, rfl⟩ := part mem covers
    rw [content_covered disjoint there inside, Nat.sub_self, Nat.add_zero]
  obtain ⟨copied, backed⟩ := copyLeaves_spec (length_replicate ..) holds done
  refine ⟨(copied.congr fun p _ => ⟨?_, ?_⟩).eq, disjoint, fun e there p bound covers => ?_,
    fun e there p _ covers known => ranged known _ (whole there covers)⟩
  · rintro ⟨e, mem, covers⟩
    obtain ⟨f, there, covers, _⟩ := part mem covers
    exact ⟨f, there, covers⟩
  · rintro ⟨e, there, covers⟩
    exact ⟨_, mem_map_of_mem (whole there covers), Nat.le_refl _, Nat.lt_succ_self _⟩
  · have one := backed _ (mem_map_of_mem (whole there covers)) p bound ⟨Nat.le_refl _, Nat.lt_succ_self _⟩
    rwa [Nat.sub_self, Nat.add_zero] at one

theorem copyLeaves_content (disjoint : Disjoint leaves)
    (ranged : v.blocksCount ≠ 0 → ∀ e ∈ leaves, e.physBlock + e.count ≤ v.blocksCount)
    (done : copyLeaves v dev size leaves (replicate size 0) = .ok data) :
    data = (range size).map (content v dev leaves) ∧ Readable v dev size leaves := by
  obtain ⟨copied, backed⟩ := copyLeaves_spec (length_replicate ..)
    (fun e mem p covers => content_covered disjoint mem covers) done
  refine ⟨copied.eq, disjoint, backed, fun e there p bound covers known => ?_⟩
  have := ranged known e there
  obtain ⟨low, high⟩ := covers
  omega

structure Stands (v : Geometry) (dev : Device) (f : File) (data : Bytes) : Prop where
  size : f.size = data.length
  reads : ∀ off len, 0 < len →
    f.readAt v dev off len = ((data.drop off).take len, if data.length < off + len then some .eof else none)

theorem stands_inline (data : Bytes) : Stands v dev ⟨some data, [], data.length⟩ data := by
  refine ⟨rfl, fun off len nonempty => ?_⟩
  simp only [File.readAt]
  split
  · rename_i past
    rw [drop_eq_nil_of_le past, take_nil, if_pos (by omega)]
  · simp only [length_take, length_drop, Prod.mk.injEq, true_and]
    congr 1
    exact propext (by omega)

theorem stands_mapped (sorts : Sorts sort) (readable : Readable v dev size leaves)
    (clear : (sort leaves).Pairwise fun e z =>
      z.count = 0 → z.logBlock * v.blockSize < size → ¬ e.covers z.logBlock) :
    Stands v dev ⟨none, sort leaves, size⟩ ((range size).map (content v dev leaves)) := by
  refine ⟨by simp, fun off len nonempty => ?_⟩
  rw [mapped_reads sorts readable clear off nonempty, window_eq, length_map, length_range]

section
variable [Safeio]

theorem newFile_mapped (inline : x.isInline = false) (leavesOf : readExtents v dev x = .ok leaves)
    (fits : x.size ≤ fileSizeCeiling v fallback) (agree : Agreeable v dev sort x)
    (present : x.isMapped → ¬ (0 < x.size ∧ leaves = [])) :
    newFile v dev sort x = .ok ⟨none, sort leaves, x.size⟩ := by
  have accepted : ¬ (declaredBytes v).getD (mappedEnd v leaves) < x.size :=
    size_accepted fits fun unknown => agree.bounded unknown leaves leavesOf
  simp only [newFile, inline, Bool.false_eq_true, if_false, leavesOf, bind, Except.bind, if_neg accepted]
  rw [if_neg]
  rintro ⟨some, empty, mapped⟩
  exact present mapped ⟨some, empty⟩

theorem newFile_stands (sorts : Sorts sort) (agree : Agreeable v dev sort x)
    (read : readFileData v dev x = .ok data) : ∃ f, newFile v dev sort x = .ok f ∧ Stands v dev f data := by
  unfold readFileData at read
  by_cases inline : x.isInline
  · rw [if_pos inline] at read
    refine ⟨⟨some data, [], data.length⟩, ?_, stands_inline data⟩
    simp only [newFile, inline, if_true, read, bind, Except.bind]
  rw [if_neg inline] at read
  have notInline := Bool.eq_false_iff.mpr inline
  by_cases mapped : x.isMapped
  · rw [if_pos mapped] at read
    unfold extentData at read
    cases parsed : parseExtentRoot v dev x.iblock with
    | error e => simp only [bind, Except.bind, parsed] at read; cases read
    | ok leaves =>
      cases made : makeBytes x.size (fileSizeCeiling v (mappedEnd v leaves)) with
      | error e => simp only [bind, Except.bind, parsed, made] at read; cases read
      | ok out =>
        simp only [bind, Except.bind, parsed, made] at read
        split at read
        · cases read
        rename_i present
        obtain ⟨rfl, fits⟩ := makeBytes_ok made
        have leavesOf : readExtents v dev x = .ok leaves := by
          rw [readExtents, if_neg inline, if_pos mapped, parsed]
        obtain ⟨rfl, readable⟩ := copyBlocks_content (parseExtentRoot_disjoint parsed).1 read
        exact ⟨_, newFile_mapped notInline leavesOf fits agree fun _ => present,
          stands_mapped sorts readable (agree.clear leaves leavesOf)⟩
  · rw [if_neg mapped] at read
    unfold blockMapData at read
    cases made : makeBytes x.size (fileSizeCeiling v 0) with
    | error e => simp only [bind, Except.bind, made] at read; cases read
    | ok out =>
      simp only [bind, Except.bind, made] at read
      obtain ⟨rfl, fits⟩ := makeBytes_ok made
      have notMapped := Bool.eq_false_iff.mpr mapped
      have leavesOf : ∀ leaves, blockMapExtents v dev x = .ok leaves → readExtents v dev x = .ok leaves :=
        fun leaves found => by rw [readExtents, if_neg inline, if_neg mapped, found]
      have opens : ∀ leaves, blockMapExtents v dev x = .ok leaves →
          newFile v dev sort x = .ok ⟨none, sort leaves, x.size⟩ := fun leaves found =>
        newFile_mapped notInline (leavesOf leaves found) fits agree fun yes => absurd yes mapped
      by_cases empty : x.size = 0
      · -- an empty file is delivered before its map is read
        have found : blockMapExtents v dev x = .ok [] := by rw [blockMapExtents, if_pos empty]
        rw [empty] at read
        simp only [replicate_zero, isEmpty_nil, if_true] at read
        cases read
        have readable : Readable v dev 0 [] :=
          ⟨List.Pairwise.nil, fun _ mem => (nomatch mem), fun _ mem => nomatch mem⟩
        have stands : Stands v dev ⟨none, sort [], 0⟩ ((range 0).map (content v dev [])) :=
          stands_mapped sorts readable ((perm_nil.mp (sorts []).1).symm ▸ List.Pairwise.nil)
        exact ⟨_, opens [] found, empty ▸ stands⟩
      · rw [if_neg (by simp [empty])] at read
        cases found : blockMapExtents v dev x with
        | error e => rw [found] at read; cases read
        | ok leaves =>
          simp only [found, length_replicate] at read
          obtain ⟨disjoint, nonempty⟩ := blockMapExtents_ordered found
          obtain ⟨rfl, readable⟩ := copyLeaves_content disjoint
            (fun known => agree.ranged notMapped known leaves (leavesOf leaves found)) read
          exact ⟨_, opens leaves found, stands_mapped sorts readable (agree.clear leaves (leavesOf leaves found))⟩

/-- Whatever `ReadFile` delivers, `OpenFile` opens with that length, and `ReadAt` delivers every
window of it, with the end of the file exactly when the window is cut. -/
theorem openFile_stands {Path : Type} {lookup : Path → Except Err Inode} {path : Path} {data : Bytes}
    (sorts : Sorts sort) (agree : ∀ x, lookup path = .ok x → Agreeable v dev sort x)
    (read : readFile v dev lookup path = .ok data) :
    ∃ f, openFile v dev sort lookup path = .ok f ∧ Stands v dev f data := by
  unfold readFile at read
  cases found : lookup path with
  | error e => simp only [found, bind, Except.bind] at read; cases read
  | ok x =>
    simp only [found, bind, Except.bind] at read
    by_cases regular : x.isRegular
    · rw [if_pos regular] at read
      obtain ⟨f, opened, stands⟩ := newFile_stands sorts (agree x found) read
      refine ⟨f, ?_, stands⟩
      simp only [openFile, found, bind, Except.bind, if_pos regular, opened]
    · rw [if_neg regular] at read
      cases read

end

end

/-! ## A zero-length leaf inside another leaf -/

/-- A stable sort by the logical block, as `sort.Slice` does for short lists. -/
def sortLeaves (leaves : List Extent) : List Extent :=
  leaves.insertionSort fun e f => e.logBlock ≤ f.logBlock

theorem sortLeaves_sorts : Sorts sortLeaves := fun leaves =>
  ⟨perm_insertionSort _ leaves, pairwise_insertionSort _ leaves⟩

def sampleVolume : Geometry where
  fsOffset := 0
  blockSize := 1024
  blocksCount := 16
  readLimit := 2 ^ 30
  deviceBytes := 32768
  positive := by decide

def sampleDevice : Device := ⟨fun p => UInt8.ofNat (p / 1024), 32768⟩

/-- A regular file of 2048 octets with the given flags and `i_block`. -/
def sampleInode (flags : Nat) (iblock : Bytes) : Inode :=
  .decode 12 (putUint 4 0x8000 ++ putUint 4 2048 ++ replicate 24 0 ++ putUint 4 flags ++
    replicate 4 0 ++ iblock ++ replicate (88 - iblock.length) 0)

def sampleTree (leaves : List Extent) : Bytes :=
  putUint 2 0xF30A ++ putUint 2 leaves.length ++ putUint 2 4 ++ putUint 6 0 ++
    leaves.flatMap fun e => putUint 4 e.logBlock ++ putUint 2 e.count ++ putUint 2 0 ++ putUint 4 e.physBlock

/-- Blocks 5 and 6, with a zero-length leaf that starts at the given logical block. -/
def sampleMapped (empty : Nat) : Inode := sampleInode 0x80000 (sampleTree [⟨0, 5, 2⟩, ⟨empty, 9, 0⟩])

theorem sample_stands : ∃ data f,
    readFile sampleVolume sampleDevice (fun x : Inode => .ok x) (sampleMapped 2) = .ok data ∧
    openFile sampleVolume sampleDevice sortLeaves (fun x : Inode => .ok x) (sampleMapped 2) = .ok f ∧
    Stands sampleVolume sampleDevice f data := by
  have found : (readFile sampleVolume sampleDevice (fun x : Inode => .ok x) (sampleMapped 2)).isOk := by
    decide
  obtain ⟨data, read⟩ : ∃ data,
      readFile sampleVolume sampleDevice (fun x : Inode => .ok x) (sampleMapped 2) = .ok data := by
    cases outcome : readFile sampleVolume sampleDevice (fun x : Inode => .ok x) (sampleMapped 2) with
    | error e => rw [outcome] at found; cases found
    | ok data => exact ⟨data, rfl⟩
  have leavesOf : readExtents sampleVolume sampleDevice (sampleMapped 2) = .ok [⟨0, 5, 2⟩, ⟨2, 9, 0⟩] := by
    decide
  have agree : Agreeable sampleVolume sampleDevice sortLeaves (sampleMapped 2) := by
    constructor
    · intro leaves other
      cases leavesOf.symm.trans other
      decide
    · intro mapped
      exact absurd mapped (by decide)
    · intro unknown
      exact absurd unknown (by decide)
  obtain ⟨f, opened, stands⟩ := openFile_stands sortLeaves_sorts
    (fun x found => Except.ok.inj found ▸ agree) read
  exact ⟨data, f, read, opened, stands⟩

/-- With the zero-length leaf at logical block 1 the search for block 1 ends past the leaves, and
`ReadAt` delivers a zero for an octet that `ReadFile` reads from block 6. A block map that points
past the filesystem is read by `ReadFile` and refused by `ReadAt`. -/
theorem sample_disagrees :
    (readFile sampleVolume sampleDevice (fun x : Inode => .ok x) (sampleMapped 1)).map (·[1024]?) =
      .ok (some 6) ∧
    (openFile sampleVolume sampleDevice sortLeaves (fun x : Inode => .ok x) (sampleMapped 1)).map
      (fun f => f.readAt sampleVolume sampleDevice 1024 1) = .ok ([0], none) ∧
    (readFile sampleVolume sampleDevice (fun x : Inode => .ok x)
      (sampleInode 0 (putUint 4 20 ++ putUint 4 21))).map (·[0]?) = .ok (some 20) ∧
    (openFile sampleVolume sampleDevice sortLeaves (fun x : Inode => .ok x)
      (sampleInode 0 (putUint 4 20 ++ putUint 4 21))).map
      (fun f => f.readAt sampleVolume sampleDevice 0 1) = .ok ([], some (.error .outOfRange)) := by
  decide +kernel

end Ext4.InodeData
