import Ext4.Volume.InodeData

/-! Classic block maps against the lookup of one block.
`blockMapExtents` walks the whole map once and merges neighbouring blocks into leaves. The lookup
here goes down the pointers for one logical block, as the format describes it. Expanded, the leaves
are the result of the lookup for every block of the file, in ascending order. -/

namespace Ext4.InodeData
open Octets Overlay Volume List

/-! ## The lookup of one block -/

section
variable (v : Geometry) (dev : Device)

/-- The block at `off` below a pointer: the pointer itself, or what the indirect block that it
points to says. -/
def lookupBelow : Nat → Nat → Nat → Option Nat
  | 0, blk, _ => if blk = 0 then none else some blk
  | level + 1, blk, off =>
      if blk = 0 then none
      else
        let span := (v.blockSize / 4) ^ level
        let buf := dev.octets.readAt (v.fsOffset + blk * v.blockSize) v.blockSize
        lookupBelow level (field buf (off / span * 4) 4) (off % span)

/-- The block at `off` behind the direct ones. -/
def lookupIndirect (iblock : Bytes) : List Nat → Nat → Option Nat
  | [], _ => none
  | level :: rest, off =>
      if off < (v.blockSize / 4) ^ level then
        lookupBelow v dev level (field iblock ((11 + level) * 4) 4) off
      else lookupIndirect iblock rest (off - (v.blockSize / 4) ^ level)

/-- Twelve direct pointers, then a single, a double and a triple indirect one. -/
def lookupBlock (iblock : Bytes) (n : Nat) : Option Nat :=
  if n < 12 then lookupBelow v dev 0 (field iblock (n * 4) 4) 0
  else lookupIndirect v dev iblock [1, 2, 3] (n - 12)

end

theorem lookupBelow_null (v : Geometry) (dev : Device) (level off : Nat) :
    lookupBelow v dev level 0 off = none := by
  cases level <;> simp [lookupBelow]

/-! ## What a walk adds -/

/-- The logical blocks from `low` up to `high` that the lookup finds. -/
def found (look : Nat → Option Nat) (low high : Nat) : List (Nat × Nat) :=
  (range' low (high - low)).filterMap fun n => (look n).map (n, ·)

variable {low high : Nat} {look : Nat → Option Nat}

theorem found_congr {look' : Nat → Option Nat}
    (same : ∀ n, low ≤ n → n < high → look n = look' n) : found look low high = found look' low high := by
  refine filterMap_congr fun n mem => ?_
  rw [same n (by simp at mem; omega) (by simp at mem; omega)]

theorem found_empty (empty : ∀ n, low ≤ n → n < high → look n = none) : found look low high = [] := by
  rw [found_congr empty]
  simp [found]

/-- A range cut off at `top` splits anywhere. -/
theorem found_split (look : Nat → Option Nat) {mid : Nat} (top : Nat) (first : low ≤ mid)
    (second : mid ≤ high) :
    found look low (min high top) = found look low (min mid top) ++ found look mid (min high top) := by
  unfold found
  rw [← filterMap_append]
  congr 1
  by_cases past : top ≤ mid
  · rw [show min high top - mid = 0 by omega, range'_zero, append_nil]
    congr 1
    omega
  · have append := @range'_append_1 low (mid - low) (min high top - mid)
    rw [Nat.add_sub_of_le first] at append
    rw [Nat.min_eq_left (by omega : mid ≤ top), append]
    congr 1
    omega

theorem leafBlocks_append (one two : List Extent) :
    leafBlocks (one ++ two) = leafBlocks one ++ leafBlocks two := by
  simp [leafBlocks]

section
variable [Safeio]

structure Extends (st st' : MapState) (blocks : List (Nat × Nat)) : Prop where
  expanded : leafBlocks st'.leaves.reverse = leafBlocks st.leaves.reverse ++ blocks
  nonempty : (∀ e ∈ st.leaves, 0 < e.count) → ∀ e ∈ st'.leaves, 0 < e.count

namespace Extends
variable {st mid st' : MapState} {blocks more : List (Nat × Nat)}

theorem same (kept : st'.leaves = st.leaves) : Extends st st' [] :=
  ⟨by rw [kept, append_nil], fun nonempty => kept ▸ nonempty⟩

theorem trans (first : Extends st mid blocks) (second : Extends mid st' more) :
    Extends st st' (blocks ++ more) :=
  ⟨by rw [second.expanded, first.expanded, append_assoc],
    fun nonempty => second.nonempty (first.nonempty nonempty)⟩

end Extends

theorem addLeaf_extends (st : MapState) (lbn phys : Nat) :
    Extends st { st with leaves := addLeaf lbn phys st.leaves } [(lbn, phys)] := by
  obtain ⟨used, visited, leaves⟩ := st
  have append : leafBlocks ((⟨lbn, phys, 1⟩ : Extent) :: leaves).reverse =
      leafBlocks leaves.reverse ++ [(lbn, phys)] := by
    rw [reverse_cons, leafBlocks_append]
    simp [leafBlocks]
  cases leaves with
  | nil => exact ⟨append, by simp [addLeaf]⟩
  | cons last rest =>
    by_cases continues : last.count < 0xFFFF ∧ last.physBlock + last.count = phys ∧
        last.logBlock + last.count = lbn
    · obtain ⟨_, rfl, rfl⟩ := continues
      simp only [addLeaf]
      rw [if_pos (by simp_all)]
      refine ⟨?_, by simp⟩
      simp [leafBlocks, range_succ]
    · simp only [addLeaf]
      rw [if_neg continues]
      exact ⟨append, by simp⟩

variable {v : Geometry} {dev : Device} {nblocks : Nat}

theorem charge_leaves {st st' : MapState} (done : charge v st = .ok st') : st'.leaves = st.leaves := by
  unfold charge at done
  split at done
  · cases done
  · cases done
    rfl

/-- A walker of the data below a pointer adds what the lookup finds in its span. -/
def Resolves (nblocks span : Nat) (below : Nat → Nat → Option Nat)
    (node : Nat → Nat → MapState → Except Err MapState) : Prop :=
  ∀ lbn phys st st', phys ≠ 0 → lbn < nblocks → node lbn phys st = .ok st' →
    Extends st st' (found (fun n => below phys (n - lbn)) lbn (min (lbn + span) nblocks))

theorem pointers_extends {node : Nat → Nat → MapState → Except Err MapState} {span : Nat}
    {below : Nat → Nat → Option Nat} (resolves : Resolves nblocks span below node)
    (null : ∀ off, below 0 off = none) (buf : Bytes) (base start n : Nat) {st st' : MapState}
    (done : pointers node buf nblocks base span (range' start n) st = .ok st') :
    Extends st st' (found (fun m => below (field buf ((m - base) / span * 4) 4) ((m - base) % span))
      (base + start * span) (min (base + (start + n) * span) nblocks)) := by
  induction n generalizing start st with
  | zero =>
    cases done
    rw [found_empty fun m low high => by rw [Nat.add_zero] at high; omega]
    exact .same rfl
  | succ n ih =>
    have next : start + 1 + n = start + (n + 1) := by omega
    have place : base + start * span + span = base + (start + 1) * span := by rw [Nat.succ_mul]; omega
    have whole : base + (start + 1) * span ≤ base + (start + (n + 1)) * span :=
      Nat.add_le_add_left (Nat.mul_le_mul_right _ (by omega)) _
    -- below the pointer `start` the general lookup is that of its node
    have here : found (fun m => below (field buf ((m - base) / span * 4) 4) ((m - base) % span))
        (base + start * span) (min (base + (start + 1) * span) nblocks) =
        found (fun m => below (field buf (start * 4) 4) (m - (base + start * span)))
          (base + start * span) (min (base + start * span + span) nblocks) := by
      rw [place]
      refine found_congr fun m low high => ?_
      obtain ⟨i, rfl⟩ := Nat.exists_eq_add_of_le low
      have inside : i < span := by omega
      have offset : base + start * span + i - base = i + start * span := by omega
      rw [offset, Nat.add_mul_div_right _ _ (by omega), Nat.div_eq_of_lt inside, Nat.zero_add,
        Nat.add_mul_mod_self_right, Nat.mod_eq_of_lt inside, Nat.add_sub_cancel_left]
    rw [range'_succ, pointers] at done
    rw [found_split _ nblocks (place ▸ Nat.le_add_right _ _) whole, here]
    split at done
    · cases done
      rw [found_empty (by omega), found_empty (by omega)]
      exact .same rfl
    · split at done
      · rename_i zero
        rw [found_empty fun m _ _ => by rw [zero, null], nil_append]
        exact next ▸ ih (start + 1) done
      · rename_i inside pointer
        obtain ⟨mid, one, rest⟩ := Prog.bind_eq_ok.mp done
        exact (resolves _ _ _ _ pointer (by omega) one).trans (next ▸ ih (start + 1) rest)

theorem walk_resolves (nblocks level : Nat) :
    Resolves nblocks ((v.blockSize / 4) ^ level) (lookupBelow v dev level) (walk v dev nblocks level) := by
  induction level with
  | zero =>
    intro lbn phys st st' pointer inside done
    obtain ⟨mid, charged, emitted⟩ := Prog.bind_eq_ok.mp done
    split at emitted
    · cases emitted
    · cases emitted
      have one : found (fun n => lookupBelow v dev 0 phys (n - lbn)) lbn
          (min (lbn + (v.blockSize / 4) ^ 0) nblocks) = [(lbn, phys)] := by
        rw [found, show min (lbn + (v.blockSize / 4) ^ 0) nblocks - lbn = 1 by rw [Nat.pow_zero]; omega]
        simp [lookupBelow, pointer]
      rw [one]
      exact (Extends.same (charge_leaves charged)).trans (addLeaf_extends mid lbn phys)
  | succ level ih =>
    intro base blk st st' pointer inside done
    obtain ⟨mid, charged, done⟩ := Prog.bind_eq_ok.mp done
    obtain ⟨visited, _, done⟩ := Prog.bind_eq_ok.mp done
    obtain ⟨buf, read, done⟩ := Prog.bind_eq_ok.mp done
    rw [range_eq_range'] at done
    have same : buf = dev.octets.readAt (v.fsOffset + blk * v.blockSize) v.blockSize := by
      unfold readRawBlock Device.readAt at read
      split at read
      · rename_i got
        split at got
        · cases got
          cases read
          rfl
        · cases got
      · cases read
    have below := pointers_extends ih (lookupBelow_null v dev level) buf base 0 (v.blockSize / 4) done
    have span : (0 + v.blockSize / 4) * (v.blockSize / 4) ^ level = (v.blockSize / 4) ^ (level + 1) := by
      rw [Nat.zero_add, Nat.pow_succ, Nat.mul_comm]
    rw [span, Nat.zero_mul, Nat.add_zero, same] at below
    simp only [lookupBelow, pointer, if_false]
    exact (Extends.same (charge_leaves charged)).trans ⟨below.expanded, below.nonempty⟩

theorem indirect_extends (iblock : Bytes) (nblocks : Nat) (levels : List Nat) (base : Nat) {st st' : MapState}
    (done : indirect v dev iblock nblocks levels base st = .ok st') :
    Extends st st' (found (fun n => lookupIndirect v dev iblock levels (n - base)) base nblocks) := by
  induction levels generalizing base st with
  | nil =>
    cases done
    rw [found_empty fun _ _ _ => by rw [lookupIndirect]]
    exact .same rfl
  | cons level rest ih =>
    rw [indirect] at done
    split at done
    · cases done
      rw [found_empty (by omega)]
      exact .same rfl
    · rename_i inside
      have steps : ∃ mid, (if field iblock ((11 + level) * 4) 4 = 0 then .ok st
          else walk v dev nblocks level base (field iblock ((11 + level) * 4) 4) st) = .ok mid ∧
          indirect v dev iblock nblocks rest (base + (v.blockSize / 4) ^ level) mid = .ok st' := by
        by_cases null : field iblock ((11 + level) * 4) 4 = 0
        · simp only [null, if_true] at done ⊢
          exact Prog.bind_eq_ok.mp done
        · simp only [null, if_false] at done ⊢
          exact Prog.bind_eq_ok.mp done
      obtain ⟨mid, one, later⟩ := steps
      set span := (v.blockSize / 4) ^ level with spans
      have split := found_split (fun n => lookupIndirect v dev iblock (level :: rest) (n - base)) nblocks
        (Nat.le_add_right base span) (Nat.le_add_right (base + span) nblocks)
      rw [Nat.min_eq_right (Nat.le_add_left nblocks (base + span))] at split
      have low : found (fun n => lookupIndirect v dev iblock (level :: rest) (n - base)) base
          (min (base + span) nblocks) =
          found (fun n => lookupBelow v dev level (field iblock ((11 + level) * 4) 4) (n - base)) base
            (min (base + span) nblocks) :=
        found_congr fun n _ _ => by rw [lookupIndirect, if_pos (by rw [← spans]; omega)]
      have high : found (fun n => lookupIndirect v dev iblock (level :: rest) (n - base)) (base + span) nblocks =
          found (fun n => lookupIndirect v dev iblock rest (n - (base + span))) (base + span) nblocks :=
        found_congr fun n _ _ => by
          rw [lookupIndirect, if_neg (by rw [← spans]; omega), ← spans, Nat.sub_sub]
      rw [split, low, high]
      refine .trans ?_ (ih _ later)
      split at one
      · rename_i null
        cases one
        rw [found_empty fun n _ _ => by rw [null, lookupBelow_null]]
        exact .same rfl
      · rename_i pointer
        exact walk_resolves nblocks level _ _ _ _ pointer (by omega) one

variable {leaves : List Extent}

theorem mapLeaves_extends {iblock : Bytes} (done : mapLeaves v dev iblock nblocks = .ok leaves) :
    leafBlocks leaves = found (lookupBlock v dev iblock) 0 nblocks ∧ ∀ e ∈ leaves, 0 < e.count := by
  obtain ⟨st, direct, done⟩ := Prog.bind_eq_ok.mp done
  obtain ⟨last, further, done⟩ := Prog.bind_eq_ok.mp done
  cases done
  have single : Resolves nblocks 1 (lookupBelow v dev 0) (walk v dev nblocks 0) := walk_resolves nblocks 0
  have twelve := pointers_extends single (lookupBelow_null v dev 0) iblock 0 0 12 direct
  have both := twelve.trans (indirect_extends iblock nblocks [1, 2, 3] 12 further)
  refine ⟨?_, fun e mem => both.nonempty (by simp) e (mem_reverse.mp mem)⟩
  have split := found_split (lookupBlock v dev iblock) nblocks (Nat.zero_le 12) (Nat.le_add_right 12 nblocks)
  rw [Nat.min_eq_right (Nat.le_add_left nblocks 12)] at split
  rw [both.expanded, split]
  simp only [reverse_nil, leafBlocks, flatMap_nil, nil_append]
  refine congrArg₂ _ (found_congr fun n _ below => ?_) (found_congr fun n low _ => ?_)
  · have direct : n < 12 := by omega
    simp [lookupBlock, direct, lookupBelow]
  · simp [lookupBlock, show ¬ n < 12 by omega]

theorem blockMapExtents_found {x : Inode} (done : blockMapExtents v dev x = .ok leaves) :
    leafBlocks leaves = found (lookupBlock v dev x.iblock) 0 ((x.size + v.blockSize - 1) / v.blockSize) ∧
      ∀ e ∈ leaves, 0 < e.count := by
  unfold blockMapExtents at done
  split at done
  · rename_i empty
    cases done
    have none : (x.size + v.blockSize - 1) / v.blockSize = 0 :=
      Nat.div_eq_of_lt (by have := v.positive; omega)
    rw [none]
    exact ⟨rfl, fun _ mem => nomatch mem⟩
  · exact mapLeaves_extends done

omit [Safeio] in
theorem ascending_of_found (expanded : leafBlocks leaves = found look low high)
    (nonempty : ∀ e ∈ leaves, 0 < e.count) :
    leaves.Pairwise fun e f => e.logBlock + e.count ≤ f.logBlock := by
  have ascend : (leafBlocks leaves).Pairwise fun a b => a.1 < b.1 := by
    rw [expanded, found, pairwise_filterMap]
    refine List.Pairwise.imp (fun {n m} less a one b two => ?_) pairwise_lt_range'
    obtain ⟨_, _, rfl⟩ := Option.map_eq_some_iff.mp one
    obtain ⟨_, _, rfl⟩ := Option.map_eq_some_iff.mp two
    exact less
  refine (pairwise_flatMap.mp ascend).2.imp_of_mem fun {e f} first second less => ?_
  have last := less (e.logBlock + (e.count - 1), e.physBlock + (e.count - 1))
    (mem_map.mpr ⟨e.count - 1, mem_range.mpr (by have := nonempty e first; omega), rfl⟩)
    (f.logBlock + 0, f.physBlock + 0)
    (mem_map.mpr ⟨0, mem_range.mpr (nonempty f second), rfl⟩)
  simp only at last
  omega

/-- A block map that is accepted resolves every block of the file as the lookup of that one block
does, maps nothing past the end, and has its leaves in ascending order. -/
theorem blockMapExtents_resolves {x : Inode} (done : blockMapExtents v dev x = .ok leaves) :
    (∀ n phys, (n, phys) ∈ leafBlocks leaves ↔
      n < (x.size + v.blockSize - 1) / v.blockSize ∧ lookupBlock v dev x.iblock n = some phys) ∧
    leaves.Pairwise fun e f => e.logBlock + e.count ≤ f.logBlock := by
  obtain ⟨expanded, nonempty⟩ := blockMapExtents_found done
  refine ⟨fun n phys => ?_, ascending_of_found expanded nonempty⟩
  rw [expanded, found, mem_filterMap]
  constructor
  · rintro ⟨m, inside, looked⟩
    obtain ⟨_, known, same⟩ := Option.map_eq_some_iff.mp looked
    cases same
    exact ⟨by simpa using inside, known⟩
  · rintro ⟨inside, known⟩
    exact ⟨n, by simpa using inside, by rw [known]; rfl⟩

end

/-- Sixteen octets a block; logical blocks 0 and 12 are mapped, the latter through an indirect
block. -/
theorem indirect_block_resolved :
    let v : Geometry := ⟨0, 16, 32, 2 ^ 20, 512, by decide⟩
    let dev : Device := ⟨fun p => if p = 80 then 7 else 0, 512⟩
    let x : Inode := ⟨12, replicate 40 0 ++ putUint 4 3 ++ replicate 44 0 ++ putUint 4 5, 224, 0⟩
    lookupBlock v dev x.iblock 12 = some 7 ∧ lookupBlock v dev x.iblock 13 = none ∧
      ∃ leaves, blockMapExtents v dev x = .ok leaves ∧ (12, 7) ∈ leafBlocks leaves := by
  intro v dev x
  have leaves : blockMapExtents v dev x = .ok [⟨0, 3, 1⟩, ⟨12, 7, 1⟩] := by decide
  have looked : lookupBlock v dev x.iblock 12 = some 7 := by decide
  exact ⟨looked, by decide, _, leaves, ((blockMapExtents_resolves leaves).1 12 7).mpr ⟨by decide, looked⟩⟩

end Ext4.InodeData
