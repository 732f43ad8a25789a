import Mathlib.Data.List.Sort
import Ext4.Volume.Creation
import Ext4.Volume.Files

/-! The extents of an open file as a map from logical to physical blocks.
Building, merging and cutting a list of extents each change the map in one way and keep the list
sorted, without overlaps and without empty extents. -/

namespace Ext4.Volume
open Octets Search List

structure Laid (extents : List Extent) : Prop where
  ordered : extents.Pairwise fun e f => e.logBlock + e.count ≤ f.logBlock
  full : ∀ e ∈ extents, 0 < e.count
  once : (blocksOf extents).Nodup

variable {extents other : List Extent} {e f : Extent} {b c phys start keep : Nat}

theorem Laid.searchable (laid : Laid extents) (blocks : Nat) : Searchable extents blocks where
  sorted := laid.ordered.imp fun before => by omega
  disjoint := laid.ordered.imp fun before => (overlaps_iff _ _).mpr fun _ _ => .inl before
  clear := laid.ordered.imp_of_mem fun _ mem _ empty => absurd empty (Nat.ne_of_gt (laid.full _ mem))

theorem Laid.validates (laid : Laid extents) : validateExtents extents = .ok extents := by
  have physical : extents.Pairwise fun e f => overlaps Extent.physBlock e f = false := by
    exact (nodup_flatMap.mp laid.once).2.imp fun apart => (overlaps_disjoint _ _ _).mpr apart
  rw [validateExtents, (disjointRuns_iff _ _).mpr (laid.searchable 0).disjoint,
    (disjointRuns_iff _ _).mpr physical]
  rfl

theorem Laid.locate_iff (laid : Laid extents) : locate extents b = some phys ↔ Places extents b phys :=
  (laid.searchable (b + 1)).locate_iff b.lt_succ_self

theorem mem_blocks (covers : e.covers b) : e.physBlock + (b - e.logBlock) ∈ e.blocks := by
  have := covers.1
  have := covers.2
  rw [Extent.blocks, mem_range'_1]
  omega

theorem Places.mem (places : Places extents b phys) : phys ∈ blocksOf extents := by
  obtain ⟨e, mem, covers, rfl⟩ := places
  exact mem_flatMap.mpr ⟨e, mem, mem_blocks covers⟩

/-- The blocks of a run of octets, from an offset that the extent covers up to its end. -/
theorem Extent.covers.places {size cur chunk : Nat} (covers : e.covers (cur / size)) (mem : e ∈ extents)
    (positive : 0 < size) (fits : cur + chunk ≤ (e.logBlock + e.count) * size) {i : Nat} (inside : i < chunk) :
    Places extents ((cur + i) / size)
      (e.physBlock + (cur / size - e.logBlock) + (cur % size + i) / size) := by
  have sum : cur + i = size * (cur / size) + (cur % size + i) := by
    have := Nat.div_add_mod cur size
    omega
  have later : (cur + i) / size = cur / size + (cur % size + i) / size := by
    conv_lhs => rw [sum, Nat.mul_add_div positive]
  have below : (cur + i) / size < e.logBlock + e.count :=
    (Nat.div_lt_iff_lt_mul positive).mpr (by omega)
  rw [later] at below ⊢
  have start := covers.1
  exact ⟨e, mem, ⟨Nat.le_add_right_of_le start, below⟩, by rw [Nat.sub_add_comm start, Nat.add_assoc]⟩

theorem places_of_locate (located : locate extents b = some phys) : Places extents b phys := by
  unfold locate at located
  split at located
  · cases located
  next e found =>
    split at located
    · cases located
    next low =>
      cases located
      obtain ⟨mem, covers⟩ := seek_covers found low
      exact ⟨e, mem, covers, rfl⟩

theorem locate_mem (located : locate extents b = some phys) : phys ∈ blocksOf extents :=
  (places_of_locate located).mem

theorem exists_places (mem : phys ∈ blocksOf extents) : ∃ b, Places extents b phys := by
  obtain ⟨e, inList, inRun⟩ := mem_flatMap.mp mem
  rw [Extent.blocks, mem_range'_1] at inRun
  refine ⟨e.logBlock + (phys - e.physBlock), e, inList, ⟨?_, ?_⟩, ?_⟩ <;> omega

theorem eq_of_mem_blocks (once : (blocksOf extents).Nodup) (first : e ∈ extents) (second : f ∈ extents)
    (inFirst : phys ∈ e.blocks) (inSecond : phys ∈ f.blocks) : e = f := by
  by_contra different
  have apart := (nodup_flatMap.mp once).2
  have : Std.Symm (Function.onFun List.Disjoint Extent.blocks) := ⟨fun _ _ => disjoint_symm⟩
  exact apart.forall first second different inFirst inSecond

theorem Places.injective (once : (blocksOf extents).Nodup) (one : Places extents b phys)
    (two : Places extents c phys) : b = c := by
  obtain ⟨e, mem, covers, rfl⟩ := one
  obtain ⟨f, mem', covers', same⟩ := two
  have equal : e = f := eq_of_mem_blocks once mem mem' (mem_blocks covers) (same ▸ mem_blocks covers')
  subst equal
  have := covers.1
  have := covers'.1
  omega

theorem Laid.locate_congr (laid : Laid extents) (laid' : Laid other)
    (same : ∀ phys, Places extents b phys ↔ Places other b phys) : locate extents b = locate other b := by
  apply Option.ext
  intro phys
  rw [laid.locate_iff, laid'.locate_iff, same]

theorem Places.cons : Places (e :: extents) b phys ↔
    e.covers b ∧ phys = e.physBlock + (b - e.logBlock) ∨ Places extents b phys := by
  simp [Places]

theorem Places.append : Places (extents ++ other) b phys ↔ Places extents b phys ∨ Places other b phys := by
  simp only [Places, mem_append, or_and_right, exists_or]

/-! ## New files -/

/-- Extents that follow one another in the file, from block `start` on. -/
def Chained : Nat → List Extent → Prop
  | _, [] => True
  | start, e :: rest => e.logBlock = start ∧ 0 < e.count ∧ Chained (start + e.count) rest

section
variable (chained : Chained start (extents ++ [e]))
include chained

theorem Chained.extend (n : Nat) :
    Chained start (extents ++ [{ e with count := e.count + n }]) := by
  induction extents generalizing start with
  | nil => exact ⟨chained.1, Nat.add_pos_left chained.2.1 n, trivial⟩
  | cons first rest ih => exact ⟨chained.1, chained.2.1, ih chained.2.2⟩

theorem Chained.push (phys : Nat) :
    Chained start (extents ++ [e] ++ [⟨e.logBlock + e.count, phys, 1⟩]) := by
  induction extents generalizing start with
  | nil =>
    obtain ⟨rfl, some, _⟩ := chained
    exact ⟨rfl, some, rfl, Nat.one_pos, trivial⟩
  | cons first rest ih => exact ⟨chained.1, chained.2.1, ih chained.2.2⟩

theorem Chained.buildExtentsLoop
    (blocks : List Nat) : Chained start (buildExtentsLoop extents e blocks) := by
  induction blocks generalizing extents e with
  | nil => exact chained
  | cons b rest ih =>
    rw [buildExtentsLoop]
    split
    · exact ih (chained.extend 1)
    · exact ih (chained.push b)

end

theorem chained_buildExtents (blocks : List Nat) : Chained 0 (buildExtents blocks) := by
  cases blocks with
  | nil => trivial
  | cons b rest =>
    have single : Chained 0 ([] ++ [⟨0, b, 1⟩]) := ⟨rfl, Nat.one_pos, trivial⟩
    exact single.buildExtentsLoop rest

section
variable (chained : Chained start extents)
include chained

theorem Chained.above : ∀ e ∈ extents, start ≤ e.logBlock := by
  induction extents generalizing start with
  | nil => simp
  | cons first rest ih =>
    intro e mem
    rcases mem_cons.mp mem with rfl | later
    · exact Nat.le_of_eq chained.1.symm
    · have := ih chained.2.2 e later
      omega

theorem Chained.full : ∀ e ∈ extents, 0 < e.count := by
  induction extents generalizing start with
  | nil => simp
  | cons first rest ih => exact forall_mem_cons.mpr ⟨chained.2.1, ih chained.2.2⟩

theorem Chained.laid
    (once : (blocksOf extents).Nodup) : Laid extents := by
  refine ⟨?_, chained.full, once⟩
  clear once
  induction extents generalizing start with
  | nil => exact .nil
  | cons first rest ih =>
    obtain ⟨rfl, _, later⟩ := chained
    exact .cons later.above (ih later)

theorem Chained.places_iff :
    Places extents (start + b) phys ↔ (blocksOf extents)[b]? = some phys := by
  induction extents generalizing start b with
  | nil => simp [Places, blocksOf]
  | cons first rest ih =>
    obtain ⟨rfl, some, later⟩ := chained
    have length : first.blocks.length = first.count := length_range'
    rw [Places.cons, blocksOf, flatMap_cons, ← blocksOf]
    rcases Nat.lt_or_ge b first.count with inside | past
    · have outside : ¬ Places rest (first.logBlock + b) phys := by
        rintro ⟨e, mem, covers, _⟩
        have := later.above e mem
        have := covers.1
        omega
      rw [getElem?_append_left (by omega), Extent.blocks, getElem?_range' inside]
      simp only [outside, or_false, Option.some.injEq, Extent.covers]
      omega
    · rw [getElem?_append_right (by omega), length, ← ih later]
      have shift : first.logBlock + first.count + (b - first.count) = first.logBlock + b := by omega
      have outside : ¬ first.covers (first.logBlock + b) := fun covers => by
        have := covers.2
        omega
      rw [shift]
      simp only [outside, false_and, false_or]

end

theorem laid_buildExtents {blocks : List Nat} (once : blocks.Nodup) : Laid (buildExtents blocks) :=
  (chained_buildExtents blocks).laid (by rwa [blocksOf_buildExtents])

theorem locate_buildExtents {blocks : List Nat} (once : blocks.Nodup) :
    locate (buildExtents blocks) b = blocks[b]? := by
  apply Option.ext
  intro phys
  rw [(laid_buildExtents once).locate_iff, ← blocksOf_buildExtents blocks,
    ← (chained_buildExtents blocks).places_iff, Nat.zero_add, blocksOf_buildExtents]

/-! ## Merging -/

def Extent.Joins (e f : Extent) : Prop :=
  e.logBlock + e.count = f.logBlock ∧ e.physBlock + e.count = f.physBlock ∧ e.count + f.count ≤ 0x7FFF

theorem coalesceLoop_all {holds : Extent → Prop} (first : holds e) (later : ∀ f ∈ extents, holds f)
    (merged : ∀ e f : Extent, e.Joins f → holds e → holds f → holds { e with count := e.count + f.count }) :
    ∀ f ∈ coalesceLoop e extents, holds f := by
  fun_induction coalesceLoop e extents with
  | case1 last => simpa using first
  | case2 last next rest joins ih =>
    obtain ⟨second, later⟩ := forall_mem_cons.mp later
    exact ih (merged last next joins first second) later
  | case3 last next rest splits ih =>
    obtain ⟨second, later⟩ := forall_mem_cons.mp later
    exact forall_mem_cons.mpr ⟨first, ih second later⟩

theorem coalesceLoop_ordered
    (ordered : (e :: extents).Pairwise fun e f => e.logBlock + e.count ≤ f.logBlock) :
    (coalesceLoop e extents).Pairwise fun e f => e.logBlock + e.count ≤ f.logBlock := by
  fun_induction coalesceLoop e extents with
  | case1 last => exact pairwise_singleton _ _
  | case2 last next rest merges ih =>
    apply ih
    obtain ⟨before, ordered⟩ := pairwise_cons.mp ordered
    obtain ⟨before', ordered⟩ := pairwise_cons.mp ordered
    refine .cons (fun f mem => ?_) ordered
    have := before' f mem
    dsimp only
    omega
  | case3 last next rest splits ih =>
    obtain ⟨before, ordered⟩ := pairwise_cons.mp ordered
    refine .cons ?_ (ih ordered)
    obtain ⟨second, before⟩ := forall_mem_cons.mp before
    exact coalesceLoop_all second before fun _ _ _ low _ => low

theorem coalesceLoop_sorted (sorted : (e :: extents).Pairwise fun e f => e.logBlock ≤ f.logBlock) :
    (coalesceLoop e extents).Pairwise fun e f => e.logBlock ≤ f.logBlock := by
  fun_induction coalesceLoop e extents with
  | case1 last => exact sorted
  | case2 last next rest joins ih =>
    obtain ⟨before, sorted⟩ := pairwise_cons.mp sorted
    exact ih (.cons (forall_mem_cons.mp before).2 sorted.of_cons)
  | case3 last next rest splits ih =>
    obtain ⟨before, sorted⟩ := pairwise_cons.mp sorted
    obtain ⟨second, before⟩ := forall_mem_cons.mp before
    exact .cons (coalesceLoop_all second before fun _ _ _ low _ => low) (ih sorted)

theorem coalesceLoop_head (e : Extent) (extents : List Extent) :
    ∃ n tail, coalesceLoop e extents = { e with count := e.count + n } :: tail := by
  fun_induction coalesceLoop e extents with
  | case1 last => exact ⟨0, [], rfl⟩
  | case2 last next rest joins ih =>
    obtain ⟨n, tail, same⟩ := ih
    exact ⟨next.count + n, tail, by rw [same, Nat.add_assoc]⟩
  | case3 last next rest splits ih => exact ⟨0, coalesceLoop next rest, rfl⟩

/-- A leaf is closed when the next one does not fit, and the next one only gets longer. -/
theorem coalesceLoop_split (e : Extent) (extents : List Extent) :
    (coalesceLoop e extents).IsChain fun e f => ¬ e.Joins f := by
  fun_induction coalesceLoop e extents with
  | case1 last => exact .singleton last
  | case2 last next rest joins ih => exact ih
  | case3 last next rest splits ih =>
    obtain ⟨n, tail, same⟩ := coalesceLoop_head next rest
    rw [same] at ih ⊢
    refine .cons_cons (fun joins => splits ⟨joins.1, joins.2.1, ?_⟩) ih
    have := joins.2.2
    dsimp only at this
    omega

theorem blocksOf_coalesceLoop : blocksOf (coalesceLoop e extents) = blocksOf (e :: extents) := by
  fun_induction coalesceLoop e extents with
  | case1 last => rfl
  | case2 last next rest merges ih =>
    rw [ih]
    simp only [blocksOf, flatMap_cons, Extent.blocks, ← append_assoc, merges.2.1.symm, range'_append_1]
  | case3 last next rest splits ih =>
    rw [blocksOf, flatMap_cons, ← blocksOf, ih]
    rfl

theorem places_coalesceLoop : Places (coalesceLoop e extents) b phys ↔ Places (e :: extents) b phys := by
  fun_induction coalesceLoop e extents with
  | case1 last => rfl
  | case2 last next rest merges ih =>
    rw [ih, Places.cons, Places.cons, Places.cons, ← or_assoc]
    refine or_congr_left ?_
    simp only [Extent.covers]
    omega
  | case3 last next rest splits ih =>
    rw [Places.cons, ih, ← Places.cons]

def Extent.Apart (e f : Extent) : Prop :=
  e.logBlock + e.count ≤ f.logBlock ∨ f.logBlock + f.count ≤ e.logBlock

theorem ordered_of_apart (sorted : extents.Pairwise fun e f => e.logBlock ≤ f.logBlock)
    (apart : extents.Pairwise Extent.Apart) (full : ∀ e ∈ extents, 0 < e.count) :
    extents.Pairwise fun e f => e.logBlock + e.count ≤ f.logBlock := by
  refine (sorted.and apart).imp_of_mem fun _ second both => ?_
  have := full _ second
  rcases both.2 with before | after <;> omega

theorem blocksOf_coalesceExtents (extents : List Extent) :
    (blocksOf (coalesceExtents extents)).Perm (blocksOf extents) := by
  have perm := perm_insertionSort (fun e f : Extent => e.logBlock ≤ f.logBlock) extents
  have blocks := perm.flatMap_right Extent.blocks
  unfold coalesceExtents
  split
  next sorted => rwa [sorted] at blocks
  next e rest sorted =>
    rw [blocksOf_coalesceLoop]
    rwa [sorted] at blocks

theorem places_coalesceExtents : Places (coalesceExtents extents) b phys ↔ Places extents b phys := by
  have perm := perm_insertionSort (fun e f : Extent => e.logBlock ≤ f.logBlock) extents
  have places : Places (extents.insertionSort fun e f => e.logBlock ≤ f.logBlock) b phys ↔
      Places extents b phys := by
    simp only [Places, perm.mem_iff]
  unfold coalesceExtents
  split
  next sorted => rwa [sorted] at places
  next e rest sorted =>
    rw [sorted] at places
    exact places_coalesceLoop.trans places

theorem coalesceExtents_spec (apart : extents.Pairwise Extent.Apart) (full : ∀ e ∈ extents, 0 < e.count)
    (once : (blocksOf extents).Nodup) : Laid (coalesceExtents extents) ∧
      (∀ b phys, Places (coalesceExtents extents) b phys ↔ Places extents b phys) ∧
      (blocksOf (coalesceExtents extents)).Perm (blocksOf extents) := by
  refine ⟨?_, fun _ _ => places_coalesceExtents, blocksOf_coalesceExtents extents⟩
  have perm := perm_insertionSort (fun e f : Extent => e.logBlock ≤ f.logBlock) extents
  have sorted := pairwise_insertionSort (fun e f : Extent => e.logBlock ≤ f.logBlock) extents
  unfold coalesceExtents
  generalize extents.insertionSort (fun e f => e.logBlock ≤ f.logBlock) = list at perm sorted
  have symm : ∀ {e f : Extent}, e.Apart f → f.Apart e := fun apart => apart.symm
  have apart := (perm.pairwise_iff symm).mpr apart
  have full : ∀ e ∈ list, 0 < e.count := fun e mem => full e (perm.mem_iff.mp mem)
  have blocks : (blocksOf list).Perm (blocksOf extents) := perm.flatMap_right _
  have ordered := ordered_of_apart sorted apart full
  cases list with
  | nil => exact ⟨.nil, by simp, nodup_nil⟩
  | cons e rest =>
    refine ⟨coalesceLoop_ordered ordered, ?_, ?_⟩
    · obtain ⟨first, later⟩ := forall_mem_cons.mp full
      exact coalesceLoop_all first later fun _ _ _ some _ => Nat.add_pos_left some _
    · rw [blocksOf_coalesceLoop]
      exact blocks.nodup_iff.mpr once

/-! ## In place

The slice that is merged is the one that is read: `out` is its first `w` leaves. -/

/-- One round of the loop, for the leaf at `r`. -/
def coalesceRound (slice : List Extent × Nat) (r : Nat) : List Extent × Nat :=
  match slice.1[slice.2 - 1]?, slice.1[r]? with
  | some last, some e =>
      if last.logBlock + last.count = e.logBlock ∧ last.physBlock + last.count = e.physBlock ∧
          last.count + e.count ≤ 0x7FFF then
        (slice.1.set (slice.2 - 1) { last with count := last.count + e.count }, slice.2)
      else (slice.1.set slice.2 e, slice.2 + 1)
  | _, _ => slice

def coalesceSlice (sorted : List Extent) : List Extent :=
  let slice := (range' 1 (sorted.length - 1)).foldl coalesceRound (sorted, 1)
  slice.1.take slice.2

theorem coalesceRound_foldl (out used rest : List Extent) (last : Extent) :
    let slice := (range' (out.length + 1 + used.length) rest.length).foldl coalesceRound
      (out ++ last :: (used ++ rest), out.length + 1)
    slice.1.take slice.2 = out ++ coalesceLoop last rest := by
  induction rest generalizing out used last with
  | nil => simp [coalesceLoop, take_append, take_of_length_le]
  | cons e rest ih =>
    have tail : (out ++ last :: (used ++ e :: rest))[out.length + 1 + used.length]? = some e := by
      rw [getElem?_append_right (by omega), getElem?_cons]
      grind
    have head : (out ++ last :: (used ++ e :: rest))[out.length]? = some last := by simp
    rw [length_cons, range'_succ, foldl_cons, coalesceLoop]
    simp only [coalesceRound, Nat.add_sub_cancel, head, tail]
    split
    · have := ih out (used ++ [e]) { last with count := last.count + e.count }
      simpa [Nat.add_assoc] using this
    · cases used with
      | nil => simpa using ih (out ++ [last]) [] e
      | cons first used =>
        have := ih (out ++ [last]) (used ++ [e]) e
        simpa [Nat.add_assoc, Nat.add_comm, Nat.add_left_comm] using this

theorem coalesceSlice_cons (e : Extent) (rest : List Extent) : coalesceSlice (e :: rest) = coalesceLoop e rest :=
  coalesceRound_foldl [] [] rest e

theorem count_buildExtentsLoop (short : ∀ f ∈ extents ++ [e], f.count ≤ 0x7FFF) (blocks : List Nat) :
    ∀ f ∈ buildExtentsLoop extents e blocks, f.count ≤ 0x7FFF := by
  fun_induction buildExtentsLoop extents e blocks with
  | case1 extents last => exact short
  | case2 extents last b rest joins ih =>
    exact ih (forall_mem_append.mpr ⟨(forall_mem_append.mp short).1, by simp; omega⟩)
  | case3 extents last b rest splits ih =>
    exact ih (forall_mem_append.mpr ⟨short, by simp⟩)

/-- A list of blocks is mapped in its order from logical block 0 on, in leaves that are full at
0x7FFF. Merging leaves, however they were sorted, keeps the map, and joins all that may be joined. -/
theorem extents_keep_map {blocks : List Nat} {sorted : List Extent} (narrow : blocks.length < 2 ^ 32)
    (perm : sorted.Perm extents) (order : sorted.Pairwise fun e f => e.logBlock ≤ f.logBlock) :
    (blocksOf (buildExtents blocks) = blocks ∧
      (∀ b phys, Places (buildExtents blocks) b phys ↔ blocks[b]? = some phys) ∧
      ∀ e ∈ buildExtents blocks, 1 ≤ e.count ∧ e.count ≤ 0x7FFF ∧ e.logBlock + e.count < 2 ^ 32) ∧
    ((coalesceSlice sorted).Pairwise (fun e f => e.logBlock ≤ f.logBlock) ∧
      (∀ b phys, Places (coalesceSlice sorted) b phys ↔ Places extents b phys) ∧
      (∀ e ∈ coalesceSlice sorted, e ∈ extents ∨ e.count ≤ 0x7FFF) ∧
      (coalesceSlice sorted).IsChain fun e f => ¬ e.Joins f) := by
  have chained := chained_buildExtents blocks
  have same := blocksOf_buildExtents blocks
  have places : ∀ b phys, Places (buildExtents blocks) b phys ↔ blocks[b]? = some phys := fun b phys => by
    rw [← Nat.zero_add b, chained.places_iff, same, Nat.zero_add]
  refine ⟨⟨same, places, fun e mem => ?_⟩, ?_⟩
  · have some : 0 < e.count := chained.full e mem
    have short : e.count ≤ 0x7FFF := by
      cases blocks with
      | nil => cases mem
      | cons b rest => exact count_buildExtentsLoop (by simp) rest e mem
    have last := (places (e.logBlock + (e.count - 1)) _).mp ⟨e, mem, ⟨by omega, by omega⟩, rfl⟩
    have := (List.getElem?_eq_some_iff.mp last).1
    exact ⟨some, short, by omega⟩
  · have kept : ∀ b phys, Places sorted b phys ↔ Places extents b phys := fun b phys => by
      simp only [Places, perm.mem_iff]
    cases sorted with
    | nil => exact ⟨.nil, kept, nofun, .nil⟩
    | cons e rest =>
      rw [coalesceSlice_cons]
      refine ⟨coalesceLoop_sorted order, fun b phys => places_coalesceLoop.trans (kept b phys), ?_,
        coalesceLoop_split e rest⟩
      obtain ⟨first, later⟩ := forall_mem_cons.mp fun f mem => (perm.mem_iff (a := f)).mp mem
      exact coalesceLoop_all (.inl first) (fun f mem => .inl (later f mem)) fun e f joins _ _ => .inr joins.2.2

theorem extents_keep_map_two : coalesceSlice [⟨0, 7, 2⟩, ⟨2, 9, 1⟩, ⟨4, 3, 1⟩] = [⟨0, 7, 3⟩, ⟨4, 3, 1⟩] ∧
    ∀ b phys, Places (coalesceSlice [⟨0, 7, 2⟩, ⟨2, 9, 1⟩, ⟨4, 3, 1⟩]) b phys ↔
      Places [⟨4, 3, 1⟩, ⟨0, 7, 2⟩, ⟨2, 9, 1⟩] b phys :=
  ⟨by decide, (extents_keep_map (show [7, 8, 9].length < 2 ^ 32 by decide) (by decide) (by decide)).2.2.1⟩

section
variable {missing blocks : List Nat}

theorem mem_singles (mem : e ∈ singles missing blocks) :
    e.count = 1 ∧ ∃ b ∈ missing, e.logBlock = b % 2 ^ 32 := by
  obtain ⟨k, bound, rfl⟩ := getElem_of_mem mem
  simp only [singles, length_zipWith] at bound
  simp only [singles, getElem_zipWith]
  exact ⟨trivial, missing[k], getElem_mem _, rfl⟩

theorem blocksOf_singles (long : blocks.length = missing.length) :
    blocksOf (singles missing blocks) = blocks := by
  induction missing generalizing blocks with
  | nil =>
    cases length_eq_zero_iff.mp long
    rfl
  | cons b rest ih =>
    obtain ⟨phys, others, rfl⟩ := exists_cons_of_length_eq_add_one long
    have := ih (Nat.succ.inj long)
    simp only [singles, blocksOf, zipWith_cons_cons, flatMap_cons, Extent.blocks,
      range'_one, singleton_append] at this ⊢
    rw [this]

theorem exists_places_singles (long : blocks.length = missing.length) (narrow : ∀ b ∈ missing, b < 2 ^ 32)
    (mem : b ∈ missing) : ∃ phys, Places (singles missing blocks) b phys := by
  obtain ⟨k, bound, rfl⟩ := getElem_of_mem mem
  have inside : k < (singles missing blocks).length := by
    simp only [singles, length_zipWith]
    omega
  refine ⟨_, _, getElem_mem inside, ?_, rfl⟩
  have small : missing[k] % 2 ^ 32 = missing[k] := Nat.mod_eq_of_lt (narrow _ mem)
  simp only [singles, getElem_zipWith, Extent.covers, small]
  omega

theorem Places.of_singles (narrow : ∀ b ∈ missing, b < 2 ^ 32)
    (places : Places (singles missing blocks) b phys) : b ∈ missing := by
  obtain ⟨e, mem, covers, _⟩ := places
  obtain ⟨one, c, hole, start⟩ := mem_singles mem
  rw [Nat.mod_eq_of_lt (narrow c hole)] at start
  have := covers.1
  have := covers.2
  have same : b = c := by omega
  exact same ▸ hole

theorem apart_singles (laid : Laid extents) (distinct : missing.Nodup) (narrow : ∀ b ∈ missing, b < 2 ^ 32)
    (holes : ∀ b ∈ missing, locate extents b = none) :
    (extents ++ singles missing blocks).Pairwise Extent.Apart := by
  refine pairwise_append.mpr ⟨laid.ordered.imp .inl, ?_, ?_⟩
  · induction missing generalizing blocks with
    | nil => simp [singles]
    | cons b rest ih =>
      cases blocks with
      | nil => simp [singles]
      | cons phys others =>
        obtain ⟨absent, distinct⟩ := nodup_cons.mp distinct
        refine .cons (fun e mem => ?_) (ih distinct (fun c inRest => narrow c (mem_cons_of_mem _ inRest))
          fun c inRest => holes c (mem_cons_of_mem _ inRest))
        obtain ⟨one, c, hole, start⟩ := mem_singles mem
        have first := Nat.mod_eq_of_lt (narrow b mem_cons_self)
        have second := Nat.mod_eq_of_lt (narrow c (mem_cons_of_mem _ hole))
        have different : b ≠ c := fun same => absent (same ▸ hole)
        rw [Extent.Apart, one, start]
        dsimp only
        rw [first, second]
        omega
  · intro e mem f single
    obtain ⟨one, b, hole, start⟩ := mem_singles single
    rw [Nat.mod_eq_of_lt (narrow b hole)] at start
    have uncovered : ¬ e.covers b := fun covers => by
      have located := laid.locate_iff.mpr ⟨e, mem, covers, rfl⟩
      rw [holes b hole] at located
      cases located
    rw [Extent.covers] at uncovered
    rw [Extent.Apart]
    omega

end

/-! ## Cutting -/

theorem places_keptExtents :
    Places (keptExtents keep extents) b phys ↔ b < keep ∧ Places extents b phys := by
  simp only [Places, keptExtents, mem_filterMap]
  constructor
  · rintro ⟨f, ⟨e, mem, kept⟩, covers, rfl⟩
    split at kept
    · cases kept
    · cases kept
      simp only [Extent.covers] at covers
      refine ⟨by omega, e, mem, ⟨covers.1, ?_⟩, rfl⟩
      omega
  · rintro ⟨below, e, mem, covers, rfl⟩
    have := covers.1
    have := covers.2
    refine ⟨_, ⟨e, mem, if_neg (by omega)⟩, ?_, rfl⟩
    simp only [Extent.covers]
    omega

theorem blocksOf_keptExtents (keep : Nat) (extents : List Extent) :
    (blocksOf (keptExtents keep extents)).Sublist (blocksOf extents) := by
  induction extents with
  | nil => exact .slnil
  | cons e rest ih =>
    rw [keptExtents, filterMap_cons]
    split
    next cut => exact ih.trans (sublist_append_right _ _)
    next f kept =>
      split at kept
      · cases kept
      · cases kept
        exact (range'_sublist_right.mpr (Nat.min_le_left _ _)).append ih

theorem kept_append_freed (keep : Nat) (extents : List Extent) :
    (blocksOf (keptExtents keep extents) ++ freedBlocks keep extents).Perm (blocksOf extents) := by
  induction extents with
  | nil => exact .nil
  | cons e rest ih =>
    have split_ : blocksOf (keptExtents keep (e :: rest)) =
        e.blocks.take (keep - e.logBlock) ++ blocksOf (keptExtents keep rest) := by
      rw [keptExtents, filterMap_cons]
      split
      next cut =>
        split at cut
        next behind => rw [Nat.sub_eq_zero_of_le behind, take_zero, nil_append, keptExtents]
        · cases cut
      next f kept =>
        split at kept
        · cases kept
        · cases kept
          have run : e.blocks.take (keep - e.logBlock) =
              range' e.physBlock (min e.count (keep - e.logBlock)) := by
            apply ext_getElem <;> simp [Extent.blocks, Nat.min_comm]
          rw [run]
          rfl
    have freed : freedBlocks keep (e :: rest) =
        e.blocks.drop (keep - e.logBlock) ++ freedBlocks keep rest := flatMap_cons
    have whole : blocksOf (e :: rest) = e.blocks.take (keep - e.logBlock) ++
        (e.blocks.drop (keep - e.logBlock) ++ blocksOf rest) := by
      rw [← append_assoc, take_append_drop]
      exact flatMap_cons
    rw [split_, freed, whole, append_assoc]
    refine List.Perm.append_left _ (perm_append_comm_assoc _ _ _ |>.trans ?_)
    exact ih.append_left _

theorem Laid.keptExtents (laid : Laid extents) (keep : Nat) : Laid (keptExtents keep extents) where
  ordered := by
    refine laid.ordered.filterMap _ fun e f before e' kept f' kept' => ?_
    split at kept
    · cases kept
    split at kept'
    · cases kept'
    cases kept
    cases kept'
    dsimp only
    omega
  full f mem := by
    obtain ⟨e, inList, kept⟩ := mem_filterMap.mp mem
    have := laid.full e inList
    split at kept
    · cases kept
    · cases kept
      dsimp only
      omega
  once := laid.once.sublist (blocksOf_keptExtents keep extents)

theorem mem_freedBlocks (freed : phys ∈ freedBlocks keep extents) :
    ∃ b, keep ≤ b ∧ Places extents b phys := by
  obtain ⟨e, mem, inRun⟩ := mem_flatMap.mp freed
  rw [Extent.blocks, drop_range', mem_range'_1] at inRun
  refine ⟨e.logBlock + (phys - e.physBlock), ?_, e, mem, ⟨?_, ?_⟩, ?_⟩ <;> omega

end Ext4.Volume
