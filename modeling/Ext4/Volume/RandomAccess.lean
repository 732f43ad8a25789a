import Ext4.Library.Search
import Ext4.Volume.Extents

/-! Random access through a sorted list of leaves.
`ReadAt` and `locateLocked` find the leaf of a logical block by binary search for the first leaf
that ends after it. Zero-length leaves are kept in the list, and the predicate of the search is
monotone only when none of them lies inside another leaf. -/

namespace Ext4.Volume
open Octets Search List

def Extent.covers (e : Extent) (b : Nat) : Prop := e.logBlock ≤ b ∧ b < e.logBlock + e.count

instance (e : Extent) (b : Nat) : Decidable (e.covers b) := inferInstanceAs (Decidable (_ ∧ _))

/-- The predicate of the search: leaf `i` ends after block `b`. -/
def endsAfter (extents : List Extent) (b i : Nat) : Bool :=
  match extents[i]? with
  | some e => b < e.logBlock + e.count
  | none => false

/-- The first leaf that ends after block `b`, as the search finds it. -/
def seek (extents : List Extent) (b : Nat) : Option Extent :=
  extents[search extents.length (endsAfter extents b)]?

/-- `locateLocked`: the physical block of a logical one. -/
def locate (extents : List Extent) (b : Nat) : Option Nat :=
  match seek extents b with
  | none => none
  | some e => if b < e.logBlock then none else some (e.physBlock + (b - e.logBlock))

inductive Stop (ε : Type) where
  | eof
  | error (e : ε)
  deriving DecidableEq, Repr

section
variable {ε : Type} (fetch : Nat → Nat → Nat → Except ε Bytes) (blockSize size : Nat)
  (extents : List Extent)

/-- The loop of `ReadAt`: `left` octets from offset `cur` on. `fetch` reads octets of a run of
physical blocks. Each round delivers at least one octet. -/
def readLoop : Nat → Nat → Nat → Bytes × Option (Stop ε)
  | 0, _, _ => ([], none)
  | rounds + 1, cur, left =>
      if left = 0 then ([], none)
      else if size ≤ cur then ([], some .eof)
      else
        let want := min left (size - cur)
        let zeros := fun chunk =>
          let (data, stop) := readLoop rounds (cur + chunk) (left - chunk)
          (replicate chunk 0 ++ data, stop)
        match seek extents (cur / blockSize) with
        | none => zeros want
        | some e =>
            if cur / blockSize < e.logBlock then zeros (min want (e.logBlock * blockSize - cur))
            else
              let skip := cur / blockSize - e.logBlock
              let chunk := min want ((e.count - skip) * blockSize - cur % blockSize)
              match fetch (e.physBlock + skip) (cur % blockSize) chunk with
              | .error e => ([], some (.error e))
              | .ok head =>
                  let (data, stop) := readLoop rounds (cur + chunk) (left - chunk)
                  (head ++ data, stop)

def readMapped (off len : Nat) : Bytes × Option (Stop ε) :=
  if size ≤ off then ([], some .eof) else readLoop fetch blockSize size extents len off len

end

/-! ## The leaf found -/

/-- For each of the first `blocks` blocks the predicate of the search, once true, stays true. -/
structure Searchable (extents : List Extent) (blocks : Nat) : Prop where
  sorted : extents.Pairwise fun e f => e.logBlock ≤ f.logBlock
  disjoint : extents.Pairwise fun e f => overlaps Extent.logBlock e f = false
  clear : extents.Pairwise fun e z => z.count = 0 → z.logBlock < blocks → ¬ e.covers z.logBlock

variable {b blocks : Nat} {e : Extent}

section
variable {extents : List Extent} {i : Nat}

theorem Searchable.before (ready : Searchable extents blocks) {j : Nat} (less : i < j) (bound : j < extents.length) :
    extents[i].logBlock ≤ extents[j].logBlock ∧ overlaps Extent.logBlock extents[i] extents[j] = false :=
  ⟨pairwise_iff_getElem.mp ready.sorted i j (by omega) bound less,
    pairwise_iff_getElem.mp ready.disjoint i j (by omega) bound less⟩

theorem endsAfter_eq (bound : i < extents.length) :
    endsAfter extents b i = decide (b < extents[i].logBlock + extents[i].count) := by
  simp [endsAfter, bound]

theorem apart {f : Extent} (order : e.logBlock ≤ f.logBlock)
    (disjoint : overlaps Extent.logBlock e f = false) (some : e.count ≠ 0) (some' : f.count ≠ 0) :
    e.logBlock + e.count ≤ f.logBlock := by
  have := (overlaps_iff e f).mp disjoint some some'
  omega

theorem Searchable.seek_covered (ready : Searchable extents blocks) (below : b < blocks) (mem : e ∈ extents)
    (covers : e.covers b) : seek extents b = some e := by
  obtain ⟨k, bound, rfl⟩ := getElem_of_mem mem
  have count : extents[k].count ≠ 0 := by have := covers.1; have := covers.2; omega
  have at' : search extents.length (endsAfter extents b) = k := by
    apply search_eq (Nat.le_of_lt bound)
    · intro i less
      obtain ⟨order, disjoint⟩ := ready.before less bound
      rw [endsAfter_eq (by omega), decide_eq_false_iff_not]
      have start := covers.1
      by_cases empty : extents[i].count = 0
      · omega
      · have := apart order disjoint empty count
        omega
    · intro i more inside
      rw [endsAfter_eq inside, decide_eq_true_iff]
      rcases Nat.lt_or_eq_of_le more with less | rfl
      · obtain ⟨order, disjoint⟩ := ready.before less inside
        have stop := covers.2
        by_cases empty : extents[i].count = 0
        · -- a zero-length leaf after the covering one starts past its end
          have outside := pairwise_iff_getElem.mp ready.clear k i bound inside less empty
          unfold Extent.covers at outside
          omega
        · have := apart order disjoint count empty
          omega
      · exact covers.2
  rw [seek, at', getElem?_eq_getElem bound]

/-- Past a block that no leaf covers the search is for the first leaf that starts later. -/
theorem Searchable.monotone (ready : Searchable extents blocks) (hole : ∀ e ∈ extents, ¬ e.covers b) (i j : Nat)
    (order : i ≤ j) (bound : j < extents.length) (holds : endsAfter extents b i) :
    endsAfter extents b j := by
  rcases Nat.lt_or_eq_of_le order with less | rfl
  · rw [endsAfter_eq (by omega), decide_eq_true_iff] at holds
    rw [endsAfter_eq bound, decide_eq_true_iff]
    have later := (ready.before less bound).1
    have outside := hole _ (getElem_mem (by omega : i < extents.length))
    unfold Extent.covers at outside
    omega
  · exact holds

theorem Searchable.seek_hole (ready : Searchable extents blocks) (hole : ∀ e ∈ extents, ¬ e.covers b) :
    match seek extents b with
    | none => ∀ e ∈ extents, e.logBlock + e.count ≤ b
    | some next => b < next.logBlock ∧ ∀ e ∈ extents, ∀ c, b ≤ c → c < next.logBlock → ¬ e.covers c := by
  have found := search_found extents.length (endsAfter extents b)
  have below : ∀ i < search extents.length (endsAfter extents b), ∀ bound : i < extents.length,
      extents[i].logBlock + extents[i].count ≤ b := by
    intro i less bound
    have fails := search_below (ready.monotone hole) less
    rw [endsAfter_eq bound, decide_eq_false_iff_not] at fails
    omega
  unfold seek
  rcases Nat.lt_or_eq_of_le found.le with inside | last
  · rw [getElem?_eq_getElem inside]
    simp only
    have here := found.here inside
    rw [endsAfter_eq inside, decide_eq_true_iff] at here
    have outside := hole _ (getElem_mem inside)
    have starts : b < extents[search extents.length (endsAfter extents b)].logBlock := by
      unfold Extent.covers at outside
      omega
    refine ⟨starts, ?_⟩
    rintro e mem c low high ⟨first, stop⟩
    obtain ⟨k, bound, rfl⟩ := getElem_of_mem mem
    rcases Nat.lt_or_ge k (search extents.length (endsAfter extents b)) with less | more
    · have := below k less bound
      omega
    · rcases Nat.lt_or_eq_of_le more with later | same
      · have := (ready.before later bound).1
        omega
      · simp only [← same] at first
        omega
  · rw [getElem?_eq_none (by omega)]
    intro e mem
    obtain ⟨k, bound, rfl⟩ := getElem_of_mem mem
    exact below k (by omega) bound

end

/-- Logical block `b` is at physical block `phys`. -/
def Places (extents : List Extent) (b phys : Nat) : Prop :=
  ∃ e ∈ extents, e.covers b ∧ phys = e.physBlock + (b - e.logBlock)

theorem Searchable.locate_iff {extents : List Extent} (ready : Searchable extents blocks) (below : b < blocks)
    {phys : Nat} :
    locate extents b = some phys ↔ Places extents b phys := by
  unfold locate
  constructor
  · intro located
    by_cases covered : ∃ e ∈ extents, e.covers b
    · obtain ⟨e, mem, covers⟩ := covered
      rw [ready.seek_covered below mem covers] at located
      dsimp only at located
      rw [if_neg (Nat.not_lt.mpr covers.1)] at located
      exact ⟨e, mem, covers, (Option.some.inj located).symm⟩
    · have hole := ready.seek_hole fun e mem covers => covered ⟨e, mem, covers⟩
      split at located
      · cases located
      next next sought =>
        rw [sought] at hole
        rw [if_pos hole.1] at located
        cases located
  · rintro ⟨e, mem, covers, rfl⟩
    rw [ready.seek_covered below mem covers]
    dsimp only
    rw [if_neg (Nat.not_lt.mpr covers.1)]

/-- The leaf that is found covers the block unless it starts behind it, whatever the list is. -/
theorem seek_covers {extents : List Extent} (found : seek extents b = some e)
    (low : ¬ b < e.logBlock) : e ∈ extents ∧ e.covers b := by
  obtain ⟨inside, rfl⟩ := List.getElem?_eq_some_iff.mp found
  have ends := (search_found extents.length (endsAfter extents b)).here inside
  rw [endsAfter, getElem?_eq_getElem inside] at ends
  exact ⟨getElem_mem inside, Nat.le_of_not_lt low, of_decide_eq_true ends⟩

/-! ## What a read delivers -/

def window (content : Nat → UInt8) (size off len : Nat) : Bytes :=
  (range' off (min len (size - off))).map content

theorem map_range'_split (content : Nat → UInt8) {cur chunk n : Nat} (fits : chunk ≤ n) :
    (range' cur n).map content =
      (range' cur chunk).map content ++ (range' (cur + chunk) (n - chunk)).map content := by
  have whole : n = chunk + (n - chunk) := by omega
  conv_lhs => rw [whole]
  rw [← range'_append_1, map_append]

/-- `fetch` and the leaves hold `content`: runs are fetched, everything else is zero. -/
structure Holds {ε : Type} (fetch : Nat → Nat → Nat → Except ε Bytes) (blockSize size : Nat)
    (extents : List Extent) (content : Nat → UInt8) : Prop where
  run : ∀ e ∈ extents, ∀ cur chunk, e.covers (cur / blockSize) → 0 < chunk → cur + chunk ≤ size →
    cur + chunk ≤ (e.logBlock + e.count) * blockSize →
    fetch (e.physBlock + (cur / blockSize - e.logBlock)) (cur % blockSize) chunk =
      .ok ((range' cur chunk).map content)
  hole : ∀ cur < size, (∀ e ∈ extents, ¬ e.covers (cur / blockSize)) → content cur = 0

section
variable {ε : Type} {fetch fetch' : Nat → Nat → Nat → Except ε Bytes} {blockSize size : Nat}
  {extents : List Extent} {content : Nat → UInt8}

theorem Extent.covers.rest {cur : Nat} (covers : e.covers (cur / blockSize)) (positive : 0 < blockSize) :
    (e.count - (cur / blockSize - e.logBlock)) * blockSize - cur % blockSize + cur =
        (e.logBlock + e.count) * blockSize ∧ cur < (e.logBlock + e.count) * blockSize := by
  have divided : cur / blockSize * blockSize + cur % blockSize = cur := Nat.div_add_mod' cur blockSize
  have modest := Nat.mod_lt cur positive
  have low := covers.1
  have high := covers.2
  have room : blockSize ≤ (e.count - (cur / blockSize - e.logBlock)) * blockSize :=
    Nat.le_mul_of_pos_left _ (by omega)
  have split : e.logBlock + e.count = cur / blockSize + (e.count - (cur / blockSize - e.logBlock)) := by
    omega
  refine ⟨?_, (Nat.div_lt_iff_lt_mul positive).mp covers.2⟩
  rw [split, Nat.add_mul]
  omega

section
variable (positive : 0 < blockSize)
  (same : ∀ e ∈ extents, ∀ cur chunk, e.covers (cur / blockSize) → 0 < chunk → cur + chunk ≤ size →
    cur + chunk ≤ (e.logBlock + e.count) * blockSize →
    fetch (e.physBlock + (cur / blockSize - e.logBlock)) (cur % blockSize) chunk =
      fetch' (e.physBlock + (cur / blockSize - e.logBlock)) (cur % blockSize) chunk)
include positive same

theorem readLoop_congr (rounds cur left : Nat) : readLoop fetch blockSize size extents rounds cur left =
      readLoop fetch' blockSize size extents rounds cur left := by
  induction rounds generalizing cur left with
  | zero => rfl
  | succ rounds ih =>
    rw [readLoop, readLoop]
    split
    · rfl
    next some =>
      split
      · rfl
      next unended =>
        simp only [ih]
        cases found : seek extents (cur / blockSize) with
        | none => rfl
        | some e =>
          dsimp only
          split
          · rfl
          next low =>
            obtain ⟨mem, covers⟩ := seek_covers found low
            obtain ⟨ends, later⟩ := covers.rest positive
            rw [same e mem cur _ covers (by omega) (by omega) (by omega)]

theorem readMapped_congr (off len : Nat) :
    readMapped fetch blockSize size extents off len = readMapped fetch' blockSize size extents off len := by
  rw [readMapped, readMapped, readLoop_congr positive same]

end

theorem Holds.zeros (holds : Holds fetch blockSize size extents content) {cur chunk : Nat}
    (inside : cur + chunk ≤ size) (outside : ∀ i < chunk, ∀ e ∈ extents, ¬ e.covers ((cur + i) / blockSize)) :
    replicate chunk 0 = (range' cur chunk).map content := by
  refine (eq_replicate_iff.mpr ⟨by simp, fun octet mem => ?_⟩).symm
  obtain ⟨p, range, rfl⟩ := mem_map.mp mem
  obtain ⟨low, high⟩ := mem_range'_1.mp range
  obtain ⟨i, rfl⟩ := Nat.exists_eq_add_of_le low
  exact holds.hole _ (by omega) (outside i (by omega))

section
variable (ready : Searchable extents ((size + blockSize - 1) / blockSize)) (positive : 0 < blockSize)
  (holds : Holds fetch blockSize size extents content)
include ready positive holds

theorem readLoop_eq (rounds cur left : Nat) (enough : left ≤ rounds)
    (inside : cur ≤ size) : readLoop fetch blockSize size extents rounds cur left =
      (window content size cur left, if size < cur + left then some .eof else none) := by
  induction rounds generalizing cur left with
  | zero =>
    cases Nat.le_zero.mp enough
    rw [readLoop, window, if_neg (by omega)]
    simp
  | succ rounds ih =>
    rw [readLoop]
    by_cases nothing : left = 0
    · rw [if_pos nothing, window, if_neg (by omega), nothing]
      simp
    rw [if_neg nothing]
    by_cases ended : size ≤ cur
    · rw [if_pos ended, window, if_pos (by omega), Nat.sub_eq_zero_of_le ended, Nat.min_zero]
      rfl
    rw [if_neg ended]
    -- whatever the round delivers, the rest is the window that starts after it
    have step : ∀ chunk, 0 < chunk → chunk ≤ min left (size - cur) →
        ((range' cur chunk).map content ++
            (readLoop fetch blockSize size extents rounds (cur + chunk) (left - chunk)).1,
          (readLoop fetch blockSize size extents rounds (cur + chunk) (left - chunk)).2) =
        (window content size cur left, if size < cur + left then some .eof else none) := by
      intro chunk some fits
      rw [ih (cur + chunk) (left - chunk) (by omega) (by omega), window, window,
        map_range'_split content fits]
      have rest : min (left - chunk) (size - (cur + chunk)) = min left (size - cur) - chunk := by omega
      have total : cur + chunk + (left - chunk) = cur + left := by omega
      rw [rest, total]
    by_cases covered : ∃ e ∈ extents, e.covers (cur / blockSize)
    · obtain ⟨e, mem, covers⟩ := covered
      have below : cur / blockSize < (size + blockSize - 1) / blockSize := by
        rw [Nat.div_lt_iff_lt_mul positive]
        have := Nat.lt_div_mul_add (a := size + blockSize - 1) positive
        omega
      simp only [ready.seek_covered below mem covers]
      rw [if_neg (by have := covers.1; omega)]
      obtain ⟨ends, later⟩ := covers.rest positive
      set avail := (e.count - (cur / blockSize - e.logBlock)) * blockSize - cur % blockSize with available
      rw [holds.run e mem cur (min (min left (size - cur)) avail) covers (by omega) (by omega) (by omega)]
      exact step _ (by omega) (by omega)
    · have uncovered : ∀ e ∈ extents, ¬ e.covers (cur / blockSize) := fun e mem covers =>
        covered ⟨e, mem, covers⟩
      have hole := ready.seek_hole uncovered
      cases sought : seek extents (cur / blockSize) with
      | none =>
        rw [sought] at hole
        have blank : replicate (min left (size - cur)) 0 =
            (range' cur (min left (size - cur))).map content :=
          holds.zeros (by omega) fun i _ e mem covers => by
            have first := hole e mem
            have := Nat.div_le_div_right (c := blockSize) (Nat.le_add_right cur i)
            have := covers.2
            omega
        simp only [blank]
        exact step _ (by omega) (by omega)
      | some next =>
        rw [sought] at hole
        obtain ⟨starts, clear⟩ := hole
        have past : cur < next.logBlock * blockSize := (Nat.div_lt_iff_lt_mul positive).mp starts
        have blank : replicate (min (min left (size - cur)) (next.logBlock * blockSize - cur)) 0 =
            (range' cur (min (min left (size - cur)) (next.logBlock * blockSize - cur))).map content :=
          holds.zeros (by omega) fun i less e mem => clear e mem _
            (Nat.div_le_div_right (Nat.le_add_right cur i))
            ((Nat.div_lt_iff_lt_mul positive).mpr (by omega))
        simp only [if_pos starts, blank]
        exact step _ (by omega) (by omega)

/-- A read of a non-empty buffer delivers the window of the content, and the end of the file exactly
when the window was cut. -/
theorem readMapped_eq (off : Nat) {len : Nat} (nonempty : 0 < len) :
    readMapped fetch blockSize size extents off len =
      (window content size off len, if size < off + len then some .eof else none) := by
  unfold readMapped
  split
  · rename_i past
    rw [window, if_pos (by omega), Nat.sub_eq_zero_of_le past, Nat.min_zero]
    rfl
  · exact readLoop_eq ready positive holds len off len (Nat.le_refl len) (by omega)

end

end

end Ext4.Volume
