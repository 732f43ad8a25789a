import Ext4.Library.Overlay
import Ext4.Volume.ExtentMap

/-! The content of an open file.
A file carries a content when its extents map every octet of it and all else they map is zero;
that goes for the octets behind the end of the file too, so growing it reveals nothing. -/

namespace Ext4.Volume
open Octets Alloc Store Overlay List Function

def View.octetAt (x : View) (v : Shape) (extents : List Extent) (p : Nat) : UInt8 :=
  match locate extents (p / v.blockSize) with
  | none => 0
  | some b => (x.block b).octet (p % v.blockSize)

/-- The extents hold the content, in blocks that are used and inside the filesystem; `child` is the
leaf block, if there is one. -/
structure View.Carries (x : View) (v : Shape) (count : Nat) (child : List Nat)
    (extents : List Extent) (content : Disk) : Prop where
  /-- No block past the end of the filesystem can be allocated. -/
  padded : ∀ b, count ≤ b → x.used b
  laid : Laid extents
  used : ∀ b ∈ child ++ blocksOf extents, x.used b
  inside : ∀ b ∈ child ++ blocksOf extents, b < count
  apart : child.Disjoint (blocksOf extents)
  data : ∀ b ∈ blocksOf extents, ∃ octets, x.block b = .data octets ∧ octets.length ≤ v.blockSize
  holds : ∀ p, x.octetAt v extents p = content p

variable {v : Shape} {s t : FS} {x y : View} {count : Nat} {child missing blocks : List Nat}
  {extents : List Extent} {content : Disk} {b lb : Nat}

theorem View.octetAt_congr (same : ∀ b ∈ blocksOf extents, y.block b = x.block b)
    (p : Nat) : y.octetAt v extents p = x.octetAt v extents p := by
  unfold View.octetAt
  cases located : locate extents (p / v.blockSize) with
  | none => rfl
  | some b =>
    dsimp only
    rw [same b (locate_mem located)]

/-! ## What leaves the content alone -/

section
variable (carries : x.Carries v count child extents content)
include carries

theorem View.Carries.keeps (grown : ∀ b, x.used b → y.used b)
    (same : ∀ b ∈ blocksOf extents, y.block b = x.block b) : y.Carries v count child extents content where
  padded b past := grown b (carries.padded b past)
  laid := carries.laid
  used b mem := grown b (carries.used b mem)
  inside := carries.inside
  apart := carries.apart
  data b mem := by
    rw [same b mem]
    exact carries.data b mem
  holds p := (View.octetAt_congr same p).trans (carries.holds p)

theorem View.Carries.leaks (leaks : x.Leaks y) : y.Carries v count child extents content :=
  carries.keeps leaks.grown fun b mem =>
    leaks.block b (carries.used b (mem_append_right _ mem))

theorem View.Carries.relabel {other : List Nat} (used : ∀ b ∈ other, x.used b)
    (inside : ∀ b ∈ other, b < count)
    (apart : other.Disjoint (blocksOf extents)) : x.Carries v count other extents content where
  padded := carries.padded
  laid := carries.laid
  used b mem := (mem_append.mp mem).elim (used b) fun inRuns =>
    carries.used b (mem_append_right _ inRuns)
  inside b mem := (mem_append.mp mem).elim (inside b) fun inRuns =>
    carries.inside b (mem_append_right _ inRuns)
  apart := apart
  data := carries.data
  holds := carries.holds

theorem View.Carries.of_free (free : x.used b = false) : b < count ∧ b ∉ child ++ blocksOf extents := by
  constructor
  · by_contra past
    rw [carries.padded b (Nat.le_of_not_lt past)] at free
    cases free
  · intro mem
    rw [carries.used b mem] at free
    cases free

theorem View.Carries.lays {m : Mapping} {listed : List Extent} (lays : x.Lays y m listed) :
    y.Carries v count m.child extents content := by
  refine (carries.leaks lays.leaks).relabel ?_ ?_ ?_
  · exact fun b mem => (lays.child b mem).2
  · exact fun b mem => (carries.of_free (lays.child b mem).1).1
  · intro b mem inRuns
    exact (carries.of_free (lays.child b mem).1).2 (mem_append_right _ inRuns)

theorem View.Carries.releases {freed : List Nat} (releases : x.Releases y freed)
    (inside : ∀ b ∈ freed, b < count) (apart : freed.Disjoint (child ++ blocksOf extents)) :
    y.Carries v count child extents content where
  padded b past := releases.kept b (carries.padded b past) fun gone =>
    absurd (inside b gone) (Nat.not_lt.mpr past)
  laid := carries.laid
  used b mem := releases.kept b (carries.used b mem) fun gone => apart gone mem
  inside := carries.inside
  apart := carries.apart
  data b mem := by
    rw [releases.block]
    exact carries.data b mem
  holds p := by
    rw [← carries.holds p]
    exact View.octetAt_congr (fun b _ => congrFun releases.block b) p

end

/-! ## Writing inside a block -/

theorem splice_data (at_ : Nat) (octets : Bytes) (block : Block) (fits : at_ + octets.length ≤ v.blockSize)
    (short : ∀ old, block = .data old → old.length ≤ v.blockSize) :
    ∃ new, splice v at_ octets block = .data new ∧ new.length = v.blockSize := by
  refine ⟨_, rfl, ?_⟩
  have length : ∀ old : Bytes, old.length ≤ v.blockSize →
      ((old ++ replicate (v.blockSize - old.length) 0).take at_ ++ octets ++
        (old ++ replicate (v.blockSize - old.length) 0).drop (at_ + octets.length)).length =
        v.blockSize := by
    intro old bound
    simp only [length_append, length_take, length_drop, length_replicate]
    omega
  cases block with
  | data old => exact length old (short old rfl)
  | target _ | slots _ | leaf _ => exact length [] (Nat.zero_le _)

theorem getD_pad (old : Bytes) (n i : Nat) : (old ++ replicate n 0)[i]?.getD 0 = old[i]?.getD 0 := by
  rcases Nat.lt_or_ge i old.length with inside | past
  · rw [getElem?_append_left inside]
  · rw [getElem?_append_right past, getElem?_eq_none past, getElem?_replicate]
    split <;> rfl

theorem octet_splice (at_ : Nat) (octets old : Bytes) (short : at_ + octets.length ≤ v.blockSize)
    (i : Nat) : (splice v at_ octets (.data old)).octet i =
      if at_ ≤ i ∧ i < at_ + octets.length then octets[i - at_]?.getD 0 else old[i]?.getD 0 := by
  unfold splice Block.octet
  dsimp only
  set padded := old ++ replicate (v.blockSize - old.length) 0 with whole
  have long : v.blockSize ≤ padded.length := by
    rw [whole, length_append, length_replicate]
    omega
  have front : (padded.take at_).length = at_ := by
    rw [length_take]
    omega
  split
  next inside =>
    rw [append_assoc, getElem?_append_right (by omega), front, getElem?_append_left (by omega)]
  next outside =>
    rw [← getD_pad old (v.blockSize - old.length) i, ← whole]
    rcases Nat.lt_or_ge i at_ with before | after
    · rw [append_assoc, getElem?_append_left (by omega), getElem?_take_of_lt before]
    · rw [getElem?_append_right (by rw [length_append]; omega), length_append, front,
        getElem?_drop, Nat.add_sub_cancel' (by omega)]

theorem FS.writeInBlock_spec (closed : s.tx = none) (b at_ : Nat) (octets : Bytes) :
    view v (s.writeInBlock v b at_ octets).now = { view v s.now with
        block := update (view v s.now).block b (splice v at_ octets ((view v s.now).block b)) } ∧
      Frame s (s.writeInBlock v b at_ octets) := by
  refine ⟨?_, Frame.write_other (by rw [closed]; rfl : s.tx.isSome = false) _ (by simp)⟩
  rw [writeInBlock, direct_now s _ closed, view_block, now_of_none s closed]
  rfl

theorem View.Carries.splice (carries : x.Carries v count child extents content) (places : Places extents lb b)
    {at_ : Nat} {octets : Bytes} (fits : at_ + octets.length ≤ v.blockSize) (positive : 0 < v.blockSize) :
    ({ x with block := update x.block b (splice v at_ octets (x.block b)) } : View).Carries v
      count child extents (content.writeAt (lb * v.blockSize + at_) octets) where
  padded := carries.padded
  laid := carries.laid
  used := carries.used
  inside := carries.inside
  apart := carries.apart
  data c mem := by
    dsimp only
    by_cases same : c = b
    · subst same
      rw [update_self]
      obtain ⟨old, was, short⟩ := carries.data c mem
      obtain ⟨new, is, length⟩ := splice_data at_ octets (x.block c) fits fun other also => by
        rw [was] at also
        cases also
        exact short
      exact ⟨new, is, Nat.le_of_eq length⟩
    · rw [update_of_ne same]
      exact carries.data c mem
  holds p := by
    obtain ⟨old, was, short⟩ := carries.data b places.mem
    have before := carries.holds p
    have divided := Nat.div_add_mod' p v.blockSize
    have modest := Nat.mod_lt p positive
    unfold View.octetAt at before ⊢
    by_cases here : p / v.blockSize = lb
    · rw [here, carries.laid.locate_iff.mpr places] at before ⊢
      dsimp only at before ⊢
      rw [update_self, was, octet_splice at_ octets old fits]
      rw [was, Block.octet] at before
      rw [here] at divided
      split
      next inside =>
        obtain ⟨i, offset⟩ := Nat.exists_eq_add_of_le inside.1
        have position : p = lb * v.blockSize + at_ + i := by omega
        rw [offset, Nat.add_sub_cancel_left, position, Disk.writeAt_inside _ _ _ _ (by omega),
          getElem?_eq_getElem (by omega)]
        rfl
      next outside =>
        rw [Disk.writeAt_outside _ _ _ _ (by omega), before]
    · -- another logical block is another physical one
      have elsewhere : content.writeAt (lb * v.blockSize + at_) octets p = content p := by
        apply Disk.writeAt_outside
        rcases Nat.lt_or_gt_of_ne here with less | more
        · have := Nat.mul_le_mul_right v.blockSize less
          rw [Nat.succ_mul] at this
          omega
        · have := Nat.mul_le_mul_right v.blockSize more
          rw [Nat.succ_mul] at this
          omega
      rw [elsewhere, ← before]
      cases located : locate extents (p / v.blockSize) with
      | none => rfl
      | some c =>
        dsimp only
        have other : c ≠ b := by
          rintro rfl
          exact here (Places.injective carries.laid.once (carries.laid.locate_iff.mp located) places)
        rw [update_of_ne other]

/-! ## New blocks -/

theorem FS.writeBlocks_content {α : Type} (number : α → Nat) (written : α → Block) (items : List α)
    (distinct : (items.map number).Nodup) (s : FS) (a : α) (mem : a ∈ items) :
    (view v (items.foldl (fun s a => s.writeBlock (number a) (written a)) s).now).block (number a) =
      written a := by
  induction items generalizing s with
  | nil => cases mem
  | cons first rest ih =>
    obtain ⟨absent, distinct⟩ := nodup_cons.mp distinct
    rw [foldl_cons]
    rcases mem_cons.mp mem with rfl | later
    · obtain ⟨shown, _⟩ := writeBlock_spec (number a) (written a)
      obtain ⟨fills, _⟩ := writeBlocks_spec number written rest
        (s.writeBlock (number a) (written a))
      rw [fills.block _ absent, shown]
      exact update_self ..
    · exact ih distinct _ later

theorem View.Carries.merges (carries : x.Carries v count child extents content)
    (takes : x.Takes y blocks) (long : blocks.length = missing.length) (distinct : missing.Nodup)
    (narrow : ∀ b ∈ missing, b < 2 ^ 32) (holes : ∀ b ∈ missing, locate extents b = none) :
    Laid (coalesceExtents (extents ++ singles missing blocks)) ∧
      (∀ b phys, Places (coalesceExtents (extents ++ singles missing blocks)) b phys ↔
        Places extents b phys ∨ Places (singles missing blocks) b phys) ∧
      (blocksOf (coalesceExtents (extents ++ singles missing blocks))).Perm (blocksOf extents ++ blocks) := by
  have runs : blocksOf (extents ++ singles missing blocks) = blocksOf extents ++ blocks := by
    rw [blocksOf_append, blocksOf_singles long]
  have once : (blocksOf (extents ++ singles missing blocks)).Nodup := by
    rw [runs, nodup_append']
    refine ⟨carries.laid.once, takes.once, fun b old new => ?_⟩
    exact (carries.of_free (takes.fresh b new)).2 (mem_append_right _ old)
  have full : ∀ e ∈ extents ++ singles missing blocks, 0 < e.count := by
    intro e mem
    rcases mem_append.mp mem with old | new
    · exact carries.laid.full e old
    · rw [(mem_singles new).1]
      exact Nat.one_pos
  obtain ⟨laid, places, perm⟩ := coalesceExtents_spec
    (apart_singles carries.laid distinct narrow holes) full once
  exact ⟨laid, fun b phys => (places b phys).trans Places.append, runs ▸ perm⟩

theorem View.Carries.fill {z : View}
    (carries : x.Carries v count child extents content) (takes : x.Takes y blocks) (fills : y.Fills z blocks)
    (zero : ∀ b ∈ blocks, z.block b = .data (replicate v.blockSize 0))
    (long : blocks.length = missing.length) (distinct : missing.Nodup) (narrow : ∀ b ∈ missing, b < 2 ^ 32)
    (holes : ∀ b ∈ missing, locate extents b = none) :
    z.Carries v count child (coalesceExtents (extents ++ singles missing blocks)) content := by
  obtain ⟨laid, places, perm⟩ := carries.merges takes long distinct narrow holes
  have carries' := carries.leaks (takes.fills_leaks fills)
  have fresh : ∀ b ∈ blocks, b < count ∧ b ∉ child ++ blocksOf extents := fun b mem =>
    carries.of_free (takes.fresh b mem)
  have mem_runs : ∀ {b}, b ∈ blocksOf (coalesceExtents (extents ++ singles missing blocks)) →
      b ∈ blocksOf extents ∨ b ∈ blocks := fun mem =>
    mem_append.mp (perm.mem_iff.mp mem)
  constructor
  case padded => exact carries'.padded
  case laid => exact laid
  case used =>
    intro b mem
    rcases mem_append.mp mem with leaf | mem
    · exact carries'.used b (mem_append_left _ leaf)
    · rcases mem_runs mem with old | new
      · exact carries'.used b (mem_append_right _ old)
      · rw [fills.used]
        exact takes.marked b new
  case inside =>
    intro b mem
    rcases mem_append.mp mem with leaf | mem
    · exact carries'.inside b (mem_append_left _ leaf)
    · rcases mem_runs mem with old | new
      · exact carries'.inside b (mem_append_right _ old)
      · exact (fresh b new).1
  case apart =>
    intro b leaf mem
    rcases mem_runs mem with old | new
    · exact carries.apart leaf old
    · exact (fresh b new).2 (mem_append_left _ leaf)
  case data =>
    intro b mem
    rcases mem_runs mem with old | new
    · exact carries'.data b old
    · exact ⟨_, zero b new, by simp⟩
  case holds =>
    intro p
    rw [← carries'.holds p]
    unfold View.octetAt
    cases located : locate extents (p / v.blockSize) with
    | some b =>
      have old := carries.laid.locate_iff.mp located
      rw [laid.locate_iff.mpr ((places _ _).mpr (.inl old))]
    | none =>
      -- A hole, or one of the new blocks of zeros.
      cases located' : locate (coalesceExtents (extents ++ singles missing blocks))
          (p / v.blockSize) with
      | none => rfl
      | some b =>
        rcases (places _ _).mp (laid.locate_iff.mp located') with old | new
        · rw [carries.laid.locate_iff.mpr old] at located
          cases located
        · have mem : b ∈ blocks := by
            rw [← blocksOf_singles long]
            exact new.mem
          dsimp only
          rw [zero b mem, Block.octet, getElem?_replicate]
          split <;> rfl

end Ext4.Volume
