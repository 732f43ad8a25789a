import Ext4.Volume.SpaceView
import Ext4.Volume.Extents

/-! Which blocks belong to which inode.
Every block that a live inode maps is marked used, no two live inodes share a block, and no inode
maps a block twice. The lemmas say how the changes of the view keep this. -/

namespace Ext4.Volume
open Octets Alloc Store List Function

def View.leaf (x : View) (child : Nat) : List Extent :=
  match x.block child with
  | .leaf extents => extents
  | _ => []

def View.extentsOf (x : View) : Mapping → List Extent
  | .inline extents => extents
  | .index child => x.leaf child
  | .none | .target _ => []

def Mapping.child : Mapping → List Nat
  | .index child => [child]
  | _ => []

def View.mappedBy (x : View) (mapping : Mapping) : List Nat :=
  mapping.child ++ blocksOf (x.extentsOf mapping)

def View.mapped (x : View) (i : Nat) : List Nat := x.mappedBy (x.inode i).mapping

structure View.Owned (x : View) : Prop where
  used : ∀ i, x.live i → ∀ b ∈ x.mapped i, x.used b
  once : ∀ i, x.live i → (x.mapped i).Nodup
  apart : ∀ i j, x.live i → x.live j → i ≠ j → (x.mapped i).Disjoint (x.mapped j)

def View.Unowned (x : View) (b : Nat) : Prop := ∀ i, x.live i → b ∉ x.mapped i

def View.without (x : View) (i : Nat) : View := { x with live := update x.live i false }

/-- Between the views blocks were taken, and written if at all only while they were free. -/
structure View.Leaks (x y : View) : Prop where
  inode : y.inode = x.inode
  live : y.live = x.live
  grown : ∀ b, x.used b → y.used b
  block : ∀ b, x.used b → y.block b = x.block b

structure View.Adds (x y : View) (b : Nat) (content : Block) : Prop where
  inode : y.inode = x.inode
  live : y.live = x.live
  block : y.block = update x.block b content
  grown : ∀ c, x.used c → y.used c
  marked : y.used b
  fresh : x.used b = false

variable {x y z : View} {i j b : Nat} {m : Mapping}

theorem View.extentsOf_congr (same : ∀ c ∈ m.child, y.block c = x.block c) :
    y.extentsOf m = x.extentsOf m := by
  cases m with
  | index child =>
    have here := same child (mem_singleton_self _)
    simp only [View.extentsOf, View.leaf, here]
  | none | target _ | inline _ => rfl

theorem View.mappedBy_congr (same : ∀ c ∈ m.child, y.block c = x.block c) :
    y.mappedBy m = x.mappedBy m := by
  rw [View.mappedBy, View.mappedBy, View.extentsOf_congr same]

theorem View.child_subset_mappedBy (x : View) (m : Mapping) : m.child ⊆ x.mappedBy m :=
  subset_append_left _ _

theorem View.Leaks.refl (x : View) : x.Leaks x := ⟨rfl, rfl, fun _ h => h, fun _ _ => rfl⟩

theorem View.Leaks.trans (first : x.Leaks y) (second : y.Leaks z) : x.Leaks z where
  inode := second.inode.trans first.inode
  live := second.live.trans first.live
  grown b inUse := second.grown b (first.grown b inUse)
  block b inUse := (second.block b (first.grown b inUse)).trans (first.block b inUse)

theorem View.Leaks.free (leaks : x.Leaks y) (free : y.used b = false) : x.used b = false := by
  by_contra inUse
  rw [leaks.grown b (Bool.eq_true_of_not_eq_false inUse)] at free
  cases free

theorem Mapping.nodup_child (m : Mapping) : m.child.Nodup := by
  cases m <;> simp [Mapping.child]

variable {blocks : List Nat} {content : Block}

theorem View.Takes.leaks (takes : x.Takes y blocks) : x.Leaks y :=
  ⟨takes.inode, takes.live, takes.grown, fun b _ => congrFun takes.block b⟩

theorem View.Adds.leaks (adds : x.Adds y b content) : x.Leaks y where
  inode := adds.inode
  live := adds.live
  grown := adds.grown
  block c inUse := by
    rw [adds.block, update_of_ne]
    rintro rfl
    rw [adds.fresh] at inUse
    cases inUse

theorem View.Takes.adds (takes : x.Takes y [b]) (content : Block) :
    x.Adds { y with block := update y.block b content } b content where
  inode := takes.inode
  live := takes.live
  block := congrArg (update · b content) takes.block
  grown := takes.grown
  marked := takes.marked b (mem_singleton_self b)
  fresh := takes.fresh b (mem_singleton_self b)

def View.Lays (x y : View) (m : Mapping) (extents : List Extent) : Prop :=
  (m = .inline extents ∧ y = x) ∨ ∃ c, m = .index c ∧ x.Adds y c (.leaf extents)

variable {extents : List Extent} {old : List Slot} {n : Inode}

theorem View.Lays.leaks (lays : x.Lays y m extents) : x.Leaks y := by
  obtain ⟨rfl, rfl⟩ | ⟨c, rfl, adds⟩ := lays
  · exact ⟨rfl, rfl, fun _ h => h, fun _ _ => rfl⟩
  · exact adds.leaks

theorem View.Lays.extentsOf (lays : x.Lays y m extents) : y.extentsOf m = extents := by
  obtain ⟨rfl, rfl⟩ | ⟨c, rfl, adds⟩ := lays
  · rfl
  · simp [View.extentsOf, View.leaf, adds.block]

theorem View.Lays.child (lays : x.Lays y m extents) : ∀ c ∈ m.child, x.used c = false ∧ y.used c := by
  obtain ⟨rfl, rfl⟩ | ⟨c, rfl, adds⟩ := lays
  · simp [Mapping.child]
  · intro d mem
    rw [mem_singleton.mp mem]
    exact ⟨adds.fresh, adds.marked⟩

theorem View.Owned.unowned (owned : x.Owned) (free : x.used b = false) : x.Unowned b := by
  intro i live mem
  rw [owned.used i live b mem] at free
  cases free

theorem View.Leaks.mappedBy (leaks : x.Leaks y)
    (used : ∀ b ∈ x.mappedBy m, x.used b) : y.mappedBy m = x.mappedBy m :=
  View.mappedBy_congr fun c mem =>
    leaks.block c (used c (x.child_subset_mappedBy m mem))

theorem View.Leaks.mapped (leaks : x.Leaks y) (owned : x.Owned) (live : x.live i) :
    y.mapped i = x.mapped i := by
  rw [View.mapped, leaks.inode]
  exact leaks.mappedBy (owned.used i live)

theorem View.Owned.congr (owned : x.Owned) (live : ∀ i, y.live i → x.live i)
    (mapped : ∀ i, y.live i → y.mapped i = x.mapped i)
    (used : ∀ i, y.live i → ∀ b ∈ x.mapped i, y.used b) : y.Owned where
  used i alive b mem := used i alive b (mapped i alive ▸ mem)
  once i alive := mapped i alive ▸ owned.once i (live i alive)
  apart i j alive alive' other := by
    rw [mapped i alive, mapped j alive']
    exact owned.apart i j (live i alive) (live j alive') other

theorem View.Owned.leaks (owned : x.Owned) (leaks : x.Leaks y) : y.Owned :=
  owned.congr (fun i alive => by rwa [leaks.live] at alive)
    (fun i alive => leaks.mapped owned (by rwa [leaks.live] at alive))
    fun i alive b mem =>
      leaks.grown b (owned.used i (by rwa [leaks.live] at alive) b mem)

theorem View.Unowned.leaks (unowned : x.Unowned b) (owned : x.Owned) (leaks : x.Leaks y) : y.Unowned b := by
  intro i alive mem
  rw [leaks.live] at alive
  rw [leaks.mapped owned alive] at mem
  exact unowned i alive mem

/-! ## Setting an inode aside -/

@[simp] theorem View.without_live_self (x : View) (i : Nat) : (x.without i).live i = false :=
  update_self ..

theorem View.without_live_of_ne (x : View) (other : j ≠ i) : (x.without i).live j = x.live j :=
  update_of_ne other ..

@[simp] theorem View.without_mapped (x : View) (i j : Nat) : (x.without i).mapped j = x.mapped j :=
  rfl

theorem View.live_of_without (alive : (x.without i).live j) : j ≠ i ∧ x.live j := by
  have other : j ≠ i := by
    rintro rfl
    simp at alive
  exact ⟨other, by rwa [x.without_live_of_ne other] at alive⟩

theorem View.Owned.without (owned : x.Owned) (i : Nat) : (x.without i).Owned :=
  owned.congr (fun _ alive => (View.live_of_without alive).2) (fun _ _ => rfl)
    fun j alive b mem => owned.used j (View.live_of_without alive).2 b mem

theorem View.Owned.unowned_without (owned : x.Owned) (alive : x.live i)
    (mem : b ∈ x.mapped i) : (x.without i).Unowned b := by
  intro j alive' mem'
  obtain ⟨other, alive'⟩ := View.live_of_without alive'
  exact owned.apart j i alive' alive other mem' mem

theorem View.Owned.admit (owned : (x.without i).Owned) (used : ∀ b ∈ x.mapped i, x.used b)
    (once : (x.mapped i).Nodup) (own : ∀ b ∈ x.mapped i, (x.without i).Unowned b) : x.Owned := by
  have others : ∀ j, j ≠ i → x.live j → (x.without i).live j := fun j other alive =>
    (x.without_live_of_ne other).trans alive
  constructor
  case used =>
    intro j alive
    by_cases same : j = i
    · exact same ▸ used
    · exact owned.used j (others j same alive)
  case once =>
    intro j alive
    by_cases same : j = i
    · exact same ▸ once
    · exact owned.once j (others j same alive)
  case apart =>
    intro j k alive alive' different
    by_cases first : j = i
    · subst first
      intro b mem mem'
      exact own b mem k (others k (Ne.symm different) alive') mem'
    · by_cases second : k = i
      · subst second
        intro b mem mem'
        exact own b mem' j (others j first alive) mem
      · exact owned.apart j k (others j first alive) (others k second alive') different

theorem View.Leaks.without (leaks : x.Leaks y) (i : Nat) : (x.without i).Leaks (y.without i) :=
  ⟨leaks.inode, by rw [View.without, View.without, leaks.live], leaks.grown, leaks.block⟩

/-! ## The other changes -/

theorem View.Releases.mapped (releases : x.Releases y blocks) (i : Nat) : y.mapped i = x.mapped i := by
  rw [View.mapped, releases.inode]
  exact View.mappedBy_congr fun c _ => congrFun releases.block c

theorem View.Owned.releases (owned : x.Owned) (releases : x.Releases y blocks)
    (unowned : ∀ b ∈ blocks, x.Unowned b) : y.Owned := by
  refine owned.congr (fun j alive => by rwa [releases.live] at alive)
    (fun j _ => releases.mapped j) ?_
  intro j alive b mem
  rw [releases.live] at alive
  exact releases.kept b (owned.used j alive b mem) fun freed => unowned b freed j alive mem

theorem View.Releases.without (releases : x.Releases y blocks) (i : Nat) :
    (x.without i).Releases (y.without i) blocks :=
  ⟨releases.inode, releases.block, by rw [View.without, View.without, releases.live], releases.kept⟩

theorem View.Releases.trans {first second : List Nat} (one : x.Releases y first)
    (two : y.Releases z second) : x.Releases z (first ++ second) where
  inode := two.inode.trans one.inode
  block := two.block.trans one.block
  live := two.live.trans one.live
  kept b inUse absent := by
    rw [mem_append, not_or] at absent
    exact two.kept b (one.kept b inUse absent.1) absent.2

theorem View.mapped_writeBlock (noLeaf : ∀ i, x.live i → b ∉ (x.inode i).mapping.child)
    (alive : x.live j) : ({ x with block := update x.block b content } : View).mapped j = x.mapped j := by
  refine View.mappedBy_congr fun c mem => update_of_ne ?_ ..
  rintro rfl
  exact noLeaf j alive mem

theorem View.Owned.writeBlock (owned : x.Owned) (content : Block)
    (noLeaf : ∀ i, x.live i → b ∉ (x.inode i).mapping.child) :
    ({ x with block := update x.block b content } : View).Owned :=
  owned.congr (fun _ alive => alive) (fun _ alive => View.mapped_writeBlock noLeaf alive)
    fun j alive c mem => owned.used j alive c mem

theorem View.Unowned.child (unowned : x.Unowned b) (alive : x.live i) :
    b ∉ (x.inode i).mapping.child := fun mem =>
  unowned i alive (x.child_subset_mappedBy _ mem)

theorem View.mappedBy_slots {new : List Slot} (was : x.block b = .slots old) (m : Mapping) :
    ({ x with block := update x.block b (.slots new) } : View).mappedBy m =
      x.mappedBy m := by
  cases m with
  | index child =>
    have leaf : View.leaf { x with block := update x.block b (.slots new) } child =
        x.leaf child := by
      by_cases same : child = b
      · subst same
        simp [View.leaf, was]
      · simp [View.leaf, update_of_ne same]
    simp only [View.mappedBy, View.extentsOf, leaf]
  | none | target _ | inline _ => rfl

theorem View.Owned.writeSlots (owned : x.Owned) (was : x.block b = .slots old)
    (new : List Slot) : ({ x with block := update x.block b (.slots new) } : View).Owned :=
  owned.congr (fun _ alive => alive) (fun _ _ => View.mappedBy_slots was _)
    fun j alive c mem => owned.used j alive c mem

theorem View.Owned.writeInode (owned : x.Owned) (mapping : x.live i → n.mapping = (x.inode i).mapping) :
    ({ x with inode := update x.inode i n } : View).Owned := by
  refine owned.congr (fun _ alive => alive) (fun j alive => ?_) fun j alive b mem => owned.used j alive b mem
  by_cases same : j = i
  · subst same
    simp only [View.mapped, update_self, mapping alive]
    rfl
  · simp only [View.mapped, update_of_ne same]
    rfl

theorem View.Unowned.without (unowned : x.Unowned b) (i : Nat) : (x.without i).Unowned b :=
  fun j alive => unowned j (View.live_of_without alive).2

/-- An inode that was set aside is rewritten, with used blocks that no other inode maps. -/
theorem View.Owned.remap (owned : (x.without i).Owned) (leaks : x.Leaks y)
    (used : ∀ b ∈ y.mappedBy n.mapping, y.used b) (once : (y.mappedBy n.mapping).Nodup)
    (own : ∀ b ∈ y.mappedBy n.mapping, (x.without i).Unowned b) :
    ({ y with inode := update y.inode i n } : View).Owned := by
  have others : ∀ j, j ≠ i →
      ({ y with inode := update y.inode i n } : View).mapped j = y.mapped j := by
    intro j other
    simp only [View.mapped, update_of_ne other]
    rfl
  have mapped : ({ y with inode := update y.inode i n } : View).mapped i =
      y.mappedBy n.mapping := by
    simp only [View.mapped, update_self]
    rfl
  have aside : (y.without i).Owned := owned.leaks (leaks.without i)
  have aside' : (View.without { y with inode := update y.inode i n } i).Owned :=
    aside.congr (fun _ alive => alive) (fun j alive => others j (View.live_of_without alive).1)
      fun j alive b mem => aside.used j alive b mem
  refine aside'.admit (mapped ▸ used) (mapped ▸ once) ?_
  intro b mem j alive mem'
  rw [mapped] at mem
  rw [View.without_mapped, others j (View.live_of_without alive).1] at mem'
  exact (own b mem).leaks owned (leaks.without i) j alive mem'

end Ext4.Volume
