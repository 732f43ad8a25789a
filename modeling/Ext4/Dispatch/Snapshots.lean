import Mathlib.Algebra.Group.Nat.Defs
import Mathlib.Data.List.Infix
import Mathlib.Data.List.Perm.Basic
import Mathlib.Data.List.TakeDrop
import Mathlib.Logic.Function.Basic
import Ext4.Library.Machine

/-! The snapshots of the superblock.
Every call that changes a free count encodes the counters into the shared buffer `sb.raw`, copies the
buffer and hands the copy to a worker: `allocBlocks`, `allocInode` and `freeBlock` to the worker of
their group and with the encoding under the lock of the superblock's block, `freeInodeSlot` to the
worker of group 0 and with only the copy under that lock. The workers are not ordered. -/

namespace Ext4.Dispatch.Snapshots
open List Function

structure Counters where
  freeBlocks : Nat
  freeInodes : Nat
  deriving DecidableEq, Repr

inductive Field where
  | blocksLo
  | blocksHi
  | inodes
  deriving DecidableEq, Repr

inductive Counter where
  | blocks
  | inodes
  deriving DecidableEq, Repr

def Field.counter : Field → Counter
  | .blocksLo | .blocksHi => .blocks
  | .inodes => .inodes

def Counters.get (c : Counters) : Counter → Nat
  | .blocks => c.freeBlocks
  | .inodes => c.freeInodes

def Field.word (f : Field) (value : Nat) : Nat :=
  match f with
  | .blocksLo | .inodes => value % 2 ^ 32
  | .blocksHi => value / 2 ^ 32

def decode (words : Field → Nat) : Counters :=
  ⟨words .blocksHi * 2 ^ 32 + words .blocksLo, words .inodes⟩

structure Counters.Fits (c : Counters) : Prop where
  freeBlocks : c.freeBlocks < 2 ^ 64
  freeInodes : c.freeInodes < 2 ^ 32

inductive Lock where
  /-- `lockBGDGroup` of the group of the call. -/
  | group
  /-- `lockBGDTableBlock` of the block of the superblock. -/
  | super
  deriving DecidableEq, Repr

/-- What a call does with counters, buffer and locks, statement by statement. -/
inductive Micro where
  | acquire (lock : Lock)
  | release (lock : Lock)
  /-- `atomic.AddUint64` or `atomic.AddUint32` on the counter. -/
  | change
  /-- The atomic load of `encodeRaw`. -/
  | load (counter : Counter)
  | store (f : Field)
  /-- `writeSuperblock` reads the counter of a word. -/
  | take (f : Field)
  /-- It sets the word of the buffer to what it has read. -/
  | fill (f : Field)
  | copy
  /-- `enqueueCommitWritesUnderLock`. -/
  | enqueue
  /-- The answer of the worker. -/
  | wait
  deriving DecidableEq, Repr

inductive Kind where
  | allocBlocks (n : Nat)
  | allocInode
  | freeBlock
  | freeInodeSlot
  deriving DecidableEq, Repr

/-- `encodeRaw` and the copy under the lock, the enqueueing under that of the group. -/
def encodeCode : List Micro :=
  [.acquire .group, .change, .acquire .super, .load .blocks, .store .blocksLo, .store .blocksHi,
    .load .inodes, .store .inodes, .copy, .release .super, .enqueue, .release .group, .wait]

/-- `freeInodeSlot` from the counter on; bitmap and descriptor are written by then. -/
def writeSuperblockCode : List Micro :=
  [.change, .take .blocksLo, .fill .blocksLo, .take .blocksHi, .fill .blocksHi, .take .inodes, .fill .inodes,
    .acquire .super, .copy, .enqueue, .release .super, .wait]

def Kind.code : Kind → List Micro
  | .freeInodeSlot => writeSuperblockCode
  | _ => encodeCode

def minus (width n x : Nat) : Nat := (x + 2 ^ width - n % 2 ^ width) % 2 ^ width

def plus (width n x : Nat) : Nat := (x + n) % 2 ^ width

def Kind.change (c : Counters) : Kind → Counters
  | .allocBlocks n => { c with freeBlocks := minus 64 n c.freeBlocks }
  | .allocInode => { c with freeInodes := minus 32 1 c.freeInodes }
  | .freeBlock => { c with freeBlocks := plus 64 1 c.freeBlocks }
  | .freeInodeSlot => { c with freeInodes := plus 32 1 c.freeInodes }

structure Call where
  kind : Kind
  group : Nat
  /-- What is left to do. -/
  code : List Micro
  loaded : Counter → Nat
  taken : Nat
  /-- The number of its copy. -/
  copied : Nat
  acked : Bool

def Call.worker (call : Call) : Nat :=
  match call.kind with
  | .freeInodeSlot => 0
  | _ => call.group

def Call.none : Call := ⟨.freeBlock, 0, [], fun _ => 0, 0, 0, false⟩

/-- A batch in the hands of the dispatcher: the call that waits for it and the number of the copy. -/
structure Batch where
  party : Nat
  copied : Nat
  deriving DecidableEq, Repr

structure State where
  memory : Counters
  /-- `sb.raw`. -/
  raw : Field → Nat
  disk : Field → Nat
  /-- The copies of the buffer, in the order in which they were made. -/
  copies : List (Field → Nat)
  /-- One more than the highest number of a copy that has been written. -/
  written : Nat
  queue : Nat → List Batch
  detached : List Batch
  superLock : Option Nat
  groupLock : Nat → Option Nat
  call : Nat → Call

def queueCapacity : Nat := 1024

def started (memory : Counters) (words : Field → Nat) : State :=
  ⟨memory, words, words, [], 0, fun _ => [], [], .none, fun _ => .none, fun _ => .none⟩

inductive Action where
  | begin_ (p : Nat) (kind : Kind) (group : Nat)
  | next (p : Nat)
  /-- The worker of a group writes the superblock of its first batch. -/
  | work (g : Nat)
  | detachedWrite (i : Nat)

def State.setCall (s : State) (p : Nat) (call : Call) : State :=
  { s with call := update s.call p call }

def State.perform (s : State) (p : Nat) (micro : Micro) (rest : List Micro) : Option State :=
  let call := { s.call p with code := rest }
  match micro with
  | .acquire .super =>
      if s.superLock = none then some { s.setCall p call with superLock := some p } else none
  | .acquire .group =>
      if s.groupLock call.group = none then
        some { s.setCall p call with groupLock := update s.groupLock call.group (some p) }
      else none
  | .release .super => some { s.setCall p call with superLock := none }
  | .release .group =>
      some { s.setCall p call with groupLock := update s.groupLock call.group none }
  | .change => some { s.setCall p call with memory := call.kind.change s.memory }
  | .load c => some (s.setCall p { call with
      loaded := update call.loaded c (s.memory.get c) })
  | .store f => some { s.setCall p call with
      raw := update s.raw f (f.word (call.loaded f.counter)) }
  | .take f => some (s.setCall p { call with taken := s.memory.get f.counter })
  | .fill f => some { s.setCall p call with raw := update s.raw f (f.word call.taken) }
  | .copy => some { s.setCall p { call with copied := s.copies.length } with
      copies := s.copies ++ [s.raw] }
  | .enqueue =>
      let batch : Batch := ⟨p, call.copied⟩
      if (s.queue call.worker).length < queueCapacity then
        some { s.setCall p call with
          queue := update s.queue call.worker (s.queue call.worker ++ [batch]) }
      else some { s.setCall p call with detached := s.detached ++ [batch] }
  | .wait => if call.acked then some (s.setCall p call) else none

def State.writeBatch (s : State) (batch : Batch) : State :=
  { s.setCall batch.party { s.call batch.party with acked := true } with
    disk := (s.copies[batch.copied]?).getD s.disk
    written := max s.written (batch.copied + 1) }

def step : Action → State → Option State
  | .begin_ p kind group, s =>
      if (s.call p).code = [] then
        some (s.setCall p ⟨kind, group, kind.code, fun _ => 0, 0, 0, false⟩)
      else none
  | .next p, s =>
      match (s.call p).code with
      | [] => none
      | micro :: rest => s.perform p micro rest
  | .work g, s =>
      match s.queue g with
      | [] => none
      | batch :: rest =>
          some { s.writeBatch batch with queue := update s.queue g rest }
  | .detachedWrite i, s =>
      (s.detached[i]?).map fun batch =>
        { s.writeBatch batch with detached := s.detached.eraseIdx i }

def State.AtRest (s : State) : Prop :=
  (∀ p, (s.call p).code = []) ∧ (∀ g, s.queue g = []) ∧ s.detached = []

/-- Copies are written in the order in which they were made. `writeSuperblock` sets no word of the
buffer while another call is inside `encodeRaw`, or when the counter is no longer what it has read. -/
def Action.InTurn (action : Action) (s : State) : Prop :=
  match action with
  | .begin_ _ _ _ => True
  | .next p =>
      match (s.call p).code with
      | .fill f :: _ => s.superLock = none ∧ (s.call p).taken = s.memory.get f.counter
      | _ => True
  | .work g => ∀ batch ∈ (s.queue g).head?, s.written ≤ batch.copied
  | .detachedWrite i => ∀ batch ∈ s.detached[i]?, s.written ≤ batch.copied

instance (action : Action) (s : State) : Decidable (action.InTurn s) := by
  unfold Action.InTurn
  cases action <;> dsimp only <;> try infer_instance
  split <;> infer_instance

/-! ## What is left of a call -/

section
variable (code : List Micro) (f : Field)

abbrev Fresh : Prop := .fill f ∈ code ∨ .load f.counter ∈ code

abbrev Stores : Prop := .fill f ∈ code ∨ .store f ∈ code

abbrev Between : Prop := .store f ∈ code ∧ .load f.counter ∉ code

abbrev Holds : Prop := .release .super ∈ code ∧ .acquire .super ∉ code

abbrev Carries : Prop := .enqueue ∈ code ∧ .copy ∉ code

def Sane : Prop :=
  (Fresh code f → Stores code f) ∧ (Stores code f → .copy ∈ code) ∧
    (Between code f → Holds code ∧ ¬ Fresh code f)

def SaneHead : List Micro → Prop
  | .change :: rest => Fresh rest f
  | .load counter :: rest => Holds (.load counter :: rest)
  | .store g :: rest => .load g.counter ∉ rest
  | .copy :: rest => ¬ Stores rest f ∧ Carries rest
  | .enqueue :: rest => .copy ∉ rest ∧ .enqueue ∉ rest
  | .release .super :: rest => .release .super ∉ rest ∧ .acquire .super ∉ rest
  | _ => True

instance : Decidable (Sane code f) := by unfold Sane; infer_instance

instance : Decidable (SaneHead f code) := by unfold SaneHead; split <;> infer_instance

end

variable {code rest : List Micro} {f : Field} {kind : Kind}

theorem sane_of_suffix (suffix : code <:+ kind.code) : Sane code f ∧ SaneHead f code := by
  have all : ∀ whole ∈ [encodeCode, writeSuperblockCode], ∀ f ∈ [Field.blocksLo, .blocksHi, .inodes],
      ∀ code ∈ whole.tails, Sane code f ∧ SaneHead f code := by decide
  refine all kind.code ?_ f ?_ code ((mem_tails _ _).mpr suffix)
  · cases kind <;> simp [Kind.code]
  · cases f <;> simp

theorem Kind.code_begins (kind : Kind) :
    ¬ Holds kind.code ∧ (∀ f, ¬ Between kind.code f) ∧ ¬ Carries kind.code := by
  have all : ∀ whole ∈ [encodeCode, writeSuperblockCode], ¬ Holds whole ∧
      (∀ f ∈ [Field.blocksLo, .blocksHi, .inodes], ¬ Between whole f) ∧ ¬ Carries whole := by decide
  obtain ⟨holds, between, carries⟩ := all kind.code (by cases kind <;> simp [Kind.code])
  exact ⟨holds, fun f => between f (by cases f <;> simp), carries⟩

/-! ## The buffer and the last copy -/

def State.word (s : State) (f : Field) : Nat := f.word (s.memory.get f.counter)

def State.last (first : Field → Nat) (s : State) : Field → Nat := s.copies.getLast?.getD first

structure Inv (first : Field → Nat) (s : State) : Prop where
  fits : s.memory.Fits
  suffix : ∀ p, (s.call p).code <:+ (s.call p).kind.code
  lock : ∀ p, Holds (s.call p).code → s.superLock = some p
  /-- What a call has loaded is the value of now, or another call will come with it. -/
  loaded : ∀ p f, Between (s.call p).code f →
    f.word ((s.call p).loaded f.counter) = s.word f ∨ ∃ q, Fresh (s.call q).code f
  raw : ∀ f, s.raw f = s.word f ∨ ∃ q, Stores (s.call q).code f
  last : ∀ f, s.last first f = s.word f ∨ ∃ q, .copy ∈ (s.call q).code

variable {s t : State} {p q : Nat} {micro : Micro} {first : Field → Nat} {c : Call} {P : List Micro → Prop}
  {action : Action}

theorem exists_update (kept : P (s.call p).code → P c.code)
    (found : ∃ q, P (s.call q).code) : ∃ q, P (update s.call p c q).code := by
  obtain ⟨q, holds⟩ := found
  by_cases here : q = p
  · subst here
    exact ⟨q, by rw [update_self]; exact kept holds⟩
  · exact ⟨q, by rwa [update_of_ne here]⟩

theorem exists_here (holds : P c.code) : ∃ q, P (update s.call p c q).code :=
  ⟨p, by rwa [update_self]⟩

theorem exists_other (other : ¬ P (s.call p).code)
    (found : ∃ q, P (s.call q).code) : ∃ q, P (update s.call p c q).code :=
  exists_update (fun here => absurd here other) found

theorem forall_update {P : Nat → Call → Prop} (here : P p c) (others : ∀ q, q ≠ p → P q (s.call q)) :
    ∀ q, P q (update s.call p c q) := by
  intro q
  by_cases same : q = p
  · subst same
    rwa [update_self]
  · rw [update_of_ne same]
    exact others q same

theorem Inv.sane (inv : Inv first s) (p : Nat) (f : Field) :
    Sane (s.call p).code f ∧ SaneHead f (s.call p).code :=
  sane_of_suffix (inv.suffix p)

theorem Inv.alone (inv : Inv first s) (between : Between (s.call q).code f) : s.superLock = some q :=
  inv.lock q ((inv.sane q f).1.2.2 between).1

theorem minus_lt (width n x : Nat) : minus width n x < 2 ^ width := Nat.mod_lt _ (Nat.two_pow_pos width)

theorem plus_lt (width n x : Nat) : plus width n x < 2 ^ width := Nat.mod_lt _ (Nat.two_pow_pos width)

theorem Kind.change_fits (kind : Kind) {c : Counters} (fits : c.Fits) : (kind.change c).Fits := by
  cases kind <;> rw [Kind.change]
  case allocBlocks n => exact ⟨minus_lt 64 n c.freeBlocks, fits.freeInodes⟩
  case allocInode => exact ⟨fits.freeBlocks, minus_lt 32 1 c.freeInodes⟩
  case freeBlock => exact ⟨plus_lt 64 1 c.freeBlocks, fits.freeInodes⟩
  case freeInodeSlot => exact ⟨fits.freeBlocks, plus_lt 32 1 c.freeInodes⟩

def Micro.plain : Micro → Bool
  | .acquire _ | .release _ | .take _ | .enqueue | .wait => true
  | .change | .load _ | .store _ | .fill _ | .copy => false

section
variable {code : List Micro}

theorem mem_left {m : Micro} (left : (s.call p).code = micro :: code) (other : m ≠ micro) :
    m ∈ (s.call p).code → m ∈ code := by
  rw [left, mem_cons]
  exact fun mem => mem.resolve_left other

theorem Inv.holds_rest (inv : Inv first s) (left : (s.call p).code = micro :: code)
    (other : micro ≠ .acquire .super) (holds : Holds code) : s.superLock = some p :=
  inv.lock p ⟨left ▸ mem_cons_of_mem _ holds.1, fun early => holds.2 (mem_left left other.symm early)⟩

section
variable (inv : Inv first s) (left : (s.call p).code = micro :: c.code)
include inv left

theorem Inv.lock_update (other : micro ≠ .acquire .super) :
    ∀ q, Holds (update s.call p c q).code → s.superLock = some q :=
  forall_update (P := fun q c => Holds c.code → s.superLock = some q) (inv.holds_rest left other)
    fun q _ => inv.lock q

theorem Inv.suffix_update (kind : c.kind = (s.call p).kind) :
    ∀ q, (update s.call p c q).code <:+ (update s.call p c q).kind.code := by
  refine forall_update (P := fun _ c => c.code <:+ c.kind.code) ?_ fun q _ => inv.suffix q
  rw [kind]
  exact (suffix_cons _ _).trans (left ▸ inv.suffix p)

theorem Inv.loaded_update (loaded : c.loaded = (s.call p).loaded) (load : ∀ counter, micro ≠ .load counter)
    (fill : ∀ g, micro ≠ .fill g) (q : Nat) (f : Field) (between : Between (update s.call p c q).code f) :
    f.word ((update s.call p c q).loaded f.counter) = s.word f ∨ ∃ r, Fresh (update s.call p c r).code f := by
  have coming := exists_update (P := fun c => Fresh c f)
    (Or.imp (mem_left left (fill f).symm) (mem_left left (load _).symm))
  revert q
  refine forall_update (P := fun _ c => Between c.code f → f.word (c.loaded f.counter) = s.word f ∨ _) ?_ ?_
  · rintro ⟨store, early⟩
    rw [loaded]
    exact (inv.loaded p f ⟨left ▸ mem_cons_of_mem _ store, fun before =>
      early (mem_left left (load _).symm before)⟩).imp_right coming
  · exact fun q _ between => (inv.loaded q f between).imp_right coming

theorem Inv.raw_update (fill : .fill f ≠ micro) (store : .store f ≠ micro) :
    s.raw f = s.word f ∨ ∃ q, Stores (update s.call p c q).code f :=
  (inv.raw f).imp_right (exists_update (P := fun c => Stores c f)
    (Or.imp (mem_left left fill) (mem_left left store)))

theorem Inv.last_update (copy : .copy ≠ micro) (f : Field) :
    s.last first f = s.word f ∨ ∃ q, .copy ∈ (update s.call p c q).code :=
  (inv.last f).imp_right (exists_update (c := c) (P := fun c => .copy ∈ c) (mem_left left copy))

theorem Inv.pass (kind : c.kind = (s.call p).kind) (loaded : c.loaded = (s.call p).loaded)
    (memory : t.memory = s.memory) (raw : t.raw = s.raw) (copies : t.copies = s.copies)
    (calls : t.call = update s.call p c) (lock : ∀ q, Holds (t.call q).code → t.superLock = some q)
    (plain : micro.plain) : Inv first t := by
  have word : t.word = s.word := by
    funext f
    rw [State.word, State.word, memory]
  have other {m : Micro} (busy : m.plain = false) : m ≠ micro := by
    rintro rfl
    rw [plain] at busy
    cases busy
  constructor
  case fits => exact memory ▸ inv.fits
  case suffix => exact calls ▸ inv.suffix_update left kind
  case lock => exact lock
  case loaded =>
    rw [calls, word]
    exact inv.loaded_update left loaded (fun _ => (other rfl).symm) fun _ => (other rfl).symm
  case raw =>
    intro f
    rw [calls, word, raw]
    exact inv.raw_update left (other rfl) (other rfl)
  case last =>
    intro f
    rw [calls, word, State.last, copies]
    exact inv.last_update left (other rfl) f

end

section
variable (inv : Inv first s) {g : Field}
include inv

theorem Inv.change (left : (s.call p).code = .change :: code) :
    Inv first { s.setCall p { s.call p with code := code } with
      memory := (s.call p).kind.change s.memory } := by
  set call := { s.call p with code := code }
  have suffix : code <:+ (s.call p).kind.code :=
    (suffix_cons _ _).trans (left ▸ inv.suffix p)
  have fresh (f : Field) : Fresh code f := by
    have head := (inv.sane p f).2
    rw [left] at head
    exact head
  have sane (f : Field) := (sane_of_suffix (f := f) suffix).1
  constructor
  case fits => exact Kind.change_fits _ inv.fits
  case suffix => exact inv.suffix_update left rfl
  case lock => exact inv.lock_update left nofun
  case loaded => exact fun _ f _ => .inr (exists_here (P := fun c => Fresh c f) (fresh f))
  case raw => exact fun f => .inr (exists_here (P := fun c => Stores c f) ((sane f).1 (fresh f)))
  case last =>
    exact fun f => .inr (exists_here (P := fun c => .copy ∈ c) ((sane f).2.1 ((sane f).1 (fresh f))))

theorem Inv.load {counter : Counter} (left : (s.call p).code = .load counter :: code) :
    Inv first (s.setCall p { s.call p with
      code := code, loaded := update (s.call p).loaded counter (s.memory.get counter) }) := by
  have holder : s.superLock = some p := by
    have head := (inv.sane p .inodes).2
    exact inv.lock p (left ▸ head)
  constructor
  case fits => exact inv.fits
  case suffix => exact inv.suffix_update left rfl
  case lock => exact inv.lock_update left nofun
  case loaded =>
    intro q f
    revert q
    refine forall_update (P := fun _ c => Between c.code f → f.word (c.loaded f.counter) = s.word f ∨ _)
      ?_ ?_
    · intro between
      by_cases mine : f.counter = counter
      · left
        dsimp only
        rw [mine, update_self, State.word, mine]
      · have before : Between (s.call p).code f := by
          rw [left]
          refine ⟨mem_cons_of_mem _ between.1, fun early => between.2 ?_⟩
          exact (mem_cons.mp early).resolve_left fun same => mine (Micro.load.inj same)
        dsimp only
        rw [update_of_ne mine]
        exact (inv.loaded p f before).imp_right
          (exists_other (P := fun c => Fresh c f) ((inv.sane p f).1.2.2 before).2)
    · intro q other between
      exact absurd (Option.some.inj ((inv.alone between).symm.trans holder)) other
  case raw => exact fun f => inv.raw_update left nofun nofun
  case last => exact inv.last_update left nofun

theorem Inv.store (left : (s.call p).code = .store g :: code) :
    Inv first { s.setCall p { s.call p with code := code } with
      raw := update s.raw g (g.word ((s.call p).loaded g.counter)) } := by
  have between : Between (s.call p).code g := by
    have head := (inv.sane p g).2
    rw [left] at head ⊢
    exact ⟨mem_cons_self, fun early => head ((mem_cons.mp early).resolve_left nofun)⟩
  have suffix := inv.suffix_update (c := { s.call p with code := code }) left rfl
  constructor
  case fits => exact inv.fits
  case suffix => exact suffix
  case lock => exact inv.lock_update left nofun
  case loaded => exact inv.loaded_update left rfl nofun nofun
  case raw =>
    intro f
    by_cases mine : f = g
    · subst mine
      change update s.raw f _ f = s.word f ∨ _
      rw [update_self]
      refine (inv.loaded p f between).imp_right fun coming => ?_
      obtain ⟨q, fresh⟩ := exists_other (P := fun c => Fresh c f) (c := { s.call p with code := code })
        ((inv.sane p f).1.2.2 between).2 coming
      exact ⟨q, (sane_of_suffix (suffix q)).1.1 fresh⟩
    · change update s.raw g _ f = s.word f ∨ _
      rw [update_of_ne mine]
      exact inv.raw_update left nofun fun same => mine (Micro.store.inj same)
  case last => exact inv.last_update left nofun

theorem Inv.fill (left : (s.call p).code = .fill g :: code) (free : s.superLock = none)
    (current : (s.call p).taken = s.memory.get g.counter) :
    Inv first { s.setCall p { s.call p with code := code } with
      raw := update s.raw g (g.word (s.call p).taken) } := by
  rw [current]
  have suffix := inv.suffix_update (c := { s.call p with code := code }) left rfl
  have lock := inv.lock_update (c := { s.call p with code := code }) left nofun
  constructor
  case fits => exact inv.fits
  case suffix => exact suffix
  case lock => exact lock
  case loaded =>
    intro q f between
    have held := lock q ((sane_of_suffix (suffix q)).1.2.2 between).1
    rw [free] at held
    cases held
  case raw =>
    intro f
    by_cases mine : f = g
    · subst mine
      left
      exact update_self ..
    · change update s.raw g _ f = s.word f ∨ _
      rw [update_of_ne mine]
      exact inv.raw_update left (fun same => mine (Micro.fill.inj same)) nofun
  case last => exact inv.last_update left nofun

theorem Inv.copy (left : (s.call p).code = .copy :: code) :
    Inv first { s.setCall p { s.call p with code := code, copied := s.copies.length } with
      copies := s.copies ++ [s.raw] } := by
  set call := { s.call p with code := code, copied := s.copies.length }
  have suffix := inv.suffix_update (c := call) left rfl
  constructor
  case fits => exact inv.fits
  case suffix => exact suffix
  case lock => exact inv.lock_update left nofun
  case loaded => exact inv.loaded_update left rfl nofun nofun
  case raw => exact fun f => inv.raw_update left nofun nofun
  case last =>
    intro f
    have done : ¬ Stores (s.call p).code f := by
      have head := (inv.sane p f).2
      rw [left] at head
      exact fun stores => head.1 (stores.imp (mem_left left nofun) (mem_left left nofun))
    have last : State.last first { s.setCall p call with copies := s.copies ++ [s.raw] } = s.raw := by
      simp [State.last]
    rw [last]
    refine (inv.raw f).imp_right fun coming => ?_
    obtain ⟨q, stores⟩ := exists_other (P := fun c => Stores c f) done coming
    exact ⟨q, (sane_of_suffix (suffix q)).1.2.1 stores⟩

theorem Inv.acquire (left : (s.call p).code = .acquire .super :: code) (free : s.superLock = none) :
    Inv first { s.setCall p { s.call p with code := code } with superLock := some p } := by
  refine inv.pass (c := { s.call p with code := code }) left rfl rfl rfl rfl rfl rfl ?_ rfl
  refine forall_update (P := fun q c => Holds c.code → some p = some q) (fun _ => rfl) ?_
  intro q _ holds
  rw [inv.lock q holds] at free
  cases free

theorem Inv.release (left : (s.call p).code = .release .super :: code) :
    Inv first { s.setCall p { s.call p with code := code } with superLock := none } := by
  have head := (inv.sane p .inodes).2
  rw [left] at head
  have holder : s.superLock = some p := by
    refine inv.lock p ?_
    rw [left]
    exact ⟨mem_cons_self, fun early => head.2 ((mem_cons.mp early).resolve_left nofun)⟩
  refine inv.pass (c := { s.call p with code := code }) left rfl rfl rfl rfl rfl rfl ?_ rfl
  refine forall_update (P := fun q c => Holds c.code → none = some q) (fun holds => absurd holds.1 head.1) ?_
  intro q other holds
  exact absurd (Option.some.inj ((inv.lock q holds).symm.trans holder)) other

end

end

theorem Inv.begin_ (inv : Inv first s) (idle : (s.call p).code = []) (kind : Kind) (group : Nat) :
    Inv first (s.setCall p ⟨kind, group, kind.code, fun _ => 0, 0, 0, false⟩) := by
  obtain ⟨holds, between, _⟩ := kind.code_begins
  have nothing (m : Micro) : m ∉ (s.call p).code := by
    rw [idle]
    exact not_mem_nil
  constructor
  case fits => exact inv.fits
  case suffix =>
    exact forall_update (P := fun _ c => c.code <:+ c.kind.code) (suffix_refl _)
      fun q _ => inv.suffix q
  case lock =>
    exact forall_update (P := fun q c => Holds c.code → s.superLock = some q)
      (fun held => absurd held holds) fun q _ => inv.lock q
  case loaded =>
    intro q f
    revert q
    refine forall_update (P := fun _ c => Between c.code f → f.word (c.loaded f.counter) = s.word f ∨ _)
      (fun inside => absurd inside (between f)) ?_
    exact fun q _ inside => (inv.loaded q f inside).imp_right (exists_other (P := fun c => Fresh c f)
      fun fresh => fresh.elim (nothing _) (nothing _))
  case raw =>
    exact fun f => (inv.raw f).imp_right (exists_other (P := fun c => Stores c f)
      fun stores => stores.elim (nothing _) (nothing _))
  case last =>
    exact fun f => (inv.last f).imp_right (exists_other (P := fun c => .copy ∈ c) (nothing _))

theorem Inv.writeBatch (inv : Inv first s) (batch : Batch) : Inv first (s.writeBatch batch) := by
  have codes (q : Nat) : ((s.writeBatch batch).call q).code = (s.call q).code ∧
      ((s.writeBatch batch).call q).kind = (s.call q).kind ∧
      ((s.writeBatch batch).call q).loaded = (s.call q).loaded := by
    refine forall_update (P := fun q c => c.code = (s.call q).code ∧
      c.kind = (s.call q).kind ∧ c.loaded = (s.call q).loaded) ?_ ?_ q
    · exact ⟨rfl, rfl, rfl⟩
    · exact fun _ _ => ⟨rfl, rfl, rfl⟩
  constructor
  case fits => exact inv.fits
  case suffix =>
    intro q
    rw [(codes q).1, (codes q).2.1]
    exact inv.suffix q
  case lock =>
    intro q
    rw [(codes q).1]
    exact inv.lock q
  case loaded =>
    intro q f
    rw [(codes q).1, (codes q).2.2]
    exact fun between => (inv.loaded q f between).imp_right fun ⟨r, fresh⟩ => ⟨r, (codes r).1 ▸ fresh⟩
  case raw => exact fun f => (inv.raw f).imp_right fun ⟨r, stores⟩ => ⟨r, (codes r).1 ▸ stores⟩
  case last => exact fun f => (inv.last f).imp_right fun ⟨r, copies⟩ => ⟨r, (codes r).1 ▸ copies⟩

/-! ## The copies on their way -/

/-- The dispatcher, or a call that has not reached it, has the copy with this number. -/
def State.Pending (s : State) (n : Nat) : Prop :=
  (∃ p, Carries (s.call p).code ∧ (s.call p).copied = n) ∨
    (∃ g, ∃ batch ∈ s.queue g, batch.copied = n) ∨ ∃ batch ∈ s.detached, batch.copied = n

structure Turn (first : Field → Nat) (s : State) : Prop where
  below : ∀ n, s.Pending n → n < s.copies.length
  /-- The last copy has been written or is on its way. -/
  latest : ∀ n, n + 1 = s.copies.length → s.written = s.copies.length ∨ s.Pending n
  written : s.written ≤ s.copies.length
  disk : s.disk = (s.copies.take s.written).getLast?.getD first

theorem Turn.congr (turn : Turn first s) (pending : ∀ n, t.Pending n ↔ s.Pending n)
    (copies : t.copies = s.copies) (written : t.written = s.written) (disk : t.disk = s.disk) :
    Turn first t where
  below n := by
    rw [pending, copies]
    exact turn.below n
  latest n := by
    rw [pending, copies, written]
    exact turn.latest n
  written := by
    rw [copies, written]
    exact turn.written
  disk := by
    rw [copies, written, disk]
    exact turn.disk

theorem carried_update (s : State) {n : Nat} (same : Carries c.code ∧ c.copied = n ↔
      Carries (s.call p).code ∧ (s.call p).copied = n) :
    (∃ q, Carries (update s.call p c q).code ∧ (update s.call p c q).copied = n) ↔
      ∃ q, Carries (s.call q).code ∧ (s.call q).copied = n :=
  exists_congr (forall_update (P := fun q c => Carries c.code ∧ c.copied = n ↔
    Carries (s.call q).code ∧ (s.call q).copied = n) same fun _ _ => Iff.rfl)

theorem Turn.begin_ (turn : Turn first s) (idle : (s.call p).code = []) (kind : Kind) (group : Nat) :
    Turn first (s.setCall p ⟨kind, group, kind.code, fun _ => 0, 0, 0, false⟩) := by
  -- Neither before nor after does the call carry anything, whatever number it has.
  have nothing : ¬ Carries (s.call p).code := by
    rw [idle]
    exact fun carries => not_mem_nil carries.1
  exact turn.congr (fun n => or_congr (carried_update s (iff_of_false
    (fun carries => kind.code_begins.2.2 carries.1) fun carries => nothing carries.1)) Iff.rfl) rfl rfl rfl

section
variable {code : List Micro}

theorem Turn.copy (turn : Turn first s) (inv : Inv first s) (left : (s.call p).code = .copy :: code) :
    Turn first { s.setCall p { s.call p with code := code, copied := s.copies.length } with
      copies := s.copies ++ [s.raw] } := by
  have head := (inv.sane p .inodes).2
  rw [left] at head
  constructor
  case below =>
    intro n pending
    rw [length_append, length_singleton]
    rcases pending with ⟨q, carries⟩ | queued
    · revert carries
      refine forall_update (P := fun q c => Carries c.code ∧ c.copied = n → n < s.copies.length + 1)
        ?_ ?_ q
      · rintro ⟨_, rfl⟩
        exact Nat.lt_succ_self _
      · exact fun q _ carries => Nat.lt_succ_of_lt (turn.below n (.inl ⟨q, carries⟩))
    · exact Nat.lt_succ_of_lt (turn.below n (.inr queued))
  case latest =>
    intro n last
    rw [length_append, length_singleton, Nat.add_right_cancel_iff] at last
    refine .inr (.inl ⟨p, ?_⟩)
    change Carries (update s.call p _ p).code ∧ (update s.call p _ p).copied = n
    rw [update_self]
    exact ⟨head.2, last.symm⟩
  case written =>
    rw [length_append]
    exact Nat.le_add_right_of_le turn.written
  case disk =>
    change s.disk = ((s.copies ++ [s.raw]).take s.written).getLast?.getD first
    rw [take_append_of_le_length turn.written]
    exact turn.disk

theorem queued_update (queue : Nat → List Batch) (w : Nat) (now : List Batch) {n : Nat} :
    (∃ g, ∃ batch ∈ update queue w now g, batch.copied = n) ↔
      (∃ batch ∈ now, batch.copied = n) ∨ ∃ g, g ≠ w ∧ ∃ batch ∈ queue g, batch.copied = n := by
  constructor
  · rintro ⟨g, queued⟩
    by_cases here : g = w
    · subst here
      rw [update_self] at queued
      exact .inl queued
    · rw [update_of_ne here] at queued
      exact .inr ⟨g, here, queued⟩
  · rintro (queued | ⟨g, other, queued⟩)
    · exact ⟨w, by rwa [update_self]⟩
    · exact ⟨g, by rwa [update_of_ne other]⟩

theorem queued_split (queue : Nat → List Batch) (w : Nat) {n : Nat} :
    (∃ g, ∃ batch ∈ queue g, batch.copied = n) ↔
      (∃ batch ∈ queue w, batch.copied = n) ∨ ∃ g, g ≠ w ∧ ∃ batch ∈ queue g, batch.copied = n := by
  have whole := queued_update queue w (queue w) (n := n)
  rwa [update_eq_self] at whole

theorem Turn.enqueue (turn : Turn first s) (inv : Inv first s) (left : (s.call p).code = .enqueue :: code)
    (taken : s.perform p .enqueue code = some t) : Turn first t := by
  have head := (inv.sane p .inodes).2
  rw [left] at head
  have before : Carries (s.call p).code := by
    rw [left]
    exact ⟨mem_cons_self, fun early => head.1 ((mem_cons.mp early).resolve_left nofun)⟩
  -- What the calls carry is what they carried, but for this one.
  have carried (n q : Nat) : (Carries (update s.call p { s.call p with code := code } q).code ∧
      (update s.call p { s.call p with code := code } q).copied = n) ↔
      q ≠ p ∧ Carries (s.call q).code ∧ (s.call q).copied = n := by
    refine forall_update (P := fun q c => Carries c.code ∧ c.copied = n ↔
      q ≠ p ∧ Carries (s.call q).code ∧ (s.call q).copied = n) ?_ ?_ q
    · exact ⟨fun carries => absurd carries.1.1 head.2, fun carries => absurd rfl carries.1⟩
    · exact fun q other => ⟨fun carries => ⟨other, carries⟩, fun carries => carries.2⟩
  have split_ (n : Nat) : s.Pending n ↔ (∃ q, q ≠ p ∧ Carries (s.call q).code ∧ (s.call q).copied = n) ∨
      (s.call p).copied = n ∨ (∃ g, ∃ batch ∈ s.queue g, batch.copied = n) ∨
      ∃ batch ∈ s.detached, batch.copied = n := by
    constructor
    · rintro (⟨q, carries⟩ | queued)
      · by_cases here : q = p
        · exact .inr (.inl (here ▸ carries.2))
        · exact .inl ⟨q, here, carries⟩
      · exact .inr (.inr queued)
    · rintro (⟨q, _, carries⟩ | mine | queued)
      · exact .inl ⟨q, carries⟩
      · exact .inl ⟨p, before, mine⟩
      · exact .inr queued
  simp only [State.perform] at taken
  split at taken
  all_goals
    cases taken
    refine turn.congr (fun n => ?_) rfl rfl rfl
    rw [split_]
    refine or_congr (exists_congr fun q => carried n q) ?_
  · rw [queued_split s.queue (s.call p).worker]
    refine (or_congr (queued_update s.queue (s.call p).worker
      (s.queue (s.call p).worker ++ [⟨p, (s.call p).copied⟩])) Iff.rfl).trans ?_
    simp only [mem_append, mem_singleton, or_and_right, exists_or, exists_eq_left]
    exact ((or_congr_left or_right_comm).trans or_right_comm).trans or_comm
  · rw [← or_assoc, or_comm (a := (s.call p).copied = n), or_assoc]
    refine or_congr Iff.rfl ?_
    simp only [mem_append, mem_singleton, or_and_right, exists_or, exists_eq_left]
    exact or_comm

end

theorem Turn.writeBatch (turn : Turn first s) {batch : Batch} (next : s.written ≤ batch.copied)
    (copies : t.copies = s.copies) (written : t.written = (s.writeBatch batch).written)
    (disk : t.disk = (s.writeBatch batch).disk)
    (pending : ∀ n, s.Pending n ↔ batch.copied = n ∨ t.Pending n) : Turn first t := by
  have below := turn.below _ ((pending _).mpr (.inl rfl))
  have now : t.written = batch.copied + 1 := by
    rw [written]
    exact max_eq_right (Nat.le_succ_of_le next)
  constructor
  case below => exact fun n left => copies ▸ turn.below n ((pending n).mpr (.inr left))
  case latest =>
    intro n last
    rw [copies] at last ⊢
    rw [now]
    rcases turn.latest n last with all | left
    · omega
    · rcases (pending n).mp left with rfl | left
      · exact .inl last
      · exact .inr left
  case written =>
    rw [now, copies]
    exact below
  case disk =>
    rw [disk, now, copies]
    change (s.copies[batch.copied]?).getD s.disk = _
    rw [getElem?_eq_getElem below, ← take_concat_get' _ _ below, getLast?_concat]
    rfl

theorem carried_answered (s : State) (batch : Batch) (n : Nat) :
    (∃ p, Carries (s.call p).code ∧ (s.call p).copied = n) ↔
      ∃ p, Carries ((s.writeBatch batch).call p).code ∧ ((s.writeBatch batch).call p).copied = n :=
  (carried_update (c := { s.call batch.party with acked := true }) s Iff.rfl).symm

def Tracked (first : Field → Nat) (s : State) : Prop := Inv first s ∧ Turn first s

theorem Tracked.perform {code : List Micro} (tracked : Tracked first s) (left : (s.call p).code = micro :: code)
    (ready : ∀ f, micro = .fill f → s.superLock = none ∧ (s.call p).taken = s.memory.get f.counter)
    (taken : s.perform p micro code = some t) : Tracked first t := by
  obtain ⟨inv, turn⟩ := tracked
  have carried (early : micro ≠ .copy) (late : micro ≠ .enqueue) (c : Call) (codes : c.code = code)
      (copied : c.copied = (s.call p).copied) (n : Nat) : (s.setCall p c).Pending n ↔ s.Pending n := by
    refine or_congr (carried_update s (and_congr ?_ (by rw [copied]))) Iff.rfl
    rw [left, codes, Carries, Carries, mem_cons, mem_cons]
    exact and_congr (or_iff_right fun same => late same.symm).symm
      (not_congr (or_iff_right fun same => early same.symm).symm)
  have passed (early : micro ≠ .copy) (late : micro ≠ .enqueue) :=
    carried early late { s.call p with code := code } rfl rfl
  have idle (quiet : micro.plain) (other : micro ≠ .acquire .super) {u : State} (memory : u.memory = s.memory)
      (raw : u.raw = s.raw) (copies : u.copies = s.copies) (lock : u.superLock = s.superLock)
      (calls : u.call = update s.call p { s.call p with code := code }) : Inv first u := by
    refine inv.pass (c := { s.call p with code := code }) left rfl rfl memory raw copies calls ?_ quiet
    rw [calls, lock]
    exact inv.lock_update left other
  cases micro with
  | acquire lock =>
    cases lock <;> obtain ⟨free, ⟨⟩⟩ := Option.ite_none_right_eq_some.mp taken
    · exact ⟨idle rfl nofun rfl rfl rfl rfl rfl, turn.congr (passed nofun nofun) rfl rfl rfl⟩
    · exact ⟨inv.acquire left free, turn.congr (passed nofun nofun) rfl rfl rfl⟩
  | release lock =>
    cases lock <;> cases taken
    · exact ⟨idle rfl nofun rfl rfl rfl rfl rfl, turn.congr (passed nofun nofun) rfl rfl rfl⟩
    · exact ⟨inv.release left, turn.congr (passed nofun nofun) rfl rfl rfl⟩
  | change =>
    cases taken
    exact ⟨inv.change left, turn.congr (passed nofun nofun) rfl rfl rfl⟩
  | load counter =>
    cases taken
    exact ⟨inv.load left, turn.congr (carried nofun nofun _ rfl rfl) rfl rfl rfl⟩
  | store f =>
    cases taken
    exact ⟨inv.store left, turn.congr (passed nofun nofun) rfl rfl rfl⟩
  | take f =>
    cases taken
    set call := { s.call p with code := code, taken := s.memory.get f.counter }
    refine ⟨?_, turn.congr (carried nofun nofun call rfl rfl) rfl rfl rfl⟩
    exact inv.pass (c := call) left rfl rfl rfl rfl rfl rfl (inv.lock_update (c := call) left nofun) rfl
  | fill f =>
    cases taken
    obtain ⟨free, current⟩ := ready f rfl
    exact ⟨inv.fill left free current, turn.congr (passed nofun nofun) rfl rfl rfl⟩
  | copy =>
    cases taken
    exact ⟨inv.copy left, turn.copy inv left⟩
  | enqueue =>
    refine ⟨?_, turn.enqueue inv left taken⟩
    simp only [State.perform] at taken
    split at taken <;>
    · cases taken
      exact idle rfl nofun rfl rfl rfl rfl rfl
  | wait =>
    obtain ⟨_, ⟨⟩⟩ := Option.ite_none_right_eq_some.mp taken
    exact ⟨idle rfl nofun rfl rfl rfl rfl rfl, turn.congr (passed nofun nofun) rfl rfl rfl⟩

theorem Tracked.step (tracked : Tracked first s) (ready : action.InTurn s)
    (taken : step action s = some t) : Tracked first t := by
  have answered (batch : Batch) := tracked.1.writeBatch batch
  cases action with
  | begin_ p kind group =>
    obtain ⟨idle, ⟨⟩⟩ := Option.ite_none_right_eq_some.mp taken
    exact ⟨tracked.1.begin_ idle kind group, tracked.2.begin_ idle kind group⟩
  | next p =>
    simp only [Snapshots.step] at taken
    split at taken
    · cases taken
    next micro code left =>
      refine tracked.perform left (fun f fills => ?_) taken
      simpa only [Action.InTurn, left, fills] using ready
  | work g =>
    simp only [Snapshots.step] at taken
    split at taken
    · cases taken
    next batch rest queue =>
      cases taken
      obtain ⟨fits, suffix, lock, loaded, raw, last⟩ := answered batch
      refine ⟨⟨fits, suffix, lock, loaded, raw, last⟩,
        tracked.2.writeBatch (ready batch (by rw [queue]; rfl)) rfl rfl rfl fun n => ?_⟩
      have queued := queued_split s.queue g (n := n)
      rw [queue, exists_mem_cons_iff, or_assoc, ← queued_update] at queued
      exact (or_congr (carried_answered s batch n) ((or_congr queued Iff.rfl).trans or_assoc)).trans or_left_comm
  | detachedWrite i =>
    obtain ⟨batch, found, rfl⟩ := Option.map_eq_some_iff.mp taken
    obtain ⟨fits, suffix, lock, loaded, raw, last⟩ := answered batch
    refine ⟨⟨fits, suffix, lock, loaded, raw, last⟩,
      tracked.2.writeBatch (ready batch found) rfl rfl rfl fun n => ?_⟩
    obtain ⟨bound, rfl⟩ := List.getElem?_eq_some_iff.mp found
    have detached : (∃ batch ∈ s.detached, batch.copied = n) ↔ _ :=
      exists_congr fun batch => and_congr_left' (getElem_cons_eraseIdx_perm bound).mem_iff.symm
    rw [exists_mem_cons_iff] at detached
    exact (or_congr (carried_answered s _ n) ((or_congr Iff.rfl detached).trans or_left_comm)).trans
      or_left_comm

/-! ## At rest -/

theorem decode_words {memory : Counters} (fits : memory.Fits) :
    decode (fun f => f.word (memory.get f.counter)) = memory := by
  have blocks := Nat.div_add_mod' memory.freeBlocks (2 ^ 32)
  have inodes := Nat.mod_eq_of_lt fits.freeInodes
  simp only [decode, Field.word, Field.counter, Counters.get, blocks, inodes]

def ten : Counters := ⟨10, 10⟩

def tenWords : Field → Nat := fun f => f.word (ten.get f.counter)

def bothQueued : List Action :=
  [.begin_ 0 (.allocBlocks 1) 0] ++ replicate 12 (.next 0) ++
    ([.begin_ 1 (.allocBlocks 1) 1] ++ replicate 12 (.next 1))

def firstFirst : List Action := bothQueued ++ [.work 0, .work 1, .next 0, .next 1]

def secondFirst : List Action := bothQueued ++ [.work 1, .work 0, .next 0, .next 1]

end Ext4.Dispatch.Snapshots
