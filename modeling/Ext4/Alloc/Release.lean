import Mathlib.Algebra.Group.Nat.Defs
import Ext4.Alloc.Dispatcher

/-! Concurrent releases of blocks of one group.
`freeBlock` reads the bitmap of the group and sets in it every bit that is reserved, then clears
its own bit, reserves it and hands the result to the worker of the group. The bit of another
release that is still reserved is set again by this. The calls are those of the dispatcher; the
worker is refined by the count that it writes to the descriptor. -/

namespace Ext4.Alloc.Release
open Function

/-! ## The machine -/

structure Setup where
  group : Nat
  /-- The blocks of the group. -/
  size : Nat
  /-- The width of the free-block count of a descriptor. -/
  descBits : Nat
  fits : size < 2 ^ descBits
  /-- The bit of the block that a call releases. -/
  bit : Nat → Nat

def Setup.key (setup : Setup) : Key := ⟨setup.group, true⟩

inductive Phase where
  | written
  /-- The clear bits of the bitmap on the device are counted. -/
  | counted (free : Nat)
  | described

structure State extends Alloc.State where
  /-- The free-block count of the group's descriptor on the device. -/
  free : Nat
  /-- The descriptor count that a call hands over. -/
  given : Nat → Nat
  phase : Phase
  /-- The detached tasks whose bitmap is written and whose descriptor is not. -/
  halfway : List Task

inductive Action where
  | release (p : Nat)
  | next (p : Nat)
  | work
  | detachedWrite (i : Nat)
  | detachedDescribe (i : Nat)

/-- The next step of the worker. Counting needs no lock, writing the descriptor does. -/
def State.work (setup : Setup) (s : State) : Option State :=
  match s.working setup.group with
  | none =>
      match s.queue setup.group with
      | [] => none
      | t :: rest => some { s with
          toState := { s.writeBitmap t with
            queue := update s.queue setup.group rest
            working := update s.working setup.group (some t) }
          phase := .written }
  | some t =>
      match s.phase with
      | .written => some { s with phase := .counted (clearCount setup.size (s.disk setup.key)) }
      | .counted free =>
          if s.bgdLock setup.group = none then
            some { s with free := free % 2 ^ setup.descBits, phase := .described }
          else none
      | .described => some { s with
          toState := { s.acknowledge t with
            working := update s.working setup.group none } }

def step (setup : Setup) : Action → State → Option State
  | .release p, s =>
      if (s.call p).stage = .idle ∧ s.bgdLock setup.group = none then
        let call := { Call.none with
          stage := .locked
          key := setup.key
          freeing := true
          bits := [setup.bit p] }
        some { s with toState := (s.setCall p call).setLock setup.group (some p) }
      else none
  | .next p, s =>
      (s.advance ⟨setup.size, 0⟩ p).map fun after => { s with
        toState := after
        -- The descriptor is read together with the bitmap.
        given :=
          if (s.call p).stage = .locked then
            update s.given p ((s.free + 1) % 2 ^ setup.descBits)
          else s.given }
  | .work, s => s.work setup
  -- A detached goroutine takes no lock and counts nothing.
  | .detachedWrite i, s =>
      (s.detached[i]?).map fun t => { s with
        toState := { s.writeBitmap t with detached := s.detached.eraseIdx i }
        halfway := s.halfway ++ [t] }
  | .detachedDescribe i, s =>
      (s.halfway[i]?).map fun t => { s with
        toState := s.acknowledge t
        free := s.given t.party
        halfway := s.halfway.eraseIdx i }

def opened (disk : Key → Bits) (free : Nat) : State where
  toState := started disk 0
  free := free
  given := fun _ => 0
  phase := .written
  halfway := []

structure Finished (setup : Setup) (s : State) : Prop where
  calls : ∀ p, (s.call p).stage = .idle ∨ (s.call p).stage = .settled
  queue : s.queue setup.group = []
  working : s.working setup.group = none
  detached : s.detached = []
  halfway : s.halfway = []

structure Kept (setup : Setup) (s : State) : Prop where
  clear : ∀ p, (s.call p).stage = .settled → s.disk setup.key (setup.bit p) = false
  exact : (∃ p, (s.call p).stage = .settled) → s.free = clearCount setup.size (s.disk setup.key)

/-- A release reads the bitmap only when every bitmap handed over before has been written, and
merges the reservations only when there are none. -/
def Apart (setup : Setup) : Action → State → Prop
  | .next p, s =>
      match (s.call p).stage with
      | .locked => s.queue setup.group = [] ∧ s.detached = []
      | .read => ∀ i, s.reserved setup.key i = none
      | _ => True
  | _, _ => True

/-! ## What a call has done -/

def past : Stage → Bool
  | .idle | .locked | .read => false
  | .chosen | .enqueued | .associated | .waiting | .settled => true

def inside : Stage → Bool
  | .locked | .read | .chosen | .enqueued | .associated => true
  | .idle | .waiting | .settled => false

/-- A bitmap without exactly the bits of the calls that have put theirs clear. -/
def Lacks (setup : Setup) (start : Bits) (call : Nat → Call) (bitmap : Bits) : Prop :=
  ∀ i, bitmap i ↔ start i ∧ ∀ p, past (call p).stage → setup.bit p ≠ i

def Counts (setup : Setup) (s : State) : Prop :=
  let clear := clearCount setup.size (s.disk setup.key)
  match s.working setup.group with
  | none => (∃ p, (s.call p).acked) → s.free = clear % 2 ^ setup.descBits
  | some _ =>
      match s.phase with
      | .written => True
      | .counted free => free = clear
      | .described => s.free = clear % 2 ^ setup.descBits

theorem Counts.imp {setup : Setup} {s s' : State} (counts : Counts setup s) (disk : s'.disk = s.disk)
    (working : s'.working = s.working) (phase : s'.phase = s.phase) (free : s'.free = s.free)
    (acked : ∀ q, (s'.call q).acked → ∃ q, (s.call q).acked) : Counts setup s' := by
  unfold Counts at counts ⊢
  dsimp only at counts ⊢
  rw [disk, working, phase, free]
  split
  next idle =>
    rw [idle] at counts
    rintro ⟨q, done⟩
    exact counts (acked q done)
  next t busy =>
    rw [busy] at counts
    exact counts

structure Orderly (setup : Setup) (s : State) : Prop where
  shape : ∀ p, (s.call p).stage ≠ .idle → (s.call p).key = setup.key ∧ (s.call p).freeing
  bits : ∀ p, inside (s.call p).stage → (s.call p).bits = [setup.bit p]
  holder : ∀ p, inside (s.call p).stage → s.bgdLock setup.group = some p
  detached : s.detached = [] ∧ s.halfway = []
  counts : Counts setup s
  settled : ∀ p, (s.call p).stage = .settled → (s.call p).acked

/-- There is one current bitmap: in the queue, else in the hands of the call that has just prepared
it, else on the device. -/
structure Current (setup : Setup) (start : Bits) (s : State) : Prop where
  reading : ∀ p, (s.call p).stage = .read →
    s.queue setup.group = [] ∧ (s.call p).image = s.disk setup.key
  chosen : ∀ p, (s.call p).stage = .chosen →
    s.queue setup.group = [] ∧ Lacks setup start s.call (s.call p).image
  queued : s.queue setup.group ≠ [] →
    ∃ t, s.queue setup.group = [t] ∧ t.key = setup.key ∧ Lacks setup start s.call t.snapshot
  written : s.queue setup.group = [] → (∀ p, (s.call p).stage ≠ .chosen) →
    Lacks setup start s.call (s.disk setup.key)

variable {setup : Setup} {start bitmap : Bits} {s s' : State} {p : Nat} {after : Call} {call : Nat → Call}
  {t : Task}

theorem Orderly.alone (orderly : Orderly setup s) {q : Nat} (one : inside (s.call p).stage)
    (two : inside (s.call q).stage) : p = q :=
  Option.some.inj ((orderly.holder p one).symm.trans (orderly.holder q two))

theorem Lacks.congr {call' : Nat → Call} (same : ∀ p, past (call' p).stage = past (call p).stage)
    (lacks : Lacks setup start call bitmap) : Lacks setup start call' bitmap := by
  intro i
  rw [lacks i]
  simp only [same]

theorem Lacks.clear (lacks : Lacks setup start call bitmap) (before : past (call p).stage = false)
    (now : past after.stage) :
    Lacks setup start (update call p after) fun i => decide (i ∉ [setup.bit p]) && bitmap i := by
  intro i
  rw [Bool.and_eq_true, lacks i, decide_eq_true_eq, List.mem_singleton]
  constructor
  · rintro ⟨other, set, others⟩
    refine ⟨set, fun q done => ?_⟩
    by_cases same : q = p
    · subst same
      exact fun equal => other equal.symm
    · rw [update_of_ne same] at done
      exact others q done
  · rintro ⟨set, all⟩
    refine ⟨fun equal => all p (by rw [update_self]; exact now) equal.symm, set, fun q done => ?_⟩
    have apart : q ≠ p := by
      intro same
      rw [same, before] at done
      cases done
    exact all q (by rw [update_of_ne apart]; exact done)

/-! ## The steps of the calls -/

theorem Orderly.set (orderly : Orderly setup s) (call : s'.call = update s.call p after)
    (shape : after.stage ≠ .idle → after.key = setup.key ∧ after.freeing)
    (bits : inside after.stage → after.bits = [setup.bit p])
    (holder : ∀ q, inside (s'.call q).stage → s'.bgdLock setup.group = some q)
    (detached : s'.detached = s.detached ∧ s'.halfway = s.halfway) (counts : Counts setup s')
    (settled : after.stage = .settled → after.acked) : Orderly setup s' := by
  constructor
  case shape =>
    rw [call]
    exact (forall_update_iff s.call fun _ call => call.stage ≠ .idle →
      call.key = setup.key ∧ call.freeing).mpr ⟨shape, fun q _ => orderly.shape q⟩
  case bits =>
    rw [call]
    exact (forall_update_iff s.call fun q call => inside call.stage →
      call.bits = [setup.bit q]).mpr ⟨bits, fun q _ => orderly.bits q⟩
  case holder => exact holder
  case detached =>
    rw [detached.1, detached.2]
    exact orderly.detached
  case counts => exact counts
  case settled =>
    rw [call]
    exact (forall_update_iff s.call fun _ call => call.stage = .settled →
      call.acked).mpr ⟨settled, fun q _ => orderly.settled q⟩

theorem Orderly.move (orderly : Orderly setup s) (call : s'.call = update s.call p after)
    (shape : after.key = setup.key ∧ after.freeing)
    (bits : inside after.stage → after.bits = [setup.bit p])
    (holder : ∀ q, inside (s'.call q).stage → s'.bgdLock setup.group = some q)
    (detached : s'.detached = s.detached ∧ s'.halfway = s.halfway)
    (device : s'.disk = s.disk ∧ s'.working = s.working ∧ s'.phase = s.phase ∧ s'.free = s.free)
    (acked : after.acked → (s.call p).acked)
    (settled : after.stage = .settled → after.acked) : Orderly setup s' := by
  obtain ⟨disk, working, phase, free⟩ := device
  refine orderly.set call (fun _ => shape) bits holder detached
    (orderly.counts.imp disk working phase free ?_) settled
  rw [call]
  exact (forall_update_iff s.call fun q call => call.acked →
    ∃ q, (s.call q).acked).mpr ⟨fun done => ⟨p, acked done⟩, fun q _ done => ⟨q, done⟩⟩

theorem Orderly.holder_update (orderly : Orderly setup s)
    (free : s'.bgdLock setup.group = s.bgdLock setup.group ∨ s.bgdLock setup.group = none ∨
      inside (s.call p).stage) (lock : inside after.stage → s'.bgdLock setup.group = some p) (q : Nat)
    (inner : inside (update s.call p after q).stage) : s'.bgdLock setup.group = some q := by
  by_cases mine : q = p
  · subst mine
    rw [update_self] at inner
    exact lock inner
  · rw [update_of_ne mine] at inner
    rcases free with same | free | held
    · exact same.trans (orderly.holder q inner)
    · rw [orderly.holder q inner] at free
      cases free
    · exact absurd (orderly.alone inner held) mine

theorem Current.congr (current : Current setup start s)
    (same : ∀ q, past (s'.call q).stage = past (s.call q).stage)
    (reads : ∀ q, (s'.call q).stage = .read → s.queue setup.group = [] ∧ (s'.call q).image = s.disk setup.key)
    (chose : ∀ q, (s'.call q).stage = .chosen ↔ (s.call q).stage = .chosen)
    (image : ∀ q, (s.call q).stage = .chosen → (s'.call q).image = (s.call q).image)
    (device : s'.queue = s.queue ∧ s'.disk = s.disk) : Current setup start s' := by
  obtain ⟨queue, disk⟩ := device
  constructor
  case reading =>
    rw [queue, disk]
    exact reads
  case chosen =>
    intro q chosen
    obtain ⟨empty, lacks⟩ := current.chosen q ((chose q).mp chosen)
    rw [queue, image q ((chose q).mp chosen)]
    exact ⟨empty, lacks.congr same⟩
  case queued =>
    rw [queue]
    intro waiting
    obtain ⟨t, only, key, lacks⟩ := current.queued waiting
    exact ⟨t, only, key, lacks.congr same⟩
  case written =>
    rw [queue, disk]
    exact fun empty none => (current.written empty fun q chosen => none q ((chose q).mpr chosen)).congr same

theorem Current.move (current : Current setup start s) (call : s'.call = update s.call p after)
    (same : past after.stage = past (s.call p).stage) (was : (s.call p).stage ≠ .chosen)
    (is : after.stage ≠ .chosen) (device : s'.queue = s.queue ∧ s'.disk = s.disk)
    (reads : after.stage = .read → s.queue setup.group = [] ∧ after.image = s.disk setup.key) :
    Current setup start s' := by
  have all (P : Nat → Call → Prop) (here : P p after) (there : ∀ q, q ≠ p → P q (s.call q)) (q : Nat) :
      P q (s'.call q) := by
    rw [call]
    exact (forall_update_iff s.call P).mpr ⟨here, there⟩ q
  refine current.congr (all (fun q call => past call.stage = past (s.call q).stage) same fun _ _ => rfl)
    (all (fun _ call => call.stage = .read → s.queue setup.group = [] ∧ call.image = s.disk setup.key) reads
      fun q _ => current.reading q)
    (all (fun q call => call.stage = .chosen ↔ (s.call q).stage = .chosen) (iff_of_false is was)
      fun _ _ => Iff.rfl)
    (all (fun q call => (s.call q).stage = .chosen → call.image = (s.call q).image)
      (fun chosen => absurd chosen was) fun _ _ _ => rfl) device

theorem Orderly.only (orderly : Orderly setup s) (call : s'.call = update s.call p after)
    (inner : inside (s.call p).stage) (q : Nat) (also : inside (s'.call q).stage) : q = p := by
  by_contra mine
  rw [call, update_of_ne mine] at also
  exact mine (orderly.alone also inner)

/-- Merging, when nothing is reserved: the call has the bitmap of the device without its own bit. -/
theorem Current.prepare (current : Current setup start s) (orderly : Orderly setup s)
    (call : s'.call = update s.call p after) (reads : (s.call p).stage = .read)
    (chooses : after.stage = .chosen)
    (cleared : after.image = fun i => decide (i ∉ [setup.bit p]) && s.disk setup.key i)
    (queue : s'.queue = s.queue) : Current setup start s' := by
  obtain ⟨empty, _⟩ := current.reading p reads
  have inner : inside (s.call p).stage := by rw [reads]; rfl
  -- Nobody else has a bitmap in hand.
  have only := orderly.only call inner
  have self : s'.call p = after := by rw [call, update_self]
  constructor
  case reading =>
    intro q reading
    have mine := only q (by rw [reading]; rfl)
    rw [mine, self, chooses] at reading
    cases reading
  case chosen =>
    intro q chose
    have mine := only q (by rw [chose]; rfl)
    subst mine
    have device : Lacks setup start s.call (s.disk setup.key) := by
      refine current.written empty fun q chosen => ?_
      have mine := orderly.alone (by rw [chosen]; rfl) inner
      rw [mine, reads] at chosen
      cases chosen
    rw [queue, self, cleared, call]
    exact ⟨empty, device.clear (by rw [reads]; rfl) (by rw [chooses]; rfl)⟩
  case queued =>
    rw [queue]
    exact fun waiting => absurd empty waiting
  case written =>
    intro _ none
    exact absurd (by rw [self, chooses]) (none p)

theorem Current.handOver (current : Current setup start s) (orderly : Orderly setup s)
    (call : s'.call = update s.call p after) (chose : (s.call p).stage = .chosen)
    (hands : after.stage = .enqueued) (key : t.key = setup.key) (snapshot : t.snapshot = (s.call p).image)
    (queue : s'.queue setup.group = [t]) : Current setup start s' := by
  obtain ⟨_, lacks⟩ := current.chosen p chose
  have inner : inside (s.call p).stage := by rw [chose]; rfl
  have only := orderly.only call inner
  have self : s'.call p = after := by rw [call, update_self]
  have sameAll : ∀ q, past (s'.call q).stage = past (s.call q).stage := by
    rw [call]
    exact (forall_update_iff s.call fun q call => past call.stage = past (s.call q).stage).mpr
      ⟨by rw [hands, chose]; rfl, fun _ _ => rfl⟩
  constructor
  case reading =>
    intro q reading
    rw [only q (by rw [reading]; rfl), self, hands] at reading
    cases reading
  case chosen =>
    intro q chosen
    rw [only q (by rw [chosen]; rfl), self, hands] at chosen
    cases chosen
  case queued => exact fun _ => ⟨t, queue, key, snapshot ▸ lacks.congr sameAll⟩
  case written =>
    intro empty
    rw [queue] at empty
    cases empty

def Tidy (setup : Setup) (start : Bits) (s : State) : Prop := Orderly setup s ∧ Current setup start s

theorem Tidy.advance (tidy : Tidy setup start s) {next : Alloc.State} {given : Nat → Nat}
    (apart : Apart setup (.next p) s) (taken : s.advance ⟨setup.size, 0⟩ p = some next) :
    Tidy setup start { s with toState := next, given := given } := by
  obtain ⟨orderly, current⟩ := tidy
  obtain ⟨key, freeing⟩ := orderly.shape p fun idle => by simp [Alloc.State.advance, idle] at taken
  have bits := orderly.bits p
  have held := orderly.holder p
  cases stage : (s.call p).stage with
  | idle => simp [Alloc.State.advance, stage] at taken
  | settled => simp [Alloc.State.advance, stage] at taken
  | locked =>
    simp only [Apart, stage] at apart
    simp only [Alloc.State.advance, stage, Option.some.injEq] at taken
    subst taken
    rw [stage] at bits held
    refine ⟨orderly.move rfl ⟨key, freeing⟩ (fun _ => bits rfl) ?_ ⟨rfl, rfl⟩ ⟨rfl, rfl, rfl, rfl⟩ id
      Stage.noConfusion, current.move rfl (by rw [stage]; rfl) (by rw [stage]; exact Stage.noConfusion)
      Stage.noConfusion ⟨rfl, rfl⟩ fun _ => ⟨apart.1, by rw [← key]⟩⟩
    exact orderly.holder_update (.inl rfl) fun _ => held rfl
  | read =>
    simp only [Apart, stage] at apart
    simp only [Alloc.State.advance, stage, freeing, if_true, Option.some.injEq] at taken
    subst taken
    have read := (current.reading p stage).2
    rw [stage] at bits held
    refine ⟨orderly.move rfl ⟨key, rfl⟩ (fun _ => bits rfl) ?_ ⟨rfl, rfl⟩ ⟨rfl, rfl, rfl, rfl⟩ id
      Stage.noConfusion, current.prepare orderly rfl stage rfl ?_ rfl⟩
    · exact orderly.holder_update (.inl rfl) fun _ => held rfl
    · funext i
      simp only [Alloc.State.merged, bits rfl, read, key, apart, Option.isSome_none, Bool.or_false]
  | chosen =>
    obtain ⟨empty, _⟩ := current.chosen p stage
    have room : (s.queue (s.call p).key.group).length < queueCapacity := by
      rw [key]
      exact empty ▸ (by decide)
    simp only [Alloc.State.advance, stage, Alloc.State.enqueue, if_pos room, Option.some.injEq] at taken
    subst taken
    rw [stage] at bits held
    refine ⟨orderly.move rfl ⟨key, freeing⟩ (fun _ => bits rfl) ?_ ⟨rfl, rfl⟩ ⟨rfl, rfl, rfl, rfl⟩ id
      Stage.noConfusion, current.handOver orderly rfl stage rfl
        (t := ⟨p, (s.call p).key, (s.call p).image, s.commitTaskSeq + 1⟩) key rfl ?_⟩
    · exact orderly.holder_update (.inl rfl) fun _ => held rfl
    · have group : (s.call p).key.group = setup.group := congrArg Key.group key
      dsimp only
      rw [group, update_self, empty, List.nil_append]
  | enqueued =>
    simp only [Alloc.State.advance, stage, Option.some.injEq] at taken
    subst taken
    rw [stage] at bits held
    refine ⟨orderly.move rfl ⟨key, freeing⟩ (fun _ => bits rfl) ?_ ⟨rfl, rfl⟩ ⟨rfl, rfl, rfl, rfl⟩ id
      Stage.noConfusion, current.move rfl (by rw [stage]; rfl) (by rw [stage]; exact Stage.noConfusion)
      Stage.noConfusion ⟨rfl, rfl⟩ Stage.noConfusion⟩
    exact orderly.holder_update (.inl rfl) fun _ => held rfl
  | associated =>
    simp only [Alloc.State.advance, stage, Option.some.injEq] at taken
    subst taken
    refine ⟨orderly.move rfl ⟨key, freeing⟩ Bool.noConfusion ?_ ⟨rfl, rfl⟩ ⟨rfl, rfl, rfl, rfl⟩ id
      Stage.noConfusion, current.move rfl (by rw [stage]; rfl) (by rw [stage]; exact Stage.noConfusion)
      Stage.noConfusion ⟨rfl, rfl⟩ Stage.noConfusion⟩
    exact orderly.holder_update (.inr (.inr (by rw [stage]; rfl))) Bool.noConfusion
  | waiting =>
    simp only [Alloc.State.advance, stage] at taken
    split at taken
    next done =>
      cases taken
      refine ⟨orderly.move rfl ⟨key, freeing⟩ Bool.noConfusion ?_ ⟨rfl, rfl⟩ ⟨rfl, rfl, rfl, rfl⟩ id
        fun _ => done, current.move rfl (by rw [stage]; rfl) (by rw [stage]; exact Stage.noConfusion)
        Stage.noConfusion ⟨rfl, rfl⟩ Stage.noConfusion⟩
      exact orderly.holder_update (.inl rfl) Bool.noConfusion
    next => cases taken

/-! ## The steps of the worker -/

theorem Current.same (current : Current setup start s)
    (call : ∀ q, (s'.call q).stage = (s.call q).stage ∧ (s'.call q).image = (s.call q).image)
    (queue : s'.queue = s.queue) (disk : s'.disk = s.disk) : Current setup start s' :=
  current.congr (fun q => by rw [(call q).1])
    (fun q => by rw [(call q).1, (call q).2]; exact current.reading q) (fun q => by rw [(call q).1])
    (fun q _ => (call q).2) ⟨queue, disk⟩

theorem Current.write (current : Current setup start s) {rest : List Task}
    (queue : s.queue setup.group = t :: rest) (call : s'.call = s.call) (left : s'.queue setup.group = rest)
    (disk : s'.disk = update s.disk t.key t.snapshot) : Current setup start s' := by
  obtain ⟨only, single, key, lacks⟩ := current.queued (by rw [queue]; exact List.cons_ne_nil _ _)
  rw [queue] at single
  obtain ⟨rfl, rfl⟩ := List.cons.inj single
  constructor
  case reading =>
    intro q reads
    rw [call] at reads
    have empty := (current.reading q reads).1
    rw [queue] at empty
    cases empty
  case chosen =>
    intro q chose
    rw [call] at chose
    have empty := (current.chosen q chose).1
    rw [queue] at empty
    cases empty
  case queued => exact fun waiting => absurd left waiting
  case written =>
    intro _ _
    rw [disk, ← key, update_self, call]
    exact lacks

theorem Orderly.answer (orderly : Orderly setup s)
    (call : s'.call = update s.call p { s.call p with acked := true })
    (lock : s'.bgdLock = s.bgdLock) (detached : s'.detached = s.detached ∧ s'.halfway = s.halfway)
    (working : s'.working setup.group = none)
    (exact : s'.free = clearCount setup.size (s'.disk setup.key) % 2 ^ setup.descBits) :
    Orderly setup s' := by
  refine orderly.set call (orderly.shape p) (orderly.bits p) ?_ detached ?_ fun _ => rfl
  · rw [call, lock]
    exact orderly.holder_update (.inl rfl) (orderly.holder p)
  · unfold Counts
    rw [working]
    exact fun _ => exact

theorem Tidy.work (tidy : Tidy setup start s) (taken : s.work setup = some s') : Tidy setup start s' := by
  obtain ⟨orderly, current⟩ := tidy
  have counts := orderly.counts
  unfold State.work at taken
  unfold Counts at counts
  cases busy : s.working setup.group with
  | none =>
    simp only [busy] at taken
    cases queue : s.queue setup.group with
    | nil => simp [queue] at taken
    | cons t rest =>
      simp only [queue, Option.some.injEq] at taken
      subst taken
      refine ⟨⟨orderly.shape, orderly.bits, orderly.holder, orderly.detached, ?_, orderly.settled⟩,
        current.write queue rfl (update_self _ _ _) rfl⟩
      unfold Counts
      dsimp only
      rw [update_self]
      trivial
  | some t =>
    simp only [busy] at taken counts
    cases phase : s.phase with
    | written =>
      simp only [phase, Option.some.injEq] at taken
      subst taken
      refine ⟨⟨orderly.shape, orderly.bits, orderly.holder, orderly.detached, ?_, orderly.settled⟩,
        current.same (fun _ => ⟨rfl, rfl⟩) rfl rfl⟩
      unfold Counts
      rw [busy]
    | counted free =>
      simp only [phase] at taken counts
      split at taken
      next unlocked =>
        cases taken
        refine ⟨⟨orderly.shape, orderly.bits, orderly.holder, orderly.detached, ?_, orderly.settled⟩,
          current.same (fun _ => ⟨rfl, rfl⟩) rfl rfl⟩
        unfold Counts
        rw [busy, counts]
      next => cases taken
    | described =>
      simp only [phase, Option.some.injEq] at taken counts
      subst taken
      refine ⟨orderly.answer rfl rfl ⟨rfl, rfl⟩ (update_self _ _ _) counts, current.same ?_ rfl rfl⟩
      exact (forall_update_iff s.call fun q call => call.stage = (s.call q).stage ∧
        call.image = (s.call q).image).mpr ⟨⟨rfl, rfl⟩, fun _ _ => ⟨rfl, rfl⟩⟩

/-! ## Whole runs -/

theorem Tidy.step (tidy : Tidy setup start s) {action : Action} (apart : Apart setup action s)
    (taken : Release.step setup action s = some s') : Tidy setup start s' := by
  cases action with
  | release p =>
    rw [Release.step] at taken
    split at taken
    next idle =>
      cases taken
      obtain ⟨orderly, current⟩ := tidy
      refine ⟨orderly.move rfl ⟨rfl, rfl⟩ (fun _ => rfl) ?_ ⟨rfl, rfl⟩ ⟨rfl, rfl, rfl, rfl⟩
        Bool.noConfusion Stage.noConfusion, current.move rfl (by rw [idle.1]; rfl)
        (by rw [idle.1]; exact Stage.noConfusion) Stage.noConfusion ⟨rfl, rfl⟩ Stage.noConfusion⟩
      exact orderly.holder_update (.inr (.inl idle.2)) fun _ => update_self _ _ _
    next => cases taken
  | next p =>
    obtain ⟨next, advanced, rfl⟩ := Option.map_eq_some_iff.mp taken
    exact tidy.advance apart advanced
  | work => exact tidy.work taken
  | detachedWrite i =>
    -- With at most one task in the queue none is ever detached.
    rw [Release.step, tidy.1.detached.1] at taken
    cases taken
  | detachedDescribe i =>
    rw [Release.step, tidy.1.detached.2] at taken
    cases taken

theorem tidy_opened (setup : Setup) (disk : Key → Bits) (free : Nat) :
    Tidy setup (disk setup.key) (opened disk free) := by
  have idle : ∀ p, ((opened disk free).call p).stage = .idle := fun _ => rfl
  refine ⟨⟨fun p busy => absurd (idle p) busy, fun _ => Bool.noConfusion, fun _ => Bool.noConfusion,
    ⟨rfl, rfl⟩, ?_, fun _ => Stage.noConfusion⟩, ⟨fun _ => Stage.noConfusion,
    fun _ => Stage.noConfusion, fun waiting => absurd rfl waiting, ?_⟩⟩
  · rintro ⟨_, acked⟩
    cases acked
  · intro _ _ i
    simp only [idle, past, Bool.false_eq_true, false_implies, implies_true, and_true]
    rfl

/-- Releases that keep apart are all kept: when everything has come to its end, the released bits are
clear on the device and the descriptor counts them. -/
theorem releases_kept {disk : Key → Bits} {free : Nat}
    (run : Machine.Reaches (Release.step setup) (Apart setup) (opened disk free) s)
    (finished : Finished setup s) : Kept setup s := by
  obtain ⟨orderly, current⟩ : Tidy setup (disk setup.key) s :=
    run.invariant (tidy_opened setup disk free) fun _ _ _ tidy apart taken => tidy.step apart taken
  constructor
  case clear =>
    intro p settled
    have lacks := current.written finished.queue fun q chose => by
      rcases finished.calls q with idle | ended
      · rw [idle] at chose; cases chose
      · rw [ended] at chose; cases chose
    by_contra set
    exact ((lacks _).mp (Bool.not_eq_false _ ▸ set)).2 p (by rw [settled]; rfl) rfl
  case exact =>
    rintro ⟨p, settled⟩
    have counts := orderly.counts
    unfold Counts at counts
    rw [finished.working] at counts
    have exact := counts ⟨p, orderly.settled p settled⟩
    rw [exact, Nat.mod_eq_of_lt (Nat.lt_of_le_of_lt (clearCount_le _ _) setup.fits)]

/-! ## Two releases -/

/-- A group of eight blocks, all in use; call `p` releases block `p`. -/
def sample : Setup := ⟨0, 8, 16, by decide, fun p => p⟩

def full : State := opened (fun _ _ => true) 0

def upToWait (p : Nat) : List Action :=
  [.release p, .next p, .next p, .next p, .next p, .next p]

def workOff : List Action := [.work, .work, .work, .work]

/-- The second call takes the lock before the worker has done anything for the first one. -/
def overlapping : List Action :=
  upToWait 0 ++ upToWait 1 ++ workOff ++ workOff ++ [.next 0, .next 1]

/-- Both calls return, and the block of the first one is in use again. -/
theorem first_release_lost : ∃ s, Machine.Reaches (Release.step sample) Machine.anyStep full s ∧
    Finished sample s ∧ (s.call 0).stage = .settled ∧ (s.call 1).stage = .settled ∧
    s.disk sample.key 0 ∧ s.disk sample.key 1 = false := by
  refine ⟨_, Machine.reaches_takeAll overlapping .start rfl, ⟨?_, rfl, rfl, rfl, rfl⟩, rfl, rfl, rfl, rfl⟩
  intro p
  match p with
  | 0 => exact .inr rfl
  | 1 => exact .inr rfl
  | p + 2 => exact .inl rfl

theorem two_releases_kept : ∃ s,
    Machine.Reaches (Release.step sample) (Apart sample) full s ∧ (s.call 0).stage = .settled ∧
      (s.call 1).stage = .settled ∧ Kept sample s := by
  have opened : Machine.Reaches (Release.step sample) (Apart sample) full full := .start
  have locked := Machine.Reaches.next (Action.release 0) opened trivial rfl
  have read := Machine.Reaches.next (Action.next 0) locked ⟨rfl, rfl⟩ rfl
  have merged := Machine.Reaches.next (Action.next 0) read (fun _ => rfl) rfl
  have queued := Machine.Reaches.next (Action.next 0) merged trivial rfl
  have associated := Machine.Reaches.next (Action.next 0) queued trivial rfl
  have unlocked := Machine.Reaches.next (Action.next 0) associated trivial rfl
  have written := Machine.Reaches.next Action.work unlocked trivial rfl
  have counted := Machine.Reaches.next Action.work written trivial rfl
  have described := Machine.Reaches.next Action.work counted trivial rfl
  have answered := Machine.Reaches.next Action.work described trivial rfl
  have returned := Machine.Reaches.next (Action.next 0) answered trivial rfl
  -- The first release has dropped its reservation.
  have locked' := Machine.Reaches.next (Action.release 1) returned trivial rfl
  have read' := Machine.Reaches.next (Action.next 1) locked' ⟨rfl, rfl⟩ rfl
  have merged' := Machine.Reaches.next (Action.next 1) read' (fun | 0 => rfl | _ + 1 => rfl) rfl
  have queued' := Machine.Reaches.next (Action.next 1) merged' trivial rfl
  have associated' := Machine.Reaches.next (Action.next 1) queued' trivial rfl
  have unlocked' := Machine.Reaches.next (Action.next 1) associated' trivial rfl
  have written' := Machine.Reaches.next Action.work unlocked' trivial rfl
  have counted' := Machine.Reaches.next Action.work written' trivial rfl
  have described' := Machine.Reaches.next Action.work counted' trivial rfl
  have answered' := Machine.Reaches.next Action.work described' trivial rfl
  have returned' := Machine.Reaches.next (Action.next 1) answered' trivial rfl
  refine ⟨_, returned', rfl, rfl, releases_kept returned' ⟨?_, rfl, rfl, rfl, rfl⟩⟩
  intro p
  match p with
  | 0 => exact .inr rfl
  | 1 => exact .inr rfl
  | p + 2 => exact .inl rfl

end Ext4.Alloc.Release
