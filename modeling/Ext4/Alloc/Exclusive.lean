import Mathlib.Data.List.Basic
import Ext4.Alloc.Dispatcher

/-! Why the dispatcher does not hand out a bit twice, as long as a call never meets its own
number in the table of acknowledged numbers before its task is done. -/

namespace Ext4.Alloc
open Machine List Function

/-! ## The invariant -/

@[grind] def Stage.inside : Stage → Bool
  | .locked | .read | .chosen | .enqueued | .associated => true
  | .idle | .waiting | .settled => false

@[grind] def Stage.reserving : Stage → Bool
  | .chosen | .enqueued | .associated | .waiting => true
  | .idle | .locked | .read | .settled => false

@[grind] def Stage.sent : Stage → Bool
  | .enqueued | .associated | .waiting | .settled => true
  | .idle | .locked | .read | .chosen => false

theorem Stage.waiting_of {stage : Stage} (reserving : stage.reserving)
    (outside : stage.inside = false) : stage = .waiting := by
  revert reserving outside
  cases stage <;> decide

def Claims (s : State) (p : Nat) (key : Key) (bit : Nat) : Prop :=
  (s.call p).key = key ∧ (s.call p).freeing = false ∧ bit ∈ (s.call p).bits

def parties (tasks : List Task) : List Nat := tasks.map Task.party

structure Inv (s : State) : Prop where
  lock : ∀ p, (s.call p).stage.inside → s.bgdLock (s.call p).key.group = some p
  distinct : ∀ p, (s.call p).bits.Nodup
  exclusive : ∀ p q b, (s.call p).key = (s.call q).key → b ∈ (s.call p).bits →
    b ∈ (s.call q).bits → p = q
  empty : ∀ p, (s.call p).stage = .idle ∨
    ((s.call p).freeing = false ∧ ((s.call p).stage = .locked ∨ (s.call p).stage = .read)) ∨
    ((s.call p).freeing ∧ (s.call p).stage = .settled) → (s.call p).bits = []
  reserved : ∀ p, (s.call p).stage.reserving → ∀ b ∈ (s.call p).bits,
    (s.reserved (s.call p).key b).isSome
  tasks : ∀ g t, (t ∈ s.queue g ∨ s.working g = some t) → t.key.group = g ∧
    (s.call t.party).key = t.key ∧ (s.call t.party).acked = false ∧
    (s.call t.party).stage.sent ∧ (s.call t.party).stage.reserving
  unique : ∀ g, (parties (s.queue g)).Nodup ∧
    ∀ t, s.working g = some t → t.party ∉ parties (s.queue g)
  /-- A queued task that is not ahead of the call's own task keeps the call's bits set. -/
  covered : ∀ p key b, Claims s p key b → (s.call p).stage.sent → ∀ front t back,
    s.queue key.group = front ++ t :: back → t.key = key → p ∉ parties back → t.snapshot b
  onDisk : ∀ p key b, Claims s p key b → (s.call p).stage.sent →
    p ∉ parties (s.queue key.group) → s.disk key b
  /-- Between reading the block and merging the reservations no claimed bit can get lost. -/
  raw : ∀ p, (s.call p).stage = .read → ∀ q b, Claims s q (s.call p).key b →
    (s.call p).image b ∨ ((s.reserved (s.call p).key b).isSome ∧
      (s.call q).acked = false ∧ (s.call q).stage ≠ .settled)
  snapshot : ∀ p, (s.call p).stage = .chosen → ∀ q b, Claims s q (s.call p).key b →
    (s.call p).image b
  answered : ∀ p, (s.call p).acked → (s.call p).stage = .waiting ∨ (s.call p).stage = .settled
  numbered : ∀ p, (s.call p).stage = .enqueued → (s.call p).seq ≠ 0
  attached : s.detached = []

theorem inv_started (disk : Key → Bits) (journalNext : Nat) : Inv (started disk journalNext) := by
  constructor <;> simp [started, Call.none, Stage.inside, Stage.reserving, Claims, parties]

variable {q : Nat}

theorem Inv.alone {s : State} (inv : Inv s) {p : Nat} (inP : (s.call p).stage.inside)
    (inQ : (s.call q).stage.inside)
    (same : (s.call p).key.group = (s.call q).key.group) : p = q := by
  have holdsP := inv.lock p inP
  have holdsQ := inv.lock q inQ
  rw [same, holdsQ] at holdsP
  exact (Option.some.inj holdsP).symm

/-! ## Entering and leaving a group -/

variable {geometry : Geometry}

section Steps
variable {s : State} {p b : Nat} {bits : List Nat} {call : Call}

theorem Inv.allocLock (inv : Inv s) {key : Key} {n : Nat} (idle : (s.call p).stage = .idle)
    (free : s.bgdLock key.group = none) :
    Inv ((s.setCall p { Call.none with stage := .locked, key := key, need := n }).setLock
      key.group (some p)) := by
  cases inv
  constructor
  all_goals simp only [State.setCall, State.setLock, update_apply, Claims, Call.none] at *
  all_goals grind

/-- Freeing moves a bit from the allocation that returned it to the call that frees it. -/
theorem Inv.freeLock (inv : Inv s) {bit : Nat} (idle : (s.call p).stage = .idle)
    (free : s.bgdLock (s.call q).key.group = none) (settled : (s.call q).stage = .settled)
    (allocation : (s.call q).freeing = false) (mem : bit ∈ (s.call q).bits) :
    Inv (((s.setCall q { s.call q with bits := (s.call q).bits.erase bit }).setCall p
      { Call.none with
        stage := .locked
        key := (s.call q).key
        freeing := true
        bits := [bit] }).setLock (s.call q).key.group (some p)) := by
  cases inv
  constructor
  all_goals simp only [State.setCall, State.setLock, update_apply, Claims, Call.none] at *
  all_goals grind

theorem Inv.giveUp (inv : Inv s)
    (waiting : (s.call p).stage = .locked ∨ (s.call p).stage = .read)
    (allocation : (s.call p).freeing = false) :
    Inv ((s.setCall p Call.none).setLock (s.call p).key.group none) := by
  cases inv
  constructor
  all_goals simp only [State.setCall, State.setLock, update_apply, Claims, Call.none] at *
  all_goals grind

theorem Inv.release (inv : Inv s) (now : (s.call p).stage = .associated) :
    Inv ((s.setCall p { s.call p with stage := .waiting }).setLock (s.call p).key.group none) := by
  cases inv
  constructor
  all_goals simp only [State.setCall, State.setLock, update_apply, Claims] at *
  all_goals grind

/-! ## Choosing bits -/

theorem Inv.visible (inv : Inv s) (locked : (s.call p).stage = .locked)
    (claims : Claims s q (s.call p).key b) :
    s.disk (s.call p).key b ∨ ((s.reserved (s.call p).key b).isSome ∧
      (s.call q).acked = false ∧ (s.call q).stage ≠ .settled) := by
  obtain ⟨key, allocation, mem⟩ := claims
  by_cases sent : (s.call q).stage.sent
  · by_cases queued : q ∈ parties (s.queue (s.call p).key.group)
    · right
      obtain ⟨t, inQueue, rfl⟩ := mem_map.mp queued
      obtain ⟨_, _, unanswered, _, reserving⟩ := inv.tasks _ t (Or.inl inQueue)
      refine ⟨?_, unanswered, ?_⟩
      · rw [← key]
        exact inv.reserved _ reserving b mem
      · intro settled
        rw [settled] at reserving
        cases reserving
    · exact Or.inl (inv.onDisk q _ b ⟨key, allocation, mem⟩ sent queued)
  · -- A call that has chosen bits but not sent them holds the lock that `p` holds.
    exfalso
    cases stage : (s.call q).stage with
    | idle => rw [inv.empty q (Or.inl stage)] at mem; cases mem
    | locked => rw [inv.empty q (Or.inr (Or.inl ⟨allocation, Or.inl stage⟩))] at mem; cases mem
    | read => rw [inv.empty q (Or.inr (Or.inl ⟨allocation, Or.inr stage⟩))] at mem; cases mem
    | chosen =>
      have same := inv.alone (by rw [locked]; rfl) (by rw [stage]; rfl) (congrArg Key.group key.symm)
      rw [same, stage] at locked
      cases locked
    | enqueued | associated | waiting | settled => rw [stage] at sent; exact sent rfl

theorem Inv.readBlock (inv : Inv s) (now : (s.call p).stage = .locked) :
    Inv (s.setCall p { s.call p with stage := .read, image := s.disk (s.call p).key }) := by
  have visible := fun q b => inv.visible now (q := q) (b := b)
  cases inv
  constructor
  all_goals simp only [State.setCall, update_apply, Claims] at *
  all_goals grind

theorem reserveBits_spec (s : State) (key : Key) (bits : List Nat) (want : Bool) :
    ∃ table, s.reserveBits key bits want = { s with reserved := table } ∧
      ∀ other b, (table other b).isSome ↔
        (other = key ∧ b ∈ bits) ∨ (s.reserved other b).isSome := by
  refine ⟨_, rfl, fun other b => ?_⟩
  by_cases here : other = key
  · subst here
    by_cases mem : b ∈ bits <;> simp [mem]
  · simp [here]

theorem Inv.merged (inv : Inv s) (now : (s.call p).stage = .read) (other : q ≠ p)
    (same : (s.call q).key = (s.call p).key) (mem : b ∈ (s.call q).bits) :
    s.merged (s.call p) b := by
  rw [State.merged, Bool.or_eq_true]
  by_cases allocation : (s.call q).freeing = false
  · rcases inv.raw p now q b ⟨same, allocation, mem⟩ with image | ⟨reserved, _⟩
    · exact Or.inl image
    · exact Or.inr reserved
  · right
    rw [← same]
    apply inv.reserved q _ b mem
    have freeing : (s.call q).freeing := by simpa using allocation
    have outside : (s.call q).stage.inside → False := fun inside =>
      other (inv.alone inside (by rw [now]; rfl) (congrArg Key.group same))
    cases stage : (s.call q).stage with
    | idle => rw [inv.empty q (Or.inl stage)] at mem; cases mem
    | settled => rw [inv.empty q (Or.inr (Or.inr ⟨freeing, stage⟩))] at mem; cases mem
    | locked | read => exact absurd (by rw [stage]; rfl) outside
    | chosen | enqueued | associated | waiting => rfl

theorem Inv.reserve (inv : Inv s) (now : (s.call p).stage = .read) {want : Bool}
    {image : Bits} (nodup : bits.Nodup)
    (fresh : ∀ q, q ≠ p → (s.call q).key = (s.call p).key → ∀ b ∈ (s.call q).bits,
      b ∉ bits ∧ image b)
    (own : (s.call p).freeing = false → ∀ b ∈ bits, image b) :
    Inv ((s.reserveBits (s.call p).key bits want).setCall p
      { s.call p with stage := .chosen, bits := bits, image := image }) := by
  obtain ⟨table, reserve, isSome⟩ := reserveBits_spec s (s.call p).key bits want
  rw [reserve]
  cases inv
  constructor
  all_goals simp only [State.setCall, update_apply, Claims] at *
  all_goals grind

theorem choose_spec {bitmap : Bits}
    (found : choose geometry call bitmap = some bits) :
    bits.Nodup ∧ ∀ b ∈ bits, bitmap b = false := by
  unfold choose at found
  split at found
  · obtain ⟨nodup, _, clear⟩ := findFreeRun_spec found
    exact ⟨nodup, fun b mem => (clear b mem).1⟩
  · obtain ⟨b, bit, rfl⟩ := Option.map_eq_some_iff.mp found
    refine ⟨nodup_singleton b, fun c mem => ?_⟩
    rw [mem_singleton.mp mem]
    exact (findFreeBit_spec bit).1

theorem Inv.chooseFree (inv : Inv s) (now : (s.call p).stage = .read)
    (freeing : (s.call p).freeing) :
    Inv ((s.reserveBits (s.call p).key (s.call p).bits false).setCall p { s.call p with
      stage := .chosen
      image := fun i => decide (i ∉ (s.call p).bits) && s.merged (s.call p) i }) := by
  apply inv.reserve now (inv.distinct p)
  · intro q other same b mem
    have apart : b ∉ (s.call p).bits := fun mine => other (inv.exclusive q p b same mem mine)
    refine ⟨apart, ?_⟩
    rw [decide_eq_true apart, Bool.true_and]
    exact inv.merged now other same mem
  · intro allocation
    rw [freeing] at allocation
    cases allocation

theorem Inv.chooseAlloc (inv : Inv s) (now : (s.call p).stage = .read)
    (found : choose geometry (s.call p) (s.merged (s.call p)) = some bits) :
    Inv ((s.reserveBits (s.call p).key bits true).setCall p { s.call p with
      stage := .chosen, bits := bits, image := setBits bits (s.merged (s.call p)) }) := by
  obtain ⟨nodup, clear⟩ := choose_spec found
  apply inv.reserve now nodup
  · intro q other same b mem
    have used := inv.merged now other same mem
    refine ⟨fun mine => ?_, (setBits_apply _ _ b).mpr (Or.inr used)⟩
    rw [clear b mine] at used
    cases used
  · intro _ b mine
    exact (setBits_apply _ _ b).mpr (Or.inl mine)

/-! ## Handing the task over -/

theorem attachSeq_spec (s : State) (g seq : Nat) :
    ∃ table, s.attachSeq g seq = { s with reserved := table } ∧
      ∀ key b, (table key b).isSome = (s.reserved key b).isSome := by
  refine ⟨_, rfl, fun key b => ?_⟩
  split
  · exact Option.isSome_map
  · rfl

theorem Inv.enqueue (inv : Inv s) (now : (s.call p).stage = .chosen)
    (room : (s.queue (s.call p).key.group).length < queueCapacity) :
    Inv (s.enqueue p (s.call p)) := by
  obtain ⟨table, attach, isSome⟩ := attachSeq_spec s (s.call p).key.group (s.commitTaskSeq + 1)
  rw [State.enqueue, if_pos room, attach]
  obtain ⟨lock, distinct, exclusive, empty, reserved, tasks, unique, covered, onDisk, raw, snapshot,
    answered, numbered, attached⟩ := inv
  constructor
  case covered =>
    -- A task behind which `q` has nothing queued is the new one or was in the queue before.
    intro q key b claims sent front t back queue same behind
    by_cases here : key.group = (s.call p).key.group
    · simp only [here, update_self] at queue
      rcases append_singleton_eq queue with ⟨rfl, -, rfl⟩ | ⟨back', rfl, queue'⟩
      · apply snapshot p now q b
        simp only [State.setCall, update_apply, Claims] at claims same ⊢
        grind
      · have other : q ≠ p := by
          rintro rfl
          exact behind (by simp [parties])
        simp only [State.setCall, update_of_ne other, Claims] at claims sent
        refine covered q key b claims sent front t back' (here ▸ queue') same fun mem => behind ?_
        rw [parties, map_append]
        exact mem_append_left _ mem
    · have other : q ≠ p := by
        rintro rfl
        simp only [State.setCall, update_self, Claims] at claims
        exact here (congrArg Key.group claims.1.symm)
      simp only [State.setCall, update_of_ne other, update_of_ne here, Claims]
        at claims sent queue
      exact covered q key b claims sent front t back queue same behind
  all_goals simp only [State.setCall, update_apply, Claims, parties] at *
  all_goals grind

theorem associate_spec (s : State) (unanswered : call.acked = false)
    (numbered : call.seq ≠ 0) (unknown : s.ackedSeqs call.seq = false) :
    ∃ table, s.associate call = { s with reserved := table } ∧
      ∀ key b, (table key b).isSome = (s.reserved key b).isSome := by
  refine ⟨_, rfl, fun key b => ?_⟩
  by_cases here : key = call.key
  · subst here
    by_cases mem : b ∈ call.bits
    · cases entry : s.reserved call.key b <;>
        simp [unanswered, numbered, unknown, mem, entry]
    · simp [mem]
  · simp [here]

theorem Inv.associate (inv : Inv s) (now : (s.call p).stage = .enqueued)
    (unknown : s.ackedSeqs (s.call p).seq = false) :
    Inv ((s.associate (s.call p)).setCall p { s.call p with stage := .associated }) := by
  have unanswered : (s.call p).acked = false := by
    by_contra acked
    have stage := inv.answered p (by simpa using acked)
    rw [now] at stage
    rcases stage with stage | stage <;> cases stage
  obtain ⟨table, associate, isSome⟩ := associate_spec s unanswered (inv.numbered p now) unknown
  rw [associate]
  cases inv
  constructor
  all_goals simp only [State.setCall, update_apply, Claims] at *
  all_goals grind

theorem unreserveBits_spec (s : State) (key : Key) (bits : List Nat) :
    ∃ table, s.unreserveBits key bits = { s with reserved := table } ∧
      ∀ other b, ¬ (other = key ∧ b ∈ bits) → table other b = s.reserved other b := by
  refine ⟨_, rfl, fun other b outside => ?_⟩
  by_cases here : other = key
  · subst here
    simp [show b ∉ bits from fun mem => outside ⟨rfl, mem⟩]
  · simp [here]

theorem Inv.settle (inv : Inv s) (now : (s.call p).stage = .waiting)
    (acked : (s.call p).acked) :
    Inv ((s.unreserveBits (s.call p).key (s.call p).bits).setCall p { s.call p with
      stage := .settled, bits := if (s.call p).freeing then [] else (s.call p).bits }) := by
  obtain ⟨table, unreserve, kept⟩ := unreserveBits_spec s (s.call p).key (s.call p).bits
  have others : ∀ q b, q ≠ p → b ∈ (s.call q).bits →
      table (s.call q).key b = s.reserved (s.call q).key b := by
    intro q b other mem
    refine kept _ b fun mine => other (inv.exclusive q p b mine.1 mem mine.2)
  rw [unreserve]
  cases inv
  constructor
  all_goals simp only [State.setCall, update_apply, Claims] at *
  all_goals grind

/-! ## The worker -/

theorem Inv.write (inv : Inv s) {g : Nat} {t : Task} {rest : List Task}
    (idle : s.working g = none) (queue : s.queue g = t :: rest) :
    Inv { s.writeBitmap t with
      queue := update s.queue g rest
      working := update s.working g (some t) } := by
  have first := inv.tasks g t (Or.inl (by rw [queue]; exact mem_cons_self))
  obtain ⟨lock, distinct, exclusive, empty, reserved, tasks, unique, covered, onDisk, raw, snapshot,
    answered, numbered, attached⟩ := inv
  have cover := fun q b claims sent => covered q t.key b claims sent [] t rest
    (by rw [first.1, queue]; rfl) rfl
  constructor
  case covered =>
    intro q key b claims sent front u back rest' same behind
    by_cases here : key.group = g
    · apply covered q key b claims sent (t :: front) u back ?_ same behind
      simp only [here, update_self] at rest'
      rw [here, queue, rest']
      rfl
    · simp only [here, update_of_ne, ne_eq, not_false_eq_true] at rest'
      exact covered q key b claims sent front u back rest' same behind
  all_goals simp only [State.writeBitmap, update_apply, Claims, parties] at *
  all_goals grind

theorem Inv.acknowledge (inv : Inv s) {g : Nat} {t : Task} (working : s.working g = some t)
    (free : s.bgdLock g = none) :
    Inv { s.acknowledge t with working := update s.working g none } := by
  have current := inv.tasks g t (Or.inr working)
  have outside : ∀ q, (s.call q).key.group = g → (s.call q).stage.inside = false := by
    intro q here
    by_contra inside
    have holds := inv.lock q (by simpa using inside)
    rw [here, free] at holds
    cases holds
  have waiting : (s.call t.party).stage = .waiting := by
    apply Stage.waiting_of current.2.2.2.2
    exact outside t.party (by rw [current.2.1, current.1])
  cases inv
  constructor
  all_goals simp only [State.acknowledge, State.setCall, update_apply, Claims, parties] at *
  all_goals grind

end Steps

/-! ## Whole runs -/

/-- A call finds a place in the queue, and when it associates its number with its reservation
that number is not in the table of acknowledged numbers. -/
def Tame (a : Action) (s : State) : Prop :=
  match a with
  | .next p =>
      ((s.call p).stage = .chosen → (s.queue (s.call p).key.group).length < queueCapacity) ∧
      ((s.call p).stage = .enqueued → s.ackedSeqs (s.call p).seq = false)
  | _ => True

theorem Inv.advance {s t : State} {p : Nat} (inv : Inv s)
    (tame : Tame (.next p) s) (moved : s.advance geometry p = some t) : Inv t := by
  unfold State.advance at moved
  cases stage : (s.call p).stage <;> simp only [stage] at moved
  case idle | settled => cases moved
  case locked =>
    cases moved
    exact inv.readBlock stage
  case read =>
    split at moved
    next freeing =>
      cases moved
      exact inv.chooseFree stage freeing
    next allocation =>
      split at moved
      · cases moved
        exact inv.giveUp (Or.inr stage) (by simpa using allocation)
      next bits found =>
        cases moved
        exact inv.chooseAlloc stage found
  case chosen =>
    cases moved
    exact inv.enqueue stage (tame.1 stage)
  case enqueued =>
    cases moved
    exact inv.associate stage (tame.2 stage)
  case associated =>
    cases moved
    exact inv.release stage
  case waiting =>
    split at moved
    next acked =>
      cases moved
      exact inv.settle stage acked
    · cases moved

theorem Inv.work {s t : State} {g : Nat} (inv : Inv s) (moved : s.work g = some t) : Inv t := by
  unfold State.work at moved
  split at moved
  next task working =>
    split at moved
    next free =>
      cases moved
      exact inv.acknowledge working free
    · cases moved
  next idle =>
    split at moved
    · cases moved
    next task rest queue =>
      cases moved
      exact inv.write idle queue

theorem Inv.step {s t : State} {a : Action} (inv : Inv s) (tame : Tame a s)
    (moved : step geometry a s = some t) : Inv t := by
  cases a with
  | alloc p key n =>
    obtain ⟨enabled, ⟨⟩⟩ := Option.ite_none_right_eq_some.mp moved
    exact inv.allocLock enabled.1 enabled.2
  | free p q bit =>
    obtain ⟨⟨idle, free, settled, allocation, _, mem⟩, ⟨⟩⟩ :=
      Option.ite_none_right_eq_some.mp moved
    exact inv.freeLock idle free settled allocation mem
  | giveUp p =>
    obtain ⟨enabled, ⟨⟩⟩ := Option.ite_none_right_eq_some.mp moved
    exact inv.giveUp (Or.inl enabled.1) enabled.2
  | next p => exact inv.advance tame moved
  | work g => exact inv.work moved
  | detachedWrite i =>
    -- No task has been given to a goroutine of its own.
    rw [Alloc.step, inv.attached] at moved
    cases moved
  | journalStart =>
    cases moved
    exact { inv with }
  | journalMark seq =>
    obtain ⟨_, ⟨⟩⟩ := Option.ite_none_right_eq_some.mp moved
    exact { inv with }

theorem Inv.toExclusive {s : State} (inv : Inv s) : Exclusive s where
  once := by
    rintro p q key bit ⟨_, _, keyP, memberP⟩ ⟨_, _, keyQ, memberQ⟩
    exact inv.exclusive p q bit (keyP.trans keyQ.symm) memberP memberQ
  kept := by
    intro p stage _
    apply inv.reserved p
    revert stage
    cases (s.call p).stage <;> decide

/-- Whatever the schedule of allocations, releases, workers and journal commits, as long as no
call is told that its number is acknowledged while its task is still under way, no bit is
given to two owners and every reservation outlives its task. -/
theorem exclusive_of_tame (geometry : Geometry) (disk : Key → Bits) (journalNext : Nat) {s : State}
    (run : Reaches (step geometry) Tame (started disk journalNext) s) : Exclusive s :=
  (run.invariant (inv_started disk journalNext) fun _ _ _ inv tame moved =>
    inv.step tame moved).toExclusive

instance (a : Action) (s : State) : Decidable (Tame a s) :=
  match a with
  | .next _ => inferInstanceAs (Decidable (_ ∧ _))
  | .alloc .. | .free .. | .giveUp _ | .work _ | .detachedWrite _ | .journalStart
  | .journalMark _ => isTrue trivial

instance (s : State) (p : Nat) (key : Key) (bit : Nat) : Decidable (Returned s p key bit) :=
  inferInstanceAs (Decidable (_ ∧ _ ∧ _ ∧ _))

def small : Geometry := ⟨8, 8⟩

def fresh : State := started (fun _ _ => false) 1

def allocRun (p : Nat) : List Action :=
  .alloc p ⟨0, true⟩ 1 :: replicate 5 (.next p)

/-- One allocation after another; the second block is freed and given to a third call. -/
def oneByOne : List Action :=
  allocRun 0 ++ [.work 0, .work 0, .next 0] ++ allocRun 1 ++ [.work 0, .work 0, .next 1] ++
    [.free 2 1 1] ++ replicate 5 (.next 2) ++ [.work 0, .work 0, .next 2] ++
    allocRun 3 ++ [.work 0, .work 0, .next 3]

theorem oneByOne_enabled : (takeAll (step small) oneByOne fresh).isSome := by
  decide

theorem oneByOne_exclusive : ∃ s, takeAll (step small) oneByOne fresh = some s ∧
    Returned s 0 ⟨0, true⟩ 0 ∧ Returned s 3 ⟨0, true⟩ 1 ∧ Exclusive s := by
  have taken := (Option.some_get oneByOne_enabled).symm
  have tame : allowedAll (step small) Tame oneByOne fresh := by decide
  refine ⟨_, taken, by decide, by decide, ?_⟩
  exact exclusive_of_tame small _ 1 (reaches_of_allowedAll oneByOne .start tame taken)

/-- A journal commit has marked number 1 before the dispatcher gives it to call 0. -/
def collision : List Action :=
  [.journalStart, .journalMark 1] ++ allocRun 0 ++ allocRun 1 ++
    [.work 0, .work 0, .next 0, .work 0, .work 0, .next 1]

theorem collision_enabled : (takeAll (step small) collision fresh).isSome := by
  decide

theorem collision_shares_block : ∃ s, Reaches (step small) anyStep fresh s ∧
    Returned s 0 ⟨0, true⟩ 0 ∧ Returned s 1 ⟨0, true⟩ 0 ∧ ¬ Exclusive s := by
  have run := reaches_takeAll collision .start (Option.some_get collision_enabled).symm
  have first : Returned (Option.get _ collision_enabled) 0 ⟨0, true⟩ 0 := by decide
  have second : Returned (Option.get _ collision_enabled) 1 ⟨0, true⟩ 0 := by decide
  refine ⟨_, run, first, second, fun exclusive => ?_⟩
  cases exclusive.once 0 1 _ _ first second

end Ext4.Alloc
