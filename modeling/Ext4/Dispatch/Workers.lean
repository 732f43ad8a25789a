import Mathlib.Data.List.Infix
import Mathlib.Logic.Function.Basic
import Ext4.Library.Machine

/-! The workers of the commit dispatcher, for one file and one group.
An enqueue call looks its worker up in the registry, or makes one, and later puts its batch into the
channel of that worker; when the channel is full it hands the batch to a goroutine of its own. A
worker that has been idle for long enough takes itself out of the registry and ends. -/

namespace Ext4.Dispatch
open List Function

variable {ω σ : Type}

structure Batch (ω : Type) where
  call : Nat
  ops : List ω
  deriving DecidableEq

structure Event (ω : Type) where
  batch : Batch ω
  index : Nat
  /-- By a worker, which counts the bitmaps anew before it writes a descriptor. -/
  counted : Bool
  deriving DecidableEq

structure Worker (ω : Type) where
  queue : List (Batch ω)
  /-- The task in hand and how many of its operations are written. -/
  current : Option (Batch ω × Nat)
  running : Bool

def Worker.none : Worker ω := ⟨[], .none, false⟩

/-- A call that has got its worker from `ensureCommitWorker` and has not sent yet. -/
structure Held (ω : Type) where
  worker : Nat
  batch : Batch ω

structure State (ω : Type) where
  worker : Nat → Worker ω
  /-- Workers are numbered in the order in which they are made. -/
  made : Nat
  /-- `commitWorkers[key]`. -/
  registered : Option Nat
  calls : Nat
  held : List (Held ω)
  /-- Batches that found the channel full, with the operations written. -/
  detached : List (Batch ω × Nat)
  /-- The batches in the order in which their calls let go of them. -/
  accepted : List (Batch ω)
  log : List (Event ω)

def started : State ω := ⟨fun _ => .none, 0, .none, 0, [], [], [], []⟩

inductive Action (ω : Type) where
  /-- `ensureCommitWorker`. -/
  | ensure (ops : List ω)
  /-- The `select` of call number `i` of those that hold a worker. -/
  | send (i : Nat)
  | receive (w : Nat)
  /-- The worker writes the next operation, or sends its answer when there is none. -/
  | work (w : Nat)
  /-- The idle timer has fired and the worker looks at the registry. -/
  | timeout (w : Nat)
  | detachedWrite (i : Nat)

def State.setWorker (s : State ω) (w : Nat) (worker : Worker ω) : State ω :=
  { s with worker := update s.worker w worker }

def State.hold (s : State ω) (w : Nat) (ops : List ω) : State ω :=
  { s with calls := s.calls + 1, held := s.held ++ [⟨w, ⟨s.calls, ops⟩⟩] }

def State.ensure (s : State ω) (ops : List ω) : State ω :=
  match s.registered with
  | some w => s.hold w ops
  | none =>
      { (s.setWorker s.made ⟨[], none, true⟩).hold s.made ops with
        made := s.made + 1
        registered := some s.made }

def State.send (capacity : Nat) (s : State ω) (i : Nat) (h : Held ω) : State ω :=
  let s := { s with held := s.held.eraseIdx i, accepted := s.accepted ++ [h.batch] }
  let worker := s.worker h.worker
  if worker.queue.length < capacity then
    s.setWorker h.worker { worker with queue := worker.queue ++ [h.batch] }
  else { s with detached := s.detached ++ [(h.batch, 0)] }

/-- `make(chan *commitTask, 1024)`. -/
def queueCapacity : Nat := 1024

def step (capacity : Nat) : Action ω → State ω → Option (State ω)
  | .ensure ops, s => some (s.ensure ops)
  | .send i, s => (s.held[i]?).map (s.send capacity i)
  | .receive w, s =>
      match (s.worker w).running, (s.worker w).current, (s.worker w).queue with
      | true, none, batch :: rest => some (s.setWorker w ⟨rest, some (batch, 0), true⟩)
      | _, _, _ => none
  | .work w, s =>
      match (s.worker w).current with
      | some (batch, n) =>
          if n < batch.ops.length then
            some { s.setWorker w { s.worker w with current := some (batch, n + 1) } with
              log := s.log ++ [⟨batch, n, true⟩] }
          else some (s.setWorker w { s.worker w with current := none })
      | none => none
  | .timeout w, s =>
      match (s.worker w).running, (s.worker w).current with
      | true, none =>
          if s.registered = some w then
            some { s.setWorker w { s.worker w with running := false } with registered := none }
          else some s
      | _, _ => none
  | .detachedWrite i, s =>
      match s.detached[i]? with
      | some (batch, n) =>
          if n < batch.ops.length then
            some { s with
              detached := s.detached.set i (batch, n + 1)
              log := s.log ++ [⟨batch, n, false⟩] }
          else some { s with detached := s.detached.eraseIdx i }
      | none => none

/-- The image after the writes of the log; what a worker writes also depends on the operations of
the batch that came before. -/
def State.image (worker : List ω → ω → σ → σ) (plain : ω → σ → σ) (start : σ) (s : State ω) : σ :=
  s.log.foldl (fun image e =>
    match e.batch.ops[e.index]? with
    | none => image
    | some op => if e.counted then worker (e.batch.ops.take e.index) op image else plain op image) start

def Batch.apply (worker : List ω → ω → σ → σ) (batch : Batch ω) (image : σ) : σ :=
  (range batch.ops.length).foldl (fun image n =>
    match batch.ops[n]? with
    | none => image
    | some op => worker (batch.ops.take n) op image) image

def Batch.events (batch : Batch ω) : List (Event ω) :=
  (range batch.ops.length).map fun n => ⟨batch, n, true⟩

def State.AtRest (s : State ω) : Prop :=
  (∀ w, (s.worker w).queue = [] ∧ (s.worker w).current = none) ∧ s.detached = []

def State.Stranded (s : State ω) : Prop :=
  ∃ w, (s.worker w).running = false ∧ (s.worker w).queue ≠ []

/-! ## Conditions on a step -/

/-- The idle timer of the registered worker fires when its channel is empty and no call is between
`ensureCommitWorker` and its send. -/
def Action.Patient : Action ω → State ω → Prop
  | .timeout w, s => s.registered = some w →
      (s.worker w).queue = [] ∧ ∀ h ∈ s.held, h.worker ≠ w
  | _, _ => True

def Action.Orderly (capacity : Nat) (action : Action ω) (s : State ω) : Prop :=
  action.Patient s ∧
    match action with
    | .send i => ∀ h ∈ s.held[i]?, (s.worker h.worker).queue.length < capacity
    | _ => True

instance [DecidableEq ω] (action : Action ω) (s : State ω) : Decidable (action.Patient s) := by
  cases action <;> unfold Action.Patient <;> infer_instance

instance [DecidableEq ω] (capacity : Nat) (action : Action ω) (s : State ω) :
    Decidable (action.Orderly capacity s) := by
  unfold Action.Orderly
  cases action <;> infer_instance

variable {capacity i : Nat} {s t : State ω} {action : Action ω} {h : Held ω}

/-! ## Who works -/

structure Kept (s : State ω) : Prop where
  running : ∀ w, s.registered = some w → (s.worker w).running
  retired : ∀ w, s.registered ≠ some w → s.worker w = .none
  held : ∀ h ∈ s.held, s.registered = some h.worker

theorem kept_started : Kept (started : State ω) where
  running _ registered := by cases registered
  retired _ _ := rfl
  held _ mem := by cases mem

section
variable (kept : Kept s)
include kept

theorem Kept.registered {w : Nat} (active : s.worker w ≠ .none) : s.registered = some w := by
  by_contra other
  exact active (kept.retired w other)

theorem Kept.of_running {w : Nat} (running : (s.worker w).running) : s.registered = some w := by
  refine kept.registered fun ended => ?_
  rw [ended] at running
  cases running

theorem Kept.setWorker {w : Nat} (registered : s.registered = some w) {worker : Worker ω}
    (running : worker.running) : Kept (s.setWorker w worker) where
  running v now := by
    have same : w = v := Option.some.inj (registered.symm.trans now)
    subst same
    change (update s.worker w worker w).running
    rwa [update_self]
  retired v other := by
    have different : v ≠ w := fun same => other (same ▸ registered)
    change update s.worker w worker v = .none
    rw [update_of_ne different]
    exact kept.retired v other
  held := kept.held

theorem Kept.ensure (ops : List ω) : Kept (s.ensure ops) := by
  unfold State.ensure
  cases registered : s.registered with
  | some w =>
    refine ⟨kept.running, kept.retired, fun h mem => ?_⟩
    rcases mem_append.mp mem with old | new
    · exact kept.held h old
    · rw [mem_singleton.mp new]
      exact registered
  | none =>
    refine ⟨?_, ?_, ?_⟩
    · rintro w ⟨⟩
      change (update s.worker s.made _ s.made).running
      rw [update_self]
    · intro w other
      have different : w ≠ s.made := fun same => other (congrArg some same.symm)
      change update s.worker s.made _ w = .none
      rw [update_of_ne different]
      exact kept.retired w (by rw [registered]; nofun)
    · intro h mem
      rcases mem_append.mp mem with old | new
      · have before := kept.held h old
        rw [registered] at before
        cases before
      · rw [mem_singleton.mp new]

theorem Kept.send (found : s.held[i]? = some h) : Kept (s.send capacity i h) := by
  have registered := kept.held h (mem_of_getElem? found)
  have lighter : Kept { s with held := s.held.eraseIdx i, accepted := s.accepted ++ [h.batch] } :=
    ⟨kept.running, kept.retired, fun h' mem => kept.held h' (mem_of_mem_eraseIdx mem)⟩
  unfold State.send
  dsimp only
  split
  · exact lighter.setWorker registered (kept.running _ registered)
  · exact ⟨lighter.running, lighter.retired, lighter.held⟩

theorem Kept.exit {w : Nat} (registered : s.registered = some w) (idle : (s.worker w).current = none)
    (empty : (s.worker w).queue = []) (unheld : ∀ h ∈ s.held, h.worker ≠ w) :
    Kept { s.setWorker w { s.worker w with running := false } with registered := none } where
  running _ now := by cases now
  retired v _ := by
    change update s.worker w _ v = .none
    by_cases here : v = w
    · rw [here, update_self]
      dsimp only
      rw [idle, empty]
      rfl
    · rw [update_of_ne here]
      exact kept.retired v fun now => here (Option.some.inj (now.symm.trans registered))
  held h mem := absurd (Option.some.inj ((kept.held h mem).symm.trans registered)) (unheld h mem)

theorem Kept.step (patient : action.Patient s) (taken : step capacity action s = some t) : Kept t := by
  cases action with
  | ensure ops =>
    cases taken
    exact kept.ensure ops
  | send i =>
    obtain ⟨h, found, rfl⟩ := Option.map_eq_some_iff.mp taken
    exact kept.send found
  | receive w =>
    simp only [step] at taken
    split at taken
    next running _ _ =>
      cases taken
      exact kept.setWorker (kept.of_running running) rfl
    · cases taken
  | work w =>
    simp only [step] at taken
    split at taken
    next batch n busy =>
      have registered : s.registered = some w := kept.registered fun ended => by
        rw [ended] at busy
        cases busy
      have going := kept.running w registered
      split at taken
      · cases taken
        have next : Kept (s.setWorker w { s.worker w with current := some (batch, n + 1) }) :=
          kept.setWorker registered going
        exact ⟨next.running, next.retired, next.held⟩
      · cases taken
        exact kept.setWorker registered going
    · cases taken
  | timeout w =>
    simp only [step] at taken
    split at taken
    next _ idle =>
      split at taken
      next registered =>
        cases taken
        obtain ⟨empty, unheld⟩ := patient registered
        exact kept.exit registered idle empty unheld
      · cases taken
        exact kept
    · cases taken
  | detachedWrite i =>
    simp only [step] at taken
    split at taken
    · split at taken <;>
      · cases taken
        exact ⟨kept.running, kept.retired, kept.held⟩
    · cases taken

theorem Kept.not_stranded : ¬ s.Stranded := by
  rintro ⟨w, ended, left⟩
  by_cases registered : s.registered = some w
  · rw [kept.running w registered] at ended
    cases ended
  · rw [kept.retired w registered] at left
    exact left rfl

end

/-- As long as no idle timer fires while a call is about to send to the worker or has sent to it,
no task is left with a worker that has ended. -/
theorem tasks_not_stranded
    (run : Machine.Reaches (step capacity) Action.Patient (started : State ω) s) : ¬ s.Stranded := by
  have kept : Kept s := run.invariant kept_started fun _ _ _ before patient taken =>
    before.step patient taken
  exact kept.not_stranded

def servedOnce : List (Action Nat) :=
  [.ensure [7], .send 0, .receive 0, .work 0, .work 0, .timeout 0]

theorem tasks_not_stranded_once : ∃ s,
    Machine.takeAll (step queueCapacity) servedOnce started = some s ∧ s.registered = none ∧ ¬ s.Stranded :=
  ⟨_, rfl, rfl, tasks_not_stranded (Machine.reaches_of_allowedAll servedOnce .start
    (by decide : Machine.allowedAll (step queueCapacity) Action.Patient servedOnce started) rfl)⟩

/-- The idle timer fires between the two steps of a call, which then sends to a worker that has
ended; a second call gets a new worker. -/
def lateSend : List (Action Nat) :=
  [.ensure [1], .timeout 0, .send 0, .ensure [2], .send 0, .receive 1, .work 1, .work 1]

theorem late_send_strands : ∃ s, Machine.takeAll (step queueCapacity) lateSend started = some s ∧
    s.Stranded ∧ s.held = [] :=
  ⟨_, rfl, ⟨0, rfl, by decide⟩, rfl⟩

/-! ## In which order -/

def Worker.rest (worker : Worker ω) : List (Event ω) :=
  match worker.current with
  | some (batch, n) => batch.events.drop n
  | .none => []

def Worker.left (worker : Worker ω) : List (Event ω) :=
  worker.rest ++ worker.queue.flatMap Batch.events

def State.left (s : State ω) : List (Event ω) :=
  match s.registered with
  | some w => (s.worker w).left
  | none => []

structure Ordered (s : State ω) : Prop extends Kept s where
  attached : s.detached = []
  events : s.log ++ s.left = s.accepted.flatMap Batch.events

variable {w n : Nat}

theorem State.left_of (registered : s.registered = some w) : s.left = (s.worker w).left := by
  rw [State.left, registered]

theorem State.left_setWorker (registered : s.registered = some w) (worker : Worker ω) :
    (s.setWorker w worker).left = worker.left := by
  rw [State.left_of (s := s.setWorker w worker) registered]
  change (update s.worker w worker w).left = worker.left
  rw [update_self]

section
variable (ordered : Ordered s) {batch : Batch ω}
include ordered

theorem Ordered.ensure (ops : List ω) : Ordered (s.ensure ops) := by
  refine ⟨ordered.toKept.ensure ops, ?_, ?_⟩
  · unfold State.ensure
    cases s.registered <;> exact ordered.attached
  · have events := ordered.events
    unfold State.ensure
    cases registered : s.registered with
    | some w => exact events
    | none =>
      rw [State.left, registered] at events
      have new : (⟨[], none, true⟩ : Worker ω).left = [] := rfl
      rw [State.left]
      change s.log ++ (update s.worker s.made _ s.made).left = s.accepted.flatMap Batch.events
      rwa [update_self, new]

theorem Ordered.send (found : s.held[i]? = some h)
    (room : (s.worker h.worker).queue.length < capacity) : Ordered (s.send capacity i h) := by
  have registered := ordered.held h (mem_of_getElem? found)
  have events := ordered.events
  refine ⟨ordered.toKept.send found, ?_, ?_⟩ <;> simp only [State.send, if_pos room]
  · exact ordered.attached
  · rw [State.left_setWorker (s := { s with
      held := s.held.eraseIdx i, accepted := s.accepted ++ [h.batch] }) registered]
    rw [State.left_of registered, Worker.left] at events
    change s.log ++ ((s.worker h.worker).rest ++
      ((s.worker h.worker).queue ++ [h.batch]).flatMap Batch.events) =
        (s.accepted ++ [h.batch]).flatMap Batch.events
    rw [flatMap_append, flatMap_append, ← events]
    simp only [append_assoc]

section
variable (registered : s.registered = some w)
include registered

theorem Ordered.receive (idle : (s.worker w).current = none)
    {rest : List (Batch ω)} (queue : (s.worker w).queue = batch :: rest) :
    Ordered (s.setWorker w ⟨rest, some (batch, 0), true⟩) := by
  refine ⟨ordered.toKept.setWorker registered rfl, ordered.attached, ?_⟩
  have events := ordered.events
  rw [State.left_of registered, Worker.left, Worker.rest, idle, queue] at events
  rw [State.left_setWorker registered]
  exact events

theorem Ordered.write
    (busy : (s.worker w).current = some (batch, n)) (more : n < batch.ops.length) :
    Ordered { s.setWorker w { s.worker w with current := some (batch, n + 1) } with
      log := s.log ++ [⟨batch, n, true⟩] } := by
  have next : Kept (s.setWorker w { s.worker w with current := some (batch, n + 1) }) :=
    ordered.toKept.setWorker registered (ordered.running w registered)
  have events := ordered.events
  have first : batch.events.drop n = ⟨batch, n, true⟩ :: batch.events.drop (n + 1) := by
    rw [drop_eq_getElem_cons (by simpa [Batch.events] using more)]
    simp [Batch.events]
  rw [State.left_of registered, Worker.left, Worker.rest, busy] at events
  dsimp only at events
  rw [first] at events
  refine ⟨⟨next.running, next.retired, next.held⟩, ordered.attached, ?_⟩
  have left : State.left { s.setWorker w { s.worker w with current := some (batch, n + 1) } with
      log := s.log ++ [⟨batch, n, true⟩] } = _ :=
    State.left_setWorker registered { s.worker w with current := some (batch, n + 1) }
  rw [left, append_assoc]
  exact events

theorem Ordered.finish
    (busy : (s.worker w).current = some (batch, n)) (done : ¬ n < batch.ops.length) :
    Ordered (s.setWorker w { s.worker w with current := none }) := by
  refine ⟨ordered.toKept.setWorker registered (ordered.running w registered), ordered.attached, ?_⟩
  have events := ordered.events
  have nothing : batch.events.drop n = [] :=
    drop_eq_nil_of_le (by simpa [Batch.events] using Nat.le_of_not_lt done)
  rw [State.left_of registered, Worker.left, Worker.rest, busy] at events
  dsimp only at events
  rw [nothing] at events
  rw [State.left_setWorker registered]
  exact events

theorem Ordered.exit (idle : (s.worker w).current = none)
    (empty : (s.worker w).queue = []) (unheld : ∀ h ∈ s.held, h.worker ≠ w) :
    Ordered { s.setWorker w { s.worker w with running := false } with registered := none } := by
  refine ⟨ordered.toKept.exit registered idle empty unheld, ordered.attached, ?_⟩
  have events := ordered.events
  rw [State.left_of registered, Worker.left, Worker.rest, idle, empty] at events
  exact events

end

theorem Ordered.step (orderly : action.Orderly capacity s)
    (taken : step capacity action s = some t) : Ordered t := by
  obtain ⟨patient, room⟩ := orderly
  cases action with
  | ensure ops =>
    cases taken
    exact ordered.ensure ops
  | send i =>
    obtain ⟨h, found, rfl⟩ := Option.map_eq_some_iff.mp taken
    exact ordered.send found (room h found)
  | receive w =>
    simp only [step] at taken
    split at taken
    next running idle queue =>
      cases taken
      exact ordered.receive (ordered.of_running running) idle queue
    · cases taken
  | work w =>
    simp only [step] at taken
    split at taken
    next batch n busy =>
      have registered : s.registered = some w := ordered.registered fun ended => by
        rw [ended] at busy
        cases busy
      split at taken
      next more =>
        cases taken
        exact ordered.write registered busy more
      next done =>
        cases taken
        exact ordered.finish registered busy done
    · cases taken
  | timeout w =>
    simp only [step] at taken
    split at taken
    next _ idle =>
      split at taken
      next registered =>
        cases taken
        obtain ⟨empty, unheld⟩ := patient registered
        exact ordered.exit registered idle empty unheld
      · cases taken
        exact ordered
    · cases taken
  | detachedWrite i =>
    simp [step, ordered.attached] at taken

end

theorem ordered_started : Ordered (started : State ω) := ⟨kept_started, rfl, rfl⟩

theorem ordered_of_run
    (run : Machine.Reaches (step capacity) (Action.Orderly capacity) (started : State ω) s) : Ordered s :=
  run.invariant ordered_started fun _ _ _ before orderly taken => before.step orderly taken

/-! ## What the image shows -/

theorem Batch.apply_eq (worker : List ω → ω → σ → σ) (plain : ω → σ → σ) (batch : Batch ω) (image : σ) :
    batch.events.foldl (fun image e =>
      match e.batch.ops[e.index]? with
      | none => image
      | some op => if e.counted then worker (e.batch.ops.take e.index) op image else plain op image)
      image = batch.apply worker image := by
  rw [Batch.events, foldl_map]
  rfl

theorem State.image_of_log (worker : List ω → ω → σ → σ) (plain : ω → σ → σ) (start : σ)
    {batches : List (Batch ω)} (log : s.log = batches.flatMap Batch.events) :
    s.image worker plain start = batches.foldl (fun image batch => batch.apply worker image) start := by
  rw [State.image, log, foldl_flatMap]
  exact congrArg (fun f => batches.foldl f start) (funext fun image => funext fun batch =>
    Batch.apply_eq worker plain batch image)

/-- The operations are written in the order in which their batches were accepted, each of them once,
and when nothing is left to be written the image is what the batches, applied one after another,
make of the image at the start. -/
theorem batches_in_order (worker : List ω → ω → σ → σ) (plain : ω → σ → σ) (start : σ)
    (run : Machine.Reaches (step capacity) (Action.Orderly capacity) (started : State ω) s) :
    s.log <+: s.accepted.flatMap Batch.events ∧ (s.AtRest → s.image worker plain start =
        s.accepted.foldl (fun image batch => batch.apply worker image) start) := by
  have ordered := ordered_of_run run
  refine ⟨⟨s.left, ordered.events⟩, fun rest => State.image_of_log worker plain start ?_⟩
  have nothing : s.left = [] := by
    unfold State.left
    split
    next w _ =>
      obtain ⟨empty, idle⟩ := rest.1 w
      simp [Worker.left, Worker.rest, empty, idle]
    · rfl
  rw [← ordered.events, nothing, append_nil]

/-- Two calls of one worker, the second of which comes while the first batch is being written. -/
def servedTwice : List (Action Nat) :=
  [.ensure [1, 2], .send 0, .receive 0, .work 0, .ensure [3], .send 0, .work 0, .work 0, .receive 0,
    .work 0, .work 0]

theorem batches_in_order_two : ∃ s,
    Machine.takeAll (step queueCapacity) servedTwice started = some s ∧ s.accepted.length = 2 ∧
      s.log <+: s.accepted.flatMap Batch.events ∧
      (s.AtRest → s.image (fun _ op image => image ++ [op]) (fun op image => image ++ [op]) [] =
        s.accepted.foldl (fun image batch => batch.apply (fun _ op image => image ++ [op]) image) []) :=
  ⟨_, rfl, rfl, batches_in_order _ _ [] (Machine.reaches_of_allowedAll servedTwice .start
    (by decide : Machine.allowedAll (step queueCapacity) (Action.Orderly queueCapacity) servedTwice
      started) rfl)⟩

/-! ## A full channel -/

/-- The first `n` calls have sent to the first worker, which has not received anything yet. -/
def filled (n : Nat) : State Nat :=
  let sent := (range n).map fun p => ⟨p, [p]⟩
  { started with
    worker := update (fun _ => .none) 0 ⟨sent, none, true⟩
    made := 1
    registered := some 0
    calls := n
    accepted := sent }

theorem filled_reached (few : n < queueCapacity) :
    Machine.Reaches (step queueCapacity) Machine.anyStep started (filled (n + 1)) := by
  induction n with
  | zero =>
    refine Machine.reaches_takeAll [.ensure [0], .send 0] .start ?_
    simp [Machine.takeAll, step, State.ensure, State.hold, State.send, State.setWorker, started, filled,
      queueCapacity]
  | succ n ih =>
    refine Machine.reaches_takeAll [.ensure [n + 1], .send 0] (ih (by omega)) ?_
    have room : n + 1 < queueCapacity := few
    simp [Machine.takeAll, step, State.ensure, State.hold, State.send, State.setWorker, started, filled,
      room, range_succ]

def Event.place (e : Event ω) : Batch ω × Nat := (e.batch, e.index)

/-- The batch of the next call has found the channel full and has been written. -/
def overtaken (n : Nat) : State Nat :=
  { filled n with
    calls := n + 1
    detached := [(⟨n, [n]⟩, 1)]
    accepted := (filled n).accepted ++ [⟨n, [n]⟩]
    log := [⟨⟨n, [n]⟩, 0, false⟩] }

theorem overtaken_reached :
    Machine.Reaches (step queueCapacity) Machine.anyStep started (overtaken queueCapacity) := by
  refine Machine.reaches_takeAll [.ensure [queueCapacity], .send 0, .detachedWrite 0]
    (filled_reached (by decide : 1023 < queueCapacity)) ?_
  simp [Machine.takeAll, step, State.ensure, State.hold, State.send, filled, started, overtaken,
    queueCapacity]

theorem overtaken_accepted (some_ : 0 < n) : ∃ rest, (overtaken n).accepted = ⟨0, [0]⟩ :: rest := by
  obtain ⟨m, rfl⟩ := Nat.exists_eq_succ_of_ne_zero some_.ne'
  rw [overtaken, filled, range_succ_eq_map, map_cons, cons_append]
  exact ⟨_, rfl⟩

theorem full_channel_overtaken : ∃ s : State Nat,
    Machine.Reaches (step queueCapacity) Machine.anyStep started s ∧
      ¬ s.log.map Event.place <+: (s.accepted.flatMap Batch.events).map Event.place := by
  refine ⟨overtaken queueCapacity, overtaken_reached, fun ⟨later, same⟩ => ?_⟩
  obtain ⟨rest, accepted⟩ := overtaken_accepted (by decide : 0 < queueCapacity)
  rw [accepted] at same
  have first := congrArg head? same
  simp [overtaken, Event.place, Batch.events, queueCapacity] at first

end Ext4.Dispatch
