import Ext4.Sidecar.TurnOrder

/-! Whether the record of a transaction is durable before its blocks are written.
A commit queues the `Sync` of the sidecar file and goes on: nobody looks at the answer. The rule
holds in the runs in which a worker has ended the `Sync` that a call queued before the call gets
its turn. -/

namespace Ext4.Sidecar.Protocol
open Octets Machine List Function

variable {setup : Setup} {s t : State} {p q : Party} {action : Action} {log : List Event} {now : Stage}
  {w : Nat}

/-- Some worker has begun a `Sync` of the sidecar file after the whole record of `p` was in it, and
has ended it without an error: the record is durable. -/
def Synced (p : Party) (log : List Event) : Prop :=
  ∃ first middle last rest w q, log = first ++ .recorded p :: (middle ++
    .syncBegan w (.journal q) :: (last ++ .syncEnded w (.journal q) true :: rest)) ∧
    ∀ task, Event.syncBegan w task ∉ last

def WriteAhead (log : List Event) : Prop :=
  ∀ front p block back, log = front ++ .wrote p block :: back → Synced p front

/-- A call takes its turn after the `Sync` that it queued, and no `Sync` of the sidecar fails. -/
def Timely : Action → State → Prop
  | .go p, s => ∀ seq, s.stage p = .waiting seq →
      Task.journal p ∉ s.tasks ∧ ∀ w, s.syncing w ≠ some (.journal p)
  | .finish w ok, s => ∀ p, s.syncing w = some (.journal p) → ok
  | _, _ => True

theorem Synced.append (synced : Synced p log) (more : List Event) : Synced p (log ++ more) := by
  obtain ⟨first, middle, last, rest, w, q, rfl, alone⟩ := synced
  exact ⟨first, middle, last, rest ++ more, w, q, by simp, alone⟩

theorem WriteAhead.note (ahead : WriteAhead log) {event : Event}
    (durable : ∀ p block, event = .wrote p block → Synced p log) : WriteAhead (log ++ [event]) := by
  intro front p block back split
  rcases append_singleton_eq split with ⟨_, same, written⟩ | ⟨back', _, earlier⟩
  · rw [← same]
    exact durable p block written.symm
  · exact ahead front p block back' earlier

/-! ## The invariant -/

/-- The last `Sync` that the worker began is that of this task, and the log shows its record before. -/
def Begun (log : List Event) (w : Nat) (task : Task) : Prop := ∃ before after,
  log = before ++ .syncBegan w task :: after ∧ (∀ other, Event.syncBegan w other ∉ after) ∧
    ∀ p, task = .journal p → Event.recorded p ∈ before

structure Careful (s : State) : Prop where
  queued : ∀ p, Task.journal p ∈ s.tasks → Event.recorded p ∈ s.log
  begun : ∀ w task, s.syncing w = some task → Begun s.log w task
  recorded : ∀ p seq, s.stage p = .recorded seq → Event.recorded p ∈ s.log
  waits : ∀ p seq, s.stage p = .waiting seq → Task.journal p ∈ s.tasks ∨
    (∃ w, s.syncing w = some (.journal p)) ∨ Synced p s.log
  inside : ∀ p, (s.stage p).Inside → Synced p s.log
  ahead : WriteAhead s.log

theorem opened_careful (start appendOff : Nat) (file : Bytes) (image : Nat → Bytes) :
    Careful (opened start appendOff file image) where
  queued p queued := by simp [opened] at queued
  begun w task busy := by simp [opened] at busy
  recorded p seq stage := by simp [opened] at stage
  waits p seq stage := by simp [opened] at stage
  inside p inside := absurd inside (by simp [opened, Stage.Inside])
  ahead front p block back split := by simp [opened] at split

theorem Begun.append {task : Task} {more : List Event} (begun : Begun log w task)
    (unstarted : ∀ other, Event.syncBegan w other ∉ more) : Begun (log ++ more) w task := by
  obtain ⟨before, after, rfl, alone, known⟩ := begun
  refine ⟨before, after ++ more, by simp, fun other mem => ?_, known⟩
  rcases mem_append.mp mem with old | new
  · exact alone other old
  · exact unstarted other new

structure Backed (s t : State) (p : Party) (now : Stage) : Prop where
  recorded : ∀ seq, now = .recorded seq → Event.recorded p ∈ t.log
  waits : ∀ seq, now = .waiting seq → Task.journal p ∈ t.tasks
  inside : now.Inside → Synced p s.log

theorem Careful.moves (careful : Careful s) (tasks : List Task) (events : List Event)
    (stage : t.stage = update s.stage p now) (queue : t.tasks = s.tasks ++ tasks)
    (syncing : t.syncing = s.syncing) (log : t.log = s.log ++ events)
    (few : events = [] ∨ ∃ event, events = [event] ∧ (∀ w task, event ≠ .syncBegan w task) ∧
      ∀ q block, event = .wrote q block → Synced q s.log)
    (own : ∀ q, Task.journal q ∈ tasks → Event.recorded q ∈ s.log)
    (backed : Backed s t p now) : Careful t := by
  have unstarted : ∀ w task, Event.syncBegan w task ∉ events := by
    rcases few with rfl | ⟨event, rfl, quiet, _⟩
    · simp
    · intro w task mem
      exact quiet w task (mem_singleton.mp mem).symm
  have grows : ∀ {q}, Event.recorded q ∈ s.log → Event.recorded q ∈ t.log := fun known => by
    rw [log]
    exact mem_append_left _ known
  have stays : ∀ {q}, Synced q s.log → Synced q t.log := fun synced => by
    rw [log]
    exact synced.append events
  have spread : ∀ q, t.stage q = if q = p then now else s.stage q := fun q => by
    rw [stage, update_apply]
  refine ⟨fun q mem => ?_, fun w task busy => ?_, fun q seq now' => ?_, fun q seq now' => ?_,
    fun q inside => ?_, ?_⟩
  · rw [queue] at mem
    rcases mem_append.mp mem with old | new
    · exact grows (careful.queued q old)
    · exact grows (own q new)
  · rw [syncing] at busy
    rw [log]
    exact (careful.begun w task busy).append (unstarted w)
  · rw [spread] at now'
    split at now'
    next same => rw [same]; exact backed.recorded seq now'
    next => exact grows (careful.recorded q seq now')
  · rw [spread] at now'
    split at now'
    next same => rw [same]; exact Or.inl (backed.waits seq now')
    next =>
      rw [queue, syncing]
      rcases careful.waits q seq now' with waits | busy | synced
      · exact Or.inl (mem_append_left _ waits)
      · exact Or.inr (Or.inl busy)
      · exact Or.inr (Or.inr (stays synced))
  · rw [spread] at inside
    split at inside
    next same => rw [same]; exact stays (backed.inside inside)
    next => exact stays (careful.inside q inside)
  · rw [log]
    rcases few with rfl | ⟨event, rfl, _, durable⟩
    · rw [append_nil]
      exact careful.ahead
    · exact careful.ahead.note durable

theorem backed_plain (unrecorded : ∀ seq, now ≠ .recorded seq)
    (unqueued : ∀ seq, now ≠ .waiting seq) (outside : ¬ now.Inside) : Backed s t p now :=
  ⟨fun seq same => absurd same (unrecorded seq), fun seq same => absurd same (unqueued seq),
    fun inside => absurd inside outside⟩

theorem backed_inside (inside : now.Inside) (synced : Synced p s.log) : Backed s t p now := by
  refine ⟨fun seq same => ?_, fun seq same => ?_, fun _ => synced⟩
  · rw [same] at inside
    exact absurd inside not_false
  · rw [same] at inside
    exact absurd inside not_false

section
variable (careful : Careful s)
include careful

theorem Careful.note {event : Event} (stage : t.stage = update s.stage p now)
    (queue : t.tasks = s.tasks) (syncing : t.syncing = s.syncing) (log : t.log = s.log ++ [event])
    (other : ∀ w task, event ≠ .syncBegan w task) (durable : ∀ q block, event = .wrote q block → Synced q s.log)
    (backed : Backed s t p now) : Careful t :=
  careful.moves [] [event] stage (by simp [queue]) syncing log (.inr ⟨_, rfl, other, durable⟩) (by simp) backed

theorem Careful.still (stage : t.stage = update s.stage p now)
    (queue : t.tasks = s.tasks) (syncing : t.syncing = s.syncing) (log : t.log = s.log)
    (backed : Backed s t p now) : Careful t :=
  careful.moves [] [] stage (by simp [queue]) syncing (by simp [log]) (.inl rfl) (by simp) backed

theorem advance_careful (timely : Timely (.go p) s)
    (taken : s.advance setup p = some t) : Careful t := by
  have done : ∀ {seq}, s.stage p = .waiting seq → Synced p s.log := fun waiting => by
    obtain ⟨unqueued, idle⟩ := timely _ waiting
    rcases careful.waits p _ waiting with queued | ⟨w, busy⟩ | synced
    · exact absurd queued unqueued
    · exact absurd busy (idle w)
    · exact synced
  unfold State.advance at taken
  split at taken
  case h_1 now =>
    cases taken
    exact careful.note rfl rfl rfl rfl (by simp) (by simp) (backed_plain (by simp) (by simp) not_false)
  case h_2 seq now =>
    cases taken
    exact careful.still rfl rfl rfl rfl (backed_plain (by simp) (by simp) not_false)
  case h_3 seq off now =>
    cases taken
    exact careful.still rfl rfl rfl rfl (backed_plain (by simp) (by simp) not_false)
  case h_4 seq off now =>
    cases taken
    refine careful.note rfl rfl rfl rfl (by simp) (by simp) ⟨fun _ _ => ?_, by simp, fun inside => ?_⟩
    · exact mem_append_right _ (mem_singleton_self _)
    · exact absurd inside not_false
  case h_5 seq now =>
    obtain ⟨rfl, _⟩ := queueSync_some taken
    refine careful.moves [.journal p] [] rfl rfl rfl (append_nil _).symm (.inl rfl)
      (fun q mem => ?_) ⟨by simp, fun _ _ => ?_, fun inside => ?_⟩
    · cases mem_singleton.mp mem
      exact careful.recorded p seq now
    · exact mem_append_right _ (mem_singleton_self _)
    · exact absurd inside not_false
  case h_6 seq now =>
    split at taken
    · cases taken
      exact careful.note rfl rfl rfl rfl (by simp) (by simp) (backed_inside trivial (done now))
    · cases taken
  case h_7 seq entry left now =>
    cases taken
    have synced : Synced p s.log := careful.inside p (by rw [now]; trivial)
    exact careful.note rfl rfl rfl rfl (by simp) (by rintro _ _ ⟨⟩; exact synced) (backed_inside trivial synced)
  case h_8 seq now =>
    have synced : Synced p s.log := careful.inside p (by rw [now]; trivial)
    split at taken
    · obtain ⟨rfl, _⟩ := queueSync_some taken
      exact careful.moves [.image p] [] rfl rfl rfl (append_nil _).symm (.inl rfl) (by simp)
        (backed_inside trivial synced)
    · cases taken
      exact careful.still rfl rfl rfl rfl (backed_inside trivial synced)
  case h_9 seq now =>
    cases taken
    exact careful.note rfl rfl rfl rfl (by simp) (by simp) (backed_plain (by simp) (by simp) not_false)
  case h_10 => cases taken
  case h_11 => cases taken

theorem fail_careful {written : Nat}
    (taken : s.fail setup p written = some t) : Careful t := by
  unfold State.fail at taken
  split at taken
  case h_4 seq entry left now =>
    cases taken
    have synced : Synced p s.log := careful.inside p (by rw [now]; trivial)
    exact careful.note rfl rfl rfl rfl (by simp) (by rintro _ _ ⟨⟩; exact synced) (backed_inside trivial synced)
  case h_5 => cases taken
  all_goals
    cases taken
    exact careful.still rfl rfl rfl rfl (backed_plain (by simp) (by simp) not_false)

theorem begin_careful (taken : s.begin setup w = some t) : Careful t := by
  obtain ⟨task, rest, tasks, idle, rfl⟩ := begin_some taken
  refine ⟨fun p mem => ?_, fun v other busy => ?_, fun p seq now => ?_, fun p seq now => ?_,
    fun p inside => (careful.inside p inside).append _, careful.ahead.note (by simp)⟩
  · refine mem_append_left _ (careful.queued p ?_)
    rw [tasks]
    exact mem_cons_of_mem _ mem
  · change update s.syncing w (some task) v = some other at busy
    rw [update_apply] at busy
    split at busy
    next same =>
      cases busy
      refine ⟨s.log, [], by rw [same]; rfl, by simp, fun p journal => careful.queued p ?_⟩
      rw [tasks, journal]
      exact mem_cons_self
    next different => exact (careful.begun v other busy).append (by simp [different])
  · exact mem_append_left _ (careful.recorded p seq now)
  · rcases careful.waits p seq now with waits | ⟨v, busy⟩ | synced
    · rw [tasks] at waits
      rcases mem_cons.mp waits with mine | later
      · refine Or.inr (Or.inl ⟨w, ?_⟩)
        rw [mine]
        exact update_self ..
      · exact Or.inl later
    · refine Or.inr (Or.inl ⟨v, ?_⟩)
      have other : v ≠ w := fun same => by
        rw [same, idle] at busy
        cases busy
      exact (update_of_ne other ..).trans busy
    · exact Or.inr (Or.inr (synced.append _))

theorem finish_careful {ok : Bool} (timely : Timely (.finish w ok) s)
    (taken : s.finish w ok = some t) : Careful t := by
  obtain ⟨task, busy, rfl⟩ := finish_some taken
  refine ⟨fun p mem => mem_append_left _ (careful.queued p mem),
    fun v other working => ?_, fun p seq now => mem_append_left _ (careful.recorded p seq now),
    fun p seq now => ?_, fun p inside => (careful.inside p inside).append _,
    careful.ahead.note (by simp)⟩
  · change update s.syncing w none v = some other at working
    rw [update_apply] at working
    split at working
    · cases working
    · exact (careful.begun v other working).append (by simp)
  · rcases careful.waits p seq now with waits | ⟨v, working⟩ | synced
    · exact Or.inl waits
    · by_cases same : v = w
      · rw [same, busy] at working
        cases working
        obtain ⟨before, after, split, alone, known⟩ := careful.begun w _ busy
        obtain ⟨first, middle, found⟩ := append_of_mem (known p rfl)
        refine Or.inr (Or.inr ⟨first, middle, after, [], w, p, ?_, alone⟩)
        change s.log ++ [.syncEnded w (.journal p) ok] = _
        rw [timely p busy, split, found]
        simp
      · exact Or.inr (Or.inl ⟨v, (update_of_ne same ..).trans working⟩)
    · exact Or.inr (Or.inr (synced.append _))

theorem step_careful (timely : Timely action s)
    (taken : step setup action s = some t) : Careful t := by
  cases action with
  | go p => exact advance_careful careful timely taken
  | fail p written => exact fail_careful careful taken
  | begin w => exact begin_careful careful taken
  | finish w ok => exact finish_careful careful timely taken
  | elsewhere =>
    obtain ⟨rfl, _⟩ := queueSync_some taken
    refine ⟨fun p mem => ?_, careful.begun, careful.recorded, fun p seq now => ?_,
      careful.inside, careful.ahead⟩
    · refine careful.queued p ((mem_append.mp mem).resolve_right ?_)
      simp
    · exact (careful.waits p seq now).imp_left (mem_append_left _)

end

/-- In every run, whatever fails, in which the calls take their turn only after the `Sync` that they
queued, no block of a transaction is written before its record is durable; at no point is there
a transaction of which a block is written and the record is not durable. -/
theorem writes_ahead {start appendOff : Nat} {file : Bytes} {image : Nat → Bytes}
    (run : Reaches (step setup) Timely (opened start appendOff file image) s) :
    WriteAhead s.log ∧ ∀ p block, Event.wrote p block ∈ s.log → Synced p s.log := by
  have careful : Careful s := run.invariant (opened_careful ..)
    fun _ _ _ careful timely taken => step_careful careful timely taken
  refine ⟨careful.ahead, fun p block written => ?_⟩
  obtain ⟨front, back, split⟩ := append_of_mem written
  rw [split]
  exact (careful.ahead front p block back split).append _

/-! ## A commit without its worker -/

theorem Synced.ended (synced : Synced p log) : ∃ w q, Event.syncEnded w (.journal q) true ∈ log := by
  obtain ⟨first, middle, last, rest, w, q, rfl, _⟩ := synced
  exact ⟨w, q, by simp⟩

/-- A single call writes to the image before any worker has looked at the channel. -/
theorem unsynced_write : ∃ s, Reaches (step octetEach) anyStep fresh s ∧
    Event.wrote 0 0 ∈ s.log ∧ ¬ WriteAhead s.log := by
  obtain ⟨s, taken⟩ := Option.isSome_iff_exists.mp
    (show (takeAll (step octetEach) (replicate 7 (.go 0)) fresh).isSome = true by decide)
  have log : s.log = [.numbered 0 1, .recorded 0, .entered 0 1, .wrote 0 0] := by
    have noted : (takeAll (step octetEach) (replicate 7 (.go 0)) fresh).map State.log =
        some [.numbered 0 1, .recorded 0, .entered 0 1, .wrote 0 0] := by decide
    rw [taken] at noted
    exact Option.some.inj noted
  refine ⟨s, reaches_takeAll _ .start taken, by rw [log]; simp, fun ahead => ?_⟩
  obtain ⟨w, q, ended⟩ := (ahead [.numbered 0 1, .recorded 0, .entered 0 1] 0 0 [] log).ended
  simp at ended

theorem timely_before (early : ∀ seq, s.stage p ≠ .waiting seq) : Timely (.go p) s :=
  fun seq waiting => absurd waiting (early seq)

/-- With the worker in time, the block is written after the record is durable. -/
theorem synced_write : ∃ s : State, Event.wrote 0 0 ∈ s.log ∧ WriteAhead s.log := by
  have run : Reaches (step octetEach) Timely fresh ((takeAll (step octetEach)
      [.go 0, .go 0, .go 0, .go 0, .go 0, .begin 0, .finish 0 true, .go 0, .go 0] fresh).get
        (by decide)) := by
    refine .next (.go 0) (.next (.go 0) (.next (.finish 0 true) (.next (.begin 0) (.next (.go 0)
      (.next (.go 0) (.next (.go 0) (.next (.go 0) (.next (.go 0) .start
      (timely_before (by simp [fresh, opened])) rfl) (timely_before fun _ => nofun) rfl)
      (timely_before fun _ => nofun) rfl) (timely_before fun _ => nofun) rfl)
      (timely_before fun _ => nofun) rfl) trivial rfl) (fun _ _ => rfl) rfl)
      (fun seq _ => ⟨not_mem_nil, fun w => ?_⟩) rfl) (timely_before fun _ => nofun) rfl
    cases w with
    | zero => rintro ⟨⟩
    | succ w => rintro ⟨⟩
  exact ⟨_, by decide, (writes_ahead run).1⟩

end Ext4.Sidecar.Protocol
