import Ext4.Library.Tickets
import Ext4.Sidecar.Protocol

/-! The turn of the commits.
Calls are in line in the order of their numbers. As long as no call returns before it has
waited for its turn, the first in line is always under way and passes the turn on; and only the
first in line writes to the image. -/

namespace Ext4.Sidecar.Protocol
open Octets Machine Tickets List Function

variable {setup : Setup} {s t : State} {p q : Party} {start written w : Nat} {action : Action}

/-! ## What a step does to numbers, stages and log -/

def Event.Silent : Event → Prop
  | .recorded _ | .syncBegan _ _ | .syncEnded _ _ _ => True
  | _ => False

inductive Effect (s t : State) : Prop where
  | numbers (p : Party) (idle : s.stage p = .idle) (next : t.nextSeq = (s.nextSeq + 1) % seqLimit)
      (turn : t.applySeq = s.applySeq)
      (stage : t.stage = update s.stage p (.sequenced s.nextSeq))
      (log : t.log = s.log ++ [.numbered p s.nextSeq])
  /-- A call outside its turn moves on, or a worker does. -/
  | prepares (p : Party) (now : Stage) (active : s.stage p ≠ .idle) (later : now ≠ .idle)
      (number : now.seq = (s.stage p).seq) (running : now.Running ↔ (s.stage p).Running)
      (outside : ¬ now.Inside) (before : ¬ (s.stage p).Inside)
      (next : t.nextSeq = s.nextSeq) (turn : t.applySeq = s.applySeq)
      (stage : t.stage = update s.stage p now)
      (log : ∃ extra, t.log = s.log ++ extra ∧ ∀ event ∈ extra, event.Silent)
  | serves (next : t.nextSeq = s.nextSeq) (turn : t.applySeq = s.applySeq)
      (stage : t.stage = s.stage)
      (log : ∃ extra, t.log = s.log ++ extra ∧ ∀ event ∈ extra, event.Silent)
  | enters (p : Party) (seq : Nat) (entries : List Entry) (waiting : s.stage p = .waiting seq)
      (called : s.applySeq = seq) (next : t.nextSeq = s.nextSeq) (turn : t.applySeq = s.applySeq)
      (stage : t.stage = update s.stage p (.applying seq entries))
      (log : t.log = s.log ++ [.entered p seq])
  | applies (p : Party) (now : Stage) (before : (s.stage p).Inside) (inside : now.Inside)
      (number : now.seq = (s.stage p).seq) (next : t.nextSeq = s.nextSeq)
      (turn : t.applySeq = s.applySeq) (stage : t.stage = update s.stage p now)
      (log : t.log = s.log ∨ ∃ block, t.log = s.log ++ [.wrote p block])
  | passes (p : Party) (seq : Nat) (passing : s.stage p = .passing seq)
      (next : t.nextSeq = s.nextSeq)
      (turn : t.applySeq = if s.applySeq = seq then (seq + 1) % seqLimit else s.applySeq)
      (stage : t.stage = update s.stage p (.returned seq))
      (log : t.log = s.log ++ [.left p seq])

theorem quiet_log (s : State) : ∃ extra, s.log = s.log ++ extra ∧ ∀ event ∈ extra, event.Silent :=
  ⟨[], by simp⟩

theorem noted_log (s : State) {event : Event} (silent : event.Silent) :
    ∃ extra, (s.note event).log = s.log ++ extra ∧ ∀ event ∈ extra, event.Silent :=
  ⟨[event], rfl, by simpa using silent⟩

theorem queueSync_some {task : Task} (queued : s.queueSync task = some t) :
    t = { s with tasks := s.tasks ++ [task] } ∧ s.tasks.length < taskCapacity := by
  unfold State.queueSync at queued
  split at queued
  next room => exact ⟨(Option.some.inj queued).symm, room⟩
  · cases queued

theorem advance_effect (taken : s.advance setup p = some t) : Effect s t := by
  unfold State.advance at taken
  split at taken
  case h_1 now =>
    cases taken
    exact .numbers p now rfl rfl rfl rfl
  case h_2 seq now =>
    cases taken
    exact .prepares p (.reserved seq _) (by simp [now]) (by simp) (by simp [now, Stage.seq])
      (by simp [now, Stage.Running]) not_false (by simp [now, Stage.Inside]) rfl rfl rfl
      (quiet_log s)
  case h_3 seq off now =>
    cases taken
    exact .prepares p (.described seq off) (by simp [now]) (by simp) (by simp [now, Stage.seq])
      (by simp [now, Stage.Running]) not_false (by simp [now, Stage.Inside]) rfl rfl rfl
      (quiet_log s)
  case h_4 seq off now =>
    cases taken
    exact .prepares p (.recorded seq) (by simp [now]) (by simp) (by simp [now, Stage.seq])
      (by simp [now, Stage.Running]) not_false (by simp [now, Stage.Inside]) rfl rfl rfl
      ⟨[.recorded p], rfl, by simp [Event.Silent]⟩
  case h_5 seq now =>
    obtain ⟨rfl, _⟩ := queueSync_some taken
    exact .prepares p (.waiting seq) (by simp [now]) (by simp) (by simp [now, Stage.seq])
      (by simp [now, Stage.Running]) not_false (by simp [now, Stage.Inside]) rfl rfl rfl
      (quiet_log s)
  case h_6 seq now =>
    split at taken
    next called =>
      cases taken
      exact .enters p seq _ now called rfl rfl rfl rfl
    · cases taken
  case h_7 seq entry left now =>
    cases taken
    exact .applies p (.applying seq left) (by simp [now, Stage.Inside]) trivial
      (by simp [now, Stage.seq]) rfl rfl rfl (.inr ⟨entry.block, rfl⟩)
  case h_8 seq now =>
    split at taken
    · obtain ⟨rfl, _⟩ := queueSync_some taken
      exact .applies p (.passing seq) (by simp [now, Stage.Inside]) trivial
        (by simp [now, Stage.seq]) rfl rfl rfl (.inl rfl)
    · cases taken
      exact .applies p (.passing seq) (by simp [now, Stage.Inside]) trivial
        (by simp [now, Stage.seq]) rfl rfl rfl (.inl rfl)
  case h_9 seq now =>
    cases taken
    exact .passes p seq now rfl rfl rfl rfl
  case h_10 => cases taken
  case h_11 => cases taken

theorem fail_effect (turn : (s.stage p).Inside)
    (taken : s.fail setup p written = some t) : Effect s t := by
  unfold State.fail at taken
  split at taken
  case h_1 seq now => exact absurd turn (by simp [now, Stage.Inside])
  case h_2 seq off now => exact absurd turn (by simp [now, Stage.Inside])
  case h_3 seq off now => exact absurd turn (by simp [now, Stage.Inside])
  case h_4 seq entry left now =>
    cases taken
    exact .applies p (.passing seq) (by simp [now, Stage.Inside]) trivial
      (by simp [now, Stage.seq]) rfl rfl rfl (.inr ⟨entry.block, rfl⟩)
  case h_5 => cases taken

theorem begin_some (taken : s.begin setup w = some t) :
    ∃ task rest, s.tasks = task :: rest ∧ s.syncing w = none ∧ t = State.note { s with
      tasks := rest
      syncing := update s.syncing w (some task) } (.syncBegan w task) := by
  unfold State.begin at taken
  split at taken
  · cases taken
  next task rest tasks =>
    split at taken
    next free => exact ⟨task, rest, tasks, free.2, (Option.some.inj taken).symm⟩
    · cases taken

theorem finish_some {ok : Bool} (taken : s.finish w ok = some t) :
    ∃ task, s.syncing w = some task ∧ t = State.note { s with
      syncing := update s.syncing w none } (.syncEnded w task ok) := by
  unfold State.finish at taken
  split at taken
  · cases taken
  next task busy => exact ⟨task, busy, (Option.some.inj taken).symm⟩

def Unfailing : Action → State → Prop
  | .fail p _, s => (s.stage p).Inside
  | _, _ => True

theorem step_effect (unfailing : Unfailing action s) (taken : step setup action s = some t) :
    Effect s t := by
  cases action with
  | go p => exact advance_effect taken
  | fail p written => exact fail_effect unfailing taken
  | begin w =>
    obtain ⟨task, rest, _, _, rfl⟩ := begin_some taken
    exact .serves rfl rfl rfl (noted_log _ trivial)
  | finish w ok =>
    obtain ⟨task, _, rfl⟩ := finish_some taken
    exact .serves rfl rfl rfl (noted_log _ trivial)
  | elsewhere =>
    obtain ⟨rfl, _⟩ := queueSync_some taken
    exact .serves rfl rfl rfl (quiet_log s)

/-! ## The line -/

/-- The calls that have a number are in line; those that have returned are the first `passed`,
and whoever has the turn is the first of the others. -/
structure Turns (start : Nat) (s : State) (handed : List Party) (passed : Nat) : Prop where
  line : Line seqLimit start s.nextSeq s.applySeq (fun p => (s.stage p).seq) handed passed
  ticketed : ∀ p, p ∈ handed ↔ s.stage p ≠ .idle
  finished : ∀ i p, handed[i]? = some p → (i < passed ↔ ¬ (s.stage p).Running)
  inside : ∀ p, (s.stage p).Inside → handed[passed]? = some p

variable {handed : List Party} {passed seq : Nat} {extra : List Event} {now : Stage}

theorem opened_turns (start appendOff : Nat) (file : Bytes) (image : Nat → Bytes) :
    Turns start (opened start appendOff file image) [] 0 where
  line := Line.empty start _
  ticketed p := by simp [opened]
  finished i p found := by simp at found
  inside p inside := absurd inside (by simp [opened, Stage.Inside])

section
variable (turns : Turns start s handed passed)
include turns

theorem Turns.place (active : s.stage p ≠ .idle) :
    ∃ i : Nat, handed[i]? = some p := mem_iff_getElem?.mp ((turns.ticketed p).mpr active)

theorem Turns.takes (idle : s.stage p = .idle)
    (room : handed.length < passed + seqLimit) (next : t.nextSeq = (s.nextSeq + 1) % seqLimit)
    (turn : t.applySeq = s.applySeq)
    (stage : t.stage = update s.stage p (.sequenced s.nextSeq)) :
    Turns start t (handed ++ [p]) passed := by
  have fresh : p ∉ handed := fun mem => (turns.ticketed p).mp mem idle
  have others : ∀ q ∈ handed, t.stage q = s.stage q := fun q mem => by
    have other : q ≠ p := fun same => fresh (same ▸ mem)
    rw [stage, update_of_ne other]
  have own : t.stage p = .sequenced s.nextSeq := by rw [stage, update_self]
  have gone := turns.line.gone
  refine ⟨?_, fun q => ?_, fun i q found => ?_, fun q inside => ?_⟩
  · rw [next, turn]
    refine turns.line.take fresh room (by rw [own]; rfl) fun q mem => ?_
    rw [others q mem]
  · by_cases same : q = p
    · rw [same, own]
      simp
    · rw [stage, update_of_ne same, ← turns.ticketed q]
      simp [same]
  · rcases Nat.lt_or_ge i handed.length with early | late
    · rw [getElem?_append_left early] at found
      rw [others q (mem_of_getElem? found)]
      exact turns.finished i q found
    · rw [getElem?_append_right late] at found
      have mem := mem_of_getElem? found
      rw [mem_singleton.mp mem, own]
      exact iff_of_false (by omega) (by simp [Stage.Running])
  · have other : q ≠ p := fun same => by
      rw [same, own] at inside
      exact inside
    rw [stage, update_of_ne other] at inside
    have first := turns.inside q inside
    rw [getElem?_append_left (List.getElem?_eq_some_iff.mp first).1]
    exact first

theorem Turns.moves (active : s.stage p ≠ .idle)
    (later : now ≠ .idle) (number : now.seq = (s.stage p).seq)
    (running : now.Running ↔ (s.stage p).Running)
    (inside : now.Inside → handed[passed]? = some p) (next : t.nextSeq = s.nextSeq)
    (turn : t.applySeq = s.applySeq) (stage : t.stage = update s.stage p now) :
    Turns start t handed passed := by
  have spread : ∀ q, t.stage q = if q = p then now else s.stage q := fun q => by
    rw [stage, update_apply]
  refine ⟨?_, fun q => ?_, fun i q found => ?_, fun q moved => ?_⟩
  · rw [next, turn]
    refine turns.line.congr fun q _ => ?_
    rw [spread]
    split
    next same => rw [same, number]
    next => rfl
  · rw [spread, turns.ticketed q]
    split
    next same =>
      rw [same]
      exact iff_of_true active later
    next => rfl
  · rw [turns.finished i q found, spread]
    split
    next same => rw [same, running]
    next => rfl
  · rw [spread] at moved
    split at moved
    next same => rw [same]; exact inside moved
    next => exact turns.inside q moved

theorem Turns.passes
    (passing : s.stage p = .passing seq) (next : t.nextSeq = s.nextSeq)
    (turn : t.applySeq = if s.applySeq = seq then (seq + 1) % seqLimit else s.applySeq)
    (stage : t.stage = update s.stage p (.returned seq)) :
    Turns start t handed (passed + 1) := by
  have first : handed[passed]? = some p := turns.inside p (by rw [passing]; trivial)
  have called : seq = s.applySeq := by
    have := turns.line.called first
    rwa [passing] at this
  have spread : ∀ q, t.stage q = if q = p then .returned seq else s.stage q := fun q => by
    rw [stage, update_apply]
  refine ⟨?_, fun q => ?_, fun i q found => ?_, fun q moved => ?_⟩
  · rw [next, turn, if_pos called.symm, called]
    refine (turns.line.pass first).congr fun q _ => ?_
    rw [spread]
    split
    next same => rw [same, passing]; rfl
    next => rfl
  · rw [spread, turns.ticketed q]
    split
    next same => rw [same, passing]; simp
    next => rfl
  · rw [spread]
    split
    next same =>
      rw [same] at found
      have index : i = passed := (getElem?_inj (List.getElem?_eq_some_iff.mp found).1
        turns.line.distinct).mp (found.trans first.symm)
      exact iff_of_true (by omega) (by simp [Stage.Running])
    next other =>
      rw [← turns.finished i q found]
      have different : i ≠ passed := fun same => other (by
        rw [same, first] at found
        exact (Option.some.inj found).symm)
      omega
  · rw [spread] at moved
    split at moved
    · exact absurd moved not_false
    next other =>
      have := turns.inside q moved
      rw [first] at this
      exact absurd (Option.some.inj this).symm other

theorem Turns.first (running : (s.stage p).Running)
    (called : (s.stage p).seq = s.applySeq) : handed[passed]? = some p := by
  have active : s.stage p ≠ .idle := fun idle => by
    rw [idle] at running
    exact running
  obtain ⟨i, found⟩ := turns.place active
  have waiting : passed ≤ i := Nat.le_of_not_lt fun gone => (turns.finished i p found).mp gone running
  rw [← turns.line.holder found waiting called]
  exact found

end

/-! ## The sections in the log -/

def handedOut (log : List Event) : List (Party × Nat) := log.filterMap fun
  | .numbered p seq => some (p, seq)
  | _ => none

/-- Watch the sections: a call enters with the expected number when nobody is inside, only the
call that is inside writes to the image, and when it leaves, the next number is expected. -/
def watch (expected : Nat × Option Party) : Event → Option (Nat × Option Party)
  | .entered p seq => if expected = (seq, none) then some (seq, some p) else none
  | .wrote p _ => if expected.2 = some p then some expected else none
  | .left p seq => if expected = (seq, some p) then some ((seq + 1) % seqLimit, none) else none
  | _ => some expected

/-- The sections of different calls do not overlap and run in the order of the numbers from
`start` on, without a gap. -/
def Serial (start : Nat) (log : List Event) : Prop :=
  (log.foldlM watch (start % seqLimit, none)).isSome

structure History (start : Nat) (s : State) (handed : List Party) : Prop where
  numbers : handedOut s.log = handed.zipIdx.map fun entry => (entry.1, (start + entry.2) % seqLimit)
  watched : ∃ holder, s.log.foldlM watch (start % seqLimit, none) = some (s.applySeq, holder) ∧
    ∀ p, holder = some p ↔ (s.stage p).Inside
  known : ∀ p seq, Event.entered p seq ∈ s.log → (p, seq) ∈ handedOut s.log

theorem handedOut_silent (silent : ∀ event ∈ extra, event.Silent) :
    handedOut extra = [] := by
  refine filterMap_eq_nil_iff.mpr fun event mem => ?_
  have := silent event mem
  cases event <;> first | rfl | exact absurd this not_false

theorem watch_silent (silent : ∀ event ∈ extra, event.Silent)
    (expected : Nat × Option Party) : extra.foldlM watch expected = some expected := by
  induction extra with
  | nil => rfl
  | cons event extra ih =>
    obtain ⟨first, later⟩ := forall_mem_cons.mp silent
    have passed : watch expected event = some expected := by
      cases event <;> first | rfl | exact absurd first not_false
    rw [foldlM_cons, passed]
    exact ih later

theorem handedOut_append (one two : List Event) :
    handedOut (one ++ two) = handedOut one ++ handedOut two := filterMap_append

theorem History.entries (history : History start s handed)
    (log : t.log = s.log ++ extra) (others : ∀ p seq, Event.entered p seq ∉ extra) (p : Party)
    (seq : Nat) (entered : Event.entered p seq ∈ t.log) : (p, seq) ∈ handedOut t.log := by
  rw [log] at entered ⊢
  rw [handedOut_append]
  refine mem_append_left _ (history.known p seq ?_)
  exact (mem_append.mp entered).resolve_right (others p seq)

theorem watched_append {one two : List Event} {start holder : Nat × Option Party}
    (watched : one.foldlM watch start = some holder) :
    (one ++ two).foldlM watch start = two.foldlM watch holder := by
  rw [foldlM_append, watched]
  rfl

section
variable (history : History start s handed)
include history

theorem History.quiet (turn : t.applySeq = s.applySeq)
    (inside : ∀ p, (t.stage p).Inside ↔ (s.stage p).Inside)
    (log : ∃ extra, t.log = s.log ++ extra ∧ ∀ event ∈ extra, event.Silent) :
    History start t handed := by
  obtain ⟨extra, log, silent⟩ := log
  obtain ⟨holder, watched, who⟩ := history.watched
  refine ⟨?_, ⟨holder, ?_, fun p => (who p).trans (inside p).symm⟩, ?_⟩
  · rw [log, handedOut_append, handedOut_silent silent, append_nil]
    exact history.numbers
  · rw [log, watched_append watched, watch_silent silent, turn]
  · exact history.entries log fun p seq mem => silent _ mem

theorem History.takes (turns : Turns start s handed passed)
    (idle : s.stage p = .idle) (turn : t.applySeq = s.applySeq)
    (stage : t.stage = update s.stage p (.sequenced s.nextSeq))
    (log : t.log = s.log ++ [.numbered p s.nextSeq]) : History start t (handed ++ [p]) := by
  obtain ⟨holder, watched, who⟩ := history.watched
  refine ⟨?_, ⟨holder, ?_, fun q => (who q).trans ?_⟩, history.entries log (by simp)⟩
  · rw [log, handedOut_append, history.numbers, zipIdx_append, map_append]
    simp [handedOut, turns.line.next]
  · rw [log, watched_append watched, turn]
    rfl
  · rw [stage, update_apply]
    split
    next same => rw [same, idle]; exact Iff.rfl
    next => rfl

theorem History.enters (turns : Turns start s handed passed)
    {entries : List Entry} (waiting : s.stage p = .waiting seq)
    (called : s.applySeq = seq) (turn : t.applySeq = s.applySeq)
    (stage : t.stage = update s.stage p (.applying seq entries))
    (log : t.log = s.log ++ [.entered p seq]) : History start t handed := by
  obtain ⟨holder, watched, who⟩ := history.watched
  have first : handed[passed]? = some p :=
    turns.first (by rw [waiting]; trivial) (by rw [waiting]; exact called.symm)
  have nobody : ∀ q, ¬ (s.stage q).Inside := fun q inside => by
    have same : q = p := Option.some.inj ((turns.inside q inside).symm.trans first)
    rw [same, waiting] at inside
    exact inside
  have free : holder = none :=
    Option.eq_none_iff_forall_ne_some.mpr fun q held => nobody q ((who q).mp held)
  have numbered : (p, seq) ∈ handedOut s.log := by
    have number := turns.line.numbers passed p first
    rw [waiting] at number
    rw [history.numbers]
    exact mem_map.mpr ⟨(p, passed), mem_zipIdx_iff_getElem?.mpr first,
      congrArg (Prod.mk p) number.symm⟩
  have same : handedOut t.log = handedOut s.log := by
    rw [log, handedOut_append]
    exact append_nil _
  refine ⟨same.trans history.numbers, ⟨some p, ?_, fun q => ?_⟩, fun q number entered => ?_⟩
  · rw [log, watched_append watched, free, called, turn, called]
    simp [watch]
  · rw [stage, update_apply]
    split
    next same => rw [same]; exact iff_of_true rfl trivial
    next other => exact iff_of_false (fun same => other (Option.some.inj same).symm) (nobody q)
  · rw [log] at entered
    rw [same]
    rcases mem_append.mp entered with earlier | new
    · exact history.known q number earlier
    · cases mem_singleton.mp new
      exact numbered

theorem History.applies
    (before : (s.stage p).Inside) (inside : now.Inside) (turn : t.applySeq = s.applySeq)
    (stage : t.stage = update s.stage p now)
    (log : t.log = s.log ∨ ∃ block, t.log = s.log ++ [.wrote p block]) :
    History start t handed := by
  have same : ∀ q, (t.stage q).Inside ↔ (s.stage q).Inside := fun q => by
    rw [stage, update_apply]
    split
    next here => rw [here]; exact iff_of_true inside before
    next => rfl
  rcases log with quiet | ⟨block, log⟩
  · exact history.quiet turn same ⟨[], by simp [quiet]⟩
  · obtain ⟨holder, watched, who⟩ := history.watched
    have held : holder = some p := (who p).mpr before
    refine ⟨?_, ⟨holder, ?_, fun q => (who q).trans (same q).symm⟩, history.entries log (by simp)⟩
    · rw [log, handedOut_append, history.numbers]
      simp [handedOut]
    · rw [log, watched_append watched, turn, held]
      simp [watch]

theorem History.passes (turns : Turns start s handed passed)
    (passing : s.stage p = .passing seq)
    (turn : t.applySeq = if s.applySeq = seq then (seq + 1) % seqLimit else s.applySeq)
    (stage : t.stage = update s.stage p (.returned seq))
    (log : t.log = s.log ++ [.left p seq]) : History start t handed := by
  obtain ⟨holder, watched, who⟩ := history.watched
  have inside : (s.stage p).Inside := by rw [passing]; trivial
  have first := turns.inside p inside
  have called : seq = s.applySeq := by
    have := turns.line.called first
    rwa [passing] at this
  have held : holder = some p := (who p).mpr inside
  refine ⟨?_, ⟨none, ?_, fun q => ?_⟩, history.entries log (by simp)⟩
  · rw [log, handedOut_append, history.numbers]
    simp [handedOut]
  · rw [log, watched_append watched, turn, if_pos called.symm, held, ← called]
    simp [watch]
  · refine iff_of_false (by simp) fun now => ?_
    rw [stage, update_apply] at now
    split at now
    · exact now
    next other => exact other (Option.some.inj ((turns.inside q now).symm.trans first))

end

theorem step_ordered (turns : Turns start s handed passed) (history : History start s handed)
    (effect : Effect s t)
    (room : ∀ p, s.stage p = .idle → t.stage p ≠ .idle → handed.length < passed + seqLimit) :
    ∃ handed passed, Turns start t handed passed ∧ History start t handed := by
  cases effect with
  | numbers p idle next turn stage log =>
    have begun : t.stage p ≠ .idle := by simp [stage]
    exact ⟨_, _, turns.takes idle (room p idle begun) next turn stage,
      history.takes turns idle turn stage log⟩
  | prepares p now active later number running outside before next turn stage log =>
    refine ⟨_, _, turns.moves active later number running (fun inside => absurd inside outside) next
      turn stage, history.quiet turn (fun q => ?_) log⟩
    rw [stage, update_apply]
    split
    next same => rw [same]; exact iff_of_false outside before
    next => rfl
  | serves next turn stage log =>
    refine ⟨handed, passed, ⟨?_, ?_, ?_, ?_⟩, history.quiet turn (fun q => by rw [stage]) log⟩
    · rw [next, turn, stage]; exact turns.line
    · rw [stage]; exact turns.ticketed
    · rw [stage]; exact turns.finished
    · rw [stage]; exact turns.inside
  | enters p seq entries waiting called next turn stage log =>
    have first : handed[passed]? = some p :=
      turns.first (by rw [waiting]; trivial) (by rw [waiting]; exact called.symm)
    exact ⟨_, _, turns.moves (by simp [waiting]) (by simp) (by simp [waiting, Stage.seq])
      (by simp [waiting, Stage.Running]) (fun _ => first) next turn stage,
      history.enters turns waiting called turn stage log⟩
  | applies p now before inside number next turn stage log =>
    have active : s.stage p ≠ .idle := fun idle => by
      rw [idle] at before
      exact before
    have later : now ≠ .idle := fun idle => by
      rw [idle] at inside
      exact inside
    exact ⟨_, _, turns.moves active later number (iff_of_true inside.running before.running)
      (fun _ => turns.inside p before) next turn stage,
      history.applies before inside turn stage log⟩
  | passes p seq passing next turn stage log =>
    exact ⟨_, _, turns.passes passing next turn stage, history.passes turns passing turn stage log⟩

theorem opened_history (start appendOff : Nat) (file : Bytes) (image : Nat → Bytes) :
    History start (opened start appendOff file image) [] where
  numbers := rfl
  watched := ⟨none, rfl, fun p => iff_of_false (by simp) (by simp [opened, Stage.Inside])⟩
  known p seq entered := by simp [opened] at entered

theorem History.length (history : History start s handed) :
    (handedOut s.log).length = handed.length := by
  rw [history.numbers, length_map, length_zipIdx]

theorem History.seqs (history : History start s handed) : (handedOut s.log).map Prod.snd =
    (range handed.length).map fun i => (start + i) % seqLimit := by
  rw [history.numbers, map_map, range_eq_range', ← zipIdx_map_snd 0 handed,
    map_map]
  rfl

theorem History.parties (history : History start s handed) :
    (handedOut s.log).map Prod.fst = handed := by
  rw [history.numbers, map_map]
  exact zipIdx_map_fst 0 handed

/-! ## Commits run one at a time and in order -/

def Few (action : Action) (s : State) : Prop :=
  ∀ p, action = .go p → s.stage p = .idle → (handedOut s.log).length < seqLimit

theorem seqs_nodup {n : Nat} (few : n ≤ seqLimit) (start : Nat) :
    ((range n).map fun i => (start + i) % seqLimit).Nodup := by
  refine List.Nodup.map_on (fun i low j high same => ?_) nodup_range
  rw [mem_range] at low high
  rcases Nat.le_total i j with ordered | ordered
  · exact mod_inj same ordered (by omega)
  · exact (mod_inj same.symm ordered (by omega)).symm

theorem advance_frame (taken : s.advance setup p = some t) (other : q ≠ p) :
    t.stage q = s.stage q := by
  unfold State.advance at taken
  split at taken
  case h_5 =>
    obtain ⟨rfl, _⟩ := queueSync_some taken
    exact update_of_ne other ..
  case h_6 =>
    split at taken
    · cases taken
      exact update_of_ne other ..
    · cases taken
  case h_8 =>
    split at taken
    · obtain ⟨rfl, _⟩ := queueSync_some taken
      exact update_of_ne other ..
    · cases taken
      exact update_of_ne other ..
  case h_10 => cases taken
  case h_11 => cases taken
  all_goals
    cases taken
    exact update_of_ne other ..

theorem fail_frame (taken : s.fail setup p written = some t) (other : q ≠ p) :
    t.stage q = s.stage q := by
  unfold State.fail at taken
  split at taken
  case h_5 => cases taken
  all_goals
    cases taken
    exact update_of_ne other ..

theorem begun_go (taken : step setup action s = some t) (idle : s.stage p = .idle)
    (begun : t.stage p ≠ .idle) : action = .go p := by
  cases action with
  | go q =>
    by_cases same : p = q
    · rw [same]
    · rw [advance_frame taken same] at begun
      exact absurd idle begun
  | fail q written =>
    have other : p ≠ q := fun same => by
      rw [step, State.fail, ← same, idle] at taken
      cases taken
    rw [fail_frame taken other] at begun
    exact absurd idle begun
  | begin w =>
    obtain ⟨task, rest, _, _, rfl⟩ := begin_some taken
    exact absurd idle begun
  | finish w ok =>
    obtain ⟨task, _, rfl⟩ := finish_some taken
    exact absurd idle begun
  | elsewhere =>
    obtain ⟨rfl, _⟩ := queueSync_some taken
    exact absurd idle begun

/-- The calls are in line as the log says, and the counter has been around at most once. -/
def InOrder (start : Nat) (s : State) : Prop :=
  ∃ handed passed, Turns start s handed passed ∧ History start s handed ∧
    (handedOut s.log).length ≤ seqLimit

theorem Effect.handedOut (effect : Effect s t) : handedOut t.log = handedOut s.log ∨
    ∃ p, s.stage p = .idle ∧ t.stage p ≠ .idle ∧
      handedOut t.log = handedOut s.log ++ [(p, s.nextSeq)] := by
  have silent : ∀ extra, t.log = s.log ++ extra → (∀ event ∈ extra, event.Silent) →
      Protocol.handedOut t.log = Protocol.handedOut s.log := fun extra log silent => by
    rw [log, handedOut_append, handedOut_silent silent, append_nil]
  cases effect with
  | numbers p idle _ _ stage log =>
    refine .inr ⟨p, idle, by simp [stage], ?_⟩
    rw [log, handedOut_append]
    rfl
  | prepares _ _ _ _ _ _ _ _ _ _ _ log =>
    obtain ⟨extra, log, quiet⟩ := log
    exact .inl (silent extra log quiet)
  | serves _ _ _ log =>
    obtain ⟨extra, log, quiet⟩ := log
    exact .inl (silent extra log quiet)
  | enters _ _ _ _ _ _ _ _ log =>
    rw [log, handedOut_append]
    exact .inl (append_nil _)
  | applies _ _ _ _ _ _ _ _ log =>
    rcases log with log | ⟨block, log⟩
    · exact .inl (congrArg _ log)
    · rw [log, handedOut_append]
      exact .inl (append_nil _)
  | passes _ _ _ _ _ _ log =>
    rw [log, handedOut_append]
    exact .inl (append_nil _)

theorem InOrder.step (ordered : InOrder start s) (unfailing : Unfailing action s)
    (few : Few action s) (taken : step setup action s = some t) : InOrder start t := by
  obtain ⟨handed, passed, turns, history, bound⟩ := ordered
  have effect := step_effect unfailing taken
  have below : ∀ p, s.stage p = .idle → t.stage p ≠ .idle → (handedOut s.log).length < seqLimit :=
    fun p idle begun => few p (begun_go taken idle begun) idle
  obtain ⟨handed', passed', turns', history'⟩ := step_ordered turns history effect
    fun p idle begun => by
      have := below p idle begun
      rw [history.length] at this
      omega
  refine ⟨handed', passed', turns', history', ?_⟩
  rcases effect.handedOut with same | ⟨p, idle, begun, more⟩
  · rwa [same]
  · rw [more, length_append]
    exact below p idle begun

/-- In every interleaving of at most 2^64 calls in which the sidecar file can be written, the
sections in which the calls write to the image run one at a time, in the order of the numbers
and without a gap, and every number belongs to one call. -/
theorem commits_serial {appendOff : Nat} {file : Bytes} {image : Nat → Bytes}
    (run : Reaches (step setup) (fun action s => Unfailing action s ∧ Few action s)
      (opened start appendOff file image) s) :
    Serial start s.log ∧ (∀ p q, (s.stage p).Inside → (s.stage q).Inside → p = q) ∧
    (handedOut s.log).map Prod.snd =
      ((range (handedOut s.log).length).map fun i => (start + i) % seqLimit) ∧
    ((handedOut s.log).map Prod.fst).Nodup ∧ ((handedOut s.log).map Prod.snd).Nodup ∧
    ∀ p seq, Event.entered p seq ∈ s.log → (p, seq) ∈ handedOut s.log := by
  have ordered : InOrder start s :=
    run.invariant ⟨[], 0, opened_turns .., opened_history .., Nat.zero_le _⟩
      fun _ _ _ ordered allowed taken => ordered.step allowed.1 allowed.2 taken
  obtain ⟨handed, passed, turns, history, few⟩ := ordered
  refine ⟨?_, fun p q insideP insideQ => ?_, ?_, ?_, ?_, history.known⟩
  · obtain ⟨holder, watched, _⟩ := history.watched
    rw [Serial, watched]
    rfl
  · exact Option.some.inj ((turns.inside p insideP).symm.trans (turns.inside q insideQ))
  · rw [history.length]
    exact history.seqs
  · rw [history.parties]
    exact turns.line.distinct
  · rw [history.seqs]
    exact seqs_nodup (by rwa [← history.length]) start

instance (action : Action) (s : State) : Decidable (Unfailing action s) := by
  unfold Unfailing
  split <;> infer_instance

instance (action : Action) (s : State) : Decidable (Few action s) :=
  match action with
  | .go p => decidable_of_iff (s.stage p = .idle → (handedOut s.log).length < seqLimit)
      ⟨fun few q same idle => by
        cases same
        exact few idle, fun few idle => few p rfl idle⟩
  | .fail _ _ | .begin _ | .finish _ _ | .elsewhere => isTrue fun q impossible _ => by
      cases impossible

def octetEach : Setup where
  staged := fun p => [⟨0, [UInt8.ofNat p]⟩]
  workers := 1
  syncsImage := true
  workers_pos := Nat.one_pos

def fresh : State := opened 1 0 [] fun _ => []

/-- Call 1 takes the second number, is ready first and has to wait for call 0. -/
def secondFirst : List Action :=
  [0, 1, 1, 1, 1, 1, 0, 0, 0, 0, 0, 0, 0, 0, 1, 1, 1, 1].map Action.go

theorem secondFirst_serial : ∃ s, takeAll (step octetEach) secondFirst fresh = some s ∧
    s.image 0 = [1] ∧ Serial 1 s.log := by
  obtain ⟨s, taken⟩ := Option.isSome_iff_exists.mp
    (show (takeAll (step octetEach) secondFirst fresh).isSome = true by decide)
  have run : Reaches (step octetEach) (fun action s => Unfailing action s ∧ Few action s) fresh s :=
    reaches_of_allowedAll secondFirst .start (by decide) taken
  refine ⟨s, taken, ?_, (commits_serial run).1⟩
  have last : (takeAll (step octetEach) secondFirst fresh).map (fun s => s.image 0) = some [1] := by
    decide
  rw [taken] at last
  exact Option.some.inj last

theorem all_number (setup : Setup) (start n : Nat) : ∃ s,
    Reaches (step setup) Unfailing (opened start 0 [] fun _ => []) s ∧
    s.nextSeq = (start + n) % seqLimit ∧ (∀ p, n ≤ p → s.stage p = .idle) ∧
    handedOut s.log = (range n).map fun i => (i, (start + i) % seqLimit) := by
  induction n with
  | zero => exact ⟨_, .start, rfl, fun _ _ => rfl, rfl⟩
  | succ n ih =>
    obtain ⟨s, run, next, idle, numbers⟩ := ih
    have taken : step setup (.go n) s = some (s.takeSeq n) := by
      rw [step, State.advance, idle n (Nat.le_refl n)]
    refine ⟨s.takeSeq n, .next (.go n) run trivial taken, ?_, fun p late => ?_, ?_⟩
    · change (s.nextSeq + 1) % seqLimit = _
      rw [next, Nat.mod_add_mod, Nat.add_assoc]
    · have other : p ≠ n := by omega
      exact (update_of_ne other ..).trans (idle p (by omega))
    · change handedOut (s.log ++ [.numbered n s.nextSeq]) = _
      rw [handedOut_append, numbers, range_succ, map_append, next]
      rfl

/-- The number of the first of 2^64 + 1 calls is handed out again. -/
theorem numbers_come_around : ∃ s, Reaches (step octetEach) Unfailing fresh s ∧
    ¬ ((handedOut s.log).map Prod.snd).Nodup := by
  obtain ⟨s, run, _, _, numbers⟩ := all_number octetEach 1 (seqLimit + 1)
  refine ⟨s, run, fun distinct => ?_⟩
  rw [numbers, map_map] at distinct
  have first : 0 ∈ range (seqLimit + 1) := mem_range.mpr (Nat.succ_pos _)
  have last : seqLimit ∈ range (seqLimit + 1) := mem_range.mpr (Nat.lt_succ_self _)
  have same : (0 : Nat) = seqLimit :=
    inj_on_of_nodup_map distinct first last (Nat.add_mod_right 1 seqLimit).symm
  exact absurd same (by decide)

end Ext4.Sidecar.Protocol
