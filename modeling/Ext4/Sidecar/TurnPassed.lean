import Ext4.Sidecar.TurnOrder

/-! The turn is passed on.
When no call returns before it has waited for its turn, the number that is served belongs to a
call under way or is the next one to be handed out, and the calls under way can bring the turn to
every call that waits. A call whose reservation or record fails takes its number with it. -/

namespace Ext4.Sidecar.Protocol
open Octets Machine Tickets Function

variable {setup : Setup} {s t : State} {p q : Party} {start : Nat} {action : Action}
  {handed : List Party} {passed : Nat}

def Onward : Action → State → Prop
  | .go p, s => (s.stage p).Running
  | .begin _, _ | .finish _ _, _ => True
  | .fail _ _, _ | .elsewhere, _ => False

def Unused (action : Action) (s : State) : Prop :=
  ∀ p, action = .go p → s.stage p = .idle → ∀ q, (s.stage q).Running → (s.stage q).seq ≠ s.nextSeq

theorem Onward.unfailing (onward : Onward action s) : Unfailing action s := by
  cases action with
  | fail p written => exact absurd onward not_false
  | go p | begin w | finish w ok | elsewhere => trivial

theorem Turns.onward (turns : Turns start s handed passed) (history : History start s handed)
    (onward : Onward action s) (taken : step setup action s = some t) :
    ∃ passed, Turns start t handed passed ∧ History start t handed := by
  have effect := step_effect onward.unfailing taken
  have nobody : ∀ p, s.stage p = .idle → ¬ t.stage p ≠ .idle := fun p idle begun => by
    have action := begun_go taken idle begun
    rw [action, Onward, idle] at onward
    exact onward
  obtain ⟨handed', passed', turns', history'⟩ := step_ordered turns history effect
    fun p idle begun => absurd begun (nobody p idle)
  have same : handed' = handed := by
    rcases effect.handedOut with same | ⟨p, idle, begun, _⟩
    · rw [← history'.parties, same, history.parties]
    · exact absurd begun (nobody p idle)
  exact ⟨passed', same ▸ turns', same ▸ history'⟩

theorem Turns.onward_run (turns : Turns start s handed passed) (history : History start s handed)
    (run : Reaches (step setup) Onward s t) :
    ∃ passed, Turns start t handed passed ∧ History start t handed := by
  induction run with
  | start => exact ⟨passed, turns, history⟩
  | next action _ onward taken ih =>
    obtain ⟨_, turns, history⟩ := ih
    exact turns.onward history onward taken

/-! ## The workers make room -/

theorem make_room (setup : Setup) (s : State) : ∃ t, Reaches (step setup) Onward s t ∧
    t.tasks.length < taskCapacity ∧ t.stage = s.stage ∧ t.applySeq = s.applySeq := by
  induction length : s.tasks.length generalizing s with
  | zero => exact ⟨s, .start, by rw [length]; decide, rfl, rfl⟩
  | succ n ih =>
    obtain ⟨task, rest, tasks⟩ := List.exists_cons_of_length_eq_add_one length
    -- Worker 0 ends what it does and takes the next task.
    have free : ∃ u, Reaches (step setup) Onward s u ∧ u.syncing 0 = none ∧ u.tasks = s.tasks ∧
        u.stage = s.stage ∧ u.applySeq = s.applySeq := by
      cases busy : s.syncing 0 with
      | none => exact ⟨s, .start, busy, rfl, rfl, rfl⟩
      | some done =>
        have taken : step setup (.finish 0 true) s = some (State.note { s with
            syncing := update s.syncing 0 none } (.syncEnded 0 done true)) := by
          rw [step, State.finish, busy]
        refine ⟨_, .next (.finish 0 true) .start trivial taken, ?_, rfl, rfl, rfl⟩
        exact update_self (0 : Nat) (none : Option Task) s.syncing
    obtain ⟨u, first, idle, same, stage, turn⟩ := free
    have took : ∃ r, step setup (.begin 0) u = some r ∧ r.tasks = rest ∧ r.stage = u.stage ∧
        r.applySeq = u.applySeq := by
      refine ⟨State.note { u with
        tasks := rest
        syncing := update u.syncing 0 (some task) } (.syncBegan 0 task), ?_, rfl, rfl, rfl⟩
      rw [step, State.begin, same, tasks]
      exact if_pos ⟨setup.workers_pos, idle⟩
    obtain ⟨r, taken, left, stage', turn'⟩ := took
    have shorter : r.tasks.length = n := by
      rw [tasks, List.length_cons] at length
      rw [left]
      omega
    obtain ⟨t, second, room, stage'', turn''⟩ := ih r shorter
    have both : Reaches (step setup) Onward s r := .next (.begin 0) first trivial taken
    exact ⟨t, both.trans second, room, stage''.trans (stage'.trans stage), turn''.trans (turn'.trans turn)⟩

/-! ## The call whose turn it is -/

/-- The steps of `q` and of the workers lead from `s` to a state that meets `goal`. -/
def LeadsTo (setup : Setup) (q : Party) (goal : Stage → Prop) (s : State) : Prop :=
  ∃ t, Reaches (step setup) Onward s t ∧ goal (t.stage q) ∧ ∀ p, p ≠ q → t.stage p = s.stage p

variable {goal : Stage → Prop} {seq off : Nat}

theorem LeadsTo.here (met : goal (s.stage q)) : LeadsTo setup q goal s :=
  ⟨s, .start, met, fun _ _ => rfl⟩

theorem LeadsTo.after (run : Reaches (step setup) Onward s t) (others : ∀ p, p ≠ q → t.stage p = s.stage p)
    (later : LeadsTo setup q goal t) : LeadsTo setup q goal s := by
  obtain ⟨u, rest, met, same⟩ := later
  exact ⟨u, run.trans rest, met, fun p other => (same p other).trans (others p other)⟩

theorem LeadsTo.go (running : (s.stage q).Running) (taken : s.advance setup q = some t)
    (later : LeadsTo setup q goal t) : LeadsTo setup q goal s :=
  .after (.next (.go q) .start running taken) (fun _ other => advance_frame taken other) later

theorem LeadsTo.queue {now : Stage} (next : Stage) (task : Task) (stage : s.stage q = now)
    (running : now.Running) (queues : ∀ u : State, u.stage q = now →
      u.advance setup q = (u.move q next).queueSync task)
    (later : ∀ t, t.stage q = next → t.applySeq = s.applySeq → LeadsTo setup q goal t) :
    LeadsTo setup q goal s := by
  obtain ⟨u, run, room, same, turn⟩ := make_room setup s
  refine .after run (fun p _ => by rw [same]) ?_
  have now' : u.stage q = now := by rw [same, stage]
  have taken : u.advance setup q = some { u.move q next with tasks := u.tasks ++ [task] } := by
    rw [queues u now']
    exact if_pos room
  refine .go (by rw [now']; exact running) taken (later _ ?_ turn)
  exact update_self ..

theorem waiting_enters (stage : s.stage q = .waiting seq) (called : s.applySeq = seq) :
    LeadsTo setup q Stage.Inside s := by
  have taken : s.advance setup q = some (s.enter q seq (setup.staged q)) := by
    rw [State.advance, stage]
    exact if_pos called
  refine .go (by rw [stage]; trivial) taken (.here ?_)
  change Stage.Inside (update s.stage q (.applying seq (setup.staged q)) q)
  rw [update_self]
  trivial

theorem recorded_enters (stage : s.stage q = .recorded seq) (called : s.applySeq = seq) :
    LeadsTo setup q Stage.Inside s := by
  refine .queue (.waiting seq) (.journal q) stage trivial (fun u now => ?_) ?_
  · rw [State.advance, now]
  · intro t waiting turn
    exact waiting_enters waiting (turn.trans called)

theorem described_enters (stage : s.stage q = .described seq off) (called : s.applySeq = seq) :
    LeadsTo setup q Stage.Inside s := by
  have taken : s.advance setup q = some (s.writeCommit q ⟨seq, setup.staged q⟩ off) := by
    rw [State.advance, stage]
  exact .go (by rw [stage]; trivial) taken (recorded_enters (update_self ..) called)

theorem reserved_enters (stage : s.stage q = .reserved seq off) (called : s.applySeq = seq) :
    LeadsTo setup q Stage.Inside s := by
  have taken : s.advance setup q = some (s.writeBody q ⟨seq, setup.staged q⟩ off) := by
    rw [State.advance, stage]
  exact .go (by rw [stage]; trivial) taken (described_enters (update_self ..) called)

theorem sequenced_enters (stage : s.stage q = .sequenced seq) (called : s.applySeq = seq) :
    LeadsTo setup q Stage.Inside s := by
  have taken : s.advance setup q = some (s.reserveAppend q ⟨seq, setup.staged q⟩) := by
    rw [State.advance, stage]
  exact .go (by rw [stage]; trivial) taken (reserved_enters (update_self ..) called)

theorem running_enters (running : (s.stage q).Running) (called : (s.stage q).seq = s.applySeq) :
    LeadsTo setup q Stage.Inside s := by
  cases stage : s.stage q with
  | idle | returned seq | refused seq =>
    rw [stage] at running
    exact absurd running not_false
  | sequenced seq => exact sequenced_enters stage (by rw [← called, stage]; rfl)
  | reserved seq off => exact reserved_enters stage (by rw [← called, stage]; rfl)
  | described seq off => exact described_enters stage (by rw [← called, stage]; rfl)
  | recorded seq => exact recorded_enters stage (by rw [← called, stage]; rfl)
  | waiting seq => exact waiting_enters stage (by rw [← called, stage]; rfl)
  | applying seq left => exact .here (by rw [stage]; trivial)
  | passing seq => exact .here (by rw [stage]; trivial)

theorem passing_returns (stage : s.stage q = .passing seq) :
    LeadsTo setup q (fun now => ¬ now.Running) s := by
  have taken : s.advance setup q = some (s.advanceApplySeq q seq) := by rw [State.advance, stage]
  refine .go (by rw [stage]; trivial) taken (.here ?_)
  change ¬ Stage.Running (update s.stage q (.returned seq) q)
  rw [update_self]
  exact not_false

theorem applying_returns (left : List Entry) (stage : s.stage q = .applying seq left) :
    LeadsTo setup q (fun now => ¬ now.Running) s := by
  induction left generalizing s with
  | nil =>
    cases syncs : setup.syncsImage with
    | true =>
      refine .queue (.passing seq) (.image q) stage trivial (fun u now => ?_)
        fun t passing _ => passing_returns passing
      rw [State.advance, now]
      exact if_pos syncs
    | false =>
      have taken : s.advance setup q = some (s.move q (.passing seq)) := by
        rw [State.advance, stage]
        exact if_neg (by simp [syncs])
      exact .go (by rw [stage]; trivial) taken (passing_returns (update_self ..))
  | cons entry left ih =>
    have taken : s.advance setup q = some (s.applyEntry q seq entry left) := by
      rw [State.advance, stage]
    exact .go (by rw [stage]; trivial) taken (ih (update_self ..))

theorem inside_returns (inside : (s.stage q).Inside) : LeadsTo setup q (fun now => ¬ now.Running) s := by
  cases stage : s.stage q with
  | applying seq left => exact applying_returns left stage
  | passing seq => exact passing_returns stage
  | idle | sequenced _ | reserved _ _ | described _ _ | recorded _ | waiting _ | returned _
  | refused _ =>
    rw [stage] at inside
    exact absurd inside not_false

/-! ## Every waiting call can be reached -/

/-- The calls ahead in the line go one after the other, then it is the turn of this one. -/
theorem Turns.reaches (turns : Turns start s handed passed) (history : History start s handed) {i : Nat}
    (found : handed[i]? = some p) (running : (s.stage p).Running) :
    ∃ t, Reaches (step setup) Onward s t ∧ (t.stage p).Inside := by
  induction distance : i - passed using Nat.strong_induction_on generalizing s passed with
  | _ distance ih =>
    have waiting : passed ≤ i :=
      Nat.le_of_not_lt fun gone => (turns.finished i p found).mp gone running
    rcases Nat.eq_or_lt_of_le waiting with first | behind
    · rw [← first] at found
      obtain ⟨t, run, inside, _⟩ : LeadsTo setup p Stage.Inside s :=
        running_enters running (turns.line.called found)
      exact ⟨t, run, inside⟩
    · have place := (getElem?_eq_some_iff.mp found).1
      obtain ⟨q, first⟩ : ∃ q, handed[passed]? = some q :=
        ⟨_, List.getElem?_eq_getElem (Nat.lt_trans behind place)⟩
      have other : p ≠ q := fun same => by
        rw [← same, ← found] at first
        have := (List.getElem?_inj (Nat.lt_trans behind place) turns.line.distinct).mp first
        omega
      have underWay : (s.stage q).Running := by
        by_contra finished
        exact Nat.lt_irrefl _ ((turns.finished passed q first).mpr finished)
      obtain ⟨u, run, inside, same⟩ : LeadsTo setup q Stage.Inside s :=
        running_enters underWay (turns.line.called first)
      obtain ⟨w, run', finished, same'⟩ : LeadsTo setup q (fun now => ¬ now.Running) u :=
        inside_returns inside
      obtain ⟨passed', turns', history'⟩ := turns.onward_run history (run.trans run')
      have further : passed < passed' := (turns'.finished passed q first).mpr finished
      have stage : w.stage p = s.stage p := (same' p other).trans (same p other)
      obtain ⟨t, rest, goal⟩ := ih (i - passed') (by omega) turns' history'
        (by rw [stage]; exact running) rfl
      exact ⟨t, (run.trans run').trans rest, goal⟩

/-- At rest the turn is the next number, and while calls wait, the calls under way can bring the
turn to each of them. -/
structure PassedOn (setup : Setup) (s : State) : Prop where
  rest : (∀ p, ¬ (s.stage p).Running) → s.applySeq = s.nextSeq
  reached : ∀ p seq, s.stage p = .waiting seq →
    ∃ t, Reaches (step setup) Onward s t ∧ (t.stage p).Inside

theorem Turns.passedOn (turns : Turns start s handed passed) (history : History start s handed) :
    PassedOn setup s where
  rest quiet := by
    rcases turns.line.first_or_empty with ⟨p, first⟩ | ⟨_, same⟩
    · exact absurd ((turns.finished passed p first).mpr (quiet p)) (Nat.lt_irrefl _)
    · exact same.symm
  reached p seq waiting := by
    obtain ⟨i, found⟩ := turns.place (p := p) (by simp [waiting])
    exact turns.reaches history found (by rw [waiting]; trivial)

theorem Turns.room (turns : Turns start s handed passed)
    (unused : ∀ q, (s.stage q).Running → (s.stage q).seq ≠ s.nextSeq) :
    handed.length < passed + seqLimit := by
  refine turns.line.room (by decide) fun i p found waiting => unused p ?_
  by_contra finished
  exact Nat.not_lt_of_le waiting ((turns.finished i p found).mpr finished)

def Lined (start : Nat) (s : State) : Prop :=
  ∃ handed passed, Turns start s handed passed ∧ History start s handed

theorem Lined.step (lined : Lined start s) (unfailing : Unfailing action s) (unused : Unused action s)
    (taken : step setup action s = some t) : Lined start t := by
  obtain ⟨handed, passed, turns, history⟩ := lined
  exact step_ordered turns history (step_effect unfailing taken) fun p idle begun =>
    turns.room (unused p (begun_go taken idle begun) idle)

/-- In every run in which neither a reservation nor a write to the sidecar file fails, the turn
is passed on, whatever writes to the image fail. -/
theorem turn_passed_on {appendOff : Nat} {file : Bytes} {image : Nat → Bytes}
    (run : Reaches (step setup) (fun action s => Unfailing action s ∧ Unused action s)
      (opened start appendOff file image) s) : PassedOn setup s := by
  have lined : Lined start s := run.invariant ⟨[], 0, opened_turns .., opened_history ..⟩
    fun _ _ _ lined allowed taken => lined.step allowed.1 allowed.2 taken
  obtain ⟨handed, passed, turns, history⟩ := lined
  exact turns.passedOn history

/-! ## A failed record -/

def abandoned : List Action := [.go 0, .fail 0 0]

def blocked : List Action := abandoned ++ [1, 1, 1, 1, 1].map Action.go

theorem stuck (waiting : s.stage 1 = .waiting 2) (turn : s.applySeq = 1)
    (others : ∀ p, p ≠ 1 → ¬ (s.stage p).Running) (run : Reaches (step setup) Onward s t) :
    ¬ (t.stage 1).Inside := by
  have kept : t.stage = s.stage ∧ t.applySeq = s.applySeq := by
    induction run with
    | start => exact ⟨rfl, rfl⟩
    | next action _ onward taken ih =>
      obtain ⟨stage, same⟩ := ih
      cases action with
      | go p =>
        rw [Onward, stage] at onward
        have one : p = 1 := by_contra fun other => others p other onward
        rw [one, step, State.advance, stage, waiting] at taken
        rw [same, turn] at taken
        exact absurd taken (by simp)
      | begin w =>
        obtain ⟨task, rest, _, _, rfl⟩ := begin_some taken
        exact ⟨stage, same⟩
      | finish w ok =>
        obtain ⟨task, _, rfl⟩ := finish_some taken
        exact ⟨stage, same⟩
      | fail p written => exact absurd onward not_false
      | elsewhere => exact absurd onward not_false
  rw [kept.1, waiting]
  exact not_false

theorem takeAll_octetEach (schedule : List Action)
    (enabled : (takeAll (step octetEach) schedule fresh).isSome) :
    ∃ s, takeAll (step octetEach) schedule fresh = some s ∧ Reaches (step octetEach) anyStep fresh s := by
  obtain ⟨s, taken⟩ := Option.isSome_iff_exists.mp enabled
  exact ⟨s, taken, reaches_takeAll schedule .start taken⟩

/-- A call that fails before its turn leaves the turn behind the next number, and the next call
waits for ever. -/
theorem failed_record_blocks : (∃ s, Reaches (step octetEach) anyStep fresh s ∧ (∀ p, ¬ (s.stage p).Running) ∧
      s.applySeq ≠ s.nextSeq) ∧ ∃ s, Reaches (step octetEach) anyStep fresh s ∧ s.stage 1 = .waiting 2 ∧
      ∀ t, Reaches (step octetEach) Onward s t → ¬ (t.stage 1).Inside := by
  constructor
  · obtain ⟨s, taken, run⟩ := takeAll_octetEach abandoned (by decide)
    have shape : s = (fresh.takeSeq 0).move 0 (.refused 1) := (Option.some.inj taken).symm
    refine ⟨s, run, fun p => ?_, by rw [shape]; decide⟩
    rw [shape]
    cases p with
    | zero => exact not_false
    | succ p => exact not_false
  · obtain ⟨s, taken, run⟩ := takeAll_octetEach blocked (by decide)
    have stage : ∀ p, (takeAll (step octetEach) blocked fresh).map (fun s => s.stage p) =
        some (s.stage p) := fun p => by rw [taken]; rfl
    have turn : (takeAll (step octetEach) blocked fresh).map State.applySeq = some s.applySeq := by
      rw [taken]; rfl
    have waiting : s.stage 1 = .waiting 2 := (Option.some.inj (stage 1)).symm
    refine ⟨s, run, waiting, fun t onward => stuck waiting (Option.some.inj turn).symm ?_ onward⟩
    intro p other
    rcases p with _ | _ | p
    · rw [← Option.some.inj (stage 0)]
      exact not_false
    · exact absurd rfl other
    · rw [← Option.some.inj (stage (p + 2))]
      exact not_false

theorem unused_of_active (active : s.stage p ≠ .idle) : Unused (.go p) s := by
  intro q same idle
  cases same
  exact absurd idle active

theorem second_reached : ∃ s, s.stage 1 = .waiting 2 ∧ s.applySeq = 1 ∧ PassedOn octetEach s := by
  have run : Reaches (step octetEach) (fun action s => Unfailing action s ∧ Unused action s) fresh
      ((takeAll (step octetEach) ([0, 1, 1, 1, 1, 1].map Action.go) fresh).get (by decide)) := by
    refine .next (.go 1) (.next (.go 1) (.next (.go 1) (.next (.go 1) (.next (.go 1) (.next (.go 0)
      .start ⟨trivial, ?_⟩ rfl) ⟨trivial, ?_⟩ rfl) ⟨trivial, unused_of_active (by decide)⟩ rfl)
      ⟨trivial, unused_of_active (by decide)⟩ rfl) ⟨trivial, unused_of_active (by decide)⟩ rfl)
      ⟨trivial, unused_of_active (by decide)⟩ rfl
    · intro p _ _ q running
      exact absurd running not_false
    · intro p _ _ q running
      cases q with
      | zero => decide
      | succ q => exact absurd running not_false
  exact ⟨_, rfl, rfl, turn_passed_on run⟩

end Ext4.Sidecar.Protocol
