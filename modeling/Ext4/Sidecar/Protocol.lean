import Ext4.Sidecar.Commit

/-! The protocol of `Transaction.Commit` with everything that can go wrong in it.
Reserving room, the two writes of the record and the writes to the image may fail; the sequence
numbers wrap; and the `Sync` of the sidecar file is left to a pool of workers that take their
tasks from one bounded channel, together with those of other files. The events that the order
of the protocol is about are noted in `log`. -/

namespace Ext4.Sidecar.Protocol
open Octets Function

/-- `globalSyncTasks` holds this many tasks. -/
def taskCapacity : Nat := 4096

def seqLimit : Nat := 2 ^ 64

inductive Task where
  /-- `Sync` of the sidecar file. -/
  | journal (p : Party)
  /-- `Sync` of the image file. -/
  | image (p : Party)
  /-- A file of another journal. -/
  | elsewhere
  deriving DecidableEq, Repr

inductive Event where
  | numbered (p : Party) (seq : Nat)
  /-- The whole record is in the sidecar file. -/
  | recorded (p : Party)
  | syncBegan (w : Nat) (task : Task)
  | syncEnded (w : Nat) (task : Task) (ok : Bool)
  /-- The call has found that it is its turn. -/
  | entered (p : Party) (seq : Nat)
  | wrote (p : Party) (block : Nat)
  /-- `advanceApplySeq` has run. -/
  | left (p : Party) (seq : Nat)
  deriving DecidableEq, Repr

inductive Stage where
  | idle
  | sequenced (seq : Nat)
  | reserved (seq off : Nat)
  | described (seq off : Nat)
  | recorded (seq : Nat)
  /-- The `Sync` of the sidecar file is queued; the call waits for its turn. -/
  | waiting (seq : Nat)
  | applying (seq : Nat) (left : List Entry)
  /-- The image is written, or a write has failed; the turn is still to be passed on. -/
  | passing (seq : Nat)
  | returned (seq : Nat)
  /-- The call has returned an error before it came to wait for its turn. -/
  | refused (seq : Nat)
  deriving DecidableEq, Repr

structure State where
  nextSeq : Nat
  applySeq : Nat
  appendOff : Nat
  file : Bytes
  image : Nat → Bytes
  stage : Party → Stage
  tasks : List Task
  syncing : Nat → Option Task
  log : List Event

/-- What does not change: the entries of the calls, the size of the pool, and whether commits
queue a `Sync` of the image file. -/
structure Setup where
  staged : Party → List Entry
  workers : Nat
  syncsImage : Bool
  workers_pos : 0 < workers

inductive Action where
  /-- The next step of a call. -/
  | go (p : Party)
  /-- The operation the call is about to do fails after `written` octets. -/
  | fail (p : Party) (written : Nat)
  | begin (w : Nat)
  | finish (w : Nat) (ok : Bool)
  /-- Somebody else queues a task. -/
  | elsewhere
  deriving DecidableEq, Repr

/-! ## The steps -/

def State.move (s : State) (p : Party) (stage : Stage) : State :=
  { s with stage := update s.stage p stage }

def State.note (s : State) (event : Event) : State := { s with log := s.log ++ [event] }

def State.takeSeq (s : State) (p : Party) : State :=
  ({ s with nextSeq := (s.nextSeq + 1) % seqLimit }.move p (.sequenced s.nextSeq)).note
    (.numbered p s.nextSeq)

def State.reserveAppend (s : State) (p : Party) (tx : Tx) : State :=
  let off := max s.appendOff s.file.length
  { s.move p (.reserved tx.seq off) with appendOff := off + (record tx).length }

def State.writeBody (s : State) (p : Party) (tx : Tx) (off : Nat) : State :=
  { s.move p (.described tx.seq off) with file := writeAt s.file off (body tx) }

def State.writeCommit (s : State) (p : Party) (tx : Tx) (off : Nat) : State :=
  ({ s with file := writeAt s.file (off + (body tx).length) (commitRecord tx) }.move p
    (.recorded tx.seq)).note (.recorded p)

/-- `queueJSSync` and `queueFSFileSync`: nobody waits for the answer, only for room. -/
def State.queueSync (s : State) (task : Task) : Option State :=
  if s.tasks.length < taskCapacity then some { s with tasks := s.tasks ++ [task] } else none

def State.enter (s : State) (p : Party) (seq : Nat) (entries : List Entry) : State :=
  (s.move p (.applying seq entries)).note (.entered p seq)

def State.applyEntry (s : State) (p : Party) (seq : Nat) (entry : Entry) (left : List Entry) :
    State :=
  let data := entry.data ++ (s.image entry.block).drop entry.data.length
  ({ s with image := update s.image entry.block data }.move p
    (.applying seq left)).note (.wrote p entry.block)

def State.advanceApplySeq (s : State) (p : Party) (seq : Nat) : State :=
  ({ s with applySeq := if s.applySeq = seq then (seq + 1) % seqLimit else s.applySeq }.move p
    (.returned seq)).note (.left p seq)

def State.advance (setup : Setup) (s : State) (p : Party) : Option State :=
  match s.stage p with
  | .idle => some (s.takeSeq p)
  | .sequenced seq => some (s.reserveAppend p ⟨seq, setup.staged p⟩)
  | .reserved seq off => some (s.writeBody p ⟨seq, setup.staged p⟩ off)
  | .described seq off => some (s.writeCommit p ⟨seq, setup.staged p⟩ off)
  | .recorded seq => (s.move p (.waiting seq)).queueSync (.journal p)
  | .waiting seq => if s.applySeq = seq then some (s.enter p seq (setup.staged p)) else none
  | .applying seq (entry :: left) => some (s.applyEntry p seq entry left)
  | .applying seq [] =>
      if setup.syncsImage then (s.move p (.passing seq)).queueSync (.image p)
      else some (s.move p (.passing seq))
  | .passing seq => some (s.advanceApplySeq p seq)
  | .returned _ | .refused _ => none

/-- The operation fails. Before the turn the call returns at once and its number is never passed
on; a failed write to the image runs into the deferred advance. -/
def State.fail (setup : Setup) (s : State) (p : Party) (written : Nat) : Option State :=
  match s.stage p with
  | .sequenced seq => some (s.move p (.refused seq))
  | .reserved seq off => some { s.move p (.refused seq) with
      file := writeAt s.file off ((body ⟨seq, setup.staged p⟩).take written) }
  | .described seq off => some { s.move p (.refused seq) with
      file := writeAt s.file (off + (body ⟨seq, setup.staged p⟩).length)
        ((commitRecord ⟨seq, setup.staged p⟩).take written) }
  | .applying seq (entry :: _) => some (({ s with
      image := update s.image entry.block
        (entry.data.take written ++ (s.image entry.block).drop written) }.move p
      (.passing seq)).note (.wrote p entry.block))
  | _ => none

def State.begin (setup : Setup) (s : State) (w : Nat) : Option State :=
  match s.tasks with
  | [] => none
  | task :: rest =>
      if w < setup.workers ∧ s.syncing w = none then
        some (State.note { s with
          tasks := rest
          syncing := update s.syncing w (some task) } (.syncBegan w task))
      else none

def State.finish (s : State) (w : Nat) (ok : Bool) : Option State :=
  match s.syncing w with
  | none => none
  | some task => some (State.note { s with syncing := update s.syncing w none } (.syncEnded w task ok))

def step (setup : Setup) : Action → State → Option State
  | .go p, s => s.advance setup p
  | .fail p written, s => s.fail setup p written
  | .begin w, s => s.begin setup w
  | .finish w ok, s => s.finish w ok
  | .elsewhere, s => s.queueSync .elsewhere

/-- A journal as `OpenJournal` leaves it: the turn is the next number to be handed out. -/
def opened (start appendOff : Nat) (file : Bytes) (image : Nat → Bytes) : State where
  nextSeq := start % seqLimit
  applySeq := start % seqLimit
  appendOff := appendOff
  file := file
  image := image
  stage := fun _ => .idle
  tasks := []
  syncing := fun _ => none
  log := []

/-! ## Stages -/

def Stage.seq : Stage → Nat
  | .idle => 0
  | .sequenced seq | .reserved seq _ | .described seq _ | .recorded seq | .waiting seq
  | .applying seq _ | .passing seq | .returned seq | .refused seq => seq

def Stage.Running : Stage → Prop
  | .idle | .returned _ | .refused _ => False
  | _ => True

def Stage.Inside : Stage → Prop
  | .applying _ _ | .passing _ => True
  | _ => False

instance (stage : Stage) : Decidable stage.Running := by unfold Stage.Running; split <;> infer_instance

instance (stage : Stage) : Decidable stage.Inside := by unfold Stage.Inside; split <;> infer_instance

theorem Stage.Inside.running {stage : Stage} (inside : stage.Inside) : stage.Running := by
  cases stage <;> trivial

end Ext4.Sidecar.Protocol
