import Mathlib.Logic.Function.Basic
import Ext4.Library.Machine
import Ext4.Alloc.Bitmap

/-! Allocation through the commit dispatcher.
`allocBlocks`, `lockedAllocBlocks` and `allocInode` take a group's descriptor lock, choose bits
that are clear on disk and not reserved, reserve them, and hand a snapshot of the bitmap to the
group's worker; `freeBlock` does the same with a bit cleared. The caller waits for the worker
and drops its reservation. Journal commits take part only through the table of acknowledged
sequence numbers, which they share with the dispatcher. -/

namespace Ext4.Alloc
open Function

structure Key where
  group : Nat
  isBlock : Bool
  deriving DecidableEq, Repr

structure Geometry where
  blocksPerGroup : Nat
  inodesPerGroup : Nat

def Geometry.maxBits (geometry : Geometry) (key : Key) : Nat :=
  if key.isBlock then geometry.blocksPerGroup else geometry.inodesPerGroup

/-- `reservationInfo`; its ack channel is the one of the call that made it. -/
structure Reservation where
  want : Bool
  seq : Nat
  deriving DecidableEq, Repr

/-- `commitTask` of a bitmap update; `party` is the call that waits on its ack channel. -/
structure Task where
  party : Nat
  key : Key
  snapshot : Bits
  seq : Nat

inductive Stage where
  | idle
  /-- The group's descriptor lock and the bitmap lock are held. -/
  | locked
  /-- The bitmap block has been read, the reservations have not been merged yet. -/
  | read
  /-- The bits are reserved and the snapshot is prepared. -/
  | chosen
  | enqueued
  | associated
  /-- The locks are released; the call waits for the worker's answer. -/
  | waiting
  /-- The call has returned: an allocation owns its bits. -/
  | settled
  deriving DecidableEq, Repr

structure Call where
  stage : Stage
  key : Key
  freeing : Bool
  need : Nat
  bits : List Nat
  /-- The bitmap as read from the device, later the snapshot to persist. -/
  image : Bits
  seq : Nat
  /-- The worker's answer is in the ack channel. -/
  acked : Bool

def Call.none : Call := ⟨.idle, ⟨0, true⟩, false, 0, [], fun _ => false, 0, false⟩

structure State where
  disk : Key → Bits
  reserved : Key → Nat → Option Reservation
  queue : Nat → List Task
  /-- The task whose bitmap a worker has written but not acknowledged. -/
  working : Nat → Option Task
  /-- Tasks given to a goroutine of their own because the queue was full. -/
  detached : List Task
  ackedSeqs : Nat → Bool
  commitTaskSeq : Nat
  seqInfos : Nat → List Nat
  bgdLock : Nat → Option Nat
  journalFirst : Nat
  journalNext : Nat
  call : Nat → Call

def queueCapacity : Nat := 1024

def State.setCall (s : State) (p : Nat) (call : Call) : State :=
  { s with call := update s.call p call }

def State.setLock (s : State) (g : Nat) (holder : Option Nat) : State :=
  { s with bgdLock := update s.bgdLock g holder }

/-- `reserveBitmapBits`: the largest recorded number of the group is attached at once. -/
def State.reserveBits (s : State) (key : Key) (bits : List Nat) (want : Bool) : State :=
  let eager := (s.seqInfos key.group).foldl max 0
  { s with reserved := update s.reserved key fun i =>
      if i ∈ bits then
        some ⟨want, match s.reserved key i with
          | some old => if old.seq ≠ 0 then old.seq else eager
          | none => eager⟩
      else s.reserved key i }

/-- `attachSeqToReservations`: reservations of the group that have no number get this one. -/
def State.attachSeq (s : State) (g seq : Nat) : State :=
  { s with reserved := fun key i =>
      if key.group = g then
        (s.reserved key i).map fun r => if r.seq = 0 then { r with seq := seq } else r
      else s.reserved key i }

def State.unreserveBits (s : State) (key : Key) (bits : List Nat) : State :=
  { s with reserved := update s.reserved key fun i =>
      if i ∈ bits then none else s.reserved key i }

/-- `associateAckWithReservation` and then `associateSeqWithReservation`. The number of the ack
channel is known until the worker has answered. -/
def State.associate (s : State) (call : Call) : State :=
  let known := if call.acked then 0 else call.seq
  { s with reserved := update s.reserved call.key fun i =>
      if i ∈ call.bits then
        (s.reserved call.key i).bind fun r =>
          let seq := if known ≠ 0 then known else r.seq
          if seq ≠ 0 ∧ s.ackedSeqs seq then none
          else if seq = 0 ∧ call.acked then none
          else some { r with seq := if call.seq ≠ 0 then call.seq else seq }
      else s.reserved call.key i }

/-- `enqueueCommitWritesUnderLock`; a full queue makes it start a goroutine with a new number. -/
def State.enqueue (s : State) (p : Nat) (call : Call) : State :=
  let g := call.key.group
  let seq := s.commitTaskSeq + 1
  let attached := s.attachSeq g seq
  if (s.queue g).length < queueCapacity then
    { attached.setCall p { call with stage := .enqueued, seq := seq } with
      queue := update s.queue g (s.queue g ++ [⟨p, call.key, call.image, seq⟩])
      commitTaskSeq := seq
      seqInfos := update s.seqInfos g (seq :: s.seqInfos g) }
  else
    { attached.setCall p { call with stage := .enqueued, seq := seq + 1 } with
      detached := s.detached ++ [⟨p, call.key, call.image, seq + 1⟩]
      commitTaskSeq := seq + 1
      seqInfos := update s.seqInfos g ((seq + 1) :: seq :: s.seqInfos g) }

/-- The worker's answer: the ack is sent, the number marked and its records dropped. -/
def State.acknowledge (s : State) (t : Task) : State :=
  { s.setCall t.party { s.call t.party with acked := true } with
    ackedSeqs := update s.ackedSeqs t.seq true
    seqInfos := update s.seqInfos t.key.group
      ((s.seqInfos t.key.group).erase t.seq) }

def State.writeBitmap (s : State) (t : Task) : State :=
  { s with disk := update s.disk t.key t.snapshot }

/-- `readBitmap`: the block as read, with the reservations of now. -/
def State.merged (s : State) (call : Call) : Bits :=
  fun i => call.image i || (s.reserved call.key i).isSome

def choose (geometry : Geometry) (call : Call) (bitmap : Bits) : Option (List Nat) :=
  if call.key.isBlock then findFreeRun bitmap (geometry.maxBits call.key) call.need
  else (findFreeBit bitmap (geometry.maxBits call.key)).map fun bit => [bit]

inductive Action where
  | alloc (p : Nat) (key : Key) (n : Nat)
  /-- Call `p` frees a block that call `q` returned. -/
  | free (p q : Nat) (bit : Nat)
  /-- The free counters make an allocation move on to another group. -/
  | giveUp (p : Nat)
  | next (p : Nat)
  | work (g : Nat)
  | detachedWrite (i : Nat)
  | journalStart
  /-- `Transaction.Commit` marks its own number. -/
  | journalMark (seq : Nat)

def State.advance (geometry : Geometry) (s : State) (p : Nat) : Option State :=
  let call := s.call p
  match call.stage with
  | .idle | .settled => none
  | .locked => some (s.setCall p { call with stage := .read, image := s.disk call.key })
  | .read =>
      if call.freeing then
        some ((s.reserveBits call.key call.bits false).setCall p { call with
          stage := .chosen
          image := fun i => decide (i ∉ call.bits) && s.merged call i })
      else match choose geometry call (s.merged call) with
        | none => some ((s.setCall p Call.none).setLock call.key.group none)
        | some bits => some ((s.reserveBits call.key bits true).setCall p { call with
            stage := .chosen, bits := bits, image := setBits bits (s.merged call) })
  | .chosen => some (s.enqueue p call)
  | .enqueued => some ((s.associate call).setCall p { call with stage := .associated })
  | .associated => some ((s.setCall p { call with stage := .waiting }).setLock call.key.group none)
  | .waiting =>
      if call.acked then
        some ((s.unreserveBits call.key call.bits).setCall p { call with
          stage := .settled, bits := if call.freeing then [] else call.bits })
      else none

/-- The next step of a group's worker. Writing the descriptor needs the group's lock, so a task
is not acknowledged while a call is inside the group. -/
def State.work (s : State) (g : Nat) : Option State :=
  match s.working g with
  | some t =>
      if s.bgdLock g = none then
        some { s.acknowledge t with working := update s.working g none }
      else none
  | none =>
      match s.queue g with
      | [] => none
      | t :: rest => some { s.writeBitmap t with
          queue := update s.queue g rest
          working := update s.working g (some t) }

def step (geometry : Geometry) : Action → State → Option State
  | .alloc p key n, s =>
      if (s.call p).stage = .idle ∧ s.bgdLock key.group = none then
        some ((s.setCall p { Call.none with stage := .locked, key := key, need := n }).setLock
          key.group (some p))
      else none
  | .free p q bit, s =>
      let owner := s.call q
      if (s.call p).stage = .idle ∧ s.bgdLock owner.key.group = none ∧ owner.stage = .settled ∧
          owner.freeing = false ∧ owner.key.isBlock ∧ bit ∈ owner.bits then
        let released := s.setCall q { owner with bits := owner.bits.erase bit }
        let call := { Call.none with
          stage := .locked
          key := owner.key
          freeing := true
          bits := [bit] }
        some ((released.setCall p call).setLock owner.key.group (some p))
      else none
  | .giveUp p, s =>
      if (s.call p).stage = .locked ∧ (s.call p).freeing = false then
        some ((s.setCall p Call.none).setLock (s.call p).key.group none)
      else none
  | .next p, s => s.advance geometry p
  | .work g, s => s.work g
  | .detachedWrite i, s =>
      match s.detached[i]? with
      | some t => some { (s.writeBitmap t).acknowledge t with detached := s.detached.eraseIdx i }
      | none => none
  | .journalStart, s => some { s with journalNext := s.journalNext + 1 }
  | .journalMark seq, s =>
      if s.journalFirst ≤ seq ∧ seq < s.journalNext then
        some { s with ackedSeqs := update s.ackedSeqs seq true }
      else none

/-- A process that has just opened the file; its journal continues with number `journalNext`. -/
def started (disk : Key → Bits) (journalNext : Nat) : State where
  disk := disk
  reserved := fun _ _ => none
  queue := fun _ => []
  working := fun _ => none
  detached := []
  ackedSeqs := fun _ => false
  commitTaskSeq := 0
  seqInfos := fun _ => []
  bgdLock := fun _ => none
  journalFirst := journalNext
  journalNext := journalNext
  call := fun _ => Call.none

/-- An allocation that has returned this bit, which has not been freed since. -/
def Returned (s : State) (p : Nat) (key : Key) (bit : Nat) : Prop :=
  (s.call p).stage = .settled ∧ (s.call p).freeing = false ∧ (s.call p).key = key ∧
    bit ∈ (s.call p).bits

/-- No bit belongs to two allocations, and a bit whose task is not done is still reserved. -/
structure Exclusive (s : State) : Prop where
  once : ∀ p q key bit, Returned s p key bit → Returned s q key bit → p = q
  kept : ∀ p, (s.call p).stage ∈ [Stage.chosen, .enqueued, .associated, .waiting] →
    (s.call p).acked = false → ∀ bit ∈ (s.call p).bits, (s.reserved (s.call p).key bit).isSome

end Ext4.Alloc
