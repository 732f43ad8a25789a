import Ext4.Library.Machine
import Ext4.Library.Store
import Ext4.Sidecar.TornTail

/-! Concurrent `Transaction.Commit` calls on one journal.
Each call takes a sequence number, reserves room at the end of the sidecar file, writes its
record with two writes, waits until the apply turn reaches its number, and writes its entries
to the image. Any two of these steps of different calls may be interleaved. -/

namespace Ext4.Sidecar
open Octets Store List

abbrev Party := Nat

inductive Phase where
  | idle
  | sequenced (seq : Nat)
  | reserved (seq off : Nat)
  /-- Header, descriptors and data are in the file. -/
  | described (seq off : Nat)
  /-- The commit record is in the file as well; the call waits for its turn. -/
  | recorded (seq off : Nat)
  | applying (seq off : Nat) (left : List Entry)
  | finished (seq off : Nat)
  deriving DecidableEq, Repr

structure Shared where
  nextSeq : Nat
  applySeq : Nat
  appendOff : Nat
  file : Bytes
  image : Nat → UInt8
  phase : Party → Phase

def Shared.move (s : Shared) (p : Party) (phase : Phase) : Shared :=
  { s with phase := Function.update s.phase p phase }

/-! ## The steps of a call -/

def Shared.takeSeq (s : Shared) (p : Party) : Shared :=
  { s.move p (.sequenced s.nextSeq) with nextSeq := s.nextSeq + 1 }

def Shared.reserveAppend (s : Shared) (p : Party) (tx : Tx) : Shared :=
  let off := max s.appendOff s.file.length
  { s.move p (.reserved tx.seq off) with appendOff := off + (record tx).length }

def Shared.writeBody (s : Shared) (p : Party) (tx : Tx) (off : Nat) : Shared :=
  { s.move p (.described tx.seq off) with file := writeAt s.file off (body tx) }

def Shared.writeCommit (s : Shared) (p : Party) (tx : Tx) (off : Nat) : Shared :=
  { s.move p (.recorded tx.seq off) with
    file := writeAt s.file (off + (body tx).length) (commitRecord tx) }

section
variable (size : Nat)

/-- The octets of an entry go to the start of its block, however many they are. -/
def octetsOf (entry : Entry) : List (Write fun _ : Nat => UInt8) :=
  entry.data.zipIdx.map fun octet => ⟨entry.block * size + octet.2, octet.1⟩

def Shared.applyEntry (s : Shared) (p : Party) (seq off : Nat) (entry : Entry) (left : List Entry) :
    Shared :=
  { s.move p (.applying seq off left) with image := writeAll (octetsOf size entry) s.image }

def Shared.advance (s : Shared) (p : Party) (seq off : Nat) : Shared :=
  { s.move p (.finished seq off) with applySeq := seq + 1 }

def commitStep (staged : Party → List Entry) (p : Party) (s : Shared) : Option Shared :=
  match s.phase p with
  | .idle => some (s.takeSeq p)
  | .sequenced seq => some (s.reserveAppend p ⟨seq, staged p⟩)
  | .reserved seq off => some (s.writeBody p ⟨seq, staged p⟩ off)
  | .described seq off => some (s.writeCommit p ⟨seq, staged p⟩ off)
  | .recorded seq off =>
      if s.applySeq = seq then some (s.move p (.applying seq off (staged p))) else none
  | .applying seq off (entry :: left) => some (s.applyEntry size p seq off entry left)
  | .applying seq off [] => some (s.advance p seq off)
  | .finished .. => none

def writesOf (entries : List Entry) : List (Write fun _ : Nat => UInt8) :=
  entries.flatMap (octetsOf size)

/-- The filesystem as `openFromDevice` leaves it over the image `disk` and a sidecar with the
records `old`. -/
def openedOver (blocksCount : Nat) (old : List Tx) (disk : Nat → UInt8) : Shared :=
  let replay := openFromDevice blocksCount (sidecarFile old)
  { nextSeq := replay.journal.nextSeq
    applySeq := replay.journal.applySeq
    appendOff := replay.journal.appendOff
    file := sidecarFile old
    image := writeAll (writesOf size replay.writes) disk
    phase := fun _ => .idle }

def Quiescent (s : Shared) : Prop :=
  ∀ p, s.phase p = .idle ∨ ∃ seq off, s.phase p = .finished seq off

/-- Reopening over the sidecar file of `s` and the image `before` succeeds and rebuilds the
live image. -/
def ReplayRebuilds (blocksCount : Nat) (before : Nat → UInt8) (s : Shared) : Prop :=
  let replay := openFromDevice blocksCount s.file
  replay.error = none ∧ writeAll (writesOf size replay.writes) before = s.image

/-- A call reserves its room in the file only after every call with a smaller number that
stages one of its octets with another value; and sequence numbers do not wrap. -/
def Orderly (staged : Party → List Entry) (p : Party) (s : Shared) : Prop :=
  match s.phase p with
  | .idle => s.nextSeq < 2 ^ 64 - 1
  | .sequenced seq => ∀ q earlier, s.phase q = .sequenced earlier → earlier < seq →
      Agree (writesOf size (staged p)) (writesOf size (staged q))
  | _ => True

end

/-! ## The invariant

`tickets` lists the calls by sequence number and `slots` by reservation. Most of it only
depends on the numbers `seqs` and the offsets `offs` of the calls, which few steps change. -/

def Phase.seq : Phase → Nat
  | .idle => 0
  | .sequenced seq | .reserved seq _ | .described seq _ | .recorded seq _ | .applying seq _ _
  | .finished seq _ => seq

def Phase.off? : Phase → Option Nat
  | .idle | .sequenced _ => none
  | .reserved _ off | .described _ off | .recorded _ off | .applying _ off _
  | .finished _ off => some off

def Phase.written (tx : Tx) : Phase → Nat
  | .idle | .sequenced _ | .reserved .. => 0
  | .described .. => (body tx).length
  | .recorded .. | .applying .. | .finished .. => (record tx).length

def Shared.seqs (s : Shared) (p : Party) : Nat := (s.phase p).seq
def Shared.offs (s : Shared) (p : Party) : Option Nat := (s.phase p).off?

section
variable (size : Nat) (staged : Party → List Entry)

def txOf (seqs : Party → Nat) (p : Party) : Tx := ⟨seqs p, staged p⟩

/-- The reservations `slots` fill the file from `first` to `last` without gap or overlap. -/
def Tiled (seqs : Party → Nat) (offs : Party → Option Nat) : Nat → List Party → Nat → Prop
  | first, [], last => first = last
  | first, p :: slots, last => offs p = some first ∧
      Tiled seqs offs (first + (record (txOf staged seqs p)).length) slots last

structure Numbered (start : Nat) (s : Shared) (tickets : List Party) : Prop where
  next : s.nextSeq = start + tickets.length
  bound : s.nextSeq < 2 ^ 64
  numbers : ∀ i p, tickets[i]? = some p → s.seqs p = start + i
  distinct : tickets.Nodup
  ticketed : ∀ p, p ∈ tickets ↔ s.phase p ≠ .idle

structure Filed (old : Bytes) (s : Shared) (slots : List Party) : Prop where
  apart : slots.Nodup
  reserved : ∀ p, p ∈ slots ↔ (s.offs p).isSome
  tiled : Tiled staged s.seqs s.offs old.length slots s.appendOff
  room : old.length ≤ s.file.length ∧ s.file.length ≤ s.appendOff
  kept : ∀ i < old.length, s.file[i]? = old[i]?
  content : ∀ p off, s.offs p = some off → ∀ i < (s.phase p).written (txOf staged s.seqs p),
    s.file[off + i]? = (record (txOf staged s.seqs p))[i]?

/-- Calls that changed places between the two orders agree on the blocks they share. -/
structure Ordered (s : Shared) (tickets slots : List Party) : Prop where
  overtaken : ∀ p ∈ slots, ∀ q ∈ tickets, q ∉ slots → s.seqs q < s.seqs p →
    Agree (writesOf size (staged p)) (writesOf size (staged q))
  inverted : slots.Pairwise fun p q => s.seqs q < s.seqs p →
    Agree (writesOf size (staged p)) (writesOf size (staged q))

def appliedImage (before : Nat → UInt8) (calls : List Party) : Nat → UInt8 :=
  writeAll (calls.flatMap fun p => writesOf size (staged p)) before

structure Applied (start : Nat) (before : Nat → UInt8) (s : Shared) (tickets : List Party) :
    Prop where
  turn : start ≤ s.applySeq ∧ s.applySeq ≤ s.nextSeq
  done : ∀ p ∈ tickets, s.seqs p < s.applySeq ↔ ∃ seq off, s.phase p = .finished seq off
  still : (∀ p seq off left, s.phase p ≠ .applying seq off left) →
    s.image = appliedImage size staged before (tickets.take (s.applySeq - start))
  midway : ∀ p seq off left, s.phase p = .applying seq off left → seq = s.applySeq ∧
    writeAll (writesOf size left) s.image = writeAll (writesOf size (staged p))
      (appliedImage size staged before (tickets.take (s.applySeq - start)))

structure Inv (start : Nat) (old : Bytes) (before : Nat → UInt8) (s : Shared)
    (tickets slots : List Party) : Prop where
  numbered : Numbered start s tickets
  filed : Filed staged old s slots
  ordered : Ordered size staged s tickets slots
  applied : Applied size staged start before s tickets

end

/-! ## Reservations -/

section
variable {size : Nat} {staged : Party → List Entry} {seqs seqs' : Party → Nat} {offs offs' : Party → Option Nat}
  {first last : Nat} {slots : List Party} {p q : Party}

section
variable (tiled : Tiled staged seqs offs first slots last)
include tiled

theorem Tiled.congr
    (same : ∀ p ∈ slots, seqs' p = seqs p ∧ offs' p = offs p) :
    Tiled staged seqs' offs' first slots last := by
  induction slots generalizing first with
  | nil => exact tiled
  | cons p slots ih =>
    obtain ⟨⟨seq, off⟩, later⟩ := forall_mem_cons.mp same
    refine ⟨off.trans tiled.1, ?_⟩
    rw [txOf, seq]
    exact ih tiled.2 later

theorem Tiled.append (here : offs p = some last) :
    Tiled staged seqs offs first (slots ++ [p]) (last + (record (txOf staged seqs p)).length) := by
  induction slots generalizing first with
  | nil =>
    cases tiled
    exact ⟨here, rfl⟩
  | cons q slots ih => exact ⟨tiled.1, ih tiled.2⟩

theorem Tiled.bounds :
    first ≤ last ∧ ∀ p ∈ slots, ∀ off, offs p = some off →
      first ≤ off ∧ off + (record (txOf staged seqs p)).length ≤ last := by
  induction slots generalizing first with
  | nil =>
    cases tiled
    exact ⟨Nat.le_refl _, by simp⟩
  | cons q slots ih =>
    obtain ⟨here, rest⟩ := tiled
    obtain ⟨ordered, inside⟩ := ih rest
    refine ⟨by omega, ?_⟩
    intro p mem off found
    rcases mem_cons.mp mem with rfl | mem
    · rw [here] at found
      cases found
      omega
    · have := inside p mem off found
      omega

theorem Tiled.disjoint (inP : p ∈ slots)
    (inQ : q ∈ slots) (different : p ≠ q) {a b : Nat} (atP : offs p = some a) (atQ : offs q = some b) :
    a + (record (txOf staged seqs p)).length ≤ b ∨ b + (record (txOf staged seqs q)).length ≤ a := by
  induction slots generalizing first with
  | nil => cases inP
  | cons r slots ih =>
    obtain ⟨here, rest⟩ := tiled
    rcases mem_cons.mp inP with headP | laterP <;>
      rcases mem_cons.mp inQ with headQ | laterQ
    · exact absurd (headP.trans headQ.symm) different
    · subst headP
      rw [here] at atP
      cases atP
      exact Or.inl (rest.bounds.2 q laterQ b atQ).1
    · subst headQ
      rw [here] at atQ
      cases atQ
      exact Or.inr (rest.bounds.2 p laterP a atP).1
    · exact ih rest laterP laterQ

theorem Tiled.file (file : Bytes)
    (content : ∀ p ∈ slots, ∀ off, offs p = some off → ∀ i < (record (txOf staged seqs p)).length,
      file[off + i]? = (record (txOf staged seqs p))[i]?) :
    last = first + (sidecarFile (slots.map (txOf staged seqs))).length ∧
    ∀ i < (sidecarFile (slots.map (txOf staged seqs))).length,
      file[first + i]? = (sidecarFile (slots.map (txOf staged seqs)))[i]? := by
  induction slots generalizing first with
  | nil =>
    cases tiled
    simp [sidecarFile]
  | cons p slots ih =>
    obtain ⟨here, rest⟩ := tiled
    obtain ⟨mine, others⟩ := forall_mem_cons.mp content
    obtain ⟨ends, later⟩ := ih rest others
    rw [map_cons, sidecarFile_cons, length_append]
    refine ⟨by omega, ?_⟩
    intro i bound
    by_cases inside : i < (record (txOf staged seqs p)).length
    · rw [getElem?_append_left inside]
      exact mine first here i inside
    · have shifted := later (i - (record (txOf staged seqs p)).length) (by omega)
      rw [getElem?_append_right (by omega), ← shifted]
      congr 1
      omega

end

end

/-! ## Moving one call -/

section
variable {s : Shared} {p : Party} {phase : Phase}

theorem seqs_move (same : phase.seq = s.seqs p) : (s.move p phase).seqs = s.seqs := by
  funext q
  by_cases here : q = p
  · subst here; simpa [Shared.seqs, Shared.move] using same
  · simp [Shared.seqs, Shared.move, here]

theorem offs_move (same : phase.off? = s.offs p) : (s.move p phase).offs = s.offs := by
  funext q
  by_cases here : q = p
  · subst here; simpa [Shared.offs, Shared.move] using same
  · simp [Shared.offs, Shared.move, here]

theorem seqs_move_ne {q : Party} (other : q ≠ p) : (s.move p phase).seqs q = s.seqs q := by
  simp [Shared.seqs, Shared.move, other]

end

section
variable {staged : Party → List Entry} {start : Nat} {old : Bytes} {before : Nat → UInt8}
  {s s' : Shared} {tickets slots : List Party} {p q : Party}

theorem Numbered.congr (numbered : Numbered start s tickets) (next : s'.nextSeq = s.nextSeq)
    (seqs : s'.seqs = s.seqs) (idle : ∀ q, s'.phase q = .idle ↔ s.phase q = .idle) :
    Numbered start s' tickets where
  next := next.trans numbered.next
  bound := next ▸ numbered.bound
  numbers := by rw [seqs]; exact numbered.numbers
  distinct := numbered.distinct
  ticketed q := (numbered.ticketed q).trans (not_congr (idle q)).symm

theorem Ordered.congr (ordered : Ordered size staged s tickets slots) (seqs : s'.seqs = s.seqs) :
    Ordered size staged s' tickets slots where
  overtaken := by rw [seqs]; exact ordered.overtaken
  inverted := by rw [seqs]; exact ordered.inverted

theorem Numbered.below (numbered : Numbered start s tickets) (mem : p ∈ tickets) :
    start ≤ s.seqs p ∧ s.seqs p < s.nextSeq := by
  obtain ⟨i, found⟩ := mem_iff_getElem?.mp mem
  have number := numbered.numbers i p found
  obtain ⟨bound, _⟩ := List.getElem?_eq_some_iff.mp found
  have next := numbered.next
  omega

theorem Numbered.injective (numbered : Numbered start s tickets) (inP : p ∈ tickets)
    (inQ : q ∈ tickets) (same : s.seqs p = s.seqs q) : p = q := by
  obtain ⟨i, atP⟩ := mem_iff_getElem?.mp inP
  obtain ⟨j, atQ⟩ := mem_iff_getElem?.mp inQ
  have indices : i = j := by
    have := numbered.numbers i p atP
    have := numbered.numbers j q atQ
    omega
  rw [indices, atQ] at atP
  exact (Option.some.inj atP).symm

theorem slots_subset (numbered : Numbered start s tickets) (filed : Filed staged old s slots)
    (mem : p ∈ slots) : p ∈ tickets := by
  rw [numbered.ticketed]
  intro idle
  have offset := (filed.reserved p).mp mem
  rw [Shared.offs, idle] at offset
  cases offset

end

end Ext4.Sidecar
