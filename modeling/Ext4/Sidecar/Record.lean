import Mathlib.Logic.Function.Iterate
import Ext4.Library.Octets

/-! The sidecar journal file: what a commit appends, and the two scans that read it back.
A record is a header, one descriptor per staged block, the staged blocks and a commit record
that repeats the sequence number and carries a CRC-32C of everything before it. -/

namespace Ext4.Sidecar
open Octets

def journalMagic : Nat := 0x4A424432
def commitMagic : Nat := 0x434D4954
def txHeaderSize : Nat := 4 + 8 + 4
def descSize : Nat := 8 + 4
def commitSize : Nat := 4 + 8 + 4

structure Entry where
  block : Nat
  data : Bytes
  deriving DecidableEq, Repr

/-- A committed transaction: its sequence number and the staged blocks in staging order. -/
structure Tx where
  seq : Nat
  entries : List Entry
  deriving DecidableEq, Repr

/-! ## CRC-32C -/

def castagnoliBit (crc : UInt32) : UInt32 :=
  if crc &&& 1 = 1 then (crc >>> 1) ^^^ 0x82F63B78 else crc >>> 1

def castagnoliEntry (index : UInt32) : UInt32 := castagnoliBit^[8] index

/-- `crc32.Update(crc, castagnoli, data)`. -/
def crcUpdate (crc : UInt32) (data : Bytes) : UInt32 :=
  ~~~ data.foldl (fun crc octet => castagnoliEntry ((crc ^^^ octet.toUInt32) &&& 0xFF) ^^^ (crc >>> 8))
    (~~~ crc)

/-! ## What a commit writes -/

def descriptor (entry : Entry) : Bytes := putUint 8 entry.block ++ putUint 4 entry.data.length

def descriptors (entries : List Entry) : Bytes := entries.flatMap descriptor

def blobs (entries : List Entry) : Bytes := entries.flatMap Entry.data

def header (tx : Tx) : Bytes :=
  putUint 4 journalMagic ++ putUint 8 tx.seq ++ putUint 4 tx.entries.length

def body (tx : Tx) : Bytes := header tx ++ descriptors tx.entries ++ blobs tx.entries

def commitRecord (tx : Tx) : Bytes :=
  putUint 4 commitMagic ++ putUint 8 tx.seq ++ putUint 4 (crcUpdate 0 (body tx)).toNat

def record (tx : Tx) : Bytes := body tx ++ commitRecord tx

def sidecarFile (txs : List Tx) : Bytes := txs.flatMap record

/-! ## Reading it back -/

inductive ScanError where
  | read (error : ReadError)
  /-- `transaction seq: nDesc descriptors need need bytes, rem remain in the journal` -/
  | descriptors (seq nDesc need rem : Nat)
  /-- `transaction seq: descriptor i declares length bytes, rem remain in the journal` -/
  | oversize (seq i length rem : Nat)
  /-- `block block out of range` -/
  | outOfRange (block : Nat)
  deriving DecidableEq, Repr

def journalReserveDescs (rem nDesc : Nat) : Option Nat :=
  let need := nDesc * descSize
  if need > rem then none else some (rem - need)

def readDescs : Nat → Bytes → Except ReadError (List (Nat × Nat) × Bytes)
  | 0, bytes => .ok ([], bytes)
  | n + 1, bytes => do
      let (blk, bytes) ← readUint 8 bytes
      let (ln, bytes) ← readUint 4 bytes
      let (descs, bytes) ← readDescs n bytes
      return ((blk, ln) :: descs, bytes)

/-- How the data loop of a scan ends; `oversize` carries the index, length and remainder. -/
inductive Blobs where
  | done (datas : List Bytes) (rest : Bytes)
  | oversize (i length rem : Nat)
  | failed (error : ReadError)
  deriving DecidableEq, Repr

def readBlobs (i : Nat) : List (Nat × Nat) → Nat → Bytes → Blobs
  | [], _, bytes => .done [] bytes
  | (_, l) :: descs, rem, bytes =>
      if l > rem then .oversize i l rem
      else match readFull l bytes with
        | .error e => .failed e
        | .ok (buf, bytes) =>
            match readBlobs (i + 1) descs (rem - l) bytes with
            | .done datas bytes => .done (buf :: datas) bytes
            | other => other

/-- The bytes whose checksum a scan compares, rebuilt from the parsed fields. -/
def rebuilt (seq nDesc : Nat) (descs : List (Nat × Nat)) (datas : List Bytes) : Bytes :=
  putUint 4 journalMagic ++ putUint 8 seq ++ putUint 4 nDesc ++
    descs.flatMap (fun desc => putUint 8 desc.1 ++ putUint 4 desc.2) ++ datas.flatten

/-- One pass through a scan loop: a whole record, `break`, `return err`, or `return nil`
from the middle of the loop. -/
inductive Pass (α : Type) where
  | next (value : α) (rest : Bytes)
  | stop
  | fail (error : ScanError)
  | leave
  deriving DecidableEq, Repr

/-- `initNextSeq` from the commit record of a transaction on. -/
def initNextSeqCommit (seq nDesc : Nat) (descs : List (Nat × Nat)) (datas : List Bytes)
    (bytes : Bytes) : Pass Nat :=
  match readUint 4 bytes with
  | .error .eof => .stop
  | .error e => .fail (.read e)
  | .ok (cm, bytes) =>
  if cm ≠ commitMagic then .stop else
  match readUint 8 bytes with
  | .error e => .fail (.read e)
  | .ok (_, bytes) =>
  match readUint 4 bytes with
  | .error e => .fail (.read e)
  | .ok (crc, bytes) =>
  if (crcUpdate 0 (rebuilt seq nDesc descs datas)).toNat = crc then .next seq bytes else .stop

/-- `initNextSeq` from the descriptors of a transaction on. -/
def initNextSeqBody (seq nDesc : Nat) (bytes : Bytes) : Pass Nat :=
  match journalReserveDescs bytes.length nDesc with
  | none => .stop
  | some rem =>
  match readDescs nDesc bytes with
  | .error e => .fail (.read e)
  | .ok (descs, bytes) =>
  match readBlobs 0 descs rem bytes with
  | .oversize .. => .stop
  | .failed _ => .leave
  | .done datas bytes => initNextSeqCommit seq nDesc descs datas bytes

def initNextSeqPass (bytes : Bytes) : Pass Nat :=
  match readUint 4 bytes with
  | .error .eof => .stop
  | .error e => .fail (.read e)
  | .ok (magic, bytes) =>
  if magic ≠ journalMagic then .stop else
  match readUint 8 bytes with
  | .error e => .fail (.read e)
  | .ok (seq, bytes) =>
  match readUint 4 bytes with
  | .error e => .fail (.read e)
  | .ok (nDesc, bytes) => initNextSeqBody seq nDesc bytes

/-- `ReplayOnOpen` from the commit record of a transaction to its checksum test. -/
def replayCommit (seq nDesc : Nat) (descs : List (Nat × Nat)) (datas : List Bytes)
    (bytes : Bytes) : Pass Tx :=
  match readUint 4 bytes with
  | .error _ => .stop
  | .ok (cm, bytes) =>
  if cm ≠ commitMagic then .stop else
  match readUint 8 bytes with
  | .error e => .fail (.read e)
  | .ok (_, bytes) =>
  match readUint 4 bytes with
  | .error e => .fail (.read e)
  | .ok (crc, bytes) =>
  if (crcUpdate 0 (rebuilt seq nDesc descs datas)).toNat ≠ crc then .stop
  else .next ⟨seq, List.zipWith (fun desc data => ⟨desc.1, data⟩) descs datas⟩ bytes

/-- `ReplayOnOpen` from the descriptors of a transaction on. Unlike `initNextSeq` it refuses
a transaction that does not fit in the file. -/
def replayBody (seq nDesc : Nat) (bytes : Bytes) : Pass Tx :=
  match journalReserveDescs bytes.length nDesc with
  | none => .fail (.descriptors seq nDesc (nDesc * descSize) bytes.length)
  | some rem =>
  match readDescs nDesc bytes with
  | .error e => .fail (.read e)
  | .ok (descs, bytes) =>
  match readBlobs 0 descs rem bytes with
  | .oversize i length rem => .fail (.oversize seq i length rem)
  | .failed e => .fail (.read e)
  | .done datas bytes => replayCommit seq nDesc descs datas bytes

def replayPass (bytes : Bytes) : Pass Tx :=
  match readUint 4 bytes with
  | .error .eof => .stop
  | .error e => .fail (.read e)
  | .ok (magic, bytes) =>
  if magic ≠ journalMagic then .stop else
  match readUint 8 bytes with
  | .error e => .fail (.read e)
  | .ok (seq, bytes) =>
  match readUint 4 bytes with
  | .error e => .fail (.read e)
  | .ok (nDesc, bytes) => replayBody seq nDesc bytes

/-! ## Opening a filesystem over a sidecar file -/

structure Journal where
  enabled : Bool
  nextSeq : Nat
  applySeq : Nat
  appendOff : Nat
  deriving DecidableEq, Repr

def disabled : Journal := ⟨false, 0, 0, 0⟩

/-- The loop of `initNextSeq`; `none` is its early `return nil`. Every full pass consumes at
least one octet, so a fuel above the length of the file never runs out. -/
def initNextSeqLoop : Nat → Nat → Bytes → Except ScanError (Option Nat)
  | 0, lastSeq, _ => .ok (some lastSeq)
  | fuel + 1, lastSeq, bytes =>
      match initNextSeqPass bytes with
      | .stop => .ok (some lastSeq)
      | .leave => .ok none
      | .fail e => .error e
      | .next seq rest => initNextSeqLoop fuel (if seq > lastSeq then seq else lastSeq) rest

def initNextSeq (file : Bytes) (j : Journal) : Except ScanError Journal :=
  match initNextSeqLoop (file.length + 1) 0 file with
  | .error e => .error e
  | .ok none => .ok j
  | .ok (some lastSeq) => .ok { j with nextSeq := (lastSeq + 1) % 2 ^ 64, appendOff := file.length }

def openJournal (file : Bytes) : Journal :=
  match initNextSeq file { disabled with enabled := true } with
  | .error _ => disabled
  | .ok j => { j with applySeq := j.nextSeq }

/-- The block writes a replay issues in order, the journal it leaves, and how it ends. -/
structure Replay where
  writes : List Entry
  journal : Journal
  error : Option ScanError
  deriving DecidableEq, Repr

def applyEntries (blocksCount : Nat) : List Entry → List Entry × Option ScanError
  | [] => ([], none)
  | entry :: entries =>
      if entry.block ≥ blocksCount then ([], some (.outOfRange entry.block))
      else
        let after := applyEntries blocksCount entries
        (entry :: after.1, after.2)

def replayLoop (blocksCount : Nat) : Nat → Journal → Bytes → Replay
  | 0, j, _ => ⟨[], j, none⟩
  | fuel + 1, j, bytes =>
      match replayPass bytes with
      | .stop | .leave => ⟨[], j, none⟩
      | .fail e => ⟨[], j, some e⟩
      | .next tx rest =>
          match applyEntries blocksCount tx.entries with
          | (writes, some e) => ⟨writes, j, some e⟩
          | (writes, none) =>
              let j := if tx.seq ≥ j.nextSeq then { j with nextSeq := (tx.seq + 1) % 2 ^ 64 } else j
              let after := replayLoop blocksCount fuel j rest
              { after with writes := writes ++ after.writes }

def replayOnOpen (blocksCount : Nat) (file : Bytes) (j : Journal) : Replay :=
  if j.enabled then replayLoop blocksCount (file.length + 1) j file else ⟨[], j, none⟩

/-- The journal part of `openFromDevice`; an `error` makes the open fail. -/
def openFromDevice (blocksCount : Nat) (file : Bytes) : Replay :=
  replayOnOpen blocksCount file (openJournal file)

/-! ## The fuel of the loops never runs out -/

variable {descs : List (Nat × Nat)} {bytes rest : Bytes}

theorem readDescs_length {n : Nat}
    (read : readDescs n bytes = .ok (descs, rest)) : rest.length ≤ bytes.length := by
  induction n generalizing bytes rest descs with
  | zero => cases read; exact Nat.le_refl _
  | succ n ih =>
    simp only [readDescs, bind, Except.bind] at read
    split at read
    · cases read
    next first block =>
      split at read
      · cases read
      next second length =>
        split at read
        · cases read
        next later others =>
          cases read
          have a := readUint_length block
          have b := readUint_length length
          have c := ih others
          omega

theorem readBlobs_length {datas : List Bytes} {i rem : Nat} (read : readBlobs i descs rem bytes = .done datas rest) :
    rest.length ≤ bytes.length := by
  induction descs generalizing i rem bytes datas with
  | nil => cases read; exact Nat.le_refl _
  | cons desc descs ih =>
    simp only [readBlobs] at read
    split at read
    · cases read
    · split at read
      · cases read
      next buf bytes first =>
        split at read
        next later =>
          cases read
          have a := readFull_length first
          have b := ih later
          omega
        next other => exact absurd read (other _ _)

variable {tx : Tx}

theorem replayPass_reads (full : replayPass bytes = .next tx rest) :
    ∃ magic seq nDesc head rem descs tail datas last commit number crc,
      readUint 4 bytes = .ok magic ∧ readUint 8 magic.2 = .ok seq ∧ readUint 4 seq.2 = .ok (nDesc, head) ∧
      readDescs nDesc head = .ok (descs, tail) ∧ readBlobs 0 descs rem tail = .done datas last ∧
      readUint 4 last = .ok commit ∧ readUint 8 commit.2 = .ok number ∧
      readUint 4 number.2 = .ok (crc, rest) ∧
      tx.entries = List.zipWith (fun desc data => ⟨desc.1, data⟩) descs datas := by
  unfold replayPass at full
  rcases magic : readUint 4 bytes with (_ | _) | ⟨_, bytes⟩ <;> simp only [magic, reduceCtorEq] at full
  split at full
  · cases full
  rcases seq : readUint 8 bytes with _ | ⟨_, bytes⟩ <;> simp only [seq, reduceCtorEq] at full
  rcases count : readUint 4 bytes with _ | ⟨nDesc, bytes⟩ <;>
    simp only [count, reduceCtorEq, replayBody] at full
  rcases room : journalReserveDescs bytes.length nDesc with _ | rem <;>
    simp only [room, reduceCtorEq] at full
  rcases descs : readDescs nDesc bytes with _ | ⟨spans, bytes⟩ <;> simp only [descs, reduceCtorEq] at full
  rcases datas : readBlobs 0 spans rem bytes with ⟨_, bytes⟩ | _ | _ <;>
    simp only [datas, reduceCtorEq, replayCommit] at full
  rcases commit : readUint 4 bytes with _ | ⟨_, bytes⟩ <;> simp only [commit, reduceCtorEq] at full
  split at full
  · cases full
  rcases number : readUint 8 bytes with _ | ⟨_, bytes⟩ <;> simp only [number, reduceCtorEq] at full
  rcases crc : readUint 4 bytes with _ | _ <;> simp only [crc, reduceCtorEq] at full
  split at full
  · cases full
  cases full
  exact ⟨(_, _), (_, _), _, _, _, _, _, _, _, (_, _), (_, _), _, rfl, seq, count, descs, datas, commit,
    number, crc, rfl⟩

theorem replayPass_consumes (full : replayPass bytes = .next tx rest) : rest.length < bytes.length := by
  obtain ⟨_, _, _, _, _, _, _, _, _, _, _, _, magic, seq, count, descs, datas, commit, number, crc, -⟩ :=
    replayPass_reads full
  have := readUint_length magic
  have := readUint_length seq
  have := readUint_length count
  have := readDescs_length descs
  have := readBlobs_length datas
  have := readUint_length commit
  have := readUint_length number
  have := readUint_length crc
  omega

theorem initNextSeqPass_next {seq : Nat} : initNextSeqPass bytes = .next seq rest ↔
    ∃ tx, tx.seq = seq ∧ replayPass bytes = .next tx rest := by
  unfold initNextSeqPass replayPass
  rcases readUint 4 bytes with (_ | _) | ⟨magic, bytes⟩
  · simp
  · simp
  dsimp only
  split
  · simp
  rcases readUint 8 bytes with _ | ⟨number, bytes⟩
  · simp
  dsimp only
  rcases readUint 4 bytes with _ | ⟨nDesc, bytes⟩
  · simp
  simp only [initNextSeqBody, replayBody]
  rcases journalReserveDescs bytes.length nDesc with _ | rem
  · simp
  rcases readDescs nDesc bytes with _ | ⟨descs, bytes⟩
  · simp
  dsimp only
  rcases readBlobs 0 descs rem bytes with ⟨datas, bytes⟩ | _ | _
  case oversize => simp
  case failed => simp
  simp only [initNextSeqCommit, replayCommit]
  rcases readUint 4 bytes with (_ | _) | ⟨commit, bytes⟩
  · simp
  · simp
  dsimp only
  split
  · simp
  rcases readUint 8 bytes with _ | ⟨_, bytes⟩
  · simp
  dsimp only
  rcases readUint 4 bytes with _ | ⟨crc, bytes⟩
  · simp
  by_cases sum : (crcUpdate 0 (rebuilt number nDesc descs datas)).toNat = crc
  · simp [sum]
  · simp [sum]

/-- Whatever the file holds, the scan for the last number ends. -/
theorem initNextSeqLoop_fuel (bytes : Bytes) (lastSeq fuel more : Nat) (enough : bytes.length < fuel) :
    initNextSeqLoop (fuel + more) lastSeq bytes = initNextSeqLoop fuel lastSeq bytes := by
  induction fuel generalizing bytes lastSeq with
  | zero => exact absurd enough (Nat.not_lt_zero _)
  | succ fuel ih =>
    rw [Nat.add_right_comm, initNextSeqLoop, initNextSeqLoop]
    cases pass : initNextSeqPass bytes with
    | next seq rest =>
      obtain ⟨_, -, pass⟩ := initNextSeqPass_next.mp pass
      have shorter := replayPass_consumes pass
      exact ih rest _ (by omega)
    | stop => rfl
    | fail error => rfl
    | leave => rfl

/-- The records of two commits, numbers 5 and 6. -/
def twoRecords : Bytes := sidecarFile [⟨5, [⟨0, [7]⟩]⟩, ⟨6, [⟨1, [8, 9]⟩]⟩]

theorem initNextSeqLoop_fuel_two : initNextSeqLoop 92 0 twoRecords = .ok (some 6) ∧
    initNextSeqLoop (92 + 900) 0 twoRecords = initNextSeqLoop 92 0 twoRecords :=
  ⟨by decide +kernel, initNextSeqLoop_fuel twoRecords 0 92 900 (by decide)⟩

/-- Whatever the file holds, the replay ends before it has made a pass for each octet. -/
theorem replayLoop_fuel (blocksCount : Nat) (bytes : Bytes) (j : Journal) (fuel more : Nat)
    (enough : bytes.length < fuel) :
    replayLoop blocksCount (fuel + more) j bytes = replayLoop blocksCount fuel j bytes := by
  induction fuel generalizing bytes j with
  | zero => exact absurd enough (Nat.not_lt_zero _)
  | succ fuel ih =>
    rw [Nat.add_right_comm, replayLoop, replayLoop]
    cases pass : replayPass bytes with
    | next tx rest =>
      have shorter := replayPass_consumes pass
      simp only [ih rest _ (by omega)]
    | stop => rfl
    | fail error => rfl
    | leave => rfl

theorem replayLoop_fuel_two :
    (replayLoop 8 92 (openJournal twoRecords) twoRecords).writes = [⟨0, [7]⟩, ⟨1, [8, 9]⟩] ∧
    replayLoop 8 (92 + 900) (openJournal twoRecords) twoRecords =
      replayLoop 8 92 (openJournal twoRecords) twoRecords :=
  ⟨by decide +kernel, replayLoop_fuel 8 twoRecords _ 92 900 (by decide)⟩

end Ext4.Sidecar
