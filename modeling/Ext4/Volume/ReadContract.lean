import Ext4.Volume.InodeData

/-! What `ReadAt` promises for any list of leaves.
The leaves may overlap, be empty or stand in any order, and the search may then miss the leaf of a
block. Every round still delivers an octet or ends the call. -/

namespace Ext4.InodeData
open Octets Volume List

structure Reader where
  read : Nat → Nat → Option Bytes
  whole : ∀ {off n data}, read off n = some data → data.length = n

def Reader.fenced (dev : Reader) (low high : Nat) : Reader where
  read off n := if low ≤ off ∧ off + n ≤ high then dev.read off n else none
  whole := by
    intro off n data done
    split at done
    · exact dev.whole done
    · cases done

/-- The device read of a round; `physBlock`, `lastBlock` and `diskOff` are of 64 bits. -/
def Reader.fetch (v : Geometry) (dev : Reader) (phys within chunk : Nat) : Except Err Bytes :=
  let physBlock := phys % 2 ^ 64
  let lastBlock := (physBlock + (within + chunk - 1) / v.blockSize) % 2 ^ 64
  if v.blocksCount ≠ 0 ∧ v.blocksCount ≤ lastBlock then .error .outOfRange
  else match dev.read ((v.fsOffset + physBlock * v.blockSize + within) % 2 ^ 64) chunk with
    | none => .error .device
    | some data => .ok data

/-- A leaf as the parsers yield it: a start of 48 bits and a length of 16. -/
def Narrow (e : Extent) : Prop := e.physBlock < 2 ^ 48 ∧ e.count < 2 ^ 16

/-- What `io.ReaderAt` asks of a call that has gone through that many rounds of its loop. -/
structure Contract {ε : Type} (size rounds off len : Nat) (result : Bytes × Option (Stop ε)) : Prop where
  inside : result.1.length ≤ len
  advances : result.2 = none → min rounds len ≤ result.1.length
  ended : result.2 = some .eof → size ≤ off + result.1.length

theorem Contract.step {ε : Type} {size rounds cur left chunk : Nat} {r : Bytes × Option (Stop ε)} {head : Bytes}
    (rest : Contract size rounds (cur + chunk) (left - chunk) r) (length : head.length = chunk)
    (some : 0 < chunk) (fits : chunk ≤ left) : Contract size (rounds + 1) cur left (head ++ r.1, r.2) := by
  obtain ⟨inside, advances, ended⟩ := rest
  constructor <;> simp only [length_append] <;> grind

theorem readLoop_contract {ε : Type} {fetch : Nat → Nat → Nat → Except ε Bytes} {blockSize : Nat}
    (delivers : ∀ {phys within chunk head}, fetch phys within chunk = .ok head → head.length = chunk)
    (positive : 0 < blockSize) (size : Nat) (extents : List Extent) (rounds cur left : Nat) :
    Contract size rounds cur left (readLoop fetch blockSize size extents rounds cur left) := by
  induction rounds generalizing cur left with
  | zero => constructor <;> simp [readLoop]
  | succ rounds ih =>
    rw [readLoop]
    split
    next full => constructor <;> simp [full]
    next some =>
      split
      next past => constructor <;> simp [past]
      next before =>
        cases found : seek extents (cur / blockSize) with
        | none => exact (ih _ _).step length_replicate (by omega) (by omega)
        | some e =>
          dsimp only
          split
          next hole =>
            have := (Nat.div_lt_iff_lt_mul positive).mp hole
            exact (ih _ _).step length_replicate (by omega) (by omega)
          next low =>
            -- In any order of the leaves, the one that is found covers the block.
            have := (seek_covers found low).2.rest positive
            split
            · constructor <;> simp
            next done => exact (ih _ _).step (delivers done) (by omega) (by omega)

theorem Reader.fetch_length (v : Geometry) (dev : Reader) {phys within chunk : Nat} {head : Bytes}
    (done : dev.fetch v phys within chunk = .ok head) : head.length = chunk := by
  unfold fetch at done
  dsimp only at done
  split at done
  · cases done
  · split at done
    · cases done
    next read =>
      cases done
      exact dev.whole read

theorem Narrow.last {e : Extent} (narrow : Narrow e) {blockSize cur chunk : Nat} (positive : 0 < blockSize)
    (covers : e.covers (cur / blockSize)) (some : 0 < chunk)
    (fits : cur + chunk ≤ (e.logBlock + e.count) * blockSize) :
    e.physBlock + (cur / blockSize - e.logBlock) + (cur % blockSize + chunk - 1) / blockSize < 2 ^ 64 := by
  have ends : (cur + chunk - 1) / blockSize < e.logBlock + e.count := (Nat.div_lt_iff_lt_mul positive).mpr (by omega)
  have split : cur + chunk - 1 = blockSize * (cur / blockSize) + (cur % blockSize + chunk - 1) := by
    have := Nat.div_add_mod cur blockSize
    omega
  rw [split, Nat.mul_add_div positive] at ends
  obtain ⟨start, length⟩ := narrow
  obtain ⟨low, -⟩ := covers
  omega

theorem Reader.fetch_fenced (v : Geometry) (dev : Reader) (offset : v.fsOffset < 2 ^ 63)
    (some : v.blocksCount ≠ 0) (declared : v.blocksCount * v.blockSize < 2 ^ 63) {phys within chunk : Nat}
    (positive : 0 < chunk) (word : phys + (within + chunk - 1) / v.blockSize < 2 ^ 64) :
    dev.fetch v phys within chunk =
      (dev.fenced v.fsOffset (v.fsOffset + v.blocksCount * v.blockSize)).fetch v phys within chunk := by
  have start : phys < 2 ^ 64 := Nat.lt_of_le_of_lt (Nat.le_add_right _ _) word
  unfold fetch
  simp only [Nat.mod_eq_of_lt start, Nat.mod_eq_of_lt word]
  split
  · rfl
  next inRange =>
    have last : phys + (within + chunk - 1) / v.blockSize < v.blocksCount := by omega
    have ends : phys * v.blockSize + (within + chunk - 1) < v.blocksCount * v.blockSize := by
      rw [← Nat.div_lt_iff_lt_mul v.positive, Nat.mul_comm, Nat.mul_add_div v.positive]
      exact last
    simp only [Nat.mod_eq_of_lt (by omega : v.fsOffset + phys * v.blockSize + within < 2 ^ 64), fenced]
    rw [if_pos (by omega)]

/-- `ReadAt` for every list of leaves, size, offset and buffer: a call of `len` rounds has delivered
all it was asked for when it returns no error. -/
theorem readAt_contract (v : Geometry) (dev : Reader) (extents : List Extent) (size off len : Nat) :
    (∀ rounds cur left, Contract size rounds cur left
      (readLoop (dev.fetch v) v.blockSize size extents rounds cur left)) ∧
    Contract size len off len (readMapped (dev.fetch v) v.blockSize size extents off len) ∧
    ((∀ e ∈ extents, Narrow e) → v.fsOffset < 2 ^ 63 → 0 < v.blocksCount * v.blockSize →
      v.blocksCount * v.blockSize < 2 ^ 63 →
      readMapped (dev.fetch v) v.blockSize size extents off len =
        readMapped ((dev.fenced v.fsOffset (v.fsOffset + v.blocksCount * v.blockSize)).fetch v) v.blockSize
          size extents off len) := by
  have loop := readLoop_contract (@Reader.fetch_length v dev) v.positive size extents
  refine ⟨loop, ?_, fun narrow offset some declared => ?_⟩
  · unfold readMapped
    split
    next past => constructor <;> simp [past]
    next => exact loop len off len
  · refine readMapped_congr v.positive (fun e mem cur chunk covers positive _ fits => ?_) off len
    exact dev.fetch_fenced v offset (by rintro none; simp [none] at some) declared positive
      ((narrow e mem).last v.positive covers positive fits)

end Ext4.InodeData
