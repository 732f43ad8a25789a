import Mathlib.Data.List.TakeWhile
import Ext4.Sidecar.Recommit

/-! Where a replay writes.
A descriptor gives a block number of 64 bits and a length of 32 bits. The replay compares the block
number with the size of the filesystem, computes the offset in signed 64-bit arithmetic, and writes
all the data of the descriptor there. -/

namespace Ext4.Sidecar
open Octets List

structure Area where
  fsOffset : Nat
  blockSize : Nat
  blocksCount : Nat
  /-- An `int64` that is not negative. -/
  addressable : fsOffset < 2 ^ 63

/-- A value of type `int64` after a conversion or an arithmetic operation. -/
def int64 (n : Int) : Int := n.bmod (2 ^ 64)

namespace Area
variable (area : Area)

def offset (block : Nat) : Int :=
  int64 (area.fsOffset + int64 (int64 block * int64 area.blockSize))

def position (block : Nat) : Nat := area.fsOffset + block * area.blockSize

def limit : Nat := area.fsOffset + area.blocksCount * area.blockSize

end Area

/-! ## Replaying to the device -/

inductive ReplayError where
  | scan (error : ScanError)
  /-- `WriteAt` refuses a negative offset. -/
  | refused (block : Nat)
  deriving DecidableEq, Repr

structure Landed where
  writes : List (Nat × Bytes)
  error : Option ReplayError
  deriving DecidableEq, Repr

/-- Write the entries one by one; `after` is what the scan reports behind the last of them. -/
def Area.land (area : Area) (after : Option ScanError) : List Entry → Landed
  | [] => ⟨[], after.map .scan⟩
  | entry :: entries =>
      if area.offset entry.block < 0 then ⟨[], some (.refused entry.block)⟩
      else
        let rest := area.land after entries
        ⟨((area.offset entry.block).toNat, entry.data) :: rest.writes, rest.error⟩

def Area.replayOnOpen (area : Area) (file : Bytes) (j : Journal) : Landed :=
  let replay := Sidecar.replayOnOpen area.blocksCount file j
  area.land replay.error replay.writes

def Area.Contains (area : Area) (landed : Landed) : Prop :=
  ∀ write ∈ landed.writes, ∀ p, write.1 ≤ p → p < write.1 + write.2.length →
    area.fsOffset ≤ p ∧ p < area.limit

/-! ## The records of a file -/

def entriesIn (file : Bytes) : List Entry := (recordsIn (file.length + 1) file).flatMap Tx.entries

variable {blocksCount : Nat} {entries : List Entry} {txs : List Tx}

theorem applyEntries_takeWhile (entries : List Entry) :
    (applyEntries blocksCount entries).1 = entries.takeWhile fun entry => entry.block < blocksCount := by
  induction entries with
  | nil => rfl
  | cons entry entries ih =>
    rw [applyEntries, takeWhile_cons]
    split
    next beyond => rw [if_neg (by simpa using beyond)]
    next inside =>
      rw [if_pos (by simpa using inside)]
      exact congrArg _ ih

theorem applyEntries_short {writes : List Entry} {error : ScanError}
    (applied : applyEntries blocksCount entries = (writes, some error)) : writes.length < entries.length := by
  induction entries generalizing writes with
  | nil => cases applied
  | cons entry entries ih =>
    rw [applyEntries] at applied
    split at applied
    · cases applied
      exact Nat.succ_pos _
    · cases later : applyEntries blocksCount entries with
      | mk writes' error' =>
        rw [later] at applied
        cases applied
        exact Nat.succ_lt_succ (ih later)

/-- A replay writes the entries of the records in order, up to the first one out of range. -/
theorem replayLoop_takeWhile (fuel : Nat) (j : Journal) (bytes : Bytes) :
    (replayLoop blocksCount fuel j bytes).writes =
      ((recordsIn fuel bytes).flatMap Tx.entries).takeWhile fun entry => entry.block < blocksCount := by
  induction fuel generalizing j bytes with
  | zero => rfl
  | succ fuel ih =>
    rw [replayLoop, recordsIn]
    cases pass : replayPass bytes with
    | stop => rfl
    | leave => rfl
    | fail e => rfl
    | next tx rest =>
      dsimp only
      rw [flatMap_cons, takeWhile_append, ← applyEntries_takeWhile]
      cases applied : applyEntries blocksCount tx.entries with
      | mk writes error =>
        cases error with
        | none =>
          have all := applyEntries_all (by rw [applied] : (applyEntries blocksCount tx.entries).2 = none)
          rw [applied] at all
          cases all
          rw [if_pos rfl, ih]
        | some e => rw [if_neg (Nat.ne_of_lt (applyEntries_short applied))]

theorem Area.land_writes (area : Area) (after : Option ScanError) (entries : List Entry) :
    (area.land after entries).writes = (entries.takeWhile fun entry => 0 ≤ area.offset entry.block).map
        fun entry => ((area.offset entry.block).toNat, entry.data) := by
  induction entries with
  | nil => rfl
  | cons entry entries ih =>
    rw [land, takeWhile_cons]
    split
    next refused => rw [if_neg (by simpa using refused), map_nil]
    next accepted =>
      rw [if_pos (by simpa using accepted), map_cons]
      exact congrArg _ ih

/-! ## Replays without an error -/

theorem Area.land_quiet {area : Area} {after : Option ScanError}
    (quiet : (area.land after entries).error = none) :
    after = none ∧ ∀ entry ∈ entries, 0 ≤ area.offset entry.block := by
  induction entries with
  | nil => exact ⟨by simpa [land] using quiet, fun _ mem => nomatch mem⟩
  | cons entry entries ih =>
    rw [land] at quiet
    split at quiet
    · cases quiet
    next accepted =>
      obtain ⟨none, rest⟩ := ih quiet
      exact ⟨none, forall_mem_cons.mpr ⟨Int.not_lt.mp accepted, rest⟩⟩

theorem entriesIn_whole (fits : ∀ tx ∈ txs, tx.Fits blocksCount) :
    entriesIn (sidecarFile txs) = txs.flatMap Tx.entries := by
  obtain ⟨opens, quiet, all⟩ := recovered_whole fits
  rw [openFromDevice, replayOnOpen, if_pos opens] at quiet
  rw [recoveredTxs, if_pos opens, (replayLoop_quiet _ _ _ quiet).1] at all
  rw [entriesIn, all]

/-! ## The widths of the fields -/

variable {descs : List (Nat × Nat)} {bytes rest : Bytes} {datas : List Bytes} {tx : Tx}

theorem readDescs_widths {n : Nat}
    (read : readDescs n bytes = .ok (descs, rest)) : ∀ desc ∈ descs, desc.2 < 256 ^ 4 := by
  induction n generalizing bytes rest descs with
  | zero =>
    cases read
    exact fun _ mem => nomatch mem
  | succ n ih =>
    simp only [readDescs, bind, Except.bind] at read
    split at read
    · cases read
    · split at read
      · cases read
      next length =>
        split at read
        · cases read
        next later =>
          cases read
          exact forall_mem_cons.mpr ⟨readUint_lt length, ih later⟩

theorem readBlobs_widths {i rem : Nat} (read : readBlobs i descs rem bytes = .done datas rest)
    (widths : ∀ desc ∈ descs, desc.2 < 256 ^ 4) : ∀ data ∈ datas, data.length < 256 ^ 4 := by
  induction descs generalizing i rem bytes datas with
  | nil =>
    cases read
    exact fun _ mem => nomatch mem
  | cons desc descs ih =>
    obtain ⟨first, others⟩ := forall_mem_cons.mp widths
    simp only [readBlobs] at read
    split at read
    · cases read
    · split at read
      · cases read
      next buf bytes whole =>
        split at read
        next later =>
          cases read
          refine forall_mem_cons.mpr ⟨?_, ih later others⟩
          unfold readFull at whole
          split at whole
          · cases whole
            exact Nat.lt_of_le_of_lt (length_take_le _ _) first
          · cases whole
        next other => exact absurd read (other _ _)

theorem replayPass_widths (full : replayPass bytes = .next tx rest) :
    ∀ entry ∈ tx.entries, entry.data.length < 256 ^ 4 := by
  obtain ⟨_, _, _, _, _, _, _, _, _, _, _, _, -, -, -, descs, datas, -, -, -, entries⟩ := replayPass_reads full
  intro entry mem
  rw [entries, ← map_uncurry_zip_eq_zipWith] at mem
  obtain ⟨⟨desc, data⟩, pair, rfl⟩ := mem_map.mp mem
  exact readBlobs_widths datas (readDescs_widths descs) data (of_mem_zip pair).2

theorem entriesIn_widths (file : Bytes) : ∀ entry ∈ entriesIn file, entry.data.length < 256 ^ 4 := by
  unfold entriesIn
  generalize file.length + 1 = fuel
  induction fuel generalizing file with
  | zero => exact forall_mem_nil _
  | succ fuel ih =>
    rw [recordsIn]
    cases pass : replayPass file with
    | next tx rest =>
      intro entry mem
      rcases mem_append.mp (by simpa only [flatMap_cons] using mem) with first | later
      · exact replayPass_widths pass entry first
      · exact ih rest entry later
    | stop => exact forall_mem_nil _
    | leave => exact forall_mem_nil _
    | fail e => exact forall_mem_nil _

/-! ## The offset of a block -/

namespace Area
variable (area : Area) {j : Journal} {file : Bytes}

theorem offset_eq (block : Nat) : area.offset block = int64 (area.position block) := by
  simp only [offset, position, int64, Int.bmod_mul_bmod, Int.mul_bmod_bmod, Int.add_bmod_bmod,
    Int.natCast_add, Int.natCast_mul]

theorem offset_nonneg_iff (block : Nat) : 0 ≤ area.offset block ↔ area.position block % 2 ^ 64 < 2 ^ 63 := by
  rw [offset_eq, int64, Int.bmod_def]
  split <;> omega

-- The position of this block overflows to the 1024 octets before the partition.
example : (⟨2 ^ 20, 1024, 2 ^ 54, by decide⟩ : Area).offset (2 ^ 54 - 1) = 2 ^ 20 - 1024 := by decide

theorem toNat_offset {block : Nat} (accepted : 0 ≤ area.offset block) :
    (area.offset block).toNat = area.position block % 2 ^ 64 := by
  rw [offset_eq, int64, Int.bmod_def] at accepted ⊢
  split at accepted <;> omega

/-- The entries that are written: those before the first one out of range or at a negative
offset. -/
def reached (file : Bytes) : List Entry :=
  (entriesIn file).takeWhile fun entry =>
    entry.block < area.blocksCount ∧ area.position entry.block % 2 ^ 64 < 2 ^ 63

/-- The data ends within the filesystem; where the position overflows, it comes to lie behind the
start of the filesystem nevertheless. -/
def Fits (entry : Entry) : Prop :=
  area.fsOffset ≤ area.position entry.block % 2 ^ 64 ∧
    (area.position entry.block < 2 ^ 63 →
      entry.block * area.blockSize + entry.data.length ≤ area.blocksCount * area.blockSize)

theorem reached_eq (file : Bytes) :
    ((entriesIn file).takeWhile fun entry => entry.block < area.blocksCount).takeWhile
      (fun entry => 0 ≤ area.offset entry.block) = area.reached file := by
  rw [takeWhile_takeWhile, reached]
  refine congrArg (takeWhile · (entriesIn file)) ?_
  funext entry
  simp only [decide_eq_true_eq, offset_nonneg_iff, and_comm]

theorem replayOnOpen_writes (file : Bytes) (enabled : j.enabled) : (area.replayOnOpen file j).writes =
      (area.reached file).map fun entry => (area.position entry.block % 2 ^ 64, entry.data) := by
  rw [replayOnOpen, land_writes, Sidecar.replayOnOpen, if_pos enabled, replayLoop_takeWhile]
  change map _ (takeWhile _ (takeWhile _ (entriesIn file))) = _
  rw [reached_eq]
  apply map_congr_left
  intro entry mem
  have taken := mem_takeWhile_imp mem
  rw [decide_eq_true_eq] at taken
  rw [area.toNat_offset ((area.offset_nonneg_iff _).mpr taken.2)]

theorem replayOnOpen_quiet (enabled : j.enabled)
    (quiet : (area.replayOnOpen file j).error = none) : (area.replayOnOpen file j).writes =
      (entriesIn file).map fun entry => (area.position entry.block % 2 ^ 64, entry.data) := by
  rw [replayOnOpen, Sidecar.replayOnOpen, if_pos enabled] at quiet ⊢
  obtain ⟨ended, accepted⟩ := land_quiet quiet
  have all := (replayLoop_quiet _ _ _ ended).2
  rw [all] at accepted
  rw [land_writes, all, takeWhile_eq_self_iff.mpr fun entry mem => decide_eq_true (accepted entry mem)]
  exact map_congr_left fun entry mem => by rw [area.toNat_offset (accepted entry mem)]

theorem fits_iff {entry : Entry} (mem : entry ∈ area.reached file) :
    (∀ p, area.position entry.block % 2 ^ 64 ≤ p →
        p < area.position entry.block % 2 ^ 64 + entry.data.length →
      area.fsOffset ≤ p ∧ p < area.limit) ↔ (0 < entry.data.length → area.Fits entry) := by
  have width := entriesIn_widths file entry ( takeWhile_prefix _ |>.subset mem)
  have taken := mem_takeWhile_imp mem
  rw [decide_eq_true_eq] at taken
  have inside := Nat.mul_le_mul_right area.blockSize (Nat.le_of_lt taken.1)
  unfold Fits limit position at *
  constructor
  · intro contained nonempty
    -- The first octet and the last one.
    have first := contained _ (Nat.le_refl _) (by omega)
    have last := contained (_ + (entry.data.length - 1)) (Nat.le_add_right _ _) (by omega)
    omega
  · intro fits p low high
    omega

/-- A replay stays inside the filesystem exactly when no descriptor that it reaches carries data past
the end of the filesystem or has an offset that overflows to before its start. -/
theorem replay_contained_iff (file : Bytes) (j : Journal) : area.Contains (area.replayOnOpen file j) ↔
      (j.enabled → ∀ entry ∈ area.reached file, 0 < entry.data.length → area.Fits entry) := by
  constructor
  · intro contained enabled entry mem
    rw [Contains, area.replayOnOpen_writes file enabled] at contained
    exact (area.fits_iff mem).mp (contained _ (mem_map_of_mem mem))
  · intro fits write mem
    cases enabled : j.enabled with
    | true =>
      rw [area.replayOnOpen_writes file enabled] at mem
      obtain ⟨entry, reached, rfl⟩ := mem_map.mp mem
      exact (area.fits_iff reached).mpr (fits enabled entry reached)
    | false =>
      rw [replayOnOpen, Sidecar.replayOnOpen, enabled] at mem
      cases mem

theorem replayOnOpen_whole (fits : ∀ tx ∈ txs, tx.Fits area.blocksCount) :
    area.replayOnOpen (sidecarFile txs) (openJournal (sidecarFile txs)) =
      area.land none (txs.flatMap Tx.entries) := by
  obtain ⟨_, quiet, all⟩ := recovered_whole fits
  have written := openFromDevice_writes quiet
  rw [all] at written
  change area.land (openFromDevice _ _).error (openFromDevice _ _).writes = _
  rw [quiet, written]

end Area

/-! ## A descriptor with more data than a block -/

def hundredBlocks : Area := ⟨2 ^ 20, 1024, 100, by decide⟩

def oversized : Tx := ⟨1, [⟨99, replicate 1025 7⟩]⟩

theorem oversized_fits : ∀ tx ∈ [oversized], tx.Fits hundredBlocks.blocksCount := by
  intro tx mem
  rw [mem_singleton.mp mem]
  refine ⟨by decide, by decide, ?_, ?_, by decide⟩
  · intro entry only
    rw [mem_singleton.mp only, length_replicate]
    decide
  · intro entry only
    rw [mem_singleton.mp only]
    decide

/-- The file is accepted, and the octet behind the partition is overwritten. -/
theorem oversized_escapes :
    (hundredBlocks.replayOnOpen (sidecarFile [oversized]) (openJournal (sidecarFile [oversized]))).error =
        none ∧ ¬ hundredBlocks.Contains
      (hundredBlocks.replayOnOpen (sidecarFile [oversized]) (openJournal (sidecarFile [oversized]))) := by
  have landed := hundredBlocks.replayOnOpen_whole oversized_fits
  rw [landed]
  refine ⟨rfl, fun contained => ?_⟩
  have outside := contained _ mem_cons_self hundredBlocks.limit (by decide)
    (by rw [length_replicate]; decide)
  exact Nat.lt_irrefl _ outside.2

end Ext4.Sidecar
