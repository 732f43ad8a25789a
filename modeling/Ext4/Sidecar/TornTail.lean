import Mathlib.Tactic.SplitIfs
import Ext4.Sidecar.Record

/-! Both journal scans over a file that was cut at an arbitrary octet.
Each loop pass is characterised once, by where the cut falls in the record it reads; the
results about whole files are inductions over the committed transactions. -/

namespace Ext4.Sidecar
open Octets List

/-- The transactions whose fields fit the widths the record gives them and whose blocks lie
inside the filesystem. -/
structure Tx.Fits (blocksCount : Nat) (tx : Tx) : Prop where
  seq : tx.seq < 256 ^ 8
  count : tx.entries.length < 256 ^ 4
  length : ∀ entry ∈ tx.entries, entry.data.length < 256 ^ 4
  block : ∀ entry ∈ tx.entries, entry.block < blocksCount
  blocks : blocksCount ≤ 256 ^ 8

def Entry.desc (entry : Entry) : Nat × Nat := (entry.block, entry.data.length)

/-! ## The loops inside a pass -/

theorem descriptors_length (entries : List Entry) :
    (descriptors entries).length = entries.length * descSize := by
  induction entries with
  | nil => rfl
  | cons entry entries ih =>
    simp only [descriptors, flatMap_cons, length_append, length_cons] at ih ⊢
    rw [ih]
    simp only [descriptor, length_append, putUint_length, descSize]
    omega

theorem header_length (tx : Tx) : (header tx).length = txHeaderSize := by
  simp [header, txHeaderSize]

theorem commitRecord_length (tx : Tx) : (commitRecord tx).length = commitSize := by
  simp [commitRecord, commitSize]

theorem readDescs_take (entries : List Entry) (rest : Bytes) (n : Nat)
    (blocks : ∀ entry ∈ entries, entry.block < 256 ^ 8)
    (lengths : ∀ entry ∈ entries, entry.data.length < 256 ^ 4) (enough : entries.length * descSize ≤ n) :
    readDescs entries.length ((descriptors entries ++ rest).take n) =
      .ok (entries.map Entry.desc, rest.take (n - entries.length * descSize)) := by
  induction entries generalizing n with
  | nil => simp [readDescs, descriptors]
  | cons entry entries ih =>
    have room : 12 + entries.length * descSize ≤ n := by
      simp only [length_cons, descSize] at enough ⊢; omega
    have later := ih (n - 8 - 4) (fun e mem => blocks e (mem_cons_of_mem _ mem))
      (fun e mem => lengths e (mem_cons_of_mem _ mem)) (by omega)
    simp only [length_cons, readDescs, descriptors, flatMap_cons, descriptor, append_assoc]
    rw [readUint_take 8 _ (blocks entry mem_cons_self), if_pos (by omega)]
    simp only [bind, Except.bind]
    rw [readUint_take 4 _ (lengths entry mem_cons_self), if_pos (by omega)]
    simp only
    rw [← descriptors, later]
    simp only [pure, Except.pure, map_cons, Entry.desc]
    congr 3
    simp only [descSize]; omega

theorem readBlobs_take_cons (entry : Entry) (entries : List Entry) (rest : Bytes) (n i : Nat)
    (enough : entry.data.length ≤ n) :
    readBlobs i ((entry :: entries).map Entry.desc) ((blobs (entry :: entries) ++ rest).take n).length
        ((blobs (entry :: entries) ++ rest).take n) =
      match readBlobs (i + 1) (entries.map Entry.desc)
        ((blobs entries ++ rest).take (n - entry.data.length)).length
        ((blobs entries ++ rest).take (n - entry.data.length)) with
      | .done datas bytes => .done (entry.data :: datas) bytes
      | other => other := by
  have left : ((blobs (entry :: entries) ++ rest).take n).length =
      entry.data.length + ((blobs entries ++ rest).take (n - entry.data.length)).length := by
    simp only [blobs, flatMap_cons, length_take, length_append]; omega
  rw [left]
  simp only [map_cons, readBlobs, Entry.desc]
  rw [if_neg (by omega), blobs, flatMap_cons, append_assoc, readFull_take, if_pos enough]
  simp only [Nat.add_sub_cancel_left]
  rfl

theorem blobs_cons_length (entry : Entry) (entries : List Entry) :
    (blobs (entry :: entries)).length = entry.data.length + (blobs entries).length := by
  rw [blobs, flatMap_cons, length_append, blobs]

theorem readBlobs_take_complete (entries : List Entry) (rest : Bytes) (n i : Nat)
    (enough : (blobs entries).length ≤ n) :
    readBlobs i (entries.map Entry.desc) ((blobs entries ++ rest).take n).length
        ((blobs entries ++ rest).take n) =
      .done (entries.map Entry.data) (rest.take (n - (blobs entries).length)) := by
  induction entries generalizing n i with
  | nil => simp [readBlobs, blobs]
  | cons entry entries ih =>
    rw [blobs_cons_length] at enough ⊢
    rw [readBlobs_take_cons _ _ _ _ _ (by omega), ih _ _ (by omega)]
    simp only [map_cons, Nat.sub_sub]

theorem readBlobs_take_torn (entries : List Entry) (rest : Bytes) (n i : Nat)
    (torn : n < (blobs entries).length) :
    ∃ index length rem, readBlobs i (entries.map Entry.desc) ((blobs entries ++ rest).take n).length
      ((blobs entries ++ rest).take n) = .oversize index length rem := by
  induction entries generalizing n i with
  | nil => simp [blobs] at torn
  | cons entry entries ih =>
    have split := blobs_cons_length entry entries
    by_cases first : entry.data.length ≤ n
    · obtain ⟨index, length, rem, later⟩ := ih (n - entry.data.length) (i + 1) (by omega)
      exact ⟨index, length, rem, by rw [readBlobs_take_cons _ _ _ _ _ first, later]⟩
    · refine ⟨i, entry.data.length, n, ?_⟩
      have left : ((blobs (entry :: entries) ++ rest).take n).length = n := by
        simp only [length_take, length_append]; omega
      simp only [map_cons, readBlobs, Entry.desc]
      rw [left, if_pos (by omega)]

theorem rebuilt_eq_body (tx : Tx) :
    rebuilt tx.seq tx.entries.length (tx.entries.map Entry.desc) (tx.entries.map Entry.data) = body tx := by
  simp only [rebuilt, body, header, descriptors, blobs, flatMap_def, map_map, append_assoc]
  rfl

theorem zip_desc_data (entries : List Entry) :
    zipWith (fun desc data => Entry.mk desc.1 data) (entries.map Entry.desc)
      (entries.map Entry.data) = entries := by
  induction entries with
  | nil => rfl
  | cons entry entries ih => simp only [map_cons, zipWith_cons_cons, ih, Entry.desc]

/-! ## One pass over a cut record -/

theorem body_length (tx : Tx) :
    (body tx).length = txHeaderSize + tx.entries.length * descSize + (blobs tx.entries).length := by
  simp only [body, length_append, header_length, descriptors_length]

theorem record_length (tx : Tx) : (record tx).length = (body tx).length + commitSize := by
  simp only [record, length_append, commitRecord_length]

def trailer (tx : Tx) (rest : Bytes) : Bytes :=
  putUint 4 commitMagic ++ (putUint 8 tx.seq ++ (putUint 4 (crcUpdate 0 (body tx)).toNat ++ rest))

theorem record_fields (tx : Tx) (rest : Bytes) :
    record tx ++ rest = putUint 4 journalMagic ++ (putUint 8 tx.seq ++ (putUint 4 tx.entries.length ++
      (descriptors tx.entries ++ (blobs tx.entries ++ trailer tx rest)))) := by
  simp only [record, body, header, commitRecord, trailer, append_assoc]

theorem record_trailer (tx : Tx) (rest : Bytes) : record tx ++ rest = body tx ++ trailer tx rest := by
  simp only [record, commitRecord, trailer, append_assoc]

theorem journalReserveDescs_take (entries : List Entry) (rest : Bytes) (n : Nat) :
    journalReserveDescs ((descriptors entries ++ rest).take n).length entries.length =
      if entries.length * descSize ≤ n then some (rest.take (n - entries.length * descSize)).length
      else none := by
  have total := descriptors_length entries
  by_cases enough : entries.length * descSize ≤ n
  · rw [journalReserveDescs, if_pos enough, if_neg]
    · simp only [length_take, length_append, total, Option.some.injEq]; omega
    · simp only [length_take, length_append, total]; omega
  · rw [journalReserveDescs, if_neg enough, if_pos]
    simp only [length_take, length_append, total]; omega

variable {blocksCount : Nat} {tx : Tx}

theorem Tx.Fits.block_width (fits : tx.Fits blocksCount) : ∀ entry ∈ tx.entries, entry.block < 256 ^ 8 :=
  fun entry mem => Nat.lt_of_lt_of_le (fits.block entry mem) fits.blocks

theorem crc_width (data : Bytes) : (crcUpdate 0 data).toNat < 256 ^ 4 :=
  (crcUpdate 0 data).toNat_lt

section
variable (fits : tx.Fits blocksCount)
include fits

theorem initNextSeqPass_header (rest : Bytes) (n : Nat) (enough : txHeaderSize ≤ n) :
    initNextSeqPass ((record tx ++ rest).take n) = initNextSeqBody tx.seq tx.entries.length
      ((descriptors tx.entries ++ (blobs tx.entries ++ trailer tx rest)).take (n - txHeaderSize)) := by
  simp only [txHeaderSize] at enough ⊢
  rw [record_fields, initNextSeqPass, readUint_take 4 _ (by decide), if_pos (by omega)]
  simp only [ne_eq, not_true_eq_false, if_false]
  rw [readUint_take 8 _ fits.seq, if_pos (by omega)]
  simp only
  rw [readUint_take 4 _ fits.count, if_pos (by omega), Nat.sub_sub, Nat.sub_sub]

theorem replayPass_header (rest : Bytes) (n : Nat) (enough : txHeaderSize ≤ n) :
    replayPass ((header tx ++ rest).take n) =
      replayBody tx.seq tx.entries.length (rest.take (n - txHeaderSize)) := by
  simp only [txHeaderSize] at enough ⊢
  rw [header, append_assoc, append_assoc, replayPass, readUint_take 4 _ (by decide), if_pos (by omega)]
  simp only [ne_eq, not_true_eq_false, if_false]
  rw [readUint_take 8 _ fits.seq, if_pos (by omega)]
  simp only
  rw [readUint_take 4 _ fits.count, if_pos (by omega), Nat.sub_sub, Nat.sub_sub]

theorem initNextSeqPass_body (rest : Bytes) (n : Nat) (enough : (body tx).length ≤ n) :
    initNextSeqPass ((record tx ++ rest).take n) = initNextSeqCommit tx.seq tx.entries.length
      (tx.entries.map Entry.desc) (tx.entries.map Entry.data)
      ((trailer tx rest).take (n - (body tx).length)) := by
  rw [body_length] at enough ⊢
  rw [initNextSeqPass_header fits _ _ (by omega), initNextSeqBody, journalReserveDescs_take,
    if_pos (by omega)]
  rw [readDescs_take _ _ _ fits.block_width fits.length (by omega)]
  simp only
  rw [readBlobs_take_complete _ _ _ _ (by omega), Nat.sub_sub, Nat.sub_sub, Nat.add_assoc]

theorem replayPass_body (rest : Bytes) (n : Nat) (enough : (body tx).length ≤ n) :
    replayPass ((body tx ++ rest).take n) = replayCommit tx.seq tx.entries.length
      (tx.entries.map Entry.desc) (tx.entries.map Entry.data) (rest.take (n - (body tx).length)) := by
  rw [body_length] at enough ⊢
  rw [body, append_assoc, append_assoc, replayPass_header fits _ _ (by omega), replayBody,
    journalReserveDescs_take, if_pos (by omega)]
  rw [readDescs_take _ _ _ fits.block_width fits.length (by omega)]
  simp only
  rw [readBlobs_take_complete _ _ _ _ (by omega), Nat.sub_sub, Nat.sub_sub, Nat.add_assoc]

end

/-! A complete record is read and consumed. -/

theorem replayPass_whole (fits : tx.Fits blocksCount) (rest : Bytes) (n : Nat)
    (whole : (record tx).length ≤ n) :
    replayPass ((record tx ++ rest).take n) = .next tx (rest.take (n - (record tx).length)) := by
  rw [record_length, commitSize] at whole ⊢
  rw [record_trailer, replayPass_body fits _ _ (by omega), replayCommit, trailer,
    readUint_take 4 _ (by decide), if_pos (by omega)]
  simp only [ne_eq, not_true_eq_false, if_false]
  rw [readUint_take 8 _ fits.seq, if_pos (by omega)]
  simp only
  rw [readUint_take 4 _ (crc_width _), if_pos (by omega)]
  simp only
  rw [rebuilt_eq_body, if_neg (by simp), zip_desc_data]
  simp only [Nat.sub_sub, Nat.add_assoc]

theorem replayPass_record (fits : tx.Fits blocksCount) (rest : Bytes) :
    replayPass (record tx ++ rest) = .next tx rest := by
  have pass := replayPass_whole fits rest (record tx ++ rest).length (by simp)
  rwa [take_length, length_append, Nat.add_sub_cancel_left, take_length] at pass

/-! A record the file does not hold completely. -/

theorem initNextSeqPass_nothing : initNextSeqPass [] = .stop := rfl

theorem replayPass_nothing : replayPass [] = .stop := rfl

section
variable (fits : tx.Fits blocksCount)
include fits

theorem initNextSeqPass_cut_header (rest : Bytes) (n : Nat) (some : 0 < n) (cut : n < txHeaderSize) :
    ∃ error, initNextSeqPass ((record tx ++ rest).take n) = .fail error := by
  rw [txHeaderSize] at cut
  rw [record_fields, initNextSeqPass, readUint_take 4 _ (by decide)]
  by_cases magic : 4 ≤ n
  · rw [if_pos magic]
    simp only [ne_eq, not_true_eq_false, if_false]
    rw [readUint_take 8 _ fits.seq]
    by_cases seq : 8 ≤ n - 4
    · rw [if_pos seq]
      simp only
      rw [readUint_take 4 _ fits.count, if_neg (by omega)]
      exact ⟨_, rfl⟩
    · rw [if_neg seq]
      exact ⟨_, rfl⟩
  · rw [if_neg magic, shortRead, if_neg (by omega)]
    exact ⟨_, rfl⟩

theorem replayPass_cut_body (rest : Bytes) (n : Nat) (enough : txHeaderSize ≤ n)
    (cut : n < (body tx).length) : ∃ error, replayPass ((record tx ++ rest).take n) = .fail error := by
  rw [body_length] at cut
  rw [record_trailer, body, append_assoc, append_assoc, replayPass_header fits _ _ enough,
    replayBody, journalReserveDescs_take]
  by_cases descs : tx.entries.length * descSize ≤ n - txHeaderSize
  · rw [if_pos descs]
    rw [readDescs_take _ _ _ fits.block_width fits.length descs]
    simp only
    obtain ⟨index, length, rem, torn⟩ := readBlobs_take_torn tx.entries (trailer tx rest)
      (n - txHeaderSize - tx.entries.length * descSize) 0 (by omega)
    rw [torn]
    exact ⟨_, rfl⟩
  · rw [if_neg descs]
    exact ⟨_, rfl⟩

theorem initNextSeqPass_uncommitted (rest : Bytes) :
    initNextSeqPass ((record tx ++ rest).take (body tx).length) = .stop := by
  rw [initNextSeqPass_body fits _ _ (Nat.le_refl _), Nat.sub_self]
  rfl

theorem replayPass_uncommitted (rest : Bytes) :
    replayPass ((record tx ++ rest).take (body tx).length) = .stop := by
  rw [record_trailer, replayPass_body fits _ _ (Nat.le_refl _), Nat.sub_self]
  rfl

theorem initNextSeqPass_cut_commit (rest : Bytes) (n : Nat) (some : (body tx).length < n)
    (cut : n < (record tx).length) : ∃ error, initNextSeqPass ((record tx ++ rest).take n) = .fail error := by
  rw [record_length, commitSize] at cut
  rw [initNextSeqPass_body fits _ _ (by omega), initNextSeqCommit, trailer, readUint_take 4 _ (by decide)]
  by_cases magic : 4 ≤ n - (body tx).length
  · rw [if_pos magic]
    simp only [ne_eq, not_true_eq_false, if_false]
    rw [readUint_take 8 _ fits.seq]
    by_cases seq : 8 ≤ n - (body tx).length - 4
    · rw [if_pos seq]
      simp only
      rw [readUint_take 4 _ (crc_width _), if_neg (by omega)]
      exact ⟨_, rfl⟩
    · rw [if_neg seq]
      exact ⟨_, rfl⟩
  · rw [if_neg magic, shortRead, if_neg (by omega)]
    exact ⟨_, rfl⟩

end

/-! ## Whole files -/

/-- The transactions whose record, commit record included, lies in the first `n` octets. -/
def committed : List Tx → Nat → List Tx
  | [], _ => []
  | tx :: txs, n =>
      if (record tx).length ≤ n then tx :: committed txs (n - (record tx).length) else []

/-- The cut at `n` falls between two records or exactly before a commit record. -/
def CleanCut : List Tx → Nat → Prop
  | [], _ => True
  | tx :: txs, n =>
      if (record tx).length ≤ n then CleanCut txs (n - (record tx).length)
      else n = 0 ∨ n = (body tx).length

instance CleanCut.decidable : (txs : List Tx) → (n : Nat) → Decidable (CleanCut txs n)
  | [], _ => isTrue trivial
  | tx :: txs, n => by
      unfold CleanCut
      have := CleanCut.decidable txs (n - (record tx).length)
      infer_instance

theorem sidecarFile_cons (tx : Tx) (txs : List Tx) :
    sidecarFile (tx :: txs) = record tx ++ sidecarFile txs := rfl

theorem record_positive (tx : Tx) : 0 < (record tx).length := by
  rw [record_length, commitSize]; omega

variable {txs : List Tx}

/-- With `fuel` rounds both scans read the records one after another and then have `tail` before them,
with `left` rounds to go. -/
inductive Scan (blocksCount : Nat) : Nat → Bytes → List Tx → Nat → Bytes → Prop
  | nil {left : Nat} {tail : Bytes} : Scan blocksCount left tail [] left tail
  | cons {fuel left : Nat} {bytes rest tail : Bytes} {tx : Tx} {txs : List Tx} (fits : tx.Fits blocksCount)
      (pass : replayPass bytes = .next tx rest) (later : Scan blocksCount fuel rest txs left tail) :
      Scan blocksCount (fuel + 1) bytes (tx :: txs) left tail

theorem scan_append (fits : ∀ tx ∈ txs, tx.Fits blocksCount) (tail : Bytes) {fuel : Nat}
    (enough : (sidecarFile txs ++ tail).length < fuel) :
    ∃ left, Scan blocksCount fuel (sidecarFile txs ++ tail) txs (left + 1) tail := by
  induction txs generalizing fuel with
  | nil => exact ⟨fuel - 1, by rw [Nat.sub_add_cancel (Nat.zero_lt_of_lt enough)]; exact .nil⟩
  | cons tx txs ih =>
    obtain ⟨headFits, tailFits⟩ := forall_mem_cons.mp fits
    rw [sidecarFile_cons, append_assoc] at enough ⊢
    rw [length_append] at enough
    have positive := record_positive tx
    obtain ⟨fuel, rfl⟩ := Nat.exists_eq_succ_of_ne_zero (Nat.ne_zero_of_lt enough)
    obtain ⟨left, later⟩ := @ih tailFits fuel (by omega)
    exact ⟨left, .cons headFits (replayPass_record headFits _) later⟩

section
variable {fuel left : Nat} {bytes tail : Bytes}

theorem Scan.initNextSeqLoop (scan : Scan blocksCount fuel bytes txs left tail) (lastSeq : Nat) :
    ∃ last, initNextSeqLoop fuel lastSeq bytes = initNextSeqLoop left last tail ∧ lastSeq ≤ last ∧
      (∀ tx ∈ txs, tx.seq ≤ last) ∧
      ∀ bound, lastSeq < bound → (∀ tx ∈ txs, tx.seq < bound) → last < bound := by
  induction scan generalizing lastSeq with
  | nil => exact ⟨lastSeq, rfl, Nat.le_refl _, nofun, fun _ low _ => low⟩
  | @cons _ _ _ _ _ tx _ _ pass _ ih =>
    obtain ⟨last, scanned, above, all, high⟩ := ih (if tx.seq > lastSeq then tx.seq else lastSeq)
    rw [Sidecar.initNextSeqLoop, initNextSeqPass_next.mpr ⟨_, rfl, pass⟩]
    refine ⟨last, scanned, by split at above <;> omega, forall_mem_cons.mpr ⟨?_, all⟩, ?_⟩
    · split at above <;> omega
    · intro bound low bounded
      obtain ⟨first, later⟩ := forall_mem_cons.mp bounded
      exact high bound (by split <;> assumption) later

theorem applyEntries_inside (entries : List Entry) (inside : ∀ entry ∈ entries, entry.block < blocksCount) :
    applyEntries blocksCount entries = (entries, none) := by
  induction entries with
  | nil => rfl
  | cons entry entries ih =>
    obtain ⟨first, later⟩ := forall_mem_cons.mp inside
    rw [applyEntries, if_neg (by omega), ih later]

/-- A replay does not move the numbers of a journal that knows those of all the records. -/
theorem Scan.replayLoop (scan : Scan blocksCount fuel bytes txs left tail) (j : Journal) :
    ∃ j', replayLoop blocksCount fuel j bytes = { replayLoop blocksCount left j' tail with
        writes := txs.flatMap Tx.entries ++ (replayLoop blocksCount left j' tail).writes } ∧
      j'.enabled = j.enabled ∧ ((∀ tx ∈ txs, tx.seq < j.nextSeq) → j' = j) := by
  induction scan generalizing j with
  | nil => exact ⟨j, rfl, rfl, fun _ => rfl⟩
  | @cons _ _ _ _ _ tx _ fits pass _ ih =>
    obtain ⟨j', replayed, kept, known⟩ := ih
      (if tx.seq ≥ j.nextSeq then { j with nextSeq := (tx.seq + 1) % 2 ^ 64 } else j)
    refine ⟨j', ?_, by rw [kept]; split <;> rfl, fun all => ?_⟩
    · rw [Sidecar.replayLoop, pass]
      simp only [applyEntries_inside _ fits.block, replayed, flatMap_cons, append_assoc]
    · obtain ⟨first, later⟩ := forall_mem_cons.mp all
      rw [if_neg (Nat.not_le.mpr first)] at known
      exact known later

end

/-- The first octets of a file: whole records, and what both scans find behind them. -/
theorem cut_tail (fits : ∀ tx ∈ txs, tx.Fits blocksCount) (n : Nat) :
    ∃ tail, (sidecarFile txs).take n = sidecarFile (committed txs n) ++ tail ∧
      (∀ tx ∈ committed txs n, tx.Fits blocksCount) ∧
      if CleanCut txs n then initNextSeqPass tail = .stop ∧ replayPass tail = .stop
      else (∃ error, initNextSeqPass tail = .fail error) ∨ ∃ error, replayPass tail = .fail error := by
  induction txs generalizing n with
  | nil => exact ⟨[], by simp [sidecarFile, committed], nofun,
      by simp [CleanCut, initNextSeqPass_nothing, replayPass_nothing]⟩
  | cons tx txs ih =>
    obtain ⟨headFits, tailFits⟩ := forall_mem_cons.mp fits
    by_cases whole : (record tx).length ≤ n
    · obtain ⟨tail, file, others, ends⟩ := ih tailFits (n - (record tx).length)
      simp only [committed, if_pos whole, CleanCut, sidecarFile_cons]
      refine ⟨tail, ?_, forall_mem_cons.mpr ⟨headFits, others⟩, ends⟩
      rw [take_append, take_of_length_le whole, file, append_assoc]
    · simp only [committed, if_neg whole, CleanCut]
      refine ⟨_, (nil_append _).symm, nofun, ?_⟩
      rw [sidecarFile_cons]
      split
      next clean =>
        rcases clean with rfl | rfl
        · exact ⟨rfl, rfl⟩
        · exact ⟨initNextSeqPass_uncommitted headFits _, replayPass_uncommitted headFits _⟩
      next unclean =>
        obtain ⟨nonempty, notBody⟩ := not_or.mp unclean
        by_cases inHeader : n < txHeaderSize
        · exact .inl (initNextSeqPass_cut_header headFits _ n (by omega) inHeader)
        · by_cases inBody : n < (body tx).length
          · exact .inr (replayPass_cut_body headFits _ n (by omega) inBody)
          · exact .inl (initNextSeqPass_cut_commit headFits _ n (by omega) (by omega))

/-! ## Opening over whole records -/

theorem openJournal_enabled (file : Bytes) : (openJournal file).enabled ↔
      ∃ last, initNextSeqLoop (file.length + 1) 0 file = .ok last := by
  unfold openJournal initNextSeq
  cases initNextSeqLoop (file.length + 1) 0 file with
  | error e => simp [disabled]
  | ok last => cases last <;> simp

section
variable (fits : ∀ tx ∈ txs, tx.Fits blocksCount)
include fits

theorem openJournal_stopped {tail : Bytes} (stops : initNextSeqPass tail = .stop) :
    ∃ last, openJournal (sidecarFile txs ++ tail) = ⟨true, (last + 1) % 2 ^ 64, (last + 1) % 2 ^ 64,
        (sidecarFile txs ++ tail).length⟩ ∧ (∀ tx ∈ txs, tx.seq ≤ last) ∧
      ∀ bound, 0 < bound → (∀ tx ∈ txs, tx.seq < bound) → last < bound := by
  obtain ⟨left, scan⟩ := scan_append fits tail (Nat.lt_succ_self _)
  obtain ⟨last, scanned, _, all, high⟩ := scan.initNextSeqLoop 0
  refine ⟨last, ?_, all, high⟩
  rw [openJournal, initNextSeq, scanned, initNextSeqLoop, stops]

theorem replayOnOpen_stopped {tail : Bytes} (stops : replayPass tail = .stop) {j : Journal} (on : j.enabled) :
    ∃ j', replayOnOpen blocksCount (sidecarFile txs ++ tail) j = ⟨txs.flatMap Tx.entries, j', none⟩ ∧
      j'.enabled ∧ ((∀ tx ∈ txs, tx.seq < j.nextSeq) → j' = j) := by
  obtain ⟨left, scan⟩ := scan_append fits tail (Nat.lt_succ_self _)
  obtain ⟨j', replayed, kept, known⟩ := scan.replayLoop j
  refine ⟨j', ?_, kept.trans on, known⟩
  rw [replayOnOpen, if_pos on, replayed, replayLoop, stops]
  simp only [append_nil]

/-- Opening over a whole file applies every transaction and continues with a sequence number
above all of them. -/
theorem openFromDevice_whole (room : ∀ tx ∈ txs, tx.seq < 2 ^ 64 - 1) :
    ∃ next, next < 2 ^ 64 ∧ openFromDevice blocksCount (sidecarFile txs) =
      ⟨txs.flatMap Tx.entries, ⟨true, next, next, (sidecarFile txs).length⟩, none⟩ := by
  obtain ⟨last, opens, all, high⟩ := openJournal_stopped fits initNextSeqPass_nothing
  have below := high (2 ^ 64 - 1) (by decide) room
  rw [append_nil, Nat.mod_eq_of_lt (by omega)] at opens
  obtain ⟨j', replayed, _, known⟩ := replayOnOpen_stopped fits replayPass_nothing
    (j := openJournal (sidecarFile txs)) (by rw [opens])
  rw [append_nil, known (by rw [opens]; exact fun tx mem => Nat.lt_succ_of_le (all tx mem))] at replayed
  refine ⟨last + 1, by omega, ?_⟩
  rw [openFromDevice, replayed, opens]

end

/-- Opening over the first `n` octets succeeds with the journal enabled and applies exactly
the entries of the completely recorded transactions, in order. -/
def RecoversCommitted (blocksCount : Nat) (txs : List Tx) (n : Nat) : Prop :=
  let opened := openFromDevice blocksCount ((sidecarFile txs).take n)
  opened.error = none ∧ opened.journal.enabled ∧
    opened.writes = (committed txs n).flatMap Tx.entries

instance (blocksCount : Nat) (txs : List Tx) (n : Nat) :
    Decidable (RecoversCommitted blocksCount txs n) := by
  unfold RecoversCommitted
  infer_instance

theorem cleanCut_of_opened (fits : ∀ tx ∈ txs, tx.Fits blocksCount) (n : Nat)
    (opens : (openJournal ((sidecarFile txs).take n)).enabled)
    (quiet : (openFromDevice blocksCount ((sidecarFile txs).take n)).error = none) : CleanCut txs n := by
  by_contra unclean
  obtain ⟨tail, file, whole, ends⟩ := cut_tail fits n
  rw [openFromDevice, replayOnOpen, if_pos opens] at quiet
  rw [if_neg unclean] at ends
  rw [file] at opens quiet
  obtain ⟨left, scan⟩ := scan_append whole tail (Nat.lt_succ_self _)
  rcases ends with ⟨error, fails⟩ | ⟨error, fails⟩
  · obtain ⟨last, scanned⟩ := (openJournal_enabled _).mp opens
    obtain ⟨_, reached, -⟩ := scan.initNextSeqLoop 0
    rw [reached, initNextSeqLoop, fails] at scanned
    cases scanned
  · obtain ⟨_, reached, -⟩ := scan.replayLoop (openJournal (sidecarFile (committed txs n) ++ tail))
    rw [reached, replayLoop, fails] at quiet
    cases quiet

theorem recoversCommitted_iff_cleanCut (fits : ∀ tx ∈ txs, tx.Fits blocksCount) (n : Nat) :
    RecoversCommitted blocksCount txs n ↔ CleanCut txs n := by
  constructor
  · intro recovers
    obtain ⟨quiet, enabled, _⟩ := recovers
    have opens : (openJournal ((sidecarFile txs).take n)).enabled := by
      by_contra off
      rw [openFromDevice, replayOnOpen, if_neg off] at enabled
      exact off enabled
    exact cleanCut_of_opened fits n opens quiet
  · intro clean
    obtain ⟨tail, file, whole, ends⟩ := cut_tail fits n
    rw [if_pos clean] at ends
    obtain ⟨last, opens, -⟩ := openJournal_stopped whole ends.1
    obtain ⟨j', replayed, on, -⟩ := replayOnOpen_stopped whole ends.2 (j := openJournal _) (by rw [opens])
    unfold RecoversCommitted
    rw [file, openFromDevice, replayed]
    exact ⟨rfl, on, rfl⟩

def oneBlock : Tx := ⟨1, [⟨0, [7, 7]⟩]⟩

theorem oneBlock_fits : ∀ tx ∈ [oneBlock], tx.Fits 1 := by
  intro tx mem
  rw [mem_singleton.mp mem]
  exact ⟨by decide, by decide, by decide, by decide, by decide⟩

/-- With its commit record missing but nothing else, the record is ignored as intended. -/
theorem uncommitted_record_ignored : RecoversCommitted 1 [oneBlock] 30 :=
  (recoversCommitted_iff_cleanCut oneBlock_fits 30).mpr (by decide)

/-- One octet less, and the file system does not open at all. -/
theorem torn_data_refused : ¬ RecoversCommitted 1 [oneBlock] 29 := by decide

end Ext4.Sidecar
