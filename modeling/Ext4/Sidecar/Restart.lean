import Ext4.Sidecar.Transaction

/-! A replay that is interrupted and started again.
What a replay writes is decided by the sidecar file alone, and the replay does not write to it. So a
second replay makes the same writes in the same order, and for every octet the last of them wins. -/

namespace Ext4.Sidecar
open Octets Overlay Resize List

inductive RecoveryError where
  | replay (error : ReplayError)
  /-- `journal replay apply block` -/
  | write (error : TxError)
  deriving DecidableEq, Repr

/-- `ReplayOnOpen` with its writes made to the device. The area is what the journal was opened with:
the offset of the filesystem, the block size and the number of blocks. -/
def recover (v : Mount) (area : Area) (file : Bytes) (j : Journal) (s : Vol) :
    Except RecoveryError Unit × Vol :=
  let landed := area.replayOnOpen file j
  match writeDirectly v landed.writes s with
  | (.error e, t) => (.error (.write e), t)
  | (.ok _, t) =>
      match landed.error with
      | some e => (.error (.replay e), t)
      | none => (.ok (), t)

def interrupted (v : Mount) (area : Area) (file : Bytes) (j : Journal) (done : Nat) (s : Vol) : Vol :=
  (writeDirectly v ((area.replayOnOpen file j).writes.take done) s).2

variable {v : Mount} {area : Area} {file : Bytes} {j j' : Journal} {s : Vol}

/-! ## The writes depend on the file only -/

theorem replayLoop_any {blocksCount : Nat} (fuel : Nat) (bytes : Bytes) (j j' : Journal) :
    (replayLoop blocksCount fuel j bytes).writes = (replayLoop blocksCount fuel j' bytes).writes ∧
      (replayLoop blocksCount fuel j bytes).error = (replayLoop blocksCount fuel j' bytes).error := by
  induction fuel generalizing bytes j j' with
  | zero => exact ⟨rfl, rfl⟩
  | succ fuel ih =>
    rw [replayLoop, replayLoop]
    cases replayPass bytes with
    | stop => exact ⟨rfl, rfl⟩
    | leave => exact ⟨rfl, rfl⟩
    | fail e => exact ⟨rfl, rfl⟩
    | next tx rest =>
      dsimp only
      rcases applyEntries blocksCount tx.entries with ⟨writes, _ | e⟩
      · dsimp only
        have later := ih rest (if tx.seq ≥ j.nextSeq then { j with nextSeq := (tx.seq + 1) % 2 ^ 64 } else j)
          (if tx.seq ≥ j'.nextSeq then { j' with nextSeq := (tx.seq + 1) % 2 ^ 64 } else j')
        exact ⟨congrArg _ later.1, later.2⟩
      · exact ⟨rfl, rfl⟩

theorem Area.replayOnOpen_journal (enabled : j'.enabled = j.enabled) :
    area.replayOnOpen file j' = area.replayOnOpen file j := by
  have same : (Sidecar.replayOnOpen area.blocksCount file j').writes =
        (Sidecar.replayOnOpen area.blocksCount file j).writes ∧
      (Sidecar.replayOnOpen area.blocksCount file j').error =
        (Sidecar.replayOnOpen area.blocksCount file j).error := by
    rw [Sidecar.replayOnOpen, Sidecar.replayOnOpen, enabled]
    split
    · exact replayLoop_any _ _ _ _
    · exact ⟨rfl, rfl⟩
  rw [Area.replayOnOpen, Area.replayOnOpen, same.1, same.2]

/-! ## The device after a second replay -/

theorem reach_append (first later : List (Nat × Bytes)) :
    reach (first ++ later) = max (reach first) (reach later) := by
  induction first with
  | nil => exact (Nat.zero_max _).symm
  | cons range first ih => rw [cons_append, reach, ih, reach, Nat.max_assoc]

theorem written_again (first later : List (Nat × Bytes)) :
    written (written s first) (first ++ later) = written s (first ++ later) := by
  unfold written
  dsimp only
  rw [Disk.writeAll_again, reach_append]
  congr 1
  omega

theorem recover_run (v : Mount) (area : Area) (file : Bytes) (j : Journal) (s : Vol) :
    recover v area file j s = (match (area.replayOnOpen file j).error with
        | some e => .error (.replay e)
        | none => .ok (), written s (area.replayOnOpen file j).writes) := by
  rw [recover, writeDirectly_run]
  cases (area.replayOnOpen file j).error <;> rfl

/-- A replay may be cut off after any of its writes and started again, and it may be repeated. The
second one may find the counters of the journal anywhere. -/
theorem replay_restartable (v : Mount) (area : Area) (file : Bytes) (j j' : Journal) (s t : Vol)
    (enabled : j'.enabled = j.enabled) (succeeds : recover v area file j s = (.ok (), t)) :
    (∀ done, recover v area file j' (interrupted v area file j done s) = (.ok (), t)) ∧
      recover v area file j' t = (.ok (), t) := by
  have again : ∀ done, recover v area file j' (interrupted v area file j done s) = (.ok (), t) := by
    intro done
    rw [← succeeds, recover_run, recover_run, Area.replayOnOpen_journal enabled, interrupted,
      writeDirectly_run]
    have twice := @written_again s ((area.replayOnOpen file j).writes.take done)
      ((area.replayOnOpen file j).writes.drop done)
    rw [take_append_drop] at twice
    exact congrArg _ twice
  refine ⟨again, ?_⟩
  have all := again (area.replayOnOpen file j).writes.length
  rw [interrupted, take_length, writeDirectly_run] at all
  rw [recover_run] at succeeds
  rwa [(Prod.mk.inj succeeds).2] at all

def overlapping : List Tx := [⟨1, [⟨3, [1, 2, 3]⟩]⟩, ⟨2, [⟨3, [9]⟩, ⟨4, []⟩]⟩]

theorem overlapping_fits : ∀ tx ∈ overlapping, tx.Fits hundredBlocks.blocksCount := by
  intro tx mem
  rcases mem_cons.mp mem with rfl | later
  · exact ⟨by decide, by decide, by decide, by decide, by decide⟩
  · rw [mem_singleton.mp later]
    exact ⟨by decide, by decide, by decide, by decide, by decide⟩

def hundredMount : Mount := ⟨⟨1024, 8192, 128, 0, 128, 32⟩, 2 ^ 20, 1, 0, smallMount.blockSize_pos⟩

def hundredVol : Vol := ⟨2 ^ 20 + 102400, fun _ => 0, ⟨[], 100, 0, 0⟩, 128⟩

/-- The replay of these is cut off after the first write, with the second record not applied. -/
theorem replay_restartable_overlapping :
    ∃ t, recover hundredMount hundredBlocks (sidecarFile overlapping) (openJournal (sidecarFile overlapping))
        hundredVol = (.ok (), t) ∧
      recover hundredMount hundredBlocks (sidecarFile overlapping) (openJournal (sidecarFile overlapping))
        (interrupted hundredMount hundredBlocks (sidecarFile overlapping)
          (openJournal (sidecarFile overlapping)) 1 hundredVol) = (.ok (), t) := by
  have succeeds := recover_run hundredMount hundredBlocks (sidecarFile overlapping)
    (openJournal (sidecarFile overlapping)) hundredVol
  have quiet : (hundredBlocks.replayOnOpen (sidecarFile overlapping)
      (openJournal (sidecarFile overlapping))).error = none := by
    rw [hundredBlocks.replayOnOpen_whole overlapping_fits]
    rfl
  rw [quiet] at succeeds
  exact ⟨_, succeeds, (replay_restartable _ _ _ _ _ _ _ rfl succeeds).1 1⟩

end Ext4.Sidecar
