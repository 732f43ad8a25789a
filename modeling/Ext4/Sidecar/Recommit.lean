import Ext4.Sidecar.TornTail

/-! Commits after a recovery.
The filesystem is opened over complete records and a torn tail, and transactions are committed
one after the other. They are appended behind the tail, which no scan gets past. -/

namespace Ext4.Sidecar
open Octets List

variable {blocksCount : Nat} {txs : List Tx} {tx other : Tx} {file file' : Bytes} {j j' : Journal}
  {entries : List Entry}

/-! ## Committing alone -/

/-- `Transaction.Commit` while no other call is under way. Without a journal nothing is persisted;
`none` is a call that waits for ever for its turn. -/
def commitAlone (entries : List Entry) (j : Journal) (file : Bytes) : Option (Journal × Bytes) :=
  if j.enabled = false then some (j, file)
  else
    let tx : Tx := ⟨j.nextSeq, entries⟩
    let next := (j.nextSeq + 1) % 2 ^ 64
    -- `reserveAppend`: the cursor is at least the end of the file.
    let off := max j.appendOff file.length
    let file := writeAt file off (body tx)
    let file := writeAt file (off + (body tx).length) (commitRecord tx)
    if j.applySeq = j.nextSeq then
      some (⟨true, next, next, off + (record tx).length⟩, file)
    else none

def commitAll : List (List Entry) → Journal → Bytes → Option (Journal × Bytes)
  | [], j, file => some (j, file)
  | entries :: later, j, file =>
      (commitAlone entries j file).bind fun after => commitAll later after.1 after.2

def numbered : Nat → List (List Entry) → List Tx
  | _, [] => []
  | seq, entries :: later => ⟨seq, entries⟩ :: numbered ((seq + 1) % 2 ^ 64) later

theorem writeAt_end (file data : Bytes) : writeAt file file.length data = file ++ data := by
  simp [writeAt]

theorem commitAlone_some (enabled : j.enabled)
    (behind : j.appendOff ≤ file.length) (committed : commitAlone entries j file = some (j', file')) :
    file' = file ++ record ⟨j.nextSeq, entries⟩ ∧ j'.enabled ∧
      j'.nextSeq = (j.nextSeq + 1) % 2 ^ 64 ∧ j'.appendOff ≤ file'.length := by
  have off : max j.appendOff file.length = file.length := Nat.max_eq_right behind
  simp only [commitAlone, enabled, Bool.true_eq_false, if_false, off] at committed
  split at committed
  · cases committed
    have written : writeAt (writeAt file file.length (body ⟨j.nextSeq, entries⟩))
        (file.length + (body ⟨j.nextSeq, entries⟩).length) (commitRecord ⟨j.nextSeq, entries⟩) =
        file ++ record ⟨j.nextSeq, entries⟩ := by
      rw [writeAt_end, ← length_append, writeAt_end, append_assoc]
      rfl
    rw [written]
    exact ⟨rfl, rfl, rfl, Nat.le_of_eq length_append.symm⟩
  · cases committed

theorem commitAll_appends {news : List (List Entry)} (enabled : j.enabled)
    (behind : j.appendOff ≤ file.length) (committed : commitAll news j file = some (j', file')) :
    file' = file ++ sidecarFile (numbered j.nextSeq news) := by
  induction news generalizing j file with
  | nil =>
    cases committed
    exact (append_nil _).symm
  | cons entries later ih =>
    simp only [commitAll, Option.bind_eq_some_iff] at committed
    obtain ⟨⟨j₁, file₁⟩, first, rest⟩ := committed
    obtain ⟨appended, enabled₁, next, behind₁⟩ := commitAlone_some enabled behind first
    rw [ih enabled₁ behind₁ rest, appended, numbered, sidecarFile_cons, next, append_assoc]

theorem commitAll_disabled {news : List (List Entry)} (off : j.enabled = false)
    (committed : commitAll news j file = some (j', file')) : file' = file := by
  induction news with
  | nil =>
    cases committed
    rfl
  | cons entries later ih =>
    rw [commitAll, commitAlone, if_pos off] at committed
    exact ih committed

theorem numbered_fits {news : List (List Entry)} {seq : Nat} (bound : seq < 2 ^ 64)
    (fits : ∀ entries ∈ news, (Tx.mk 0 entries).Fits blocksCount) :
    ∀ tx ∈ numbered seq news, tx.Fits blocksCount := by
  induction news generalizing seq with
  | nil => simp [numbered]
  | cons entries later ih =>
    obtain ⟨⟨_, count, length, block, blocks⟩, rest⟩ := forall_mem_cons.mp fits
    rw [numbered]
    refine forall_mem_cons.mpr ⟨⟨bound, count, length, block, blocks⟩, ?_⟩
    exact ih (Nat.mod_lt _ (by decide)) rest

theorem numbered_entries (seq : Nat) (news : List (List Entry)) :
    (numbered seq news).map Tx.entries = news := by
  induction news generalizing seq with
  | nil => rfl
  | cons entries later ih => rw [numbered, map_cons, ih]

/-! ## What a replay applies -/

def replayedTxs (blocksCount : Nat) : Nat → Bytes → List Tx
  | 0, _ => []
  | fuel + 1, bytes =>
      match replayPass bytes with
      | .next tx rest =>
          if (applyEntries blocksCount tx.entries).2 = none then
            tx :: replayedTxs blocksCount fuel rest
          else []
      | _ => []

/-- The records from the start of the file to the first one that is not whole. -/
def recordsIn : Nat → Bytes → List Tx
  | 0, _ => []
  | fuel + 1, bytes =>
      match replayPass bytes with
      | .next tx rest => tx :: recordsIn fuel rest
      | _ => []

def recoveredTxs (blocksCount : Nat) (file : Bytes) : List Tx :=
  if (openJournal file).enabled then replayedTxs blocksCount (file.length + 1) file else []

theorem applyEntries_all (quiet : (applyEntries blocksCount entries).2 = none) :
    applyEntries blocksCount entries = (entries, none) := by
  refine applyEntries_inside entries ?_
  induction entries with
  | nil => simp
  | cons entry entries ih =>
    rw [applyEntries] at quiet
    split at quiet
    · cases quiet
    next inside => exact forall_mem_cons.mpr ⟨Nat.lt_of_not_le inside, ih quiet⟩

/-- A replay that ends without an error writes the entries of all records in order. -/
theorem replayLoop_quiet (fuel : Nat) (j : Journal) (bytes : Bytes)
    (quiet : (replayLoop blocksCount fuel j bytes).error = none) :
    replayedTxs blocksCount fuel bytes = recordsIn fuel bytes ∧
      (replayLoop blocksCount fuel j bytes).writes = (recordsIn fuel bytes).flatMap Tx.entries := by
  induction fuel generalizing j bytes with
  | zero => exact ⟨rfl, rfl⟩
  | succ fuel ih =>
    rw [replayLoop] at quiet ⊢
    rw [replayedTxs, recordsIn]
    cases pass : replayPass bytes with
    | stop => exact ⟨rfl, rfl⟩
    | leave => exact ⟨rfl, rfl⟩
    | fail e => exact ⟨rfl, rfl⟩
    | next tx rest =>
      rw [pass] at quiet
      dsimp only at quiet ⊢
      cases applied : applyEntries blocksCount tx.entries with
      | mk writes error =>
        rw [applied] at quiet
        cases error with
        | some e => cases quiet
        | none =>
          have all := applyEntries_all (by rw [applied] : (applyEntries blocksCount tx.entries).2 = none)
          rw [applied] at all
          cases all
          rw [if_pos rfl, flatMap_cons]
          exact (ih _ _ quiet).imp (congrArg _) (congrArg _)

theorem openFromDevice_writes (quiet : (openFromDevice blocksCount file).error = none) :
    (openFromDevice blocksCount file).writes = (recoveredTxs blocksCount file).flatMap Tx.entries := by
  rw [openFromDevice, replayOnOpen] at quiet ⊢
  rw [recoveredTxs]
  split
  next enabled =>
    rw [if_pos enabled] at quiet
    obtain ⟨all, writes⟩ := replayLoop_quiet _ _ _ quiet
    rw [all, writes]
  next => rfl

/-! ## Scanning records with a tail behind them -/

theorem Scan.replayedTxs {fuel left : Nat} {bytes tail : Bytes} (scan : Scan blocksCount fuel bytes txs left tail) :
    replayedTxs blocksCount fuel bytes = txs ++ replayedTxs blocksCount left tail := by
  induction scan with
  | nil => rfl
  | cons fits pass _ ih =>
    rw [Sidecar.replayedTxs, pass]
    dsimp only
    rw [applyEntries_inside _ fits.block, if_pos rfl, ih, cons_append]

/-- A record without its commit record, and another record behind it: the magic number of the
second stands where the commit record should begin. -/
theorem replayPass_torn (fits : tx.Fits blocksCount) (rest : Bytes) :
    replayPass (body tx ++ (record other ++ rest)) = .stop := by
  have pass := replayPass_body fits (record other ++ rest) (body tx ++ (record other ++ rest)).length
    (by simp)
  rw [take_length] at pass
  rw [pass, record_fields, replayCommit, readUint_take 4 _ (by decide), if_pos (by simp)]
  exact if_pos (by decide)

theorem replayedTxs_torn (fits : tx.Fits blocksCount) (rest : Bytes) (fuel : Nat) :
    replayedTxs blocksCount fuel (body tx ++ (record other ++ rest)) = [] := by
  cases fuel with
  | zero => rfl
  | succ fuel => rw [replayedTxs, replayPass_torn fits]

/-! ## What opening leaves -/

theorem replayLoop_journal (blocksCount fuel : Nat) (j : Journal) (bytes : Bytes)
    (bound : j.nextSeq < 2 ^ 64) : (replayLoop blocksCount fuel j bytes).journal.enabled = j.enabled ∧
    (replayLoop blocksCount fuel j bytes).journal.appendOff = j.appendOff ∧
    (replayLoop blocksCount fuel j bytes).journal.nextSeq < 2 ^ 64 := by
  induction fuel generalizing j bytes with
  | zero => exact ⟨rfl, rfl, bound⟩
  | succ fuel ih =>
    rw [replayLoop]
    split
    · exact ⟨rfl, rfl, bound⟩
    · exact ⟨rfl, rfl, bound⟩
    · exact ⟨rfl, rfl, bound⟩
    · split
      · exact ⟨rfl, rfl, bound⟩
      next =>
        rename_i tx rest _ _ writes _
        by_cases newer : tx.seq ≥ j.nextSeq
        · have later := ih { j with nextSeq := (tx.seq + 1) % 2 ^ 64 } rest
            (Nat.mod_lt _ (by decide))
          simp only [newer, if_true]
          exact later
        · have later := ih j rest bound
          simp only [newer, if_false]
          exact later

theorem openJournal_bounds (file : Bytes) :
    (openJournal file).nextSeq < 2 ^ 64 ∧ (openJournal file).appendOff ≤ file.length := by
  unfold openJournal initNextSeq
  cases initNextSeqLoop (file.length + 1) 0 file with
  | error e => exact ⟨Nat.two_pow_pos 64, Nat.zero_le _⟩
  | ok last =>
    cases last with
    | none => exact ⟨Nat.two_pow_pos 64, Nat.zero_le _⟩
    | some last => exact ⟨Nat.mod_lt _ (by decide), Nat.le_refl _⟩

theorem openFromDevice_journal (blocksCount : Nat) (file : Bytes) :
    (openFromDevice blocksCount file).journal.enabled = (openJournal file).enabled ∧
    (openFromDevice blocksCount file).journal.appendOff ≤ file.length ∧
    (openFromDevice blocksCount file).journal.nextSeq < 2 ^ 64 := by
  obtain ⟨bound, behind⟩ := openJournal_bounds file
  rw [openFromDevice, replayOnOpen]
  split
  · obtain ⟨enabled, cursor, next⟩ :=
      replayLoop_journal blocksCount (file.length + 1) (openJournal file) file bound
    exact ⟨enabled, Nat.le_trans (Nat.le_of_eq cursor) behind, next⟩
  · exact ⟨rfl, behind, bound⟩

/-! ## A torn tail -/

/-- Complete records and the first `n` octets of one more. -/
def tornFile (complete : List Tx) (last : Tx) (n : Nat) : Bytes :=
  sidecarFile complete ++ (record last).take n

/-- Opening over the file applies the complete records and then the new transactions. -/
def Recovered (blocksCount : Nat) (complete : List Tx) (news : List (List Entry)) (file : Bytes) :
    Prop :=
  (openFromDevice blocksCount file).error = none ∧
    (recoveredTxs blocksCount file).map Tx.entries = complete.map Tx.entries ++ news

variable {complete : List Tx} {last : Tx} {n : Nat} {news : List (List Entry)}

theorem sidecarFile_append (one two : List Tx) :
    sidecarFile (one ++ two) = sidecarFile one ++ sidecarFile two := flatMap_append

theorem tornFile_take (complete : List Tx) (last : Tx) (n : Nat) : tornFile complete last n =
    (sidecarFile (complete ++ [last])).take ((sidecarFile complete).length + n) := by
  rw [sidecarFile_append, take_length_add_append, sidecarFile_cons]
  exact congrArg _ (congrArg _ (append_nil _).symm)

theorem cleanCut_torn (torn : n < (record last).length)
    (clean : CleanCut (complete ++ [last]) ((sidecarFile complete).length + n)) :
    n = 0 ∨ n = (body last).length := by
  induction complete with
  | nil =>
    rw [nil_append, sidecarFile, flatMap_nil, length_nil, Nat.zero_add, CleanCut, if_neg (by omega)] at clean
    exact clean
  | cons tx complete ih =>
    rw [cons_append, sidecarFile_cons, length_append, CleanCut, if_pos (by omega)] at clean
    refine ih ?_
    convert clean using 1
    omega

theorem recovered_whole (fits : ∀ tx ∈ txs, tx.Fits blocksCount) :
    (openJournal (sidecarFile txs)).enabled ∧
    (openFromDevice blocksCount (sidecarFile txs)).error = none ∧
    recoveredTxs blocksCount (sidecarFile txs) = txs := by
  obtain ⟨last, opened, -⟩ := openJournal_stopped fits initNextSeqPass_nothing
  have opens : (openJournal (sidecarFile txs ++ [])).enabled := by rw [opened]
  obtain ⟨j', replayed, -⟩ := replayOnOpen_stopped fits replayPass_nothing opens
  obtain ⟨left, scan⟩ := scan_append fits [] (Nat.lt_succ_self _)
  have all := scan.replayedTxs
  rw [show replayedTxs blocksCount (left + 1) [] = [] from rfl, append_nil] at all
  rw [append_nil] at opens replayed all
  refine ⟨opens, ?_, ?_⟩
  · rw [openFromDevice, replayed]
  · rw [recoveredTxs, if_pos opens, all]

theorem recoveredTxs_behind (completeFits : ∀ tx ∈ complete, tx.Fits blocksCount)
    (lastFits : last.Fits blocksCount) (later : List Tx)
    (file : file' = sidecarFile complete ++ (body last ++ sidecarFile (tx :: later))) :
    recoveredTxs blocksCount file' = [] ∨ recoveredTxs blocksCount file' = complete := by
  rw [recoveredTxs]
  split
  · obtain ⟨left, scan⟩ := scan_append completeFits (body last ++ sidecarFile (tx :: later))
      (Nat.lt_succ_self _)
    right
    rw [file, scan.replayedTxs, sidecarFile_cons, replayedTxs_torn lastFits, append_nil]
  · exact Or.inl rfl

/-- Transactions committed after a recovery are recovered in turn exactly when there was no torn
tail: what is appended behind one is never reached. -/
theorem recommits_recovered_iff (completeFits : ∀ tx ∈ complete, tx.Fits blocksCount)
    (lastFits : last.Fits blocksCount) (torn : n < (record last).length)
    (opened : (openFromDevice blocksCount (tornFile complete last n)).error = none)
    (newFits : ∀ entries ∈ news, (Tx.mk 0 entries).Fits blocksCount) (nonempty : news ≠ [])
    (committed : commitAll news (openFromDevice blocksCount (tornFile complete last n)).journal
      (tornFile complete last n) = some (j', file')) : Recovered blocksCount complete news file' ↔ n = 0 := by
  obtain ⟨enabled, behind, next⟩ := openFromDevice_journal blocksCount (tornFile complete last n)
  constructor
  · rintro ⟨_, recovered⟩
    by_contra tail
    cases opens : (openJournal (tornFile complete last n)).enabled with
    | false =>
      -- The journal is disabled: nothing is recorded, and nothing is replayed.
      rw [commitAll_disabled (enabled.trans opens) committed, recoveredTxs, opens] at recovered
      exact nonempty (append_eq_nil_iff.mp recovered.symm).2
    | true =>
      have clean : CleanCut (complete ++ [last]) ((sidecarFile complete).length + n) := by
        rw [tornFile_take] at opens opened
        refine cleanCut_of_opened (fun tx mem => ?_) _ opens opened
        rcases mem_append.mp mem with earlier | final
        · exact completeFits tx earlier
        · rw [mem_singleton.mp final]
          exact lastFits
      have cut := (cleanCut_torn torn clean).resolve_left tail
      obtain ⟨first, later, rfl⟩ := exists_cons_of_ne_nil nonempty
      have appended := commitAll_appends (enabled.trans opens) behind committed
      rw [tornFile, cut, record, take_left, append_assoc, numbered] at appended
      have found := recoveredTxs_behind completeFits lastFits _ appended
      have lengths := congrArg length recovered
      simp only [length_map, length_append, length_cons] at lengths
      rcases found with none | few
      · rw [none] at lengths
        simp at lengths
      · rw [few] at lengths
        omega
  · rintro rfl
    have file : tornFile complete last 0 = sidecarFile complete := by
      rw [tornFile, take_zero, append_nil]
    rw [file] at committed enabled behind next
    have appended := commitAll_appends (enabled.trans (recovered_whole completeFits).1) behind committed
    rw [← sidecarFile_append] at appended
    -- The new records follow whole ones, so together they are a file of whole records.
    have fits : ∀ tx ∈ complete ++
        numbered (openFromDevice blocksCount (sidecarFile complete)).journal.nextSeq news,
        tx.Fits blocksCount := by
      intro tx mem
      rcases mem_append.mp mem with earlier | new
      · exact completeFits tx earlier
      · exact numbered_fits next newFits tx new
    obtain ⟨_, quiet, all⟩ := recovered_whole fits
    rw [Recovered, appended, all, map_append, numbered_entries]
    exact ⟨quiet, rfl⟩

def nextBlock : List Entry := [⟨0, [9]⟩]

theorem nextBlock_fits : ∀ entries ∈ [nextBlock], (Tx.mk 0 entries).Fits 1 := by
  intro entries mem
  rw [mem_singleton.mp mem]
  exact ⟨by decide, by decide, by decide, by decide, by decide⟩

/-- Without a tail the next transaction is recovered. -/
theorem whole_record_then_commit : Recovered 1 [oneBlock] [nextBlock]
    (tornFile [oneBlock] oneBlock 0 ++ record ⟨2, nextBlock⟩) :=
  (recommits_recovered_iff oneBlock_fits (oneBlock_fits _ (mem_singleton_self _))
    (by decide +kernel) (by decide +kernel) nextBlock_fits (cons_ne_nil _ _)
    (show _ = some (⟨true, 3, 3, 91⟩, _) from by decide +kernel)).mpr rfl

/-- A record that lacks only its commit record is passed over on opening, and hides the record that
is appended behind it. -/
theorem hidden_record : 30 < (record oneBlock).length ∧
    (openFromDevice 1 (tornFile [] oneBlock 30)).error = none ∧
    commitAll [nextBlock] (openFromDevice 1 (tornFile [] oneBlock 30)).journal (tornFile [] oneBlock 30) =
      some (⟨true, 2, 2, 75⟩, tornFile [] oneBlock 30 ++ record ⟨1, nextBlock⟩) ∧
    (openFromDevice 1 (tornFile [] oneBlock 30 ++ record ⟨1, nextBlock⟩)).error = none ∧
    recoveredTxs 1 (tornFile [] oneBlock 30 ++ record ⟨1, nextBlock⟩) = [] := by
  decide +kernel

end Ext4.Sidecar
