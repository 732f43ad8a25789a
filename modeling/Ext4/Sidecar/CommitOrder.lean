import Mathlib.Data.List.Nodup
import Ext4.Sidecar.Commit

/-! Each step of a commit keeps the invariant, so at rest the image is the one that replaying
the file rebuilds, provided the reservations of conflicting calls follow their numbers. -/

namespace Ext4.Sidecar
open Octets Store Machine List

variable {size : Nat} {staged : Party → List Entry} {start : Nat} {old : Bytes} {before : Nat → UInt8}
  {s : Shared} {tickets slots : List Party} {p : Party}

theorem move_phase (s : Shared) (p q : Party) (phase : Phase) :
    (s.move p phase).phase q = if q = p then phase else s.phase q := by
  by_cases here : q = p
  · subst here; simp [Shared.move]
  · simp [Shared.move, here]

variable {q : Party} {phase : Phase} {after : Shared}

theorem move_phase_ne (other : q ≠ p) :
    (s.move p phase).phase q = s.phase q := by rw [move_phase, if_neg other]

/-! ## Taking a number -/

theorem takeSeq_offs (idle : s.phase p = .idle) : (s.takeSeq p).offs = s.offs :=
  offs_move (by rw [Shared.offs, idle]; rfl)

theorem takeSeq_seqs_ne (other : q ≠ p) : (s.takeSeq p).seqs q = s.seqs q :=
  seqs_move_ne other

theorem takeSeq_seqs : (s.takeSeq p).seqs p = s.nextSeq := by
  simp [Shared.takeSeq, Shared.seqs, Shared.move, Phase.seq]

theorem takeSeq_phase_ne (other : q ≠ p) : (s.takeSeq p).phase q = s.phase q :=
  move_phase_ne other

theorem Numbered.fresh (numbered : Numbered start s tickets) (idle : s.phase p = .idle) :
    p ∉ tickets := fun mem => (numbered.ticketed p).mp mem idle

theorem Numbered.takeSeq (numbered : Numbered start s tickets) (idle : s.phase p = .idle)
    (room : s.nextSeq < 2 ^ 64 - 1) : Numbered start (s.takeSeq p) (tickets ++ [p]) where
  next := by
    have next := numbered.next
    simp only [Shared.takeSeq, length_append, length_singleton]; omega
  bound := by
    have bound : s.nextSeq + 1 < 2 ^ 64 := by omega
    exact bound
  numbers := by
    intro i q found
    have next := numbered.next
    rcases Nat.lt_or_ge i tickets.length with early | late
    · rw [getElem?_append_left early] at found
      have other : q ≠ p := fun same => numbered.fresh idle (same ▸ mem_of_getElem? found)
      rw [takeSeq_seqs_ne other]
      exact numbered.numbers i q found
    · rw [getElem?_append_right late] at found
      have single := (List.getElem?_eq_some_iff.mp found).1
      rw [length_singleton] at single
      have last : i - tickets.length = 0 := by omega
      rw [last] at found
      cases found
      rw [takeSeq_seqs]
      omega
  distinct := numbered.distinct.append (nodup_singleton p) (by
    simpa using numbered.fresh idle)
  ticketed q := by
    by_cases here : q = p
    · subst here
      simp [Shared.takeSeq, Shared.move]
    · rw [takeSeq_phase_ne here]
      simp [here, numbered.ticketed]

theorem Filed.takeSeq (filed : Filed staged old s slots) (numbered : Numbered start s tickets)
    (idle : s.phase p = .idle) : Filed staged old (s.takeSeq p) slots where
  apart := filed.apart
  reserved := by rw [takeSeq_offs idle]; exact filed.reserved
  tiled := filed.tiled.congr fun q mem => by
    have other : q ≠ p := fun same =>
      numbered.fresh idle (same ▸ slots_subset numbered filed mem)
    exact ⟨takeSeq_seqs_ne other, congrFun (takeSeq_offs idle) q⟩
  room := filed.room
  kept := filed.kept
  content := by
    rw [takeSeq_offs idle]
    intro q off found
    have other : q ≠ p := by
      intro same
      rw [same, Shared.offs, idle] at found
      cases found
    rw [takeSeq_phase_ne other, txOf, takeSeq_seqs_ne other]
    exact filed.content q off found

theorem Ordered.takeSeq (ordered : Ordered size staged s tickets slots) (numbered : Numbered start s tickets)
    (filed : Filed staged old s slots)
    (idle : s.phase p = .idle) : Ordered size staged (s.takeSeq p) (tickets ++ [p]) slots := by
  have other : ∀ q ∈ slots, (s.takeSeq p).seqs q = s.seqs q := fun q mem =>
    takeSeq_seqs_ne fun same => numbered.fresh idle (same ▸ slots_subset numbered filed mem)
  constructor
  · intro q inSlots r ticketed unreserved smaller
    rw [other q inSlots] at smaller
    rcases mem_append.mp ticketed with earlier | new
    · have different : r ≠ p := fun same => numbered.fresh idle (same ▸ earlier)
      rw [takeSeq_seqs_ne different] at smaller
      exact ordered.overtaken q inSlots r earlier unreserved smaller
    · -- The newest call has the largest number, so it cannot have been overtaken.
      rw [mem_singleton.mp new, takeSeq_seqs] at smaller
      have below := numbered.below (slots_subset numbered filed inSlots)
      omega
  · refine ordered.inverted.imp_of_mem ?_
    intro q r inQ inR agree
    rw [other q inQ, other r inR]
    exact agree

theorem Applied.takeSeq (applied : Applied size staged start before s tickets)
    (numbered : Numbered start s tickets) (idle : s.phase p = .idle) :
    Applied size staged start before (s.takeSeq p) (tickets ++ [p]) := by
  have turn := applied.turn
  have next := numbered.next
  have front : (tickets ++ [p]).take ((s.takeSeq p).applySeq - start) =
      tickets.take (s.applySeq - start) :=
    take_append_of_le_length (show s.applySeq - start ≤ tickets.length by omega)
  have mine : (s.takeSeq p).phase p = .sequenced s.nextSeq := by
    simp [Shared.takeSeq, Shared.move]
  refine ⟨⟨turn.1, Nat.le_succ_of_le turn.2⟩, ?_, ?_, ?_⟩
  · intro q mem
    rcases mem_append.mp mem with earlier | new
    · have different : q ≠ p := fun same => numbered.fresh idle (same ▸ earlier)
      rw [takeSeq_seqs_ne different, takeSeq_phase_ne different]
      exact applied.done q earlier
    · rw [mem_singleton.mp new, takeSeq_seqs, mine]
      constructor
      · intro reached
        exact absurd turn.2 (Nat.not_le_of_lt reached)
      · rintro ⟨seq, off, impossible⟩
        cases impossible
  · intro none
    rw [front]
    refine applied.still fun q seq off left applying => none q seq off left ?_
    rw [takeSeq_phase_ne, applying]
    intro same
    rw [same, idle] at applying
    cases applying
  · intro q seq off left applying
    rw [front]
    have different : q ≠ p := by
      intro same
      rw [same, mine] at applying
      cases applying
    rw [takeSeq_phase_ne different] at applying
    exact applied.midway q seq off left applying

theorem Inv.takeSeq (inv : Inv size staged start old before s tickets slots) (idle : s.phase p = .idle)
    (room : s.nextSeq < 2 ^ 64 - 1) : Inv size staged start old before (s.takeSeq p) (tickets ++ [p]) slots where
  numbered := inv.numbered.takeSeq idle room
  filed := inv.filed.takeSeq inv.numbered idle
  ordered := inv.ordered.takeSeq inv.numbered inv.filed idle
  applied := inv.applied.takeSeq inv.numbered idle

/-! ## Steps that keep the number -/

section
variable {s' : Shared} (phases : s'.phase = (s.move p phase).phase) (number : phase.seq = s.seqs p)
include phases number

theorem seqs_moved : s'.seqs = s.seqs := by
  rw [← seqs_move number]
  exact funext fun q => congrArg Phase.seq (congrFun phases q)

theorem Numbered.moved (numbered : Numbered start s tickets) (next : s'.nextSeq = s.nextSeq)
    (active : s.phase p ≠ .idle ∧ phase ≠ .idle) : Numbered start s' tickets := by
  refine numbered.congr next (seqs_moved phases number) fun q => ?_
  rw [phases, move_phase]
  split
  next here => subst here; exact iff_of_false active.2 active.1
  next => rfl

/-- A call that neither applies nor is done leaves the image and the turn alone. -/
theorem Applied.moved (applied : Applied size staged start before s tickets) (next : s'.nextSeq = s.nextSeq)
    (turn : s'.applySeq = s.applySeq) (image : s'.image = s.image)
    (finished : ∀ seq off, phase ≠ .finished seq off ∧ s.phase p ≠ .finished seq off)
    (applying : ∀ seq off left, phase ≠ .applying seq off left ∧ s.phase p ≠ .applying seq off left) :
    Applied size staged start before s' tickets := by
  have finished' : ∀ q seq off, s'.phase q = .finished seq off ↔ s.phase q = .finished seq off := by
    intro q seq off
    rw [phases, move_phase]
    split
    next here => subst here; exact iff_of_false (finished seq off).1 (finished seq off).2
    next => rfl
  have applying' : ∀ q seq off left, s'.phase q = .applying seq off left ↔
      s.phase q = .applying seq off left := by
    intro q seq off left
    rw [phases, move_phase]
    split
    next here => subst here; exact iff_of_false (applying seq off left).1 (applying seq off left).2
    next => rfl
  constructor
  · rw [turn, next]; exact applied.turn
  · intro q mem
    rw [seqs_moved phases number, turn, applied.done q mem]
    simp only [finished']
  · intro none
    rw [image, turn]
    exact applied.still fun q seq off left moving => none q seq off left ((applying' q seq off left).mpr moving)
  · intro q seq off left moving
    rw [image, turn]
    exact applied.midway q seq off left ((applying' q seq off left).mp moving)

theorem Filed.moved (filed : Filed staged old s slots) (file : s'.file = s.file)
    (cursor : s'.appendOff = s.appendOff) (offset : phase.off? = s.offs p)
    (same : phase.written (txOf staged s.seqs p) = (s.phase p).written (txOf staged s.seqs p)) :
    Filed staged old s' slots := by
  have seqs : s'.seqs = s.seqs := seqs_moved phases number
  have offs : s'.offs = s.offs := by
    rw [← offs_move offset]
    exact funext fun q => congrArg Phase.off? (congrFun phases q)
  refine ⟨filed.apart, ?_, ?_, ?_, ?_, ?_⟩
  · rw [offs]; exact filed.reserved
  · rw [seqs, offs, cursor]; exact filed.tiled
  · rw [file, cursor]; exact filed.room
  · rw [file]; exact filed.kept
  · intro q place found i bound
    rw [seqs] at bound ⊢
    rw [offs] at found
    rw [file]
    refine filed.content q place found i ?_
    rw [phases, move_phase] at bound
    split at bound
    next here => subst here; rwa [same] at bound
    next => exact bound

end

/-! ## Reserving room -/

section
variable {seq : Nat} {tx : Tx}

theorem Filed.cursor (filed : Filed staged old s slots) : max s.appendOff s.file.length = s.appendOff := by
  have := filed.room
  omega

theorem reserveAppend_seqs (now : s.phase p = .sequenced tx.seq) : (s.reserveAppend p tx).seqs = s.seqs :=
  seqs_move (by rw [Shared.seqs, now]; rfl)

theorem reserveAppend_offs_ne (other : q ≠ p) : (s.reserveAppend p tx).offs q = s.offs q := by
  have phase : (s.reserveAppend p tx).phase q = s.phase q := move_phase_ne other
  rw [Shared.offs, phase, Shared.offs]

theorem Filed.unreserved (filed : Filed staged old s slots) (now : s.phase p = .sequenced seq) :
    p ∉ slots := by
  intro mem
  have offset := (filed.reserved p).mp mem
  rw [Shared.offs, now] at offset
  cases offset

theorem Filed.reserveAppend (filed : Filed staged old s slots) (now : s.phase p = .sequenced seq) :
    Filed staged old (s.reserveAppend p ⟨seq, staged p⟩) (slots ++ [p]) := by
  have seqs : (s.reserveAppend p ⟨seq, staged p⟩).seqs = s.seqs := reserveAppend_seqs now
  have tx : txOf staged s.seqs p = ⟨seq, staged p⟩ := by rw [txOf, Shared.seqs, now]; rfl
  have mine : (s.reserveAppend p ⟨seq, staged p⟩).phase p = .reserved seq s.appendOff := by
    simp [Shared.reserveAppend, Shared.move, filed.cursor]
  have offset : (s.reserveAppend p ⟨seq, staged p⟩).offs p = some s.appendOff := by
    rw [Shared.offs, mine]; rfl
  have fresh := filed.unreserved now
  refine ⟨?_, ?_, ?_, ?_, filed.kept, ?_⟩
  · exact filed.apart.append (nodup_singleton p) (by simpa using fresh)
  · intro q
    by_cases here : q = p
    · subst here; simp [offset]
    · rw [reserveAppend_offs_ne here]
      simp [here, filed.reserved]
  · have tiled : Tiled staged s.seqs (s.reserveAppend p ⟨seq, staged p⟩).offs old.length slots
        s.appendOff := filed.tiled.congr fun q mem =>
      ⟨rfl, reserveAppend_offs_ne fun same => fresh (same ▸ mem)⟩
    have longer := tiled.append offset
    rw [tx] at longer
    rw [seqs]
    simpa [Shared.reserveAppend, filed.cursor] using longer
  · have room := filed.room
    simp only [Shared.reserveAppend, Shared.move]
    omega
  · intro q off found i bound
    rw [seqs] at bound ⊢
    by_cases here : q = p
    · subst here
      rw [mine] at bound
      exact absurd bound (Nat.not_lt_zero _)
    · have phase : (s.reserveAppend p ⟨seq, staged p⟩).phase q = s.phase q := move_phase_ne here
      rw [phase] at bound
      rw [reserveAppend_offs_ne here] at found
      exact filed.content q off found i bound

theorem Ordered.reserveAppend (ordered : Ordered size staged s tickets slots) (numbered : Numbered start s tickets)
    (filed : Filed staged old s slots) (now : s.phase p = .sequenced seq)
    (orderly : ∀ q earlier, s.phase q = .sequenced earlier → earlier < seq →
      Agree (writesOf size (staged p)) (writesOf size (staged q))) :
    Ordered size staged (s.reserveAppend p ⟨seq, staged p⟩) tickets (slots ++ [p]) := by
  have seqs : (s.reserveAppend p ⟨seq, staged p⟩).seqs = s.seqs := reserveAppend_seqs now
  have number : s.seqs p = seq := by rw [Shared.seqs, now]; rfl
  have ticketed : p ∈ tickets := (numbered.ticketed p).mpr (by rw [now]; simp)
  constructor
  · rw [seqs]
    intro q reserved r inTickets unreserved smaller
    obtain ⟨notBefore, notNow⟩ := not_or.mp (fun either => unreserved (mem_append.mpr either))
    rcases mem_append.mp reserved with earlier | new
    · exact ordered.overtaken q earlier r inTickets notBefore smaller
    · rw [mem_singleton.mp new, number] at smaller
      rw [mem_singleton.mp new]
      -- A ticketed call without room in the file has just taken its number.
      have waiting : ∃ earlier, s.phase r = .sequenced earlier := by
        have active := (numbered.ticketed r).mp inTickets
        have none := mt (filed.reserved r).mpr notBefore
        rw [Shared.offs] at none
        cases phase : s.phase r with
        | idle => exact absurd phase active
        | sequenced earlier => exact ⟨earlier, rfl⟩
        | reserved _ _ | described _ _ | recorded _ _ | applying _ _ _ | finished _ _ =>
          rw [phase] at none
          exact absurd rfl none
      obtain ⟨earlier, phase⟩ := waiting
      rw [Shared.seqs, phase] at smaller
      exact orderly r earlier phase smaller
  · rw [seqs]
    refine pairwise_append.mpr ⟨ordered.inverted, pairwise_singleton _ p, ?_⟩
    intro q reserved r new smaller
    rw [mem_singleton.mp new] at smaller ⊢
    exact ordered.overtaken q reserved p ticketed (filed.unreserved now) smaller

theorem Inv.reserveAppend (inv : Inv size staged start old before s tickets slots)
    (now : s.phase p = .sequenced seq)
    (orderly : ∀ q earlier, s.phase q = .sequenced earlier → earlier < seq →
      Agree (writesOf size (staged p)) (writesOf size (staged q))) :
    Inv size staged start old before (s.reserveAppend p ⟨seq, staged p⟩) tickets (slots ++ [p]) where
  numbered := inv.numbered.moved rfl (congrArg Phase.seq now).symm rfl (by simp [now])
  filed := inv.filed.reserveAppend now
  ordered := inv.ordered.reserveAppend inv.numbered inv.filed now orderly
  applied := inv.applied.moved rfl (congrArg Phase.seq now).symm rfl rfl rfl (by simp [now]) (by simp [now])

end

/-! ## Writing the record -/

theorem Phase.written_le (phase : Phase) (tx : Tx) : phase.written tx ≤ (record tx).length := by
  have size := record_length tx
  cases phase <;> simp only [Phase.written] <;> omega

theorem Filed.present (filed : Filed staged old s slots) {off i : Nat} (place : s.offs q = some off)
    (bound : i < (s.phase q).written (txOf staged s.seqs q)) : off + i < s.file.length := by
  have byte := filed.content q off place i bound
  have inside := Nat.lt_of_lt_of_le bound (Phase.written_le _ _)
  rw [getElem?_eq_getElem inside] at byte
  exact (List.getElem?_eq_some_iff.mp byte).1

theorem Filed.write (filed : Filed staged old s slots) {off done : Nat} {data : Bytes}
    (place : s.offs p = some off) (seqSame : phase.seq = s.seqs p) (offSame : phase.off? = s.offs p)
    (was : (s.phase p).written (txOf staged s.seqs p) = done)
    (now : phase.written (txOf staged s.seqs p) = done + data.length)
    (slice : ∀ i < data.length, data[i]? = (record (txOf staged s.seqs p))[done + i]?) :
    Filed staged old { s.move p phase with file := writeAt s.file (off + done) data } slots := by
  have seqs : (s.move p phase).seqs = s.seqs := seqs_move seqSame
  have offs : (s.move p phase).offs = s.offs := offs_move offSame
  have mem : p ∈ slots := (filed.reserved p).mpr (by rw [place]; rfl)
  obtain ⟨above, below⟩ := filed.tiled.bounds.2 p mem off place
  have within : done + data.length ≤ (record (txOf staged s.seqs p)).length := by
    rw [← now]; exact Phase.written_le _ _
  have room := filed.room
  refine ⟨filed.apart, ?_, ?_, ?_, ?_, ?_⟩
  · intro q
    exact (filed.reserved q).trans (by rw [← offs]; rfl)
  · exact filed.tiled.congr fun q _ => ⟨congrFun seqs q, congrFun offs q⟩
  · simp only [writeAt_length, Shared.move]
    omega
  · intro i bound
    exact (writeAt_outside _ _ _ _ (by omega) (by omega)).trans (filed.kept i bound)
  · intro q place' found i bound
    change (s.move p phase).offs q = some place' at found
    change i < ((s.move p phase).phase q).written (txOf staged (s.move p phase).seqs q) at bound
    change (writeAt s.file (off + done) data)[place' + i]? =
      (record (txOf staged (s.move p phase).seqs q))[i]?
    rw [seqs] at bound ⊢
    rw [offs] at found
    by_cases here : q = p
    · subst here
      rw [place] at found
      cases found
      rw [move_phase, if_pos rfl, now] at bound
      by_cases earlier : i < done
      · have known : i < (s.phase q).written (txOf staged s.seqs q) := by omega
        rw [writeAt_outside _ _ _ _ (filed.present place known) (by omega)]
        exact filed.content q off place i known
      · have shifted := slice (i - done) (by omega)
        rw [Nat.add_sub_of_le (by omega)] at shifted
        rw [← shifted, ← writeAt_inside s.file (off + done) data _ (by omega)]
        congr 1
        omega
    · rw [move_phase_ne here] at bound
      have other : q ∈ slots := (filed.reserved q).mpr (by rw [found]; rfl)
      have apart := filed.tiled.disjoint mem other (Ne.symm here) place found
      have inside := Nat.lt_of_lt_of_le bound (Phase.written_le _ _)
      rw [writeAt_outside _ _ _ _ (filed.present found bound) (by omega)]
      exact filed.content q place' found i bound

section
variable {seq off : Nat} {left : List Entry} (inv : Inv size staged start old before s tickets slots)
include inv

theorem Inv.writeBody (now : s.phase p = .reserved seq off) :
    Inv size staged start old before (s.writeBody p ⟨seq, staged p⟩ off) tickets slots := by
  have number : s.seqs p = seq := congrArg Phase.seq now
  have place : s.offs p = some off := congrArg Phase.off? now
  have tx : txOf staged s.seqs p = ⟨seq, staged p⟩ := by rw [txOf, number]
  refine ⟨inv.numbered.moved rfl number.symm rfl (by simp [now]), ?_,
    inv.ordered.congr (seqs_moved rfl number.symm),
    inv.applied.moved rfl number.symm rfl rfl rfl (by simp [now]) (by simp [now])⟩
  have written : Filed staged old { s.move p (.described seq off) with
      file := writeAt s.file (off + 0) (body ⟨seq, staged p⟩) } slots :=
    inv.filed.write place number.symm place.symm (by rw [now]; rfl)
      (by rw [tx, Nat.zero_add]; rfl)
      (by
        intro i bound
        rw [tx, Nat.zero_add, record, getElem?_append_left bound])
  exact written

theorem Inv.writeCommit (now : s.phase p = .described seq off) :
    Inv size staged start old before (s.writeCommit p ⟨seq, staged p⟩ off) tickets slots := by
  have number : s.seqs p = seq := congrArg Phase.seq now
  have place : s.offs p = some off := congrArg Phase.off? now
  have tx : txOf staged s.seqs p = ⟨seq, staged p⟩ := by rw [txOf, number]
  refine ⟨inv.numbered.moved rfl number.symm rfl (by simp [now]), ?_,
    inv.ordered.congr (seqs_moved rfl number.symm),
    inv.applied.moved rfl number.symm rfl rfl rfl (by simp [now]) (by simp [now])⟩
  exact inv.filed.write place number.symm place.symm (by rw [now, tx]; rfl)
    (by
      rw [tx, commitRecord_length]
      exact record_length _)
    (by
      intro i bound
      rw [tx, record, getElem?_append_right (by omega), Nat.add_sub_cancel_left])

/-! ## Taking the turn -/

theorem Inv.alone (active : s.phase p ≠ .idle) (turn : s.seqs p = s.applySeq)
    (applying : s.phase q = .applying seq off left) : q = p := by
  have number : s.seqs q = seq := congrArg Phase.seq applying
  have reached := (inv.applied.midway q seq off left applying).1
  exact inv.numbered.injective ((inv.numbered.ticketed q).mpr (by simp [applying]))
    ((inv.numbered.ticketed p).mpr active) (by omega)

/-- The call whose turn it is goes on applying, with the entries `left`. -/
theorem Inv.applying {s' : Shared} (phases : s'.phase = (s.move p (.applying seq off left)).phase)
    (number : s.seqs p = seq) (place : s.offs p = some off) (active : s.phase p ≠ .idle)
    (recorded : (s.phase p).written (txOf staged s.seqs p) = (record (txOf staged s.seqs p)).length)
    (running : ∀ seq off, s.phase p ≠ .finished seq off) (turn : seq = s.applySeq)
    (same : s'.nextSeq = s.nextSeq ∧ s'.applySeq = s.applySeq ∧ s'.file = s.file ∧ s'.appendOff = s.appendOff)
    (remaining : writeAll (writesOf size left) s'.image = writeAll (writesOf size (staged p))
      (appliedImage size staged before (tickets.take (s.applySeq - start)))) :
    Inv size staged start old before s' tickets slots := by
  obtain ⟨next, sameTurn, file, cursor⟩ := same
  have seqs : s'.seqs = s.seqs := seqs_moved phases number.symm
  refine ⟨inv.numbered.moved phases number.symm next ⟨active, by simp⟩,
    inv.filed.moved phases number.symm file cursor place.symm recorded.symm, inv.ordered.congr seqs, ?_⟩
  constructor
  · rw [sameTurn, next]; exact inv.applied.turn
  · intro q mem
    rw [seqs, sameTurn, inv.applied.done q mem, phases, move_phase]
    split
    next here => subst here; simp [running]
    next => rfl
  · intro none
    exact absurd (by rw [phases, move_phase, if_pos rfl]) (none p seq off left)
  · intro q seq' off' left' moving
    rw [phases, move_phase] at moving
    rw [sameTurn]
    split at moving
    next here =>
      cases moving
      subst here
      exact ⟨turn, remaining⟩
    next different => exact absurd (inv.alone active (number.trans turn) moving) different

theorem Inv.beginApply (now : s.phase p = .recorded seq off) (turn : s.applySeq = seq) :
    Inv size staged start old before (s.move p (.applying seq off (staged p))) tickets slots := by
  have number : s.seqs p = seq := congrArg Phase.seq now
  have nobody : ∀ q seq off left, s.phase q ≠ .applying seq off left := by
    intro q seq off left applying
    have same := inv.alone (by simp [now]) (number.trans turn.symm) applying
    rw [same, now] at applying
    cases applying
  refine inv.applying rfl number (congrArg Phase.off? now) (by simp [now]) (by rw [now]; rfl) (by simp [now])
    turn.symm ⟨rfl, rfl, rfl, rfl⟩ ?_
  change writeAll (writesOf size (staged p)) s.image = _
  rw [inv.applied.still nobody]

theorem Inv.applyEntry {entry : Entry} (now : s.phase p = .applying seq off (entry :: left)) :
    Inv size staged start old before (s.applyEntry size p seq off entry left) tickets slots := by
  obtain ⟨turn, remaining⟩ := inv.applied.midway p seq off (entry :: left) now
  exact inv.applying rfl (congrArg Phase.seq now) (congrArg Phase.off? now) (by simp [now]) (by rw [now]; rfl)
    (by simp [now]) turn ⟨rfl, rfl, rfl, rfl⟩ (by rwa [writesOf, flatMap_cons, writeAll_append] at remaining)

theorem Inv.advance (now : s.phase p = .applying seq off []) :
    Inv size staged start old before (s.advance p seq off) tickets slots := by
  have number : s.seqs p = seq := congrArg Phase.seq now
  have mem : p ∈ tickets := (inv.numbered.ticketed p).mpr (by simp [now])
  obtain ⟨turn, complete⟩ := inv.applied.midway p seq off [] now
  have below := inv.numbered.below mem
  have seqs : (s.advance p seq off).seqs = s.seqs := seqs_moved rfl number.symm
  refine ⟨inv.numbered.moved rfl number.symm rfl (by simp [now]),
    inv.filed.moved rfl number.symm rfl rfl (congrArg Phase.off? now).symm (by rw [now]; rfl),
    inv.ordered.congr seqs, ?_⟩
  refine ⟨?_, ?_, ?_, ?_⟩
  · change start ≤ seq + 1 ∧ seq + 1 ≤ s.nextSeq
    omega
  · intro q inTickets
    rw [seqs]
    change s.seqs q < seq + 1 ↔ ∃ seq' off', (s.move p (.finished seq off)).phase q = _
    by_cases here : q = p
    · subst here
      rw [move_phase, if_pos rfl]
      exact iff_of_true (by omega) ⟨seq, off, rfl⟩
    · have different : s.seqs q ≠ seq := fun same =>
        here (inv.numbered.injective inTickets mem (same.trans number.symm))
      rw [move_phase_ne here, ← inv.applied.done q inTickets]
      omega
  · intro none
    obtain ⟨i, found⟩ := mem_iff_getElem?.mp mem
    have index := inv.numbered.numbers i p found
    have position : s.applySeq - start = i := by omega
    have position' : seq + 1 - start = i + 1 := by omega
    rw [position] at complete
    change s.image = appliedImage size staged before (tickets.take (seq + 1 - start))
    rw [position', take_add_one, found]
    simp only [writesOf, flatMap_nil, writeAll_nil] at complete
    rw [complete, appliedImage, appliedImage, flatMap_append, writeAll_append]
    simp [writesOf]
  · intro q seq' off' left applying
    change (s.move p (.finished seq off)).phase q = _ at applying
    rw [move_phase] at applying
    split at applying
    next => cases applying
    next different => exact absurd (inv.alone (by simp [now]) (number.trans turn) applying) different

end

/-! ## Whole runs -/

def Consistent (size : Nat) (staged : Party → List Entry) (start : Nat) (old : Bytes) (before : Nat → UInt8)
    (s : Shared) : Prop :=
  ∃ tickets slots, Inv size staged start old before s tickets slots

theorem Consistent.step {action : Party} (consistent : Consistent size staged start old before s)
    (orderly : Orderly size staged action s) (taken : commitStep size staged action s = some after) :
    Consistent size staged start old before after := by
  obtain ⟨tickets, slots, inv⟩ := consistent
  unfold commitStep at taken
  unfold Orderly at orderly
  split at taken
  next idle =>
    cases taken
    rw [idle] at orderly
    exact ⟨_, _, inv.takeSeq idle orderly⟩
  next seq now =>
    cases taken
    rw [now] at orderly
    exact ⟨_, _, inv.reserveAppend now orderly⟩
  next seq off now =>
    cases taken
    exact ⟨_, _, inv.writeBody now⟩
  next seq off now =>
    cases taken
    exact ⟨_, _, inv.writeCommit now⟩
  next seq off now =>
    split at taken
    next turn =>
      cases taken
      exact ⟨_, _, inv.beginApply now turn⟩
    next => cases taken
  next seq off entry left now =>
    cases taken
    exact ⟨_, _, inv.applyEntry now⟩
  next seq off now =>
    cases taken
    exact ⟨_, _, inv.advance now⟩
  next => cases taken

theorem inv_initial (start : Nat) (bound : start < 2 ^ 64) (old : Bytes) (before : Nat → UInt8) :
    Inv size staged start old before ⟨start, start, old.length, old, before, fun _ => .idle⟩ [] [] where
  numbered := ⟨rfl, bound, by simp, nodup_nil, by simp⟩
  filed := ⟨nodup_nil, by simp [Shared.offs, Phase.off?], rfl, ⟨Nat.le_refl _, Nat.le_refl _⟩,
    fun _ _ => rfl, by simp [Shared.offs, Phase.off?]⟩
  ordered := ⟨by simp, List.Pairwise.nil⟩
  applied := ⟨⟨Nat.le_refl _, Nat.le_refl _⟩, by simp, by simp [appliedImage], by simp⟩

/-- At rest both orders list the same calls, the file is complete and everything is applied. -/
theorem Inv.rest (inv : Inv size staged start old before s tickets slots) (quiet : Quiescent s) :
    slots.Perm tickets ∧ s.file = old ++ sidecarFile (slots.map (txOf staged s.seqs)) ∧
      s.image = appliedImage size staged before tickets := by
  have finished : ∀ p ∈ tickets, ∃ seq off, s.phase p = .finished seq off := fun p mem =>
    (quiet p).resolve_left ((inv.numbered.ticketed p).mp mem)
  have everything : s.applySeq = start + tickets.length := by
    have turn := inv.applied.turn
    have next := inv.numbered.next
    by_contra early
    -- The call whose turn it is would have to be finished already.
    have index : s.applySeq - start < tickets.length := by omega
    have found := getElem?_eq_getElem index
    have number := inv.numbered.numbers _ _ found
    have mem := mem_of_getElem? found
    have passed := (inv.applied.done _ mem).mpr (finished _ mem)
    omega
  have complete : ∀ p ∈ slots, ∀ off, s.offs p = some off →
      ∀ i < (record (txOf staged s.seqs p)).length,
        s.file[off + i]? = (record (txOf staged s.seqs p))[i]? := by
    intro p mem off place i bound
    refine inv.filed.content p off place i ?_
    obtain ⟨seq, off, phase⟩ := finished p (slots_subset inv.numbered inv.filed mem)
    rw [phase]
    exact bound
  obtain ⟨ends, bytes⟩ := inv.filed.tiled.file s.file complete
  refine ⟨?_, ?_, ?_⟩
  · refine (perm_ext_iff_of_nodup inv.filed.apart inv.numbered.distinct).mpr fun p => ?_
    refine ⟨slots_subset inv.numbered inv.filed, fun mem => ?_⟩
    obtain ⟨seq, off, phase⟩ := finished p mem
    rw [inv.filed.reserved, Shared.offs, phase]
    rfl
  · have room := inv.filed.room
    refine ext_getElem? fun i => ?_
    rcases Nat.lt_or_ge i old.length with early | late
    · rw [getElem?_append_left early]
      exact inv.filed.kept i early
    · rw [getElem?_append_right late]
      rcases Nat.lt_or_ge (i - old.length) (sidecarFile (slots.map (txOf staged s.seqs))).length
        with inside | beyond
      · rw [← bytes _ inside]
        congr 1
        omega
      · rw [getElem?_eq_none beyond, getElem?_eq_none (by omega)]
  · have nobody : ∀ p seq off left, s.phase p ≠ .applying seq off left := by
      intro p seq off left applying
      rcases quiet p with idle | ⟨seq', off', phase⟩
      · rw [idle] at applying; cases applying
      · rw [phase] at applying; cases applying
    have applied := inv.applied.still nobody
    rwa [everything, Nat.add_sub_cancel_left, take_length] at applied

theorem Inv.reordered (inv : Inv size staged start old before s tickets slots) (perm : slots.Perm tickets) :
    appliedImage size staged before slots = appliedImage size staged before tickets := by
  refine writeAll_reorder _ (fun p q => s.seqs p < s.seqs q) slots tickets perm ?_
    inv.ordered.inverted before
  refine pairwise_iff_getElem.mpr fun i j hi hj less => ?_
  have first := inv.numbered.numbers i _ (getElem?_eq_getElem hi)
  have second := inv.numbered.numbers j _ (getElem?_eq_getElem hj)
  omega

theorem writesOf_append (first later : List Entry) :
    writesOf size (first ++ later) = writesOf size first ++ writesOf size later := flatMap_append

theorem writesOf_flatMap (txs : List Tx) :
    writesOf size (txs.flatMap Tx.entries) = txs.flatMap fun tx => writesOf size tx.entries := by
  simp [writesOf, flatMap_assoc]

/-- In every run in which conflicting calls reserve their room in the order of their numbers,
reopening at rest rebuilds the live image. -/
theorem replayRebuilds_of_orderly {blocksCount : Nat} {previous : List Tx} {disk : Nat → UInt8}
    (previousFits : ∀ tx ∈ previous, tx.Fits blocksCount) (room : ∀ tx ∈ previous, tx.seq < 2 ^ 64 - 1)
    (stagedFits : ∀ p, (Tx.mk 0 (staged p)).Fits blocksCount)
    (run : Reaches (commitStep size staged) (Orderly size staged) (openedOver size blocksCount previous disk) s)
    (quiet : Quiescent s) : ReplayRebuilds size blocksCount (openedOver size blocksCount previous disk).image s := by
  obtain ⟨next, bound, opened⟩ := openFromDevice_whole previousFits room
  have initially : openedOver size blocksCount previous disk =
      ⟨next, next, (sidecarFile previous).length, sidecarFile previous,
        writeAll (writesOf size (previous.flatMap Tx.entries)) disk, fun _ => .idle⟩ := by
    simp only [openedOver, opened]
  rw [initially] at run ⊢
  have consistent : Consistent size staged next (sidecarFile previous)
      (writeAll (writesOf size (previous.flatMap Tx.entries)) disk) s :=
    run.invariant ⟨[], [], inv_initial next bound _ _⟩
      fun _ _ _ consistent orderly taken => consistent.step orderly taken
  obtain ⟨tickets, slots, inv⟩ := consistent
  obtain ⟨perm, file, image⟩ := inv.rest quiet
  have joined : s.file = sidecarFile (previous ++ slots.map (txOf staged s.seqs)) := by
    rw [file, sidecarFile, sidecarFile, sidecarFile, flatMap_append]
  have numbers : ∀ p ∈ slots, s.seqs p < 2 ^ 64 - 1 := by
    intro p mem
    have below := inv.numbered.below (slots_subset inv.numbered inv.filed mem)
    have counter := inv.numbered.bound
    omega
  have fits : ∀ tx ∈ previous ++ slots.map (txOf staged s.seqs), tx.Fits blocksCount := by
    intro tx mem
    rcases mem_append.mp mem with earlier | new
    · exact previousFits tx earlier
    · obtain ⟨p, inSlots, rfl⟩ := mem_map.mp new
      obtain ⟨_, count, length, block, blocks⟩ := stagedFits p
      exact ⟨Nat.lt_trans (numbers p inSlots) (by decide), count, length, block, blocks⟩
  have allRoom : ∀ tx ∈ previous ++ slots.map (txOf staged s.seqs), tx.seq < 2 ^ 64 - 1 := by
    intro tx mem
    rcases mem_append.mp mem with earlier | new
    · exact room tx earlier
    · obtain ⟨p, inSlots, rfl⟩ := mem_map.mp new
      exact numbers p inSlots
  obtain ⟨_, _, reopened⟩ := openFromDevice_whole fits allRoom
  unfold ReplayRebuilds
  rw [joined, reopened]
  refine ⟨rfl, ?_⟩
  simp only [flatMap_append, writesOf_append, writeAll_append, writeAll_idem]
  rw [image, ← inv.reordered perm, appliedImage, writesOf_flatMap, flatMap_map]
  rfl

/-! ## Two calls that stage the same block -/

theorem commitStep_frame (other : q ≠ p)
    (taken : commitStep size staged p s = some after) : after.phase q = s.phase q := by
  unfold commitStep at taken
  split at taken
  case h_5 =>
    split at taken
    · cases taken
      exact move_phase_ne other
    · cases taken
  case h_8 => cases taken
  all_goals
    cases taken
    exact move_phase_ne other

theorem takeAll_frame {final : Shared} (schedule : List Party) (absent : q ∉ schedule)
    (taken : takeAll (commitStep size staged) schedule s = some final) : final.phase q = s.phase q := by
  induction schedule generalizing s with
  | nil => cases taken; rfl
  | cons p schedule ih =>
    obtain ⟨other, later⟩ := not_or.mp (fun either => absent (mem_cons.mpr either))
    simp only [takeAll, Option.bind_eq_some_iff] at taken
    obtain ⟨middle, first, rest⟩ := taken
    exact (ih later rest).trans (commitStep_frame other first)

/-- Calls 0 and 1 write different octets to block 0; nobody else writes anything. -/
def rivals : Party → List Entry
  | 0 => [⟨0, [1]⟩]
  | 1 => [⟨0, [2]⟩]
  | _ => []

theorem rivals_fit (p : Party) : (Tx.mk 0 (rivals p)).Fits 1 := by
  rcases p with _ | _ | p
  · exact ⟨by decide, by decide, by decide, by decide, by decide⟩
  · exact ⟨by decide, by decide, by decide, by decide, by decide⟩
  · exact ⟨by simp, by simp [rivals], by simp [rivals], by simp [rivals], by decide⟩

def blank : Shared := openedOver 1024 1 [] fun _ => 0

/-- Call 0 takes the first number, but call 1 reserves the first room in the file. -/
def overtaking : List Party := [0, 1, 1, 0, 0, 0, 1, 1, 0, 0, 0, 1, 1, 1]

theorem overtaking_enabled : (takeAll (commitStep 1024 rivals) overtaking blank).isSome := by
  decide

def overtaken : Shared := (takeAll (commitStep 1024 rivals) overtaking blank).get overtaking_enabled

theorem overtaken_taken : takeAll (commitStep 1024 rivals) overtaking blank = some overtaken :=
  (Option.some_get overtaking_enabled).symm

theorem overtaken_quiescent : Quiescent overtaken := by
  intro p
  rcases p with _ | _ | p
  · right
    exact ⟨1, 29 + 16, by decide⟩
  · right
    exact ⟨2, 0, by decide⟩
  · left
    exact takeAll_frame overtaking (by simp [overtaking]) overtaken_taken

/-- Live, the higher number wins; on replay, the later record wins. -/
theorem overtaken_not_rebuilt : ∃ s, Reaches (commitStep 1024 rivals) anyStep blank s ∧ Quiescent s ∧
    ¬ ReplayRebuilds 1024 1 blank.image s := by
  refine ⟨overtaken, reaches_takeAll overtaking .start overtaken_taken, overtaken_quiescent, ?_⟩
  rintro ⟨_, rebuilt⟩
  have block := congrFun rebuilt 0
  revert block
  decide +kernel

/-- Two calls one after the other, for the same block. -/
theorem serial_rebuilt : ∃ s, s.image 0 = 2 ∧ ReplayRebuilds 1024 1 blank.image s := by
  have opened : Reaches (commitStep 1024 rivals) (Orderly 1024 rivals) blank blank := .start
  have numbered := Reaches.next 0 opened (by decide : 1 < 2 ^ 64 - 1) rfl
  have reserved := Reaches.next 0 numbered (by
    rintro (_ | q) earlier waiting less
    · cases waiting
      exact absurd less (Nat.lt_irrefl _)
    · cases waiting) rfl
  have described := Reaches.next 0 reserved trivial rfl
  have recorded := Reaches.next 0 described trivial rfl
  have turned := Reaches.next 0 recorded trivial rfl
  have applied := Reaches.next 0 turned trivial rfl
  have finished := Reaches.next 0 applied trivial rfl
  have numbered' := Reaches.next 1 finished (by decide : 2 < 2 ^ 64 - 1) rfl
  have reserved' := Reaches.next 1 numbered' (by
    rintro (_ | _ | q) earlier waiting less
    · cases waiting
    · cases waiting
      exact absurd less (Nat.lt_irrefl _)
    · cases waiting) rfl
  have described' := Reaches.next 1 reserved' trivial rfl
  have recorded' := Reaches.next 1 described' trivial rfl
  have turned' := Reaches.next 1 recorded' trivial rfl
  have applied' := Reaches.next 1 turned' trivial rfl
  have finished' := Reaches.next 1 applied' trivial rfl
  refine ⟨_, by decide, replayRebuilds_of_orderly (by simp) (by simp) rivals_fit finished' ?_⟩
  rintro (_ | _ | p)
  · exact .inr ⟨1, 0, rfl⟩
  · exact .inr ⟨2, 45, rfl⟩
  · exact .inl rfl

end Ext4.Sidecar
