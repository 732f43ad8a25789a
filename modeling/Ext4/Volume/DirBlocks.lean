import Mathlib.Data.FinEnum
import Mathlib.Data.Fintype.Card
import Ext4.Library.Checked
import Ext4.Volume.Directory
import Ext4.Volume.SuperArea

/-! Directory blocks as octets.
Four loops walk the records of a block, each with checks of its own. Whoever edits a record then
lets the checksum helper write a tail over the last twelve octets, whatever they hold. -/

namespace Ext4.Volume.DirBlocks
open Octets Octets.Checked List SuperArea Sidecar

def ftDirTail : Nat := 0xDE

structure Head where
  ino : Nat
  recLen : Nat
  nameLen : Nat
  fileType : Nat

def headAt (buf : Bytes) (off : Nat) : Head :=
  ⟨field buf off 4, field buf (off + 4) 2, field buf (off + 6) 1, field buf (off + 7) 1⟩

def head (buf : Bytes) (off : Nat) : Option Head :=
  if off + 8 ≤ buf.length then some (headAt buf off) else none

section
variable {α : Type}

/-- `for off+8 <= len(buf)`: a visit ends the loop (left) or lets it go on behind the record. `none`
is an index outside, or a loop that has not ended. -/
def walk (buf : Bytes) (visit : Nat → Head → α → Option (α ⊕ α)) : Nat → Nat → α → Option α
  | 0, _, _ => none
  | fuel + 1, off, a =>
      if buf.length < off + 8 then some a
      else (head buf off).bind fun h =>
        if h.recLen < 8 then some a
        else (visit off h a).bind (Sum.elim some (walk buf visit fuel (off + h.recLen)))

end

/-- `checkBounds off n size` stands for `safeio.CheckBounds(off, n, size) == nil`. -/
def parseDirBlock (checkBounds : Nat → Nat → Nat → Bool) (buf : Bytes) : Option (List (Nat × Bytes × Nat)) :=
  walk buf (fun off h entries =>
    if buf.length < off + h.recLen then some (.inl entries)
    else if h.ino ≠ 0 ∧ h.fileType ≠ ftDirTail ∧ 0 < h.nameLen ∧ h.nameLen ≤ h.recLen - 8 ∧
        checkBounds (off + 8) h.nameLen buf.length then
      (slice buf (off + 8) (off + 8 + h.nameLen)).map fun name =>
        .inr (entries ++ [(h.ino, name, h.fileType)])
    else some (.inr entries)) (buf.length + 1) 0 []

/-- An edited block, with the place of the record that was written and of the one it was split from. -/
structure Edited where
  buf : Bytes
  off : Nat
  recLen : Nat
  split : Option Nat
  deriving DecidableEq

def setIno (buf : Bytes) (off : Nat) (h : Head) (ino : Nat) : Option (Option Edited ⊕ Option Edited) :=
  (put buf off (putUint 4 ino)).map fun buf => .inl (some ⟨buf, off, h.recLen, none⟩)

def zeroEntry (buf name : Bytes) (off : Nat) (h : Head) (_ : Option Edited) :
    Option (Option Edited ⊕ Option Edited) :=
  if h.fileType = ftDirTail then some (.inl none)
  else if h.nameLen = 0 then some (.inr none)
  else (slice buf (off + 8) (off + 8 + h.nameLen)).bind fun found =>
    if found = name then setIno buf off h 0 else some (.inr none)

def zeroEntryInBlock (buf name : Bytes) : Option (Option Edited) :=
  walk buf (zeroEntry buf name) (buf.length + 1) 0 none

/-- The scan of `updateDotDot`. -/
def dotDotInBlock (buf : Bytes) (newParentIno : Nat) : Option (Option Edited) :=
  walk buf (fun off h _ =>
    if h.fileType = ftDirTail then some (.inl none)
    else if h.nameLen = 2 ∧ off + 10 ≤ buf.length then
      (slice buf (off + 8) (off + 10)).bind fun found =>
        if found = [0x2E, 0x2E] then setIno buf off h newParentIno else some (.inr none)
    else some (.inr none)) (buf.length + 1) 0 none

def writeDirEntry (buf : Bytes) (off ino recLen : Nat) (name : Bytes) (fileType : UInt8) : Option Bytes := do
  let buf ← put buf off (putUint 4 ino)
  let buf ← put buf (off + 4) (putUint 2 recLen)
  let buf ← put buf (off + 6) (putUint 1 name.length)
  let buf ← put buf (off + 7) [fileType]
  let rest ← slice buf (off + 8) buf.length
  put buf (off + 8) (name.take rest.length)

def tryInsertDirEntry (buf : Bytes) (childIno : Nat) (name : Bytes) (fileType : UInt8) (needed : Nat) :
    Option (Option Edited) :=
  walk buf (fun off h _ =>
    if buf.length < off + h.recLen then some (.inl none)
    else if h.fileType = ftDirTail then some (.inl none)
    else if h.ino = 0 then
      if h.recLen < needed then some (.inr none)
      else (writeDirEntry buf off childIno h.recLen name fileType).map fun buf =>
        .inl (some ⟨buf, off, h.recLen, none⟩)
    else
      let minLen := minDirentSize h.nameLen
      let slack := h.recLen - minLen
      let newOff := off + minLen
      if h.recLen < minLen then some (.inl none)
      else if slack < needed then some (.inr none)
      else if buf.length < newOff + 8 ∨ buf.length < newOff + slack ∨
          buf.length < newOff + 8 + name.length then some (.inl none)
      else (put buf (off + 4) (putUint 2 minLen)).bind fun buf =>
        (writeDirEntry buf newOff childIno slack name fileType).map fun buf =>
          .inl (some ⟨buf, newOff, slack, some off⟩)) (buf.length + 1) 0 none

/-! ## No index outside -/

section
variable {α : Type} {buf : Bytes} {visit : Nat → Head → α → Option (α ⊕ α)} {fuel off : Nat} {a : α}

theorem walk_succ : walk buf visit (fuel + 1) off a =
    if buf.length < off + 8 ∨ (headAt buf off).recLen < 8 then some a
    else (visit off (headAt buf off) a).bind
      (Sum.elim some (walk buf visit fuel (off + (headAt buf off).recLen))) := by
  rw [walk]
  by_cases past : buf.length < off + 8
  · rw [if_pos past, if_pos (.inl past)]
  · rw [if_neg past, head, if_pos (Nat.not_lt.mp past), Option.bind_some]
    simp only [past, false_or]

theorem walk_rule (Inv : α → Prop) (each : ∀ off a, off + 8 ≤ buf.length → 8 ≤ (headAt buf off).recLen →
      Inv a → ∃ move, visit off (headAt buf off) a = some move ∧ Inv (move.elim id id))
    (enough : buf.length < off + fuel) (more : 0 < fuel) (start : Inv a) :
    ∃ out, walk buf visit fuel off a = some out ∧ Inv out := by
  induction fuel generalizing off a with
  | zero => omega
  | succ fuel ih =>
    rw [walk_succ]
    split
    next => exact ⟨a, rfl, start⟩
    next here =>
      obtain ⟨move, visited, kept⟩ := each off a (by omega) (by omega) start
      rw [visited]
      cases move with
      | inl a => exact ⟨a, rfl, kept⟩
      | inr a => exact ih (by omega) (by omega) kept

theorem walk_kept (Inv : α → Prop) (each : ∀ off a move, off + 8 ≤ buf.length →
      8 ≤ (headAt buf off).recLen → Inv a → visit off (headAt buf off) a = some move → Inv (move.elim id id))
    (start : Inv a) {out : α} (ran : walk buf visit fuel off a = some out) : Inv out := by
  induction fuel generalizing off a with
  | zero => cases ran
  | succ fuel ih =>
    rw [walk_succ] at ran
    split at ran
    next =>
      cases ran
      exact start
    next here =>
      obtain ⟨move, visited, ran⟩ := Option.bind_eq_some_iff.mp ran
      have kept := each off a move (by omega) (by omega) start visited
      cases move with
      | inl a =>
        cases ran
        exact kept
      | inr a => exact ih kept ran

end

variable {buf name : Bytes} {off : Nat}

theorem put_within {data : Bytes} {low high : Nat} (inside : off + data.length ≤ buf.length)
    (first : low ≤ off) (last : off + data.length ≤ high) :
    ∃ out, put buf off data = some out ∧ SameOutside [(low, high)] out buf :=
  ⟨_, if_pos inside, .cover (.head _) first last inside⟩

theorem put_then {data : Bytes} {low high : Nat} {next : Bytes → Option Bytes}
    (inside : off + data.length ≤ buf.length) (first : low ≤ off) (last : off + data.length ≤ high)
    (more : ∀ out, out.length = buf.length → ∃ final, next out = some final ∧ SameOutside [(low, high)] final out) :
    ∃ final, (put buf off data).bind next = some final ∧ SameOutside [(low, high)] final buf := by
  obtain ⟨out, put, same⟩ := put_within inside first last
  obtain ⟨final, done, later⟩ := more out same.length
  exact ⟨final, by rw [put, Option.bind_some, done], later.trans same⟩

theorem writeDirEntry_within (inside : off + 8 ≤ buf.length) (ino recLen : Nat) (name : Bytes)
    (fileType : UInt8) : ∃ out, writeDirEntry buf off ino recLen name fileType = some out ∧
      SameOutside [(off, off + 8 + name.length)] out buf := by
  have width := putUint_length
  refine put_then (by rw [width]; omega) le_rfl (by rw [width]; omega) fun b long => ?_
  refine put_then (by rw [width]; omega) (by omega) (by rw [width]; omega) fun c long' => ?_
  refine put_then (by rw [width]; omega) (by omega) (by rw [width]; omega) fun d long'' => ?_
  refine put_then (by rw [length_singleton]; omega) (by omega) (by rw [length_singleton]; omega)
    fun e length => ?_
  obtain ⟨rest, sliced, clipped⟩ := @slice_inside e (off + 8) e.length (by omega) (by omega)
  have short : (name.take rest.length).length ≤ rest.length := length_take_le _ _
  have part : (name.take rest.length).length ≤ name.length := length_take_le' _ _
  rw [sliced]
  exact put_within (by omega) (by omega) (by omega)

theorem parseDirBlock_safe {checkBounds : Nat → Nat → Nat → Bool}
    (bounds : ∀ off n size, checkBounds off n size → off + n ≤ size) (buf : Bytes) :
    (parseDirBlock checkBounds buf).isSome := by
  refine Option.isSome_iff_exists.mpr ((walk_rule (fun _ => True) (fun off entries inside _ _ => ?_)
    (by omega) (by omega) trivial).imp fun _ => And.left)
  split_ifs with past named
  · exact ⟨_, rfl, trivial⟩
  · obtain ⟨out, sliced, -⟩ := @slice_inside buf (off + 8) _ (Nat.le_add_right _ _) (bounds _ _ _ named.2.2.2.2)
    exact ⟨_, by rw [sliced, Option.map_some], trivial⟩
  · exact ⟨_, rfl, trivial⟩

def tailHead : Bytes := putUint 4 0 ++ putUint 2 12 ++ [0, UInt8.ofNat ftDirTail]

/-- What a block of a directory is. The records of an index block span the index. -/
inductive Kind where
  | leaf
  | indexRoot
  | indexNode
  deriving DecidableEq

/-- The octets that may change: the record, the length of the one it is split from, and a tail that
is there. In a block of the index a record ends behind its name. -/
def Edited.spans (e : Edited) (kind : Kind) (buf : Bytes) : List (Nat × Nat) :=
  (e.off, e.off + if kind = .leaf then e.recLen else 8 + (headAt buf e.off).nameLen) ::
    e.split.toList.map (fun off => (off + 4, off + 6)) ++
      if kind = .leaf ∧ (buf.drop (buf.length - 12)).take 8 = tailHead then [(buf.length - 12, buf.length)] else []

def Kept (kind : Kind) (buf : Bytes) (edited : Option Edited) : Prop :=
  ∀ e, edited = some e → SameOutside (e.spans kind buf) e.buf buf

theorem Kept.none (kind : Kind) (buf : Bytes) : Kept kind buf none := nofun

theorem setIno_kept {h : Head} (kind : Kind) (inside : off + 8 ≤ buf.length) (long : 8 ≤ h.recLen)
    (ino : Nat) : ∃ move, setIno buf off h ino = some move ∧ Kept kind buf (move.elim id id) := by
  have width := putUint_length 4 ino
  obtain ⟨out, put, same⟩ := @put_within buf off (putUint 4 ino) off
    (off + if kind = .leaf then h.recLen else 8 + (headAt buf off).nameLen) (by omega) le_rfl (by split <;> omega)
  refine ⟨_, by rw [setIno, put, Option.map_some], ?_⟩
  rintro e ⟨⟩
  exact same.mono (by simp [Edited.spans])

theorem dotDotInBlock_kept (kind : Kind) (buf : Bytes) (newParentIno : Nat) :
    ∃ out, dotDotInBlock buf newParentIno = some out ∧ Kept kind buf out := by
  refine walk_rule (Kept kind buf) (fun off _ inside long _ => ?_) (by omega) (by omega) (.none _ _)
  split_ifs with tail named
  · exact ⟨_, rfl, .none _ _⟩
  · obtain ⟨found, sliced, -⟩ := @slice_inside buf (off + 8) (off + 10) (by omega) named.2
    rw [sliced, Option.bind_some]
    split
    · exact setIno_kept kind inside long newParentIno
    · exact ⟨_, rfl, .none _ _⟩
  · exact ⟨_, rfl, .none _ _⟩

theorem tryInsertDirEntry_kept (buf : Bytes) (childIno : Nat) (name : Bytes) (fileType : UInt8)
    (needed : Nat) : ∃ out, tryInsertDirEntry buf childIno name fileType needed = some out ∧
      (8 + name.length ≤ needed → Kept .leaf buf out) := by
  refine walk_rule (fun out => 8 + name.length ≤ needed → Kept .leaf buf out)
    (fun off _ inside long _ => ?_) (by omega) (by omega) fun _ => .none _ _
  dsimp only
  generalize minDirentSize (headAt buf off).nameLen = minLen
  split_ifs with past tail free short cramped short past'
  any_goals exact ⟨_, rfl, fun _ => .none _ _⟩
  · obtain ⟨out, wrote, same⟩ := writeDirEntry_within inside childIno (headAt buf off).recLen name fileType
    refine ⟨_, by rw [wrote, Option.map_some], ?_⟩
    rintro fits e ⟨⟩
    exact same.widen (.head _) le_rfl (by simp only [if_true]; omega)
  · have width := putUint_length 2 minLen
    obtain ⟨b, put, same⟩ := @put_within buf (off + 4) (putUint 2 minLen) (off + 4) (off + 6) (by omega) le_rfl
      (by omega)
    have length := same.length
    obtain ⟨out, wrote, same'⟩ := @writeDirEntry_within b (off + minLen) (by omega) childIno
      ((headAt buf off).recLen - minLen) name fileType
    refine ⟨_, by rw [put, Option.bind_some, wrote, Option.map_some], ?_⟩
    rintro fits e ⟨⟩
    refine (same'.widen (.head _) le_rfl ?_).trans (same.mono (by simp))
    simp only [if_true]
    omega

def NamedAt (buf name : Bytes) (off : Nat) : Prop :=
  0 < (headAt buf off).nameLen ∧ slice buf (off + 8) (off + 8 + (headAt buf off).nameLen) = some name

def Walked (buf : Bytes) (off : Nat) : Prop :=
  off + 8 ≤ buf.length ∧ 8 ≤ (headAt buf off).recLen ∧ (headAt buf off).fileType ≠ ftDirTail

inductive Comes (buf name : Bytes) : Nat → Nat → Prop
  | here (off : Nat) : Comes buf name off off
  | later {off at' : Nat} (walked : Walked buf off) (other : ¬ NamedAt buf name off)
      (rest : Comes buf name (off + (headAt buf off).recLen) at') : Comes buf name off at'

def NamesInside (buf name : Bytes) (off : Nat) : Prop := ∀ at', Comes buf name off at' →
  Walked buf at' → at' + 8 + (headAt buf at').nameLen ≤ buf.length

theorem NamesInside.of_stop (stop : ¬ Walked buf off) : NamesInside buf name off := by
  rintro at' (_ | ⟨walked, -, -⟩) here
  · exact absurd here stop
  · exact absurd walked stop

theorem namesInside_next (walked : Walked buf off) : NamesInside buf name off ↔
    off + 8 + (headAt buf off).nameLen ≤ buf.length ∧
      (¬ NamedAt buf name off → NamesInside buf name (off + (headAt buf off).recLen)) := by
  constructor
  · exact fun inside => ⟨inside off (.here _) walked, fun other at' comes =>
      inside at' (.later walked other comes)⟩
  · rintro ⟨here, next⟩ at' (_ | ⟨-, other, rest⟩) walked'
    · exact here
    · exact next other at' rest walked'

theorem zeroEntry_safe_iff {fuel : Nat} (enough : buf.length < off + fuel) (some : 0 < fuel) :
    (walk buf (zeroEntry buf name) fuel off none).isSome ↔ NamesInside buf name off := by
  induction fuel generalizing off with
  | zero => omega
  | succ fuel ih =>
    rw [walk_succ]
    split
    next stop => exact iff_of_true rfl (.of_stop fun walked => by have := walked.1; have := walked.2.1; omega)
    next here =>
      have later := @ih (off + (headAt buf off).recLen) (by omega) (by omega)
      unfold zeroEntry
      split
      next tail => exact iff_of_true rfl (.of_stop fun walked => walked.2.2 tail)
      next file =>
        rw [namesInside_next ⟨by omega, by omega, file⟩, NamedAt]
        split
        next unnamed =>
          rw [Option.bind_some, Sum.elim_inr, unnamed]
          exact ⟨fun rest => ⟨by omega, fun _ => later.mp rest⟩, fun both => later.mpr (both.2 (by omega))⟩
        next named =>
          by_cases inside : off + 8 + (headAt buf off).nameLen ≤ buf.length
          · obtain ⟨found, sliced, -⟩ := @slice_inside buf (off + 8) _ (Nat.le_add_right _ _) inside
            rw [sliced, Option.bind_some]
            split
            next this =>
              rw [setIno, put, if_pos (by rw [putUint_length]; omega)]
              exact iff_of_true rfl ⟨inside, fun other => absurd ⟨by omega, by rw [this]⟩ other⟩
            next other =>
              rw [Option.bind_some, Sum.elim_inr]
              exact ⟨fun rest => ⟨inside, fun _ => later.mp rest⟩, fun both => later.mpr (both.2 fun this =>
                other (Option.some.inj this.2))⟩
          · rw [slice, if_neg (by omega)]
            exact iff_of_false (by simp) fun both => inside both.1

theorem walkers_safe_iff {checkBounds : Nat → Nat → Nat → Bool}
    (bounds : ∀ off n size, checkBounds off n size → off + n ≤ size) (buf name : Bytes)
    (childIno newParentIno needed : Nat) (fileType : UInt8) :
    ((parseDirBlock checkBounds buf).isSome ∧ (tryInsertDirEntry buf childIno name fileType needed).isSome ∧
      (zeroEntryInBlock buf name).isSome ∧ (dotDotInBlock buf newParentIno).isSome) ↔
    NamesInside buf name 0 := by
  obtain ⟨_, inserted, -⟩ := tryInsertDirEntry_kept buf childIno name fileType needed
  obtain ⟨_, scanned, -⟩ := dotDotInBlock_kept .leaf buf newParentIno
  have zeroed : (zeroEntryInBlock buf name).isSome ↔ _ := zeroEntry_safe_iff (by omega) (by omega)
  rw [zeroed, inserted, scanned]
  exact ⟨fun safe => safe.2.2.1, fun inside => ⟨parseDirBlock_safe bounds buf, rfl, inside, rfl⟩⟩

/-- A block of 1024 octets whose second record begins twelve octets before its end. -/
def overrun : Bytes := putUint 4 11 ++ putUint 2 1012 ++ [1, 1, 0x61] ++ replicate 1003 0 ++
  putUint 4 12 ++ putUint 2 12 ++ [255, 1] ++ replicate 4 0

theorem overrun_named_safe : (parseDirBlock (fun off n size => off + n ≤ size) overrun).isSome ∧
    (tryInsertDirEntry overrun 13 [0x61] 1 12).isSome ∧ (zeroEntryInBlock overrun [0x61]).isSome ∧
      (dotDotInBlock overrun 2).isSome := by
  refine (walkers_safe_iff (fun _ _ _ => of_decide_eq_true) overrun [0x61] 13 2 12 1).mpr ?_
  have walked : Walked overrun 0 := ⟨by decide +kernel, by decide +kernel, by decide +kernel⟩
  have named : NamedAt overrun [0x61] 0 := ⟨by decide +kernel, by decide +kernel⟩
  exact (namesInside_next walked).mpr ⟨by decide +kernel, fun other => absurd named other⟩

theorem deletion_leaves_block : overrun.length = 1024 ∧ zeroEntryInBlock overrun [0x62] = none := by
  decide +kernel

/-! ## What an edit changes -/

inductive Edit where
  | zero (name : Bytes)
  | dotDot (newParentIno : Nat)
  | insert (childIno : Nat) (name : Bytes) (fileType : UInt8)

def Edit.inserts : Edit → Bool
  | .insert .. => true
  | _ => false

/-- An insertion passes over the root block of a hash-indexed directory; the others do not. -/
def Edit.run (kind : Kind) (buf : Bytes) : Edit → Option (Option Edited)
  | .zero name => zeroEntryInBlock buf name
  | .dotDot newParentIno => dotDotInBlock buf newParentIno
  | .insert childIno name fileType =>
      if kind = .indexRoot then some none
      else tryInsertDirEntry buf childIno name fileType (minDirentSize name.length)

/-- What `updateDirBlockCsum` reads of the superblock and of the directory's inode. -/
structure Owner where
  metadataCsum : Bool
  csumSeed : UInt32
  num : Nat
  generation : Nat

def Owner.tail (dir : Owner) (buf : Bytes) : Bytes :=
  tailHead ++ putUint 4 (crc32c (crc32c (crc32c dir.csumSeed (putUint 4 dir.num)) (putUint 4 dir.generation))
    (buf.take (buf.length - 12) ++ tailHead)).toNat

def updateDirBlockCsum (dir : Owner) (buf : Bytes) : Option Bytes :=
  if !dir.metadataCsum then some buf
  else if buf.length < 12 then none
  else put buf (buf.length - 12) (dir.tail buf)

theorem zeroEntryInBlock_kept (kind : Kind) {edited : Option Edited}
    (ran : zeroEntryInBlock buf name = some edited) : Kept kind buf edited := by
  refine walk_kept (Kept kind buf) (fun off a move inside long _ visited => ?_) (.none _ _) ran
  unfold zeroEntry at visited
  split_ifs at visited
  · cases visited
    exact .none _ _
  · cases visited
    exact .none _ _
  · obtain ⟨found, -, visited⟩ := Option.bind_eq_some_iff.mp visited
    split at visited
    · obtain ⟨_, set, kept⟩ := setIno_kept kind inside long 0
      cases set.symm.trans visited
      exact kept
    · cases visited
      exact .none _ _

theorem Edit.run_kept {kind : Kind} {edit : Edit} {edited : Option Edited}
    (ran : edit.run kind buf = some edited) (records : kind = .indexNode → edit.inserts = false) :
    Kept kind buf edited := by
  cases edit with
  | zero name => exact zeroEntryInBlock_kept kind ran
  | dotDot newParentIno =>
    obtain ⟨out, done, kept⟩ := dotDotInBlock_kept kind buf newParentIno
    cases done.symm.trans ran
    exact kept
  | insert childIno name fileType =>
    cases kind with
    | indexNode => cases records rfl
    | indexRoot =>
      cases ran
      exact .none _ _
    | leaf =>
      obtain ⟨out, done, kept⟩ := tryInsertDirEntry_kept buf childIno name fileType (minDirentSize name.length)
      cases done.symm.trans ran
      exact kept (by unfold minDirentSize; omega)

theorem updateDirBlockCsum_tail {dir : Owner} (on : dir.metadataCsum) (wide : 12 ≤ buf.length) : ∃ out,
    updateDirBlockCsum dir buf = some out ∧ out.length = buf.length ∧
      (∀ i, out[buf.length - 12 + i]? = (dir.tail buf)[i]?) ∧ ∀ p < buf.length - 12, out[p]? = buf[p]? := by
  have twelve : (dir.tail buf).length = 12 := by simp [Owner.tail, tailHead]
  have length : (writeAt buf (buf.length - 12) (dir.tail buf)).length = buf.length := by
    rw [writeAt_length]
    omega
  refine ⟨_, ?_, length, fun i => ?_, fun p low => writeAt_outside _ _ _ _ (by omega) (by omega)⟩
  · rw [updateDirBlockCsum, on, if_neg (by simp), if_neg (by omega), put, if_pos (by omega)]
  · by_cases present : i < 12
    · exact writeAt_inside _ _ _ _ (by omega)
    · rw [getElem?_eq_none (by omega), getElem?_eq_none (by omega)]

/-! ## The checksum takes every value -/

/-- Undoes `castagnoliBit`. -/
def castagnoliBack (crc : UInt32) : UInt32 :=
  if crc >>> 31 = 1 then ((crc ^^^ 0x82F63B78) <<< 1) ||| 1 else crc <<< 1

theorem castagnoliEntry_top : ∀ x < 256,
    (castagnoliBack^[8] (castagnoliEntry (UInt32.ofNat x) >>> 24 <<< 24)).toNat % 256 = x := by
  decide +kernel

theorem castagnoliEntry_inj {x y : UInt32} (low : x.toNat < 256) (low' : y.toNat < 256)
    (same : castagnoliEntry x >>> 24 = castagnoliEntry y >>> 24) : x = y := by
  have first := castagnoliEntry_top x.toNat low
  have second := castagnoliEntry_top y.toNat low'
  rw [UInt32.ofNat_toNat] at first second
  rw [same, second] at first
  exact UInt32.toNat_inj.mp first.symm

theorem top_xor (entry crc : UInt32) : (entry ^^^ (crc >>> 8)) >>> 24 = entry >>> 24 := by
  have gone : crc >>> 8 >>> 24 = 0 := by
    have := crc.toNat_lt
    apply UInt32.toNat_inj.mp
    simp only [UInt32.toNat_shiftRight, Nat.shiftRight_eq_div_pow, UInt32.reduceToNat, Nat.reduceMod]
    omega
  rw [UInt32.shiftRight_xor, gone, UInt32.xor_zero]

theorem and_toNat (crc : UInt32) : (crc &&& 0xFF).toNat = crc.toNat % 256 := by
  rw [UInt32.toNat_and]
  exact Nat.and_two_pow_sub_one_eq_mod crc.toNat 8

-- The top octet of the entry tells which one it is, and with it the octet that was shifted out.
theorem crc_octet_injective (octet : UInt8) : Function.Injective fun crc : UInt32 =>
    castagnoliEntry ((crc ^^^ octet.toUInt32) &&& 0xFF) ^^^ (crc >>> 8) := by
  intro a b same
  dsimp only at same
  have top := congrArg (fun crc : UInt32 => crc >>> 24) same
  simp only [top_xor] at top
  have low := castagnoliEntry_inj (by rw [and_toNat]; omega) (by rw [and_toNat]; omega) top
  rw [low, UInt32.xor_right_inj] at same
  have high := congrArg UInt32.toNat same
  replace low := congrArg UInt32.toNat low
  rw [and_toNat, and_toNat, UInt32.toNat_xor, UInt32.toNat_xor, Nat.xor_mod_two_pow (n := 8),
    Nat.xor_mod_two_pow (n := 8)] at low
  replace low := congrArg (· ^^^ octet.toUInt32.toNat % 2 ^ 8) low
  simp only [Nat.xor_assoc, Nat.xor_self, Nat.xor_zero] at low
  simp only [UInt32.toNat_shiftRight, Nat.shiftRight_eq_div_pow, UInt32.reduceToNat, Nat.reduceMod] at high
  exact UInt32.toNat_inj.mp (by omega)

theorem crc32c_surjective (data : Bytes) : Function.Surjective (crc32c · data) := by
  refine Finite.surjective_of_injective fun a b same => ?_
  simp only [crc32c, crcUpdate, UInt32.not_not] at same
  induction data generalizing a b with
  | nil => exact same
  | cons octet rest ih => exact crc_octet_injective octet (ih _ _ same)

theorem Owner.tail_takes (num generation : Nat) (buf : Bytes) (value : UInt32) : ∃ csumSeed,
    (⟨true, csumSeed, num, generation⟩ : Owner).tail buf = tailHead ++ putUint 4 value.toNat := by
  obtain ⟨third, rfl⟩ := crc32c_surjective (buf.take (buf.length - 12) ++ tailHead) value
  obtain ⟨second, rfl⟩ := crc32c_surjective (putUint 4 generation) third
  obtain ⟨first, rfl⟩ := crc32c_surjective (putUint 4 num) second
  exact ⟨first, rfl⟩

theorem Owner.tail_head (dir : Owner) (buf : Bytes) {i : Nat} (low : i < 8) :
    (dir.tail buf)[i]? = tailHead[i]? :=
  getElem?_append_left low

theorem edit_confined_iff {metadataCsum : Bool} {num generation : Nat} {kind : Kind} {edit : Edit} {e : Edited}
    (wide : 12 ≤ buf.length) (ran : edit.run kind buf = some (some e))
    (records : kind = .indexNode → edit.inserts = false) :
    (∀ csumSeed, ∃ out, updateDirBlockCsum ⟨metadataCsum, csumSeed, num, generation⟩ e.buf = some out ∧
      SameOutside (e.spans kind buf) out buf) ↔
    (metadataCsum → ∀ p, buf.length - 12 ≤ p → p < buf.length →
      (∀ span ∈ e.spans kind buf, p < span.1 ∨ span.2 ≤ p) →
        p < buf.length - 4 ∧ buf[p]? = tailHead[p - (buf.length - 12)]?) := by
  have edited := Edit.run_kept ran records e rfl
  have long := edited.length
  cases metadataCsum with
  | false => exact iff_of_true (fun _ => ⟨e.buf, rfl, edited⟩) (by simp)
  | true =>
    have wrote csumSeed := @updateDirBlockCsum_tail e.buf ⟨true, csumSeed, num, generation⟩ rfl (by omega)
    constructor
    · intro confined _ p low high outside
      have octet csumSeed : (Owner.tail ⟨true, csumSeed, num, generation⟩ e.buf)[p - (buf.length - 12)]? =
          buf[p]? := by
        obtain ⟨out, done, same⟩ := confined csumSeed
        obtain ⟨_, done', -, tail, -⟩ := wrote csumSeed
        cases done'.symm.trans done
        rw [← tail, long, Nat.add_sub_of_le low]
        exact same.octets p outside
      have below : p < buf.length - 4 := by
        -- Two seeds whose checksums differ in every octet.
        by_contra behind
        obtain ⟨seed, zeros⟩ := Owner.tail_takes num generation e.buf 0
        obtain ⟨seed', ones⟩ := Owner.tail_takes num generation e.buf 0xFFFFFFFF
        have same := (octet seed).trans (octet seed').symm
        rw [zeros, ones] at same
        have differ : ∀ i < 12, 8 ≤ i → (tailHead ++ putUint 4 (0 : UInt32).toNat)[i]? ≠
            (tailHead ++ putUint 4 (0xFFFFFFFF : UInt32).toNat)[i]? := by decide
        exact differ _ (by omega) (by omega) same
      exact ⟨below, by rw [← octet 0, Owner.tail_head _ _ (by omega)]⟩
    · intro same csumSeed
      obtain ⟨out, done, length, tail, before⟩ := wrote csumSeed
      rw [long] at length tail before
      refine ⟨out, done, length, fun p outside => ?_⟩
      by_cases low : buf.length - 12 ≤ p
      · by_cases high : p < buf.length
        · obtain ⟨below, kept⟩ := same rfl p low high outside
          rw [kept, ← Owner.tail_head ⟨true, csumSeed, num, generation⟩ e.buf (by omega), ← tail, Nat.add_sub_of_le low]
        · rw [getElem?_eq_none (by omega), getElem?_eq_none (by omega)]
      · rw [before p (by omega)]
        exact edited.octets p outside

/-- A block of 1024 octets with one record and a tail. -/
def tailed : Bytes := putUint 4 11 ++ putUint 2 1012 ++ [1, 1, 0x61] ++ replicate 1003 0 ++ tailHead ++ replicate 4 0

theorem tailed_deletion_confined : ∃ out,
    updateDirBlockCsum ⟨true, 7, 2, 0⟩ (putUint 4 0 ++ tailed.drop 4) = some out ∧
      SameOutside [(0, 1012), (1012, 1024)] out tailed := by
  have ran : (Edit.zero [0x61]).run .leaf tailed = some (some ⟨putUint 4 0 ++ tailed.drop 4, 0, 1012, none⟩) := by
    decide +kernel
  have length : tailed.length = 1024 := by decide +kernel
  have spans : Edited.spans ⟨putUint 4 0 ++ tailed.drop 4, 0, 1012, none⟩ .leaf tailed = [(0, 1012), (1012, 1024)] := by
    decide +kernel
  rw [← spans]
  refine (edit_confined_iff (by omega) ran nofun).mpr (fun _ p low high outside => ?_) 7
  have := outside (1012, 1024) (by rw [spans]; decide)
  omega

/-- A block of 1024 octets with two records, no tail, and nothing behind the second. -/
def untailed : Bytes := putUint 4 11 ++ putUint 2 1012 ++ [1, 1, 0x61] ++ replicate 1003 0 ++
  putUint 4 12 ++ putUint 2 12 ++ [3, 1, 0x62, 0x63, 0x64, 0]

def unlinked : Edited := ⟨putUint 4 0 ++ untailed.drop 4, 0, 1012, none⟩

/-- The tail is written over the second record, whose inode number is 12. -/
theorem deletion_overwrites_record : (Edit.zero [0x61]).run .leaf untailed = some (some unlinked) ∧
    ∃ out, updateDirBlockCsum ⟨true, 0, 2, 0⟩ unlinked.buf = some out ∧
      untailed[1012]? = some 12 ∧ out[1012]? = some 0 ∧ ¬ SameOutside (unlinked.spans .leaf untailed) out untailed := by
  have length : unlinked.buf.length = 1024 := by decide +kernel
  obtain ⟨out, done, -, tail, -⟩ := updateDirBlockCsum_tail (rfl : (⟨true, 0, 2, 0⟩ : Owner).metadataCsum = true)
    (by omega : 12 ≤ unlinked.buf.length)
  have before : untailed[1012]? = some 12 := by decide +kernel
  have after : out[1012]? = some 0 := by
    rw [length] at tail
    exact tail 0
  refine ⟨by decide +kernel, out, done, before, after, fun same => ?_⟩
  have kept := same.octets 1012 (by decide +kernel)
  rw [before, after] at kept
  cases kept

end Ext4.Volume.DirBlocks
