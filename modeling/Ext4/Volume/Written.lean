import Ext4.Volume.Files

/-! The writes a step makes, one after the other, each with the image it is made on.
Allocating, freeing and laying out extents write metadata only: neither data of a file nor inodes. -/

namespace Ext4.Volume
open Octets Alloc Store List

variable {v : Shape} {s t u : FS}

def FS.written (s : FS) : Record := s.device.log.flatMap Effect.writes

/-- From `s` to `t` every write was admitted by the image it was made on. -/
def Did (ok : Image → Write Content → Prop) (s t : FS) : Prop :=
  ∃ writes, t.written = s.written ++ writes ∧ t.image = writeAll writes s.image ∧
    Along ok s.image writes

section
variable {ok ok' : Image → Write Content → Prop}

theorem Did.of_device (same : t.device = s.device) : Did ok s t :=
  ⟨[], by rw [FS.written, same, append_nil]; rfl, by rw [FS.image, same]; rfl, trivial⟩

theorem Did.refl (s : FS) : Did ok s s := Did.of_device rfl

theorem Did.trans (first : Did ok s t) (second : Did ok t u) : Did ok s u := by
  obtain ⟨early, written, image, along⟩ := first
  obtain ⟨late, written', image', along'⟩ := second
  refine ⟨early ++ late, ?_, ?_, ?_⟩
  · rw [written', written, append_assoc]
  · rw [image', image, writeAll_append]
  · rw [along_append, ← image]
    exact ⟨along, along'⟩

theorem Did.mono (did : Did ok s t) (weaker : ∀ img write, ok img write → ok' img write) : Did ok' s t := by
  obtain ⟨writes, written, image, along⟩ := did
  exact ⟨writes, written, image, along.mono weaker⟩

theorem Did.apply (effect : Effect) (device : t.device = s.device.apply effect)
    (along : Along ok s.image effect.writes) : Did ok s t := by
  refine ⟨effect.writes, ?_, ?_, along⟩
  · rw [FS.written, device]
    simp only [Device.apply, flatMap_append, flatMap_singleton]
    rfl
  · rw [FS.image, device]
    rfl

theorem Did.direct {write : Write Content} (admits : ok s.image write) : Did ok s (s.direct write) :=
  Did.apply (.direct write) rfl ⟨admits, trivial⟩

theorem did_direct_iff {write : Write Content} : Did ok s (s.direct write) ↔ ok s.image write := by
  refine ⟨?_, Did.direct⟩
  rintro ⟨writes, written, -, along⟩
  have one : (s.direct write).written = s.written ++ [write] := by
    simp [FS.written, FS.direct, Device.apply, Effect.writes]
  rw [one, append_cancel_left_eq] at written
  rw [← written] at along
  exact along.1

theorem Did.put {write : Write Content} (closed : s.tx = none) (admits : ok s.image write) :
    Did ok s (s.put write) := by
  rw [FS.put_of_none s write closed]
  split
  · exact Did.apply (.commit [write]) rfl ⟨admits, trivial⟩
  · exact Did.direct admits

end

/-! ## Metadata -/

def Metadata : Write Content → Prop
  | ⟨.block _, .data _⟩ | ⟨.itable _ _, _⟩ => False
  | _ => True

def FS.Plain (s : FS) : Prop := ∀ staged, s.tx = some staged → ∀ write ∈ staged.writes, Metadata write

def Plainly (s t : FS) : Prop := s.Plain → t.Plain ∧ Did (fun _ => Metadata) s t

theorem FS.plain_of_none (closed : s.tx = none) : s.Plain := by
  intro staged opened
  rw [closed] at opened
  cases opened

theorem Plainly.of_same (device : t.device = s.device) (tx : t.tx = s.tx) : Plainly s t :=
  fun plain => ⟨fun staged opened => plain staged (tx ▸ opened), Did.of_device device⟩

theorem Plainly.refl (s : FS) : Plainly s s := Plainly.of_same rfl rfl

theorem Plainly.trans (first : Plainly s t) (second : Plainly t u) : Plainly s u := by
  intro plain
  obtain ⟨plain', did⟩ := first plain
  obtain ⟨plain'', did'⟩ := second plain'
  exact ⟨plain'', did.trans did'⟩

theorem Plainly.direct {write : Write Content} (meta_ : Metadata write) : Plainly s (s.direct write) :=
  fun plain => ⟨plain, Did.direct meta_⟩

theorem Plainly.put {write : Write Content} (meta_ : Metadata write) : Plainly s (s.put write) := by
  intro plain
  cases opened : s.tx with
  | none => exact ⟨FS.plain_of_none (FS.put_closed write opened), Did.put opened meta_⟩
  | some staged =>
    have device := s.put_device write (by rw [opened]; rfl)
    refine ⟨?_, Did.of_device device⟩
    intro staged' now other mem
    have added : s.put write = { s with tx := some (staged.add write) } := by rw [FS.put, opened]
    rw [added] at now
    cases now
    rcases mem_put mem with rfl | old
    · exact meta_
    · exact plain staged opened other old

theorem Plainly.write (inTx : Bool) {write : Write Content} (meta_ : Metadata write) :
    Plainly s (s.write inTx write) := by
  cases inTx with
  | true => exact Plainly.put meta_
  | false => exact Plainly.direct meta_

theorem Plainly.startTx (s : FS) : Plainly s s.startTx := by
  refine fun _ => ⟨?_, Did.of_device rfl⟩
  rintro _ ⟨⟩ _ ⟨⟩

theorem Plainly.abort (s : FS) : Plainly s s.abort :=
  fun _ => ⟨FS.plain_of_none rfl, Did.of_device rfl⟩

theorem Plainly.commit (s : FS) : Plainly s s.commit := by
  intro plain
  unfold FS.commit
  split
  next staged opened =>
    refine ⟨FS.plain_of_none rfl, Did.apply (.commit staged.writes) rfl ?_⟩
    exact along_of_forall (plain staged opened) _
  · exact ⟨plain, Did.refl s⟩

/-! ## Space -/

theorem Plainly.bitmap (inTx : Bool) (key : Key) (bits : Bits) :
    Plainly s (s.write inTx ⟨.bitmap key, bits⟩) := Plainly.write inTx trivial

theorem Plainly.recount (inTx : Bool) (g : Nat) (change : Desc → Desc) (counters : Counters → Counters) :
    Plainly s (s.recount v inTx g change counters) := by
  have written : Plainly s (s.writeDesc v inTx g change) := Plainly.write inTx trivial
  exact written.trans (Plainly.of_same rfl rfl)

theorem Plainly.writeSuper (inTx : Bool) : Plainly s (s.writeSuper inTx) := Plainly.write inTx trivial

theorem Plainly.takeBlocks (inTx : Bool) (g : Nat) (bits : List Nat) :
    Plainly s (s.takeBlocks v inTx g bits) := by
  have marked : Plainly s ((s.reserve ⟨g, true⟩ bits).write inTx
      ⟨.bitmap ⟨g, true⟩, setBits bits (s.visible ⟨g, true⟩)⟩) :=
    (Plainly.of_same (t := s.reserve _ bits) rfl rfl).trans (Plainly.bitmap inTx _ _)
  have counted := marked.trans (Plainly.recount (v := v) inTx g
    (fun d => { d with freeBlocks := (descAt v s.image g).freeBlocks - bits.length })
    fun sb => { sb with freeBlocks := minus 64 bits.length sb.freeBlocks })
  cases inTx with
  | false => exact (counted.trans (Plainly.writeSuper false)).trans (Plainly.of_same rfl rfl)
  | true =>
    refine counted.trans ?_
    change Plainly _ (FS.writeStray v _)
    unfold FS.writeStray
    split
    · exact Plainly.writeSuper true
    · exact Plainly.put trivial

theorem allocBlocks_plainly (inTx : Bool) (n : Nat) (s : FS) :
    (allocBlocks v inTx n).Meets s (fun _ => Plainly s) fun _ => Plainly s := by
  have cursor : Plainly s s.advanceCursor := Plainly.of_same rfl rfl
  exact allocBlocks_rule (fun _ => cursor) fun g bits _ => cursor.trans (Plainly.takeBlocks inTx g bits)

theorem Plainly.freeBlock (b : Nat) : Plainly s (s.freeBlock v b) := by
  unfold FS.freeBlock
  split
  · exact Plainly.refl s
  · exact (((Plainly.bitmap false _ _).trans (Plainly.recount false _ _ _)).trans
      (Plainly.writeSuper false)).trans (Plainly.of_same rfl rfl)

theorem Plainly.freeBlocks (blocks : List Nat) (s : FS) : Plainly s (blocks.foldl (FS.freeBlock v) s) := by
  induction blocks generalizing s with
  | nil => exact Plainly.refl s
  | cons b rest ih => exact (Plainly.freeBlock b).trans (ih _)

theorem writeLeaf_plainly (inTx : Bool) (extents : List Extent) (s : FS) :
    (writeLeaf v inTx extents).Meets s (fun _ => Plainly s) fun _ => Plainly s := by
  refine (allocBlocks_plainly inTx 1 s).step ?_
  intro _ t taken
  exact taken.trans (Plainly.put trivial)

theorem writeExtentTree_plainly (extents : List Extent) (s : FS) :
    (writeExtentTree v extents).Meets s (fun _ => Plainly s) fun _ => Plainly s := by
  by_cases few : extents.length ≤ 4
  · exact Prog.Meets.of_ok (if_pos few) (Plainly.refl s)
  by_cases many : v.leafCap < extents.length
  · exact Prog.Meets.of_error ((if_neg few).trans (if_pos many)) (Plainly.refl s)
  by_cases journal : s.journal
  · refine Prog.Meets.of_eq ((if_neg few).trans ((if_neg many).trans (if_pos journal))) ?_
    rw [meets_bind, meets_onFailure]
    refine (writeLeaf_plainly true extents s.startTx).mono ?_ ?_
    · exact fun _ _ laid => ((Plainly.startTx s).trans laid).trans (Plainly.commit _)
    · exact fun _ _ laid => ((Plainly.startTx s).trans laid).trans (Plainly.abort _)
  · refine Prog.Meets.of_eq ((if_neg few).trans ((if_neg many).trans (if_neg journal))) ?_
    exact (writeLeaf_plainly false extents s).step fun _ _ laid => laid

end Ext4.Volume
