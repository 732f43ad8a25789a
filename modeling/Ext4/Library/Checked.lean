import Ext4.Library.OctetBits

/-! Octet strings indexed with the bounds check of the language: `none` is the index outside. -/

namespace Octets.Checked
open List

/-- `raw[low:high]`. -/
def slice (raw : Bytes) (low high : Nat) : Option Bytes :=
  if low ≤ high ∧ high ≤ raw.length then some ((raw.drop low).take (high - low)) else none

/-- `copy(raw[off:off+len(data)], data)`. -/
def put (raw : Bytes) (off : Nat) (data : Bytes) : Option Bytes :=
  if off + data.length ≤ raw.length then some (writeAt raw off data) else none

def bit (raw : Bytes) (i : Nat) : Option Bool := if i / 8 < raw.length then some (bitAt raw i) else none

def setBit (raw : Bytes) (i : Nat) : Option Bytes :=
  if i / 8 < raw.length then some (Octets.setBit raw i) else none

def clearBit (raw : Bytes) (i : Nat) : Option Bytes :=
  if i / 8 < raw.length then some (Octets.clearBit raw i) else none

variable {σ ρ : Type}

/-- A loop over `n` bits from bit `i` on, which may return early. -/
def scan (raw : Bytes) (visit : σ → Nat → Bool → ρ ⊕ σ) : Nat → Nat → σ → Option (ρ ⊕ σ)
  | 0, _, s => some (.inr s)
  | n + 1, i, s => (bit raw i).bind fun b => (visit s i b).elim (some ∘ .inl) (scan raw visit n (i + 1))

variable {raw : Bytes} {visit : σ → Nat → Bool → ρ ⊕ σ} {n i size : Nat} {s : σ}

section
variable (visit) (Inv : Nat → σ → Prop) (Found : ρ → Prop) (inside : i + n ≤ 8 * raw.length)
  (round : ∀ s j b, j < 8 * raw.length → Inv j s → (visit s j b).elim Found (Inv (j + 1)))
  (start : Inv i s)
include inside round start

theorem scan_inside :
    ∃ out, scan raw visit n i s = some out ∧ out.elim Found (Inv (i + n)) := by
  induction n generalizing i s with
  | zero => exact ⟨_, rfl, start⟩
  | succ n ih =>
    have next := round s i (bitAt raw i) (by omega) start
    rw [scan, bit, if_pos (by omega), Option.bind_some]
    generalize visit s i (bitAt raw i) = move at next ⊢
    cases move with
    | inl r => exact ⟨_, rfl, next⟩
    | inr s =>
      rw [show i + (n + 1) = i + 1 + n by omega]
      exact ih (by omega) next

theorem scan_found :
    ∃ found, (scan raw visit n i s).map (·.getLeft?) = some found ∧ ∀ r ∈ found, Found r := by
  obtain ⟨out, scanned, kept⟩ := scan_inside visit Inv Found inside round start
  refine ⟨_, by rw [scanned, Option.map_some], fun r found => ?_⟩
  cases out with
  | inl r => cases found; exact kept
  | inr s => cases found

end

theorem scan_outside (never : ∀ s j b, (visit s j b).isRight) (outside : 8 * raw.length < i + n) (some : 0 < n)
    (s : σ) : scan raw visit n i s = none := by
  induction n generalizing i s with
  | zero => omega
  | succ n ih =>
    rw [scan, bit]
    split
    · obtain ⟨s', next⟩ := Sum.isRight_iff.mp (never s i (bitAt raw i))
      rw [Option.bind_some, next]
      exact ih (by omega) (by omega) s'
    · rfl

theorem put_inside {off : Nat} {data : Bytes} (length : raw.length = size) (inside : off + data.length ≤ size) :
    ∃ out, put raw off data = some out ∧ out.length = size :=
  ⟨_, if_pos (by omega), by rw [writeAt_length]; omega⟩

theorem slice_inside {low high : Nat} (ordered : low ≤ high) (inside : high ≤ raw.length) :
    ∃ out, slice raw low high = some out ∧ out.length = high - low :=
  ⟨_, if_pos ⟨ordered, inside⟩, by rw [length_take, length_drop]; omega⟩

theorem foldlM_inside {α : Type} (step : Bytes → α → Option Bytes) {xs : List α}
    (inside : ∀ x ∈ xs, ∀ raw : Bytes, raw.length = size → ∃ out, step raw x = some out ∧ out.length = size)
    (length : raw.length = size) : ∃ out, xs.foldlM step raw = some out ∧ out.length = size := by
  induction xs generalizing raw with
  | nil => exact ⟨raw, rfl, length⟩
  | cons x rest ih =>
    obtain ⟨first, later⟩ := forall_mem_cons.mp inside
    obtain ⟨out, done, length⟩ := first raw length
    rw [foldlM_cons, done]
    exact ih later length

end Octets.Checked
