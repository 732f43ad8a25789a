import Mathlib.Algebra.GroupWithZero.Nat
import Mathlib.Data.List.Basic

/-! Fixed-width little-endian fields and sequential reads from a finite octet stream.
A read reports one of two end conditions: nothing was left, or something but not enough. -/

namespace Octets
open List

abbrev Bytes := List UInt8

/-- The `n` low octets of `v`; the rest of `v` is dropped, as a width conversion does. -/
def putUint : Nat → Nat → Bytes
  | 0, _ => []
  | n + 1, v => UInt8.ofNat v :: putUint n (v / 256)

def uintOf : Bytes → Nat
  | [] => 0
  | octet :: rest => octet.toNat + 256 * uintOf rest

@[simp] theorem putUint_length (n v : Nat) : (putUint n v).length = n := by
  induction n generalizing v with
  | zero => rfl
  | succ n ih => rw [putUint, length_cons, ih]

theorem uintOf_putUint (n v : Nat) : uintOf (putUint n v) = v % 256 ^ n := by
  induction n generalizing v with
  | zero => simp [putUint, uintOf, Nat.mod_one]
  | succ n ih =>
    have low : (UInt8.ofNat v).toNat = v % 256 := UInt8.toNat_ofNat'
    rw [putUint, uintOf, ih, low, Nat.pow_succ', Nat.mod_mul]

theorem uintOf_lt (bytes : Bytes) : uintOf bytes < 256 ^ bytes.length := by
  induction bytes with
  | nil => exact Nat.one_pos
  | cons octet bytes ih =>
    have := octet.toNat_lt
    rw [uintOf, length_cons, Nat.pow_succ]
    omega

inductive ReadError where
  | eof
  | unexpectedEOF
  deriving DecidableEq, Repr

/-- The condition a read meets when only `n` octets were left and more were wanted. -/
def shortRead (n : Nat) : ReadError := if n = 0 then .eof else .unexpectedEOF

def readFull (n : Nat) (bytes : Bytes) : Except ReadError (Bytes × Bytes) :=
  if n ≤ bytes.length then .ok (bytes.take n, bytes.drop n) else .error (shortRead bytes.length)

def readUint (n : Nat) (bytes : Bytes) : Except ReadError (Nat × Bytes) :=
  (readFull n bytes).map fun (field, rest) => (uintOf field, rest)

theorem readFull_length {n : Nat} {bytes field rest : Bytes}
    (read : readFull n bytes = .ok (field, rest)) : rest.length + n = bytes.length := by
  unfold readFull at read
  split at read
  · cases read
    simp only [length_drop]; omega
  · cases read

theorem readUint_length {n v : Nat} {bytes rest : Bytes}
    (read : readUint n bytes = .ok (v, rest)) : rest.length + n = bytes.length := by
  unfold readUint at read
  cases whole : readFull n bytes with
  | error e => rw [whole] at read; cases read
  | ok pair =>
    rw [whole] at read
    cases read
    exact readFull_length whole

theorem readUint_lt {n v : Nat} {bytes rest : Bytes} (read : readUint n bytes = .ok (v, rest)) :
    v < 256 ^ n := by
  unfold readUint readFull at read
  split at read
  next enough =>
    cases read
    have bound := uintOf_lt (bytes.take n)
    rwa [length_take, Nat.min_eq_left enough] at bound
  next => cases read

/-! ## Reading a stream that was cut at an arbitrary octet -/

theorem readFull_take (field rest : Bytes) (n : Nat) : readFull field.length ((field ++ rest).take n) =
      if field.length ≤ n then .ok (field, rest.take (n - field.length)) else .error (shortRead n) := by
  by_cases enough : field.length ≤ n
  · have present : field.length ≤ ((field ++ rest).take n).length := by
      simp only [length_take, length_append]; omega
    rw [readFull, if_pos present, if_pos enough, take_append, take_of_length_le enough, take_left, drop_left]
  · have missing : ((field ++ rest).take n).length = n := by
      simp only [length_take, length_append]; omega
    rw [readFull, missing, if_neg enough, if_neg enough]

theorem readUint_take (k v : Nat) (bound : v < 256 ^ k) (rest : Bytes) (n : Nat) :
    readUint k ((putUint k v ++ rest).take n) =
      if k ≤ n then .ok (v, rest.take (n - k)) else .error (shortRead n) := by
  have field := readFull_take (putUint k v) rest n
  rw [putUint_length] at field
  rw [readUint, field]
  by_cases enough : k ≤ n
  · simp [enough, Except.map, uintOf_putUint, Nat.mod_eq_of_lt bound]
  · simp [enough, Except.map]

/-! ## Fields at an offset -/

/-- `le.UintN(raw[off:])` for a field of `n` octets. -/
def field (raw : Bytes) (off n : Nat) : Nat := uintOf ((raw.drop off).take n)

theorem field_lt (raw : Bytes) (off n : Nat) : field raw off n < 256 ^ n :=
  Nat.lt_of_lt_of_le (uintOf_lt _) (Nat.pow_le_pow_right (by decide) (length_take_le _ _))

theorem field_congr {raw other : Bytes} {off n : Nat} (same : ∀ i < n, raw[off + i]? = other[off + i]?) :
    field raw off n = field other off n := by
  have equal : (raw.drop off).take n = (other.drop off).take n := by
    apply ext_getElem?
    intro i
    rw [getElem?_take, getElem?_take]
    split
    · rw [getElem?_drop, getElem?_drop, same i ‹_›]
    · rfl
  rw [field, field, equal]

/-! ## Writing at an offset -/

def writeAt (file : Bytes) (off : Nat) (data : Bytes) : Bytes :=
  file.take off ++ replicate (off - file.length) 0 ++ data ++ file.drop (off + data.length)

@[simp] theorem writeAt_length (file : Bytes) (off : Nat) (data : Bytes) :
    (writeAt file off data).length = max file.length (off + data.length) := by
  simp only [writeAt, length_append, length_take, length_replicate, length_drop]
  omega

theorem writeAt_inside (file : Bytes) (off : Nat) (data : Bytes) (i : Nat) (inside : i < data.length) :
    (writeAt file off data)[off + i]? = data[i]? := by
  have front : (file.take off ++ replicate (off - file.length) 0).length = off := by
    simp only [length_append, length_take, length_replicate]; omega
  rw [writeAt, append_assoc, getElem?_append_right (by omega), front,
    Nat.add_sub_cancel_left, getElem?_append_left inside]

theorem writeAt_outside (file : Bytes) (off : Nat) (data : Bytes) (i : Nat) (present : i < file.length)
    (outside : i < off ∨ off + data.length ≤ i) : (writeAt file off data)[i]? = file[i]? := by
  have front : (file.take off ++ replicate (off - file.length) 0).length = off := by
    simp only [length_append, length_take, length_replicate]; omega
  rw [writeAt, append_assoc]
  rcases outside with low | high
  · rw [getElem?_append_left (by omega), getElem?_append_left (by
      simp only [length_take]; omega), getElem?_take_of_lt low]
  · rw [getElem?_append_right (by omega), front, getElem?_append_right (by omega), getElem?_drop]
    congr 1
    omega

end Octets
