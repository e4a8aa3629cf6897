import LogDrive.Driver.Preservation

/-!
# `get_actual_data_size`

The size of a block without its trailing zeros, rounded up to 16 bytes. What is cut off is zero
(`take_actualDataSize`), and no smaller multiple of 16 keeps the block (`actualDataSize_least`).
-/

set_option autoImplicit false

open Bytes

namespace LogDrive

variable {buf : Mem}

theorem actualDataSize_mod (size : Nat) : actualDataSize buf size % 16 = 0 := by
  induction size with
  | zero => rfl
  | succ k ih =>
    rw [actualDataSize]
    split
    · split <;> omega
    · exact ih

theorem actualDataSize_le (size : Nat) : actualDataSize buf size ≤ (size + 15) / 16 * 16 := by
  induction size with
  | zero => simp [actualDataSize]
  | succ k ih =>
    rw [actualDataSize]
    split
    · split <;> omega
    · omega

/-- What is cut off is zero. -/
theorem byteAt_actualDataSize {size p : Nat} (h : actualDataSize buf size ≤ p) (hp : p < size) :
    byteAt buf p = 0 := by
  induction size with
  | zero => omega
  | succ k ih =>
    rw [actualDataSize] at h
    split at h
    · split at h <;> omega
    · rename_i h0
      by_cases hk : p = k
      · subst hk; simpa using h0
      · exact ih h (by omega)

theorem actualDataSize_eq_zero {size : Nat} :
    actualDataSize buf size = 0 ↔ ∀ p < size, byteAt buf p = 0 := by
  constructor
  · intro h p hp
    exact byteAt_actualDataSize (by omega) hp
  · intro h
    induction size with
    | zero => rfl
    | succ k ih =>
      rw [actualDataSize, if_neg (by simp [h k (by omega)])]
      exact ih fun p hp => h p (by omega)

/-- The size depends on the bytes of the block only. -/
theorem actualDataSize_congr {buf' : Mem} {size : Nat} (h : ∀ p < size, byteAt buf p = byteAt buf' p) :
    actualDataSize buf size = actualDataSize buf' size := by
  induction size with
  | zero => rfl
  | succ k ih => rw [actualDataSize, actualDataSize, h k (by omega), ih fun p hp => h p (by omega)]

/-- A block of whole paragraphs is not made longer. -/
theorem actualDataSize_le_size {size : Nat} (h : size % 16 = 0) : actualDataSize buf size ≤ size := by
  have := @actualDataSize_le buf size
  omega

/-- What is kept and zeros behind it are the block. -/
theorem take_actualDataSize {size : Nat} (h : size % 16 = 0) (hl : size ≤ buf.length) :
    buf.take (actualDataSize buf size) ++ zeros (size - actualDataSize buf size) = buf.take size := by
  have hle := @actualDataSize_le_size buf size h
  have hcut : (buf.take (actualDataSize buf size)).length = actualDataSize buf size := by
    rw [List.length_take]; omega
  refine ext_byteAt (by simp; omega) fun i hi => ?_
  rw [List.length_append, hcut, length_zeros] at hi
  rw [byteAt_append, hcut, byteAt_take (show i < size by omega)]
  split
  · rename_i h1
    rw [byteAt_take h1]
  · rw [byteAt_zeros, byteAt_actualDataSize (show actualDataSize buf size ≤ i by omega) (by omega)]

/-- No smaller multiple of 16 leaves only zeros behind. -/
theorem actualDataSize_least {size n : Nat} (hn : n % 16 = 0) (h : ∀ p, n ≤ p → p < size → byteAt buf p = 0) :
    actualDataSize buf size ≤ n := by
  induction size with
  | zero => exact Nat.zero_le _
  | succ k ih =>
    rw [actualDataSize]
    split
    · rename_i hbyte
      have hk : k < n := by
        by_contra hle
        exact hbyte (h k (by omega) (by omega))
      split <;> omega
    · exact ih fun p h1 h2 => h p h1 (by omega)

end LogDrive
