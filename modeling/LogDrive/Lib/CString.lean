import LogDrive.Lib.Bytes
import Mathlib.Data.List.TakeWhile

/-!
# Strings of C

A string is the list of its bytes before the terminating zero, so that byte `s.length` of its memory is
the zero. `strtoull` gives the bytes that it looks at besides the value.
-/

set_option autoImplicit false

open Bytes

namespace CString

def ascii (s : String) : Mem := s.toList.map fun c => UInt8.ofNat c.toNat

/-- The offset of the first `c`. -/
def strchr (s : Mem) (c : UInt8) : Option Nat := s.idxOf? c

def isspace (c : UInt8) : Bool := c == 32 || decide (9 ≤ c ∧ c ≤ 13)
def isdigit (c : UInt8) : Bool := decide (48 ≤ c ∧ c ≤ 57)

/-- The value of a string of digits. -/
def decimal (ds : Mem) : Nat := ds.foldl (fun n c => 10 * n + (c.toNat - 48)) 0

/-- `strtoull(s, NULL, 10)`: the value, and the number of bytes up to the one that ends the number. -/
def strtoull (s : Mem) : Nat × Nat :=
  let space := s.takeWhile isspace
  let s := s.dropWhile isspace
  let neg := s.head? = some 45
  let sign := if neg ∨ s.head? = some 43 then 1 else 0
  let ds := (s.drop sign).takeWhile isdigit
  let n := decimal ds
  (if 2 ^ 64 ≤ n then 2 ^ 64 - 1 else if neg then (2 ^ 64 - n) % 2 ^ 64 else n, space.length + sign + ds.length + 1)

theorem strchr_eq_none {s : Mem} {c : UInt8} : strchr s c = none ↔ c ∉ s := List.idxOf?_eq_none_iff

/-- What lies before and behind the byte found. -/
theorem strchr_eq_some {s : Mem} {c : UInt8} {i : Nat} :
    strchr s c = some i ↔ ∃ a b, s = a ++ c :: b ∧ c ∉ a ∧ a.length = i := by
  rw [strchr, List.idxOf?_eq_some_iff]
  constructor
  · rintro ⟨hi, hc, hfirst⟩
    refine ⟨s.take i, s.drop (i + 1), ?_, fun hmem => ?_, List.length_take_of_le (Nat.le_of_lt hi)⟩
    · rw [← hc, ← List.drop_eq_getElem_cons hi, List.take_append_drop]
    · obtain ⟨j, hj, hget⟩ := List.getElem_of_mem hmem
      rw [List.length_take] at hj
      rw [List.getElem_take] at hget
      exact hfirst j (by omega) hget
  · rintro ⟨a, b, rfl, hc, rfl⟩
    refine ⟨by simp, by simp, fun j hj hget => hc ?_⟩
    rw [List.getElem_append_left hj] at hget
    exact hget ▸ List.getElem_mem hj

/-- A number without sign that fits. -/
theorem strtoull_digits {ds : Mem} (h : ∀ c ∈ ds, isdigit c = true) (hlt : decimal ds < 2 ^ 64) :
    strtoull ds = (decimal ds, ds.length + 1) := by
  have hhead : ∀ c, isdigit c = false → ds.head? ≠ some c := fun c hc heq => by
    rw [h c (List.mem_of_mem_head? (by rw [heq]; rfl))] at hc
    cases hc
  have hspace : ∀ c, isdigit c = true → isspace c = false := fun c hc => by
    simp only [isdigit, isspace, decide_eq_true_eq, Bool.or_eq_false_iff, beq_eq_false_iff_ne, decide_eq_false_iff_not,
      UInt8.le_iff_toNat_le] at hc ⊢
    refine ⟨fun h32 => ?_, fun h13 => ?_⟩
    · rw [h32] at hc
      exact absurd hc.1 (by decide)
    · exact absurd (Nat.le_trans hc.1 h13.2) (by decide)
  have htake : ds.takeWhile isspace = [] ∧ ds.dropWhile isspace = ds := by
    cases ds with
    | nil => exact ⟨rfl, rfl⟩
    | cons c cs => simp [hspace c (h c List.mem_cons_self)]
  have hall : ds.takeWhile isdigit = ds := List.takeWhile_eq_self_iff.2 h
  simp only [strtoull, htake.1, htake.2, hhead 45 (by decide), hhead 43 (by decide), or_self, if_false, List.drop_zero, hall,
    List.length_nil, Nat.zero_add]
  rw [if_neg (by omega)]

/-- No byte behind the terminating zero is looked at. -/
theorem strtoull_le (s : Mem) : (strtoull s).2 ≤ s.length + 1 := by
  have hsplit : (s.takeWhile isspace).length + (s.dropWhile isspace).length = s.length := by
    rw [← List.length_append, List.takeWhile_append_dropWhile]
  simp only [strtoull]
  generalize s.dropWhile isspace = rest at *
  have hdigits := ( List.takeWhile_prefix isdigit (l := rest.drop (if rest.head? = some 45 ∨ rest.head? = some 43 then 1 else 0))).length_le
  rw [List.length_drop] at hdigits
  split at hdigits
  · rename_i hsign
    have : 0 < rest.length := by
      cases rest with
      | nil => simp at hsign
      | cons => exact Nat.succ_pos _
    simp only [if_pos hsign]
    omega
  · rename_i hsign
    simp only [if_neg hsign]
    omega

end CString
