import Mathlib.Data.List.Perm.Basic
import Mathlib.Data.List.Dedup

/-!
# A stack of free slots in an array

An allocator keeps the free ones among a fixed set of slots in the first `count` cells of an array as long as
the set. `Splits all cells count used` says that these cells and the slots in use are together the slots
`all`; taking the last free slot (`Splits.take`) and putting a slot in use back (`Splits.put`) keep that, so
neither can leave the array.
-/

set_option autoImplicit false

variable {α : Type}

structure Splits (all cells : List α) (count : Nat) (used : List α) : Prop where
  length : cells.length = all.length
  perm : (cells.take count ++ used).Perm all
  inside : count ≤ cells.length

namespace Splits

variable {all cells : List α} {count : Nat} {used : List α}

/-- At the start every slot is free. -/
theorem start (all : List α) : Splits all all all.length [] where
  length := rfl
  perm := by rw [List.take_length, List.append_nil]
  inside := Nat.le_refl _

theorem count_add (h : Splits all cells count used) : count + used.length = all.length := by
  have := h.perm.length_eq
  rw [List.length_append, List.length_take, Nat.min_eq_left h.inside] at this
  exact this

theorem nodup (h : Splits all cells count used) (hall : all.Nodup) : used.Nodup :=
  (List.nodup_append.1 (h.perm.nodup_iff.2 hall)).2.1

theorem mem (h : Splits all cells count used) {a : α} (ha : a ∈ used) : a ∈ all :=
  h.perm.subset (List.mem_append_right _ ha)

/-- The order of the slots in use does not matter. -/
theorem congr (h : Splits all cells count used) {used' : List α} (hp : used.Perm used') :
    Splits all cells count used' :=
  ⟨h.length, (hp.symm.append_left _).trans h.perm, h.inside⟩

/-- Taking the last free slot, which is not in use. -/
theorem take (h : Splits all cells count used) (hc : count ≠ 0) :
    ∃ a, cells[count - 1]? = some a ∧ Splits all cells (count - 1) (a :: used) := by
  have hin := h.inside
  have hlt : count - 1 < cells.length := by omega
  have hsplit : cells.take count = cells.take (count - 1) ++ [cells[count - 1]] := by
    have hone := List.take_add_one (l := cells) (i := count - 1)
    rw [Nat.sub_add_cancel (by omega), List.getElem?_eq_getElem hlt] at hone
    exact hone
  refine ⟨cells[count - 1], List.getElem?_eq_getElem hlt, h.length, ?_, by omega⟩
  have hp := h.perm
  rw [hsplit, List.append_assoc] at hp
  exact hp

/-- Putting a slot in use back. -/
theorem put [DecidableEq α] (h : Splits all cells count used) {a : α} (ha : a ∈ used) :
    count < cells.length ∧ Splits all (cells.set count a) (count + 1) (used.erase a) := by
  have hadd := h.count_add
  have hlen := h.length
  have hpos := List.length_pos_of_mem ha
  have hlt : count < cells.length := by omega
  refine ⟨hlt, by rw [List.length_set]; exact hlen, ?_, by rw [List.length_set]; exact hlt⟩
  have hcells : (cells.set count a).take (count + 1) = cells.take count ++ [a] := by
    rw [List.take_add_one, List.take_set_of_le (Nat.le_refl _), List.getElem?_set_self hlt]
    rfl
  rw [hcells, List.append_assoc]
  exact ((List.perm_cons_erase ha).symm.append_left _).trans h.perm

end Splits
