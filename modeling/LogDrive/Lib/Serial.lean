import Mathlib.Data.List.Basic

/-!
# Operations done out of order

A history lists operations in the order in which they were asked for; one that has not been done (yet) is a
hole. `serial` does them in that order. An operation that is done late fills its hole, and where it is apart
from all that were asked for after it and have been done before it, doing it now is the same as having done
it in its place: on the state (`serial_fill`), for what it observes itself (`observe_fill`) and for what the
others have observed (`observe_other`).
-/

set_option autoImplicit false

variable {σ ο ρ : Type}

/-- What an operation makes of a state and what it observes there. -/
structure Machine (σ ο ρ : Type) where
  exec : ο → σ → σ
  observe : ο → σ → ρ

/-- Neither operation is affected by the other. -/
structure Machine.Apart (M : Machine σ ο ρ) (a b : ο) : Prop where
  exec : ∀ s, M.exec a (M.exec b s) = M.exec b (M.exec a s)
  left : ∀ s, M.observe a (M.exec b s) = M.observe a s
  right : ∀ s, M.observe b (M.exec a s) = M.observe b s

namespace Machine

variable (M : Machine σ ο ρ)

theorem Apart.symm {M : Machine σ ο ρ} {a b : ο} (h : M.Apart a b) : M.Apart b a :=
  ⟨fun s => (h.exec s).symm, h.right, h.left⟩

/-- The operations of a history one after the other. -/
def serial (s : σ) : List (Option ο) → σ
  | [] => s
  | none :: ops => serial s ops
  | some a :: ops => serial (M.exec a s) ops

theorem serial_append (s : σ) (ops more : List (Option ο)) :
    M.serial s (ops ++ more) = M.serial (M.serial s ops) more := by
  induction ops generalizing s with
  | nil => rfl
  | cons o ops ih =>
    cases o with
    | none => exact ih s
    | some a => exact ih (M.exec a s)

theorem serial_none (s : σ) (ops : List (Option ο)) : M.serial s (ops ++ [none]) = M.serial s ops := by
  rw [serial_append]
  rfl

/-- Operations that are apart from `a` may come before it. -/
theorem serial_exec {a : ο} (ops : List (Option ο)) (h : ∀ b, some b ∈ ops → M.Apart a b) (s : σ) :
    M.serial (M.exec a s) ops = M.exec a (M.serial s ops) := by
  induction ops generalizing s with
  | nil => rfl
  | cons o ops ih =>
    have ih := ih fun b hb => h b (List.mem_cons_of_mem _ hb)
    cases o with
    | none => exact ih s
    | some b =>
      simp only [serial]
      rw [← (h b List.mem_cons_self).exec s]
      exact ih (M.exec b s)

/-- Operations that are apart from `a` do not change what it observes. -/
theorem observe_serial {a : ο} (ops : List (Option ο)) (h : ∀ b, some b ∈ ops → M.Apart a b) (s : σ) :
    M.observe a (M.serial s ops) = M.observe a s := by
  induction ops generalizing s with
  | nil => rfl
  | cons o ops ih =>
    have ih := ih fun b hb => h b (List.mem_cons_of_mem _ hb)
    cases o with
    | none => exact ih s
    | some b =>
      simp only [serial]
      rw [ih]
      exact (h b List.mem_cons_self).left s

/-- `a` is apart from all that have been done after the hole `i`. -/
def Late (ops : List (Option ο)) (i : Nat) (a : ο) : Prop :=
  ∀ j b, i < j → ops[j]? = some (some b) → M.Apart a b

section
variable {M} {ops : List (Option ο)} {i : Nat} {a : ο}

/-- A history around a hole. -/
theorem split_hole (h : ops[i]? = some none) : ∃ before after : List (Option ο),
    before.length = i ∧ ops = before ++ none :: after ∧ ∀ o, ops.set i o = before ++ o :: after := by
  have hlt := (List.getElem?_eq_some_iff.1 h).1
  have hget := (List.getElem?_eq_some_iff.1 h).2
  refine ⟨ops.take i, ops.drop (i + 1), ?_, ?_, fun o => ?_⟩
  · rw [List.length_take]
    omega
  · rw [← hget, ← List.drop_eq_getElem_cons hlt, List.take_append_drop]
  · rw [List.set_eq_take_append_cons_drop, if_pos hlt]

theorem Late.after (h : M.Late ops i a) {before after : List (Option ο)} (hl : before.length = i)
    (ho : ops = before ++ none :: after) : ∀ b, some b ∈ after → M.Apart a b := by
  intro b hb
  obtain ⟨k, hk⟩ := List.mem_iff_getElem?.1 hb
  apply h (i + 1 + k) b (by omega)
  rw [ho, List.getElem?_append_right (by omega), show i + 1 + k - before.length = k + 1 by omega,
    List.getElem?_cons_succ]
  exact hk

/-- Filling a hole late. -/
theorem serial_fill (h : ops[i]? = some none) (ha : M.Late ops i a) (s : σ) :
    M.serial s (ops.set i (some a)) = M.exec a (M.serial s ops) := by
  obtain ⟨before, after, hl, ho, hset⟩ := split_hole h
  rw [hset, serial_append]
  conv_rhs => rw [ho, serial_append]
  exact serial_exec M after (ha.after hl ho) _

/-- What the operation observes. -/
theorem observe_fill (h : ops[i]? = some none) (ha : M.Late ops i a) (s : σ) :
    M.observe a (M.serial s ops) = M.observe a (M.serial s (ops.take i)) := by
  obtain ⟨before, after, hl, ho, -⟩ := split_hole h
  have htake : ops.take i = before := by
    rw [ho, ← hl, List.take_left]
  rw [htake, ho, serial_append]
  exact observe_serial M after (ha.after hl ho) _

/-- What the others have observed. -/
theorem observe_other (h : ops[i]? = some none) (ha : M.Late ops i a) {j : Nat} {b : ο}
    (hj : ops[j]? = some (some b)) (s : σ) :
    M.observe b (M.serial s ((ops.set i (some a)).take j)) = M.observe b (M.serial s (ops.take j)) := by
  by_cases hij : j ≤ i
  · rw [List.take_set_of_le hij]
  · have hhole : (ops.take j)[i]? = some none := by
      rw [List.getElem?_take_of_lt (by omega)]
      exact h
    have hlate : M.Late (ops.take j) i a := fun k c hk hc => by
      apply ha k c hk
      rw [List.getElem?_take] at hc
      split at hc
      · exact hc
      · cases hc
    rw [List.take_set, serial_fill hhole hlate]
    exact (ha j b (by omega) hj).right _

end

end Machine
