import Mathlib.Order.Bounds.Basic
import Mathlib.Order.MinMax

/-!
# The least and the greatest of a sequence

A pair that keeps the least and the greatest element seen so far, where some elements are `blank`: a pair
of blank ones counts as not set and is overwritten. `observe_counted`: it ends with the least and the
greatest of the elements that are `counted`.
-/

set_option autoImplicit false

namespace Extremes

variable {α : Type} {blank : α → Prop} [DecidablePred blank]

/-- All elements from the first one that is not blank; if all are, the last one. -/
def counted (blank : α → Prop) [DecidablePred blank] : List α → List α
  | [] => []
  | [a] => [a]
  | a :: b :: as => if blank a then counted blank (b :: as) else a :: b :: as

theorem counted_subset : ∀ {as : List α} {a : α}, a ∈ counted blank as → a ∈ as
  | [_], _, h => h
  | b :: c :: as, a, h => by
    rw [counted] at h
    split at h
    · exact List.mem_cons_of_mem _ (counted_subset h)
    · exact h

/-- Without blank elements all count. -/
theorem counted_eq {as : List α} (h : ∀ a ∈ as, ¬blank a) : counted blank as = as := by
  match as with
  | [] => rfl
  | [_] => rfl
  | a :: b :: as => rw [counted, if_neg (h a List.mem_cons_self)]

variable [LinearOrder α]

def observe (blank : α → Prop) [DecidablePred blank] (r : α × α) (a : α) : α × α :=
  if blank r.1 ∧ blank r.2 then (a, a) else (min r.1 a, max r.2 a)

/-- The pair has the least and the greatest of the elements. -/
structure Spans (r : α × α) (as : List α) : Prop where
  least : IsLeast {a | a ∈ as} r.1
  greatest : IsGreatest {a | a ∈ as} r.2

theorem spans_singleton (a : α) : Spans (a, a) [a] :=
  ⟨⟨List.mem_singleton_self a, fun b hb => by rw [List.mem_singleton.1 hb]⟩,
    ⟨List.mem_singleton_self a, fun b hb => by rw [List.mem_singleton.1 hb]⟩⟩

section
variable (hconvex : ∀ {a b c : α}, blank a → blank c → a ≤ b → b ≤ c → blank b)
include hconvex

/-- A pair that has seen an element that is not blank stays set. -/
theorem observe_spans : ∀ (as : List α) {r : α × α} {seen : List α}, Spans r seen → (∃ a ∈ seen, ¬blank a) →
    Spans (as.foldl (observe blank) r) (seen ++ as)
  | [], r, seen, h, _ => by rwa [List.append_nil]
  | b :: as, r, seen, h, ⟨a, ha, hblank⟩ => by
    have hset : ¬(blank r.1 ∧ blank r.2) := fun hb => hblank (hconvex hb.1 hb.2 (h.least.2 ha) (h.greatest.2 ha))
    have hnext : Spans (min r.1 b, max r.2 b) (seen ++ [b]) := by
      refine ⟨⟨?_, fun c hc => ?_⟩, ⟨?_, fun c hc => ?_⟩⟩
      · show min r.1 b ∈ seen ++ [b]
        rcases min_choice r.1 b with hm | hm
        · rw [hm]
          exact List.mem_append_left _ h.least.1
        · rw [hm]
          exact List.mem_append_right _ (List.mem_singleton_self b)
      · rcases List.mem_append.1 hc with hc | hc
        · exact (min_le_left ..).trans (h.least.2 hc)
        · exact List.mem_singleton.1 hc ▸ min_le_right ..
      · show max r.2 b ∈ seen ++ [b]
        rcases max_choice r.2 b with hm | hm
        · rw [hm]
          exact List.mem_append_left _ h.greatest.1
        · rw [hm]
          exact List.mem_append_right _ (List.mem_singleton_self b)
      · rcases List.mem_append.1 hc with hc | hc
        · exact (h.greatest.2 hc).trans (le_max_left ..)
        · exact List.mem_singleton.1 hc ▸ le_max_right ..
    rw [List.foldl_cons, observe, if_neg hset, List.append_cons]
    exact observe_spans as hnext ⟨a, List.mem_append_left _ ha, hblank⟩

/-- **The elements that count.** -/
theorem observe_counted : ∀ (as : List α) {z : α}, blank z → as ≠ [] →
    Spans (as.foldl (observe blank) (z, z)) (counted blank as)
  | [a], z, hz, _ => by
    rw [List.foldl_cons, observe, if_pos ⟨hz, hz⟩]
    exact spans_singleton a
  | a :: b :: as, z, hz, _ => by
    rw [List.foldl_cons, observe, if_pos ⟨hz, hz⟩, counted]
    split
    · exact observe_counted (b :: as) ‹_› (List.cons_ne_nil b as)
    · exact observe_spans hconvex (b :: as) (spans_singleton a) ⟨a, List.mem_singleton_self a, ‹_›⟩

end

end Extremes
