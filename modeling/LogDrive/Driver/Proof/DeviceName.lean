import LogDrive.Driver.DeviceName

/-!
# What is made of the name of a time-travel device

Both parsers take the first colon. `name_never_parsed`: the path is right exactly when it has no colon, a
name without a colon writes through the null pointer, and the copy of every name needs one byte more than
is allocated.
-/

set_option autoImplicit false

open Bytes CString

namespace LogDrive

/-- A number that is written out in digits. -/
structure Numeral (t : Mem) : Prop where
  ne_nil : t ≠ []
  digits : ∀ c ∈ t, isdigit c = true
  lt : decimal t < 2 ^ 63

/-- The device of the path and the instant is opened: the parameters name the driver and the rest, and the
driver opens the path at the instant. -/
def DeviceOpened (p t : Mem) : Prop :=
  tapdiskDisktypeParseParams (ascii "timetravel" ++ colon :: (p ++ colon :: t)) =
    (diskTypeTimetravel, some (p ++ colon :: t)) ∧
  ∃ ts, (takeApart true (p ++ colon :: t)).opening = .pdInitializeReadOnly p ts ∧
    ts.tvSec.toInt = decimal t ∧ ts.tvNsec = 0

/-- Every access to the copy of the name lies inside its allocation. -/
def AccessesInside (rest : Mem) : Prop :=
  ∀ i ∈ (takeApart true rest).touched, i < (takeApart true rest).allocated

/-- The rest of a name is parsed as it should be. -/
structure NameParsed (rest : Mem) : Prop where
  opened : ∀ p t, Numeral t → rest = p ++ colon :: t → DeviceOpened p t
  rejected : colon ∉ rest → ∃ r < 0, ∀ J, tdtimetravelOpen J true rest = pure (r, none)
  inside : AccessesInside rest

theorem tapdiskDisktypeParseParams_timetravel (rest : Mem) :
    tapdiskDisktypeParseParams (ascii "timetravel" ++ colon :: rest) = (diskTypeTimetravel, some rest) := by
  have hfirst : strchr (ascii "timetravel" ++ colon :: rest) colon = some 10 :=
    strchr_eq_some.2 ⟨_, rest, rfl, by decide, by decide⟩
  have htake : (ascii "timetravel" ++ colon :: rest).take 10 = ascii "timetravel" :=
    List.take_left' (by decide)
  have hdrop : (ascii "timetravel" ++ colon :: rest).drop 11 = rest := by
    rw [List.append_cons]
    exact List.drop_left' (by decide)
  have hfind : tapdiskDisktypeFind (ascii "timetravel") = 11 := by decide
  simp only [tapdiskDisktypeParseParams, hfirst, htake, hdrop, hfind]
  rfl

/-- The colon that the driver finds. -/
theorem takeApart_of_append {a b : Mem} (ha : colon ∉ a) :
    (takeApart true (a ++ colon :: b)).opening = .pdInitializeReadOnly a ⟨(UInt64.ofNat (strtoull b).1).toInt64, 0⟩ := by
  have hfirst : strchr (a ++ colon :: b) colon = some a.length := strchr_eq_some.2 ⟨a, b, rfl, ha, rfl⟩
  have hdrop : (a ++ colon :: b).drop (a.length + 1) = b := by simp [List.drop_append]
  simp only [takeApart, hfirst, hdrop, List.take_left, Bool.true_eq_false, if_false]

/-- Without a colon the driver writes through the null pointer. -/
theorem tdtimetravelOpen_of_not_mem {rest : Mem} (h : colon ∉ rest) (J : Junk) :
    tdtimetravelOpen J true rest = .undefined := by
  simp only [tdtimetravelOpen, takeApart, strchr_eq_none.2 h, Bool.true_eq_false, if_false]

/-- The path and the instant are right when the path has no colon. -/
theorem deviceOpened_iff {p t : Mem} (ht : Numeral t) : DeviceOpened p t ↔ colon ∉ p := by
  constructor
  · rintro ⟨-, ts, hopen, -, -⟩ hp
    obtain ⟨i, hi⟩ := Option.ne_none_iff_exists'.1 fun hnone => strchr_eq_none.1 hnone hp
    obtain ⟨a, b, rfl, ha, -⟩ := strchr_eq_some.1 hi
    rw [List.append_assoc, List.cons_append, takeApart_of_append ha] at hopen
    have hlen := congrArg List.length (Opening.pdInitializeReadOnly.inj hopen).1
    simp at hlen
  · intro hp
    have hlt := ht.lt
    refine ⟨tapdiskDisktypeParseParams_timetravel _, _, takeApart_of_append hp, ?_, rfl⟩
    rw [strtoull_digits ht.digits (by omega), UInt64.toInt64_ofNat']
    exact Int64.toInt_ofNat_of_lt hlt

/-- Only the zero that ends the copy lies outside. -/
theorem touched_le {rest : Mem} {i : Nat} (h : i ∈ (takeApart true rest).touched) :
    i ≤ (takeApart true rest).allocated := by
  cases hcolon : strchr rest colon with
  | none =>
    simp only [takeApart, hcolon, Bool.true_eq_false, if_false, List.mem_append, List.mem_range] at h ⊢
    omega
  | some k =>
    obtain ⟨a, b, rfl, -, rfl⟩ := strchr_eq_some.1 hcolon
    have hread := strtoull_le ((a ++ colon :: b).drop (a.length + 1))
    simp only [takeApart, hcolon, Bool.true_eq_false, if_false, List.mem_append, List.mem_range, List.mem_range'_1,
      List.mem_singleton, List.length_drop, List.length_append, List.length_cons] at h hread ⊢
    omega

/-- The copy needs a byte more than is allocated. -/
theorem not_accessesInside (rest : Mem) : ¬AccessesInside rest := by
  intro h
  have hlast : rest.length ∈ (takeApart true rest).touched ∧ (takeApart true rest).allocated = rest.length := by
    cases hcolon : strchr rest colon with
    | none => simp [takeApart, hcolon]
    | some k => simp [takeApart, hcolon]
  exact Nat.lt_irrefl _ (hlast.2 ▸ h _ hlast.1)

/-- **The name is parsed** as it should be for no string: the path and the instant are right exactly when
the path has no colon, a string without a colon ends in a write through the null pointer, and of every copy
the last byte lies behind the allocation. -/
theorem name_never_parsed (rest : Mem) : ¬NameParsed rest ∧
    (∀ p t, Numeral t → rest = p ++ colon :: t → (DeviceOpened p t ↔ colon ∉ p)) ∧
    (colon ∉ rest → ∀ J, tdtimetravelOpen J true rest = .undefined) ∧
    ¬AccessesInside rest ∧ ∀ i ∈ (takeApart true rest).touched, i ≤ (takeApart true rest).allocated :=
  ⟨fun h => not_accessesInside rest h.inside, fun _ _ ht _ => deviceOpened_iff ht,
    fun h J => tdtimetravelOpen_of_not_mem h J, not_accessesInside rest, fun _ => touched_le⟩

theorem numeral_one : Numeral (ascii "1") := ⟨by decide, List.all_eq_true.1 (by decide), by decide⟩

/-- The name `a:b:1`: the file `a` is opened at the instant 0. -/
theorem name_misparsed : ¬ ∀ rest : Mem, 0 ∉ rest → NameParsed rest := fun h =>
  (deviceOpened_iff (p := ascii "a:b") numeral_one).1 ((h _ (by decide)).opened _ _ numeral_one rfl) (by decide)

end LogDrive
