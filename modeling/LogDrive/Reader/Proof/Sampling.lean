import LogDrive.Reader.Proof.Pipeline

/-!
# Searching in a sampled HashDB

`samplingIndex` keeps the pairs whose draw does not exceed the rate (`mem_samplingIndex`). A search in what
it has kept puts out nothing that the search in the whole HashDB does not, and a line that is not empty
exactly when a pair with it matches and was drawn (`sampled_search`). Without the option the rate is `0.0`
and only a draw of 0 keeps a pair, where the comment of `samplingIndex.java` announces that there is no
sampling.
-/

set_option autoImplicit false

open Bytes Java

namespace LogDrive

theorem mem_samplingIndex {α : Type} {samplingRate : Nat} {draw : Nat → Fin (2 ^ 53)} {x : α} : ∀ {db : List α} {k : Nat},
    x ∈ samplingIndex samplingRate draw k db ↔ ∃ i, db[i]? = some x ∧ (draw (k + i)).val ≤ samplingRate
  | [], k => by simp [samplingIndex]
  | pair :: db, k => by
    have ih := @mem_samplingIndex α samplingRate draw x db (k + 1)
    have hrest : (∃ i, (pair :: db)[i]? = some x ∧ (draw (k + i)).val ≤ samplingRate) ↔
        (pair = x ∧ (draw k).val ≤ samplingRate) ∨ x ∈ samplingIndex samplingRate draw (k + 1) db := by
      rw [ih]
      constructor
      · rintro ⟨i, hget, hdraw⟩
        cases i with
        | zero => exact .inl ⟨Option.some.inj hget, hdraw⟩
        | succ i => exact .inr ⟨i, hget, by rwa [Nat.add_assoc, Nat.add_comm 1 i]⟩
      · rintro (⟨rfl, hdraw⟩ | ⟨i, hget, hdraw⟩)
        · exact ⟨0, rfl, hdraw⟩
        · exact ⟨i + 1, hget, by rwa [Nat.add_comm i 1, ← Nat.add_assoc]⟩
    rw [hrest, samplingIndex]
    split
    · rename_i hdraw
      rw [List.mem_cons, and_iff_left hdraw, eq_comm]
    · rename_i hdraw
      rw [or_iff_right fun h => hdraw h.2]

/-- A rate of `1.0`, or the largest below it, keeps everything. -/
theorem samplingIndex_all {α : Type} {samplingRate : Nat} (h : 2 ^ 53 - 1 ≤ samplingRate) (draw : Nat → Fin (2 ^ 53)) :
    ∀ (k : Nat) (db : List α), samplingIndex samplingRate draw k db = db
  | _, [] => rfl
  | k, pair :: db => by
    have hdraw := (draw k).isLt
    rw [samplingIndex, if_pos (by omega), samplingIndex_all h draw (k + 1) db]

/-- **A search in a sampled HashDB.** -/
theorem sampled_search {md5 : MD5} {db : List (Text × Text)} (hdb : ∀ pair ∈ db, Indexed md5 pair) (samplingRate : Nat)
    (drawn draw draw' : Nat → Fin (2 ^ 53)) {target : Mem} (hpos : validSectors target ≠ [])
    (hlt : (validSectors target).length < 2 ^ 31) :
    ∃ all lines, hashSearch md5 samplingRateOne draw target db = .ok all ∧
      hashSearch md5 samplingRateOne draw' target (samplingIndex samplingRate drawn 0 db) = .ok lines ∧
      lines ⊆ all ∧
      (∀ line, line ≠ [] → (line ∈ lines ↔ ∃ i pair, db[i]? = some pair ∧ (drawn i).val ≤ samplingRate ∧
        Matches (targetHashes md5 target) pair ∧ line = pair.2)) ∧
      (2 ^ 53 - 1 ≤ samplingRate → lines = all) ∧
      (samplingRate = samplingRateOf none → (∀ i < db.length, (drawn i).val ≠ 0) → lines = []) := by
  have hsub : ∀ pair ∈ samplingIndex samplingRate drawn 0 db, pair ∈ db := fun pair hp => by
    obtain ⟨i, hget, -⟩ := mem_samplingIndex.1 hp
    exact List.mem_of_getElem? hget
  have hlen := List.length_pos_of_ne_nil hpos
  have hint := int_of_lt hlt
  have hkept : kept (targetHashes md5 target) = targetHashes md5 target :=
    kept_eq (by rw [targetHashes, List.length_map]; exact hlt)
  have hrun : ∀ draw db', (∀ pair ∈ db', Indexed md5 pair) → hashSearch md5 samplingRateOne draw target db' =
      .ok (db'.map fun pair => if Matches (targetHashes md5 target) pair then pair.2 else []).dedup := fun draw db' h => by
    rw [hashSearch_eq md5 draw target h, if_neg (by omega), if_neg (by omega), hkept]
  refine ⟨_, _, hrun draw db hdb, hrun draw' _ fun pair hp => hdb pair (hsub pair hp), ?_, fun line hne => ?_, fun hrate => ?_,
    fun hrate hdrawn => ?_⟩
  · intro line hline
    obtain ⟨pair, hp, rfl⟩ := List.mem_map.1 (List.mem_dedup.1 hline)
    exact List.mem_dedup.2 (List.mem_map.2 ⟨pair, hsub pair hp, rfl⟩)
  · rw [List.mem_dedup, List.mem_map]
    constructor
    · rintro ⟨pair, hp, rfl⟩
      obtain ⟨i, hget, hdraw⟩ := mem_samplingIndex.1 hp
      rw [Nat.zero_add] at hdraw
      by_cases hm : Matches (targetHashes md5 target) pair
      · exact ⟨i, pair, hget, hdraw, hm, if_pos hm⟩
      · exact absurd (if_neg hm) hne
    · rintro ⟨i, pair, hget, hdraw, hm, rfl⟩
      exact ⟨pair, mem_samplingIndex.2 ⟨i, hget, by rwa [Nat.zero_add]⟩, if_pos hm⟩
  · rw [samplingIndex_all hrate]
  · have hnone : samplingIndex samplingRate drawn 0 db = [] := List.eq_nil_iff_forall_not_mem.2 fun pair hp => by
      obtain ⟨i, hget, hdraw⟩ := mem_samplingIndex.1 hp
      have hi := (List.getElem?_eq_some_iff.1 hget).1
      rw [Nat.zero_add, hrate, samplingRateOf, Option.getD_none] at hdraw
      exact hdrawn i hi (Nat.le_zero.1 hdraw)
    rw [hnone]
    rfl

/-- A HashDB of one pair, of which nothing is kept without the option. -/
theorem sampled_search_one : ∃ pair all lines, hashSearch zeroMD5 samplingRateOne (fun _ => 0) [1] [pair] = .ok all ∧
    hashSearch zeroMD5 samplingRateOne (fun _ => 0) [1] (samplingIndex (samplingRateOf none) (fun _ => 1) 0 [pair]) = .ok lines ∧
    lines ⊆ all ∧ lines = [] := by
  obtain ⟨text, hpair⟩ := indexed_plain zeroMD5 (show (1 : UInt8) ≠ 0 by decide)
  have hvalid := validSectors_plain (show (1 : UInt8) ≠ 0 by decide)
  obtain ⟨all, lines, h1, h2, hsub, -, -, hnone⟩ := @sampled_search zeroMD5
    [(zeroMD5.toHashValue (markedSector 1), text)] (fun pair hp => by rw [List.mem_singleton.1 hp]; exact hpair)
    (samplingRateOf none) (fun _ => 1) (fun _ => 0) (fun _ => 0) [1]
    (by rw [hvalid]; exact List.cons_ne_nil _ _) (by rw [hvalid]; decide)
  exact ⟨_, all, lines, h1, h2, hsub, hnone rfl fun _ _ => by decide⟩

end LogDrive
