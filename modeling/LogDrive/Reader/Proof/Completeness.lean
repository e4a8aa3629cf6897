import LogDrive.Reader.Proof.HashSearch

/-!
# Which sectors of a record can be found

`ByteControl` counts sectors of 4096 bytes where `hashIndex` cuts sectors of 512, so that only the first
512 bytes of a record are hashed. `index_complete`: every sector of a record is in the HashDB exactly
when the record has one sector, or has none that is looked for.
-/

set_option autoImplicit false

open Bytes Java

namespace LogDrive

/-- A record of the sequence file: the header, the block and the bytes of an entry of 1 to 4096 bytes. -/
structure LoggedRecord where
  head : EntryHeader
  blockNum : Nat
  data : Mem
  pos : 1 ≤ head.dataSize
  le : head.dataSize ≤ 4096
  length : data.length = head.dataSize
  pad : head.pad.length = 6
  block : blockNum < 2 ^ 31

namespace LoggedRecord

/-- The number of sectors that the bytes of the record reach into. -/
def sectors (r : LoggedRecord) : Nat := (r.head.dataSize + 511) / 512

/-- Sector `k` of the block, which is the bytes followed by zeros. -/
def sector (r : LoggedRecord) (k : Nat) : Mem := sectorOf (copyOf r.data 4096) k

/-- What `hashIndex` makes of the record in a buffer that holds nothing else. -/
def indexed (r : LoggedRecord) (md5 : MD5) : Exec (Option (Text × Text)) :=
  hashMap md5 (.of (keyBytes r.head r.blockNum)) (.of r.data)

/-- A sector of the record is one that is looked for. -/
def Shares (r : LoggedRecord) (target : Mem) : Prop := ∃ k, 512 * k < r.head.dataSize ∧ r.sector k ∈ validSectors target

/-- The pair of the record has the hashes of all its sectors, it is left out only when each of them is
filled with one byte, and a target that has one of them finds the record. -/
structure IndexComplete (r : LoggedRecord) (target : Mem) : Prop where
  hashes : ∀ md5, ∃ out, r.indexed md5 = .ok out ∧
    (∀ pair, out = some pair →
      pair.1.splitOn ',' = (List.range r.sectors).map fun k => md5.toHashValue (r.sector k)) ∧
    (out = none → ∀ k < r.sectors, filledWithOne (r.sector k) = true)
  found : ∀ md5 draw db out, r.indexed md5 = .ok out → (∀ pair ∈ db, Indexed md5 pair) → (∀ pair, out = some pair → pair ∈ db) →
    r.Shares target → ∃ pair lines, out = some pair ∧
      hashSearch md5 samplingRateOne draw target db = .ok lines ∧ pair.2 ∈ lines

/-- The record has one sector or only ones that are not looked for; and where the target has that
sector, its hash stays under its number. -/
def OneSector (r : LoggedRecord) (target : Mem) : Prop :=
  (r.head.dataSize ≤ 512 ∨ ∀ k < r.sectors, filledWithOne (r.sector k) = true) ∧
  (r.Shares target → 0 < int (validSectors target).length ∧ r.sector 0 ∈ kept (validSectors target))

variable {r : LoggedRecord}

/-- **The record in the HashDB**: the hash of its first sector. -/
theorem indexed_eq (r : LoggedRecord) : ∃ text, text ≠ [] ∧ ∀ md5, r.indexed md5 =
    .ok (if filledWithOne (r.sector 0) then none else some (md5.toHashValue (r.sector 0), text)) := by
  have hsize := r.le
  obtain ⟨bc, hbc, hk⟩ := @ofBytes_key r.head (by omega) r.blockNum (by have := r.block; omega) []
  rw [List.append_nil] at hbc
  have hone : (getMinSectorNum r.head.dataSize).toNat = 1 := by
    rw [getMinSectorNum, if_pos (by simp only [byteControlSectorSize]; omega)]
    rfl
  refine ⟨bc.valueText, by rw [ByteControl.valueText]; simp, fun md5 => ?_⟩
  rw [indexed, @hashMap_eq md5 (.of (keyBytes r.head r.blockNum)) (.of r.data) bc hbc _ hk.minSector, hone]
  simp only [BytesWritable.of, sectorHashes, List.range'_succ, List.range'_zero, List.map_cons, List.map_nil, sector,
    List.intercalate_singleton, Nat.sub_self]
  rfl

theorem sector_zero_of_shares {target : Mem} (h1 : r.head.dataSize ≤ 512 ∨ ∀ k < r.sectors, filledWithOne (r.sector k) = true)
    (h : r.Shares target) : r.sector 0 ∈ validSectors target ∧ filledWithOne (r.sector 0) = false := by
  obtain ⟨k, hk, hmem⟩ := h
  have hvalid : filledWithOne (r.sector k) = false := by simpa using (List.mem_filter.1 hmem).2
  rcases h1 with h1 | h1
  · obtain rfl : k = 0 := by omega
    exact ⟨hmem, hvalid⟩
  · rw [h1 k (by unfold sectors; omega)] at hvalid
    cases hvalid

theorem toHashValue_splitOn (md5 : MD5) (m : Mem) : (md5.toHashValue m).splitOn ',' = [md5.toHashValue m] :=
  List.splitOn_eq_singleton (comma_not_mem_toEncryptedString _)

/-- The pair has the hashes of all sectors exactly when there is one, or none that is looked for. -/
theorem hashes_iff (r : LoggedRecord) : (∀ md5, ∃ out, r.indexed md5 = .ok out ∧
      (∀ pair, out = some pair →
        pair.1.splitOn ',' = (List.range r.sectors).map fun k => md5.toHashValue (r.sector k)) ∧
      (out = none → ∀ k < r.sectors, filledWithOne (r.sector k) = true)) ↔
    (r.head.dataSize ≤ 512 ∨ ∀ k < r.sectors, filledWithOne (r.sector k) = true) := by
  have hpos := r.pos
  obtain ⟨text, -, hrun⟩ := r.indexed_eq
  by_cases hfilled : filledWithOne (r.sector 0) = true
  · simp only [if_pos hfilled] at hrun
    constructor
    · intro h
      obtain ⟨out, hout, -, hnone⟩ := h zeroMD5
      rw [hrun] at hout
      exact .inr (hnone (Except.ok.inj hout).symm)
    · intro h md5
      refine ⟨none, hrun md5, nofun, fun _ => ?_⟩
      rcases h with h | h
      · intro k hk
        obtain rfl : k = 0 := by unfold sectors at hk; omega
        exact hfilled
      · exact h
  · simp only [if_neg hfilled] at hrun
    constructor
    · intro h
      obtain ⟨out, hout, hpair, -⟩ := h zeroMD5
      rw [hrun] at hout
      have hlen := congrArg List.length (hpair _ (Except.ok.inj hout).symm)
      rw [toHashValue_splitOn, List.length_map, List.length_range, List.length_singleton, sectors] at hlen
      exact .inl (by omega)
    · rintro (h | h) md5
      · refine ⟨_, hrun md5, fun pair hp => ?_, nofun⟩
        obtain rfl := Option.some.inj hp
        have hone : r.sectors = 1 := by unfold sectors; omega
        rw [toHashValue_splitOn, hone]
        rfl
      · exact absurd (h 0 (by unfold sectors; omega)) hfilled

/-- **The index is complete** for a record exactly when it has one sector or none that is looked for, as
long as the number of the sectors of the target fits an `int`. -/
theorem index_complete {r : LoggedRecord} {target : Mem} : (r.IndexComplete target ↔ r.OneSector target) ∧
    ((validSectors target).length < 2 ^ 31 → (r.IndexComplete target ↔
      r.head.dataSize ≤ 512 ∨ ∀ k < r.sectors, filledWithOne (r.sector k) = true)) := by
  obtain ⟨text, htext, hrun⟩ := r.indexed_eq
  have hiff : r.IndexComplete target ↔ r.OneSector target := by
    constructor
    · rintro ⟨hhashes, hfound⟩
      have hone := r.hashes_iff.1 hhashes
      refine ⟨hone, fun hshares => ?_⟩
      obtain ⟨-, hvalid⟩ := sector_zero_of_shares hone hshares
      simp only [hvalid, Bool.false_eq_true, if_false] at hrun
      -- a HashDB of this record alone, under a function that tells its sector from all others
      obtain ⟨md5, hapart⟩ := exists_md5_apart (r.sector 0)
      have hdb : ∀ pair ∈ [(md5.toHashValue (r.sector 0), text)], Indexed md5 pair := fun pair hp => by
        rw [List.mem_singleton.1 hp]
        exact ⟨_, _, hrun md5⟩
      obtain ⟨pair, lines, hpair, hlines, hin⟩ := hfound md5 (fun _ => 0) _ _ (hrun md5) hdb
        (fun pair hp => by obtain rfl := Option.some.inj hp; exact List.mem_cons_self) hshares
      obtain rfl := Option.some.inj hpair
      rw [hashSearch_eq md5 _ _ hdb] at hlines
      split_ifs at hlines with h0 hneg
      · cases hlines
        cases hin
      · refine ⟨by omega, ?_⟩
        obtain rfl := Except.ok.inj hlines
        rw [List.mem_dedup, List.map_singleton, List.mem_singleton] at hin
        have hmatch : Matches (kept (targetHashes md5 target)) (md5.toHashValue (r.sector 0), text) := by
          by_contra hno
          rw [if_neg hno] at hin
          exact htext hin
        rw [matches_one, targetHashes, kept_map] at hmatch
        obtain ⟨sector, hmem, heq⟩ := List.mem_map.1 hmatch
        rwa [← hapart sector heq]
    · rintro ⟨hone, hkept⟩
      refine ⟨r.hashes_iff.2 hone, fun md5 draw db out hout hdb hin hshares => ?_⟩
      obtain ⟨-, hvalid⟩ := sector_zero_of_shares hone hshares
      obtain ⟨hpos, hmem⟩ := hkept hshares
      rw [hrun, hvalid] at hout
      obtain rfl := Except.ok.inj hout
      refine ⟨_, _, rfl, by rw [hashSearch_eq md5 _ _ hdb, if_neg (by omega), if_neg (by omega)], ?_⟩
      refine List.mem_dedup.2 (List.mem_map.2 ⟨_, hin _ rfl, if_pos ?_⟩)
      rw [matches_one, targetHashes, kept_map]
      exact List.mem_map_of_mem hmem
  refine ⟨hiff, fun hlt => hiff.trans ⟨fun h => h.1, fun h => ⟨h, fun hshares => ?_⟩⟩⟩
  obtain ⟨hmem, -⟩ := sector_zero_of_shares h hshares
  have := List.length_pos_of_mem hmem
  rw [kept_eq hlt, int_of_lt hlt]
  exact ⟨by omega, hmem⟩

/-! ## Two sectors -/

/-- A record whose bytes are zeros up to its last one. -/
def marked (size : Nat) (h : size < 4096) : LoggedRecord where
  head := { plainHeader 1459382400 with dataSize := size + 1 }
  blockNum := 0
  data := zeros size ++ [1]
  pos := Nat.succ_pos size
  le := h
  length := by rw [List.length_append, length_zeros, List.length_singleton]
  pad := rfl
  block := by decide

theorem sector_marked : (marked 511 (by decide)).sector 0 = zeros 511 ++ [1] := by
  have hdata : (marked 511 (by decide)).data = zeros 511 ++ [1] := rfl
  have hlen : (zeros 511 ++ [1]).length = 512 := by rw [List.length_append, length_zeros, List.length_singleton]
  have hblock : 512 * 0 + 512 ≤ (copyOf (zeros 511 ++ [1]) 4096).length := by
    rw [copyOf, length_tabulate]
    decide
  refine ext_byteAt ?_ fun i hi => ?_
  · rw [sector, hdata, sectorOf, length_slice_of_le hblock, hlen]
  · rw [sector, hdata, sectorOf, length_slice_of_le hblock] at hi
    rw [sector, hdata, byteAt_sectorOf (by decide) hi, Nat.mul_zero, Nat.zero_add]

/-- A target of two sectors, the first of which is that of a record of 512 bytes. -/
theorem index_complete_two : (marked 511 (by decide)).IndexComplete (zeros 511 ++ [1] ++ [2]) ∧
    (marked 511 (by decide)).Shares (zeros 511 ++ [1] ++ [2]) := by
  have hlen : (zeros 511 ++ [1]).length = 512 := by rw [List.length_append, length_zeros, List.length_singleton]
  have hnot : filledWithOne (zeros 511 ++ [1]) = false := by
    rw [Bool.eq_false_iff]
    intro hf
    have hbyte := filledWithOne_iff.1 hf 511 (by decide)
    rw [byteAt_append_right (Nat.le_of_eq (length_zeros 511)), length_zeros,
      byteAt_append_left (by rw [length_zeros]; decide), byteAt_zeros] at hbyte
    revert hbyte
    decide
  have hvalid := validSectors_snoc hlen hnot (show (2 : UInt8) ≠ 0 by decide)
  refine ⟨(index_complete.2 (by rw [hvalid]; decide)).2 (.inl (by decide)), 0, by decide, ?_⟩
  rw [sector_marked, hvalid]
  exact List.mem_cons_self

/-- The second sector of a record of 513 bytes is not found. -/
theorem index_incomplete : ¬ ∀ (r : LoggedRecord) (target : Mem), r.IndexComplete target := by
  intro h
  rcases (hashes_iff (marked 512 (by decide))).1 (h _ []).hashes with hsize | hall
  · revert hsize
    decide
  · have hbyte := filledWithOne_iff.1 (hall 1 (by decide)) 1 (by decide)
    have hdata : (marked 512 (by decide)).data = zeros 512 ++ [1] := rfl
    rw [sector, byteAt_sectorOf (by decide) (by decide), byteAt_sectorOf (by decide) (by decide), hdata,
      byteAt_append_right (by rw [length_zeros]; decide), byteAt_append_right (Nat.le_of_eq (length_zeros 512)),
      length_zeros] at hbyte
    revert hbyte
    decide

end LoggedRecord

end LogDrive
