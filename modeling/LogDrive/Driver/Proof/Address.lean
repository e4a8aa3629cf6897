import Mathlib.Tactic.IntervalCases
import LogDrive.Lib.Faults
import LogDrive.Driver.Address
import LogDrive.Driver.Proof.Codec

/-!
# The blocks of a request

Where every block number fits an `int`, the three loops go through the blocks of the request
(`coverBlocks_eq`, `writePieces_eq`, `alignedBlocks_eq`).
-/

set_option autoImplicit false

open Bytes

namespace LogDrive

/-! ## Blocks and sectors -/

theorem blockOf_eq {spb sector : Nat} (h : sector / spb < 2 ^ 31) : blockOf spb sector = sector / spb := by
  have hcast : ((sector : Int) / (spb : Int)) = ((sector / spb : Nat) : Int) := by norm_cast
  rw [blockOf, hcast, toInt_of_lt h, toU64_natCast (by omega)]

/-- A block number is one of an `int`. -/
theorem blockOf_range (spb sector : Nat) : blockOf spb sector < 2 ^ 31 ∨ 2 ^ 64 - 2 ^ 31 ≤ blockOf spb sector := by
  have hlo := @Int.le_bmod ((sector : Int) / spb) (2 ^ 32) (by decide)
  have hhi := @Int.bmod_lt ((sector : Int) / spb) (2 ^ 32) (by decide)
  unfold blockOf toU64 toInt
  generalize Int.bmod ((sector : Int) / spb) (2 ^ 32) = i at *
  omega

section
variable {spb : Nat} (hspb : 0 < spb)
include hspb

theorem sector_bounds (s : Nat) : s / spb * spb ≤ s ∧ s < (s / spb + 1) * spb := by
  have h := Nat.div_add_mod s spb
  have hm := Nat.mod_lt s hspb
  rw [Nat.mul_comm] at h
  rw [Nat.add_mul]
  omega

/-- The blocks from a sector on are its block and the blocks from the next one on. -/
theorem blocksFrom_cons {s stop : Nat} (h : s < stop) :
    blocksFrom spb s stop = s / spb :: blocksFrom spb ((s / spb + 1) * spb) stop := by
  obtain ⟨hlo, hhi⟩ := sector_bounds hspb s
  have hlast : s / spb ≤ (stop - 1) / spb := Nat.div_le_div_right (by omega)
  rw [blocksFrom, if_pos h, blocksFrom, Nat.mul_div_cancel _ hspb]
  by_cases hn : (s / spb + 1) * spb < stop
  · have hle : s / spb + 1 ≤ (stop - 1) / spb := (Nat.le_div_iff_mul_le hspb).2 (by omega)
    rw [if_pos hn, show (stop - 1) / spb + 1 - s / spb = ((stop - 1) / spb + 1 - (s / spb + 1)) + 1 by omega,
      List.range'_succ]
  · have hle : (stop - 1) / spb < s / spb + 1 := (Nat.div_lt_iff_lt_mul hspb).2 (by omega)
    rw [if_neg hn, show (stop - 1) / spb + 1 - s / spb = 1 by omega]
    rfl

omit hspb in
theorem mem_blocksFrom {s stop b : Nat} : b ∈ blocksFrom spb s stop ↔ s < stop ∧ s / spb ≤ b ∧ b ≤ (stop - 1) / spb := by
  unfold blocksFrom
  split
  · rename_i h
    have hlast : s / spb ≤ (stop - 1) / spb := Nat.div_le_div_right (by omega)
    rw [List.mem_range'_1]
    omega
  · rename_i h
    simp [h]

end

/-- The blocks that at most 8 sectors touch fit the local buffer, unless they are three of 6 sectors. -/
theorem blocks_fit {spb sec secs : Nat} (hpos : 0 < spb) (h8 : spb ≤ 8) (hsix : ¬(spb = 6 ∧ sec % 6 = 5 ∧ secs = 8))
    (hsecs : secs ≤ 8) (h0 : 0 < secs) :
    ((sec + secs - 1) / spb + 1 - sec / spb) * (512 * spb) ≤ defaultBlockSize * 2 ∧
    sec % spb * 512 + secs * 512 ≤ ((sec + secs - 1) / spb + 1 - sec / spb) * (512 * spb) := by
  simp only [defaultBlockSize]
  interval_cases spb <;> omega

/-! ## The loops -/

section
variable {spb : Nat} (hspb : 0 < spb) {q : TdRequest} (hwrap : q.sec + q.secs + spb < 2 ^ 64)
variable (hint : ∀ b ∈ q.blocks spb, b < 2 ^ 31)
include hspb hwrap hint

/-- One iteration goes to the block of its sector and on to the next block. -/
theorem next_sector {s : Nat} (hs : q.sec ≤ s) (h : s < q.sec + q.secs) : blockOf spb s = s / spb ∧
    u64 ((blockOf spb s + 1) * spb) = (s / spb + 1) * spb := by
  obtain ⟨hlo, hhi⟩ := sector_bounds hspb s
  have hmem : s / spb ∈ q.blocks spb :=
    mem_blocksFrom.2 ⟨by omega, Nat.div_le_div_right hs, Nat.div_le_div_right (by omega)⟩
  have hb : blockOf spb s = s / spb := blockOf_eq (hint _ hmem)
  refine ⟨hb, ?_⟩
  rw [hb]
  refine u64_of_lt ?_
  rw [Nat.add_mul]
  omega

theorem coverBlocks_from {fuel s : Nat} (hs : q.sec ≤ s) (hfuel : q.sec + q.secs - s < fuel) :
    coverBlocks spb q fuel s = some (blocksFrom spb s (q.sec + q.secs)) := by
  induction fuel generalizing s with
  | zero => omega
  | succ fuel ih =>
    rw [coverBlocks, u64_of_lt (by omega)]
    by_cases h : s < q.sec + q.secs
    · obtain ⟨hb, hnext⟩ := next_sector hspb hwrap hint hs h
      obtain ⟨hlo, hhi⟩ := sector_bounds hspb s
      rw [if_pos h, hnext, hb, ih (by omega) (by omega), blocksFrom_cons hspb h]
      rfl
    · rw [if_neg h, blocksFrom, if_neg h]

/-- The unaligned path of `pd_read`. -/
theorem coverBlocks_eq : coverBlocks spb q (q.secs + 1) q.sec = some (q.blocks spb) :=
  coverBlocks_from hspb hwrap hint (Nat.le_refl _) (by omega)

theorem writePieces_from {fuel s remain : Nat} (hfuel : q.sec + q.secs - s < fuel) (hrem : remain = q.sec + q.secs - s)
    (hs : s = q.sec ∨ q.sec ≤ s ∧ s % spb = 0) : writePieces spb q fuel s remain =
      some ((blocksFrom spb s (q.sec + q.secs)).map (q.piece spb)) := by
  induction fuel generalizing s remain with
  | zero => omega
  | succ fuel ih =>
    rw [writePieces, u64_of_lt (by omega)]
    by_cases h : s < q.sec + q.secs
    · obtain ⟨hb, hnext⟩ := next_sector hspb hwrap hint (by omega) h
      obtain ⟨hlo, hhi⟩ := sector_bounds hspb s
      have hmod : s % spb = s - s / spb * spb := by
        have := Nat.div_add_mod s spb
        rw [Nat.mul_comm] at this
        omega
      have hsum : (s / spb + 1) * spb = s / spb * spb + spb := by rw [Nat.add_mul, Nat.one_mul]
      have hfirst : max q.sec (s / spb * spb) = s := by
        rcases hs with rfl | ⟨hle, h0⟩
        · omega
        · omega
      -- the sectors of the block that the request has
      have hcur : (if spb - s % spb < remain then spb - s % spb else remain) =
          min (q.sec + q.secs) ((s / spb + 1) * spb) - s := by
        split <;> omega
      have hpiece : q.piece spb (s / spb) = ⟨s / spb, s % spb * 512,
          (min (q.sec + q.secs) ((s / spb + 1) * spb) - s) * 512, s - q.sec⟩ := by
        simp only [TdRequest.piece, hfirst, ← hmod]
      have hleft : remain - (min (q.sec + q.secs) ((s / spb + 1) * spb) - s) = q.sec + q.secs - (s / spb + 1) * spb := by omega
      have hrest := ih (by omega) hleft (.inr ⟨by omega, Nat.mul_mod_left _ _⟩)
      have hdone : q.secs - (remain - (min (q.sec + q.secs) ((s / spb + 1) * spb) - s)) -
          (min (q.sec + q.secs) ((s / spb + 1) * spb) - s) = s - q.sec := by omega
      rw [hb] at hnext
      simp only [if_pos h, hnext, hb, hcur, hrest, hdone, Option.map_some, blocksFrom_cons hspb h, List.map_cons, hpiece]
    · rw [if_neg h, blocksFrom, if_neg h]
      rfl

/-- **`pd_write`.** -/
theorem writePieces_eq : writePieces spb q (q.secs + 1) q.sec q.secs = some (q.pieces spb) :=
  writePieces_from hspb hwrap hint (by omega) (by omega) (.inl rfl)

end

/-- The aligned path of `pd_read`. -/
theorem alignedBlocks_eq {spb : Nat} (hspb : 0 < spb) {q : TdRequest} (hwrap : q.sec + q.secs + spb < 2 ^ 64)
    (hsec : q.sec % spb = 0) (hsecs : q.secs % spb = 0) : alignedBlocks spb q = q.blocks spb := by
  have ha := Nat.div_mul_cancel (Nat.dvd_of_mod_eq_zero hsec)
  have hc := Nat.div_mul_cancel (Nat.dvd_of_mod_eq_zero hsecs)
  generalize q.sec / spb = a at ha
  generalize hcount : q.secs / spb = count at hc
  have hu : ∀ i ∈ List.range count, u64 (q.sec / spb + i) = q.sec / spb + i := fun i hi => by
    have h1 : q.sec / spb ≤ q.sec := Nat.div_le_self _ _
    have h2 : count ≤ count * spb := Nat.le_mul_of_pos_right _ hspb
    have := List.mem_range.1 hi
    exact u64_of_lt (by omega)
  rw [alignedBlocks, hcount, List.map_congr_left hu, TdRequest.blocks, blocksFrom]
  by_cases h0 : q.sec < q.sec + q.secs
  · have hpos : 0 < count := by
      rcases Nat.eq_zero_or_pos count with rfl | h
      · omega
      · exact h
    have hlast : (q.sec + q.secs - 1) / spb = a + (count - 1) := by
      have hsum : q.sec + q.secs - 1 = spb - 1 + (a + (count - 1)) * spb := by
        rw [Nat.add_mul, Nat.sub_mul, Nat.one_mul, ha, hc]
        have : spb ≤ count * spb := Nat.le_mul_of_pos_left _ hpos
        omega
      rw [hsum, Nat.add_mul_div_right _ _ hspb, Nat.div_eq_of_lt (by omega), Nat.zero_add]
    have hfirst : q.sec / spb = a := by rw [← ha, Nat.mul_div_cancel _ hspb]
    rw [if_pos h0, hlast, hfirst, show a + (count - 1) + 1 - a = count by omega, List.range'_eq_map_range]
  · have hzero : count = 0 := by
      rcases Nat.eq_zero_or_pos count with h | h
      · exact h
      · have : count ≤ count * spb := Nat.le_mul_of_pos_right _ hspb
        omega
    rw [if_neg h0, hzero]
    rfl

/-- Every block that the unaligned path reads has the number of an `int`. -/
theorem mem_coverBlocks {spb : Nat} {q : TdRequest} {fuel s b : Nat} {bs : List Nat}
    (h : coverBlocks spb q fuel s = some bs) (hb : b ∈ bs) : ∃ s', b = blockOf spb s' := by
  induction fuel generalizing s bs with
  | zero => cases h
  | succ fuel ih =>
    rw [coverBlocks] at h
    split at h
    · obtain ⟨rest, hrest, rfl⟩ := Option.map_eq_some_iff.1 h
      simp only [List.mem_cons] at hb
      rcases hb with hb | hb
      · exact ⟨s, hb⟩
      · exact ih hrest hb
    · cases h
      cases hb

/-! ## The loops of the source -/

/-- The reader of blocks keeps the geometry of the disk. -/
def ReadBlock.Keeps (readBlock : ReadBlock) : Prop := ∀ d buf b, (readBlock d buf b).Returns fun r =>
  r.2.2.sectorsPerBlock = d.sectorsPerBlock

theorem readPayload_keeps (d : PreservationDisk) (buf : Mem) (offset dataSize : Nat) :
    (readPayload d buf offset dataSize).Returns fun r => r.2.2.sectorsPerBlock = d.sectorsPerBlock := by
  refine .bind_any fun a => ?_
  dsimp only
  split
  · exact .bind_any fun b => rfl
  · trivial

theorem readLatestBlock_keeps (J : Junk) : ReadBlock.Keeps (readLatestBlock J) := by
  intro d buf b
  refine .bind_any fun offset => ?_
  dsimp only
  split
  · exact .bind_any fun _ => rfl
  · refine .bind_any fun a => ?_
    split
    · exact .bind_any fun _ => rfl
    · exact readPayload_keeps { d with bio := a.2 } ..

theorem readCurrentBlock_keeps (J : Junk) (fuel : Nat) : ReadBlock.Keeps (readCurrentBlock J fuel) := by
  intro d buf b
  refine .bind_any fun offset => ?_
  split
  · refine Prog.Returns.bind (P := fun a => a.2.2.sectorsPerBlock = d.sectorsPerBlock) ?_ fun a ha => ?_
    · split
      · exact .bind_any fun _ => .bind_any fun _ => rfl
      · rfl
    · dsimp only
      split
      · exact (readPayload_keeps ..).mono fun r hr => hr.trans ha
      · exact .bind_any fun _ => ha
  · trivial

theorem readBlockOf_keeps (J : Junk) (fuel : Nat) (d : PreservationDisk) : (readBlockOf J fuel d).Keeps := by
  unfold readBlockOf
  split
  · exact readCurrentBlock_keeps J fuel
  · exact readLatestBlock_keeps J

theorem pdWriteBlock_keeps (J : Junk) (q : WriteRequest) (d : PreservationDisk) (block start size done : Nat)
    (buf : Mem) : (pdWriteBlock J q d block start size done buf).Returns fun r =>
      r.2.1.sectorsPerBlock = d.sectorsPerBlock := by
  refine Prog.Returns.bind (readLatestBlock_keeps J _ _ _) ?_
  rintro ⟨r, data, d1⟩ ha
  dsimp only at ha ⊢
  split
  · exact ha
  · split
    · refine .bind_any fun next => ?_
      split
      · exact ha
      · exact .bind_any fun bytes => .bind_any fun o => ha
    · trivial

section
variable {readBlock : ReadBlock} (hkeep : readBlock.Keeps) {q : TdRequest}
include hkeep

/-- The loop of `pd_read` over whole blocks. -/
theorem pdReadBlocks_eq {spb : Nat} (count : Nat) : ∀ i d, d.sectorsPerBlock = spb →
    pdReadBlocks readBlock q count i d =
      readAligned readBlock q ((List.range' i count).map fun k => u64 (q.sec / spb + k)) i d := by
  induction count with
  | zero => exact fun _ _ _ => rfl
  | succ count ih =>
    intro i d hd
    simp only [pdReadBlocks, List.range'_succ, List.map_cons, readAligned, Prog.bind_eq, hd]
    refine Prog.Returns.bind_congr (hkeep _ _ _) fun a ha => ?_
    rw [ih (i + 1) a.2.2 (ha.trans hd)]

/-- The loop of `pd_read` over the blocks that a request touches. -/
theorem pdReadCover_eq {spb fuel : Nat} : ∀ {s k : Nat} {d : PreservationDisk} {buf : Mem} {bs : List Nat},
    d.sectorsPerBlock = spb → coverBlocks spb q fuel s = some bs →
    pdReadCover readBlock q fuel d s k buf = readCovered readBlock spb bs d k buf := by
  induction fuel with
  | zero => intro s k d buf bs _ h; cases h
  | succ fuel ih =>
    intro s k d buf bs hd h
    rw [coverBlocks] at h
    rw [pdReadCover]
    split at h
    · rename_i hs
      obtain ⟨rest, hrest, rfl⟩ := Option.map_eq_some_iff.1 h
      rw [if_pos hs, readCovered]
      simp only [hd]
      split
      · refine Prog.Returns.bind_congr (hkeep _ _ _) fun a ha => ?_
        have hd' := ha.trans hd
        split
        · rfl
        · simp only [hd']
          exact ih hd' hrest
      · rfl
    · rename_i hs
      cases h
      rw [if_neg hs]
      rfl

end

/-- The loop of `pd_write`. -/
theorem pdWriteLoop_eq {J : Junk} {q : WriteRequest} {spb fuel : Nat} (hspb : spb ≠ 0) :
    ∀ {s remain : Nat} {d : PreservationDisk} {buf : Mem} {ps : List Piece}, d.sectorsPerBlock = spb →
    writePieces spb q.toTdRequest fuel s remain = some ps →
    pdWriteLoop J q fuel d s remain buf = writeEach J q ps d buf := by
  induction fuel with
  | zero => intro s remain d buf ps _ h; cases h
  | succ fuel ih =>
    intro s remain d buf ps hd h
    rw [writePieces] at h
    rw [pdWriteLoop]
    split at h
    · rename_i hs
      obtain ⟨rest, hrest, rfl⟩ := Option.map_eq_some_iff.1 h
      rw [if_pos hs, if_neg (by rw [hd]; exact hspb), writeEach]
      simp only [hd]
      refine Prog.Returns.bind_congr (pdWriteBlock_keeps ..) fun a ha => ?_
      have hd' := ha.trans hd
      split
      · rfl
      · exact ih hd' hrest
    · rename_i hs
      cases h
      rw [if_neg hs]
      rfl

end LogDrive
