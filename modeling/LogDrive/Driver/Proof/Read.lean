import LogDrive.Driver.Proof.LogInv

/-!
# `pd_read`

Both paths of `pd_read` put together what a block reader gives, whichever of the two readers it is.
`BlockReader` is what the reader has to do; `wp_pdRead` is what the request then delivers.
-/

set_option autoImplicit false

open Bytes

namespace LogDrive

/-- In every state in which `P` holds, `readBlock` gives 4096 bytes, those of `c` where `T` holds,
and keeps `P`. -/
structure BlockReader (L : Logic Event) (T : Prop) (n : Nat) (P : PreservationDisk → Os Event → Prop)
    (c : Nat → Nat → UInt8) (readBlock : ReadBlock) : Prop where
  geometry : ∀ d s, P d s → d.header.blockSize = 4096 ∧ d.sectorsPerBlock = 8
  reads : ∀ d s b buf, P d s → b < n → 4096 ≤ buf.length →
    wp L (readBlock d buf b) (fun r s' => r.1 = 0 ∧ r.2.1.length = buf.length ∧
      (∀ p, 4096 ≤ p → byteAt r.2.1 p = byteAt buf p) ∧
      (T → ∀ p < 4096, byteAt r.2.1 p = c b p) ∧ P r.2.2 s') s

/-- The byte at `pos` of a disk given block by block. -/
def diskByte (c : Nat → Nat → UInt8) (pos : Nat) : UInt8 := c (pos / 4096) (pos % 4096)

theorem diskByte_eq {c : Nat → Nat → UInt8} {pos b p : Nat} (hb : pos / 4096 = b) (hp : pos % 4096 = p) :
    diskByte c pos = c b p := by rw [diskByte, hb, hp]

section
variable {L : Logic Event} {T : Prop} {n : Nat} {P : PreservationDisk → Os Event → Prop}
variable {c : Nat → Nat → UInt8} {readBlock : ReadBlock} (hR : BlockReader L T n P c readBlock)
variable {treq : TdRequest} {d : PreservationDisk} {s : Os Event}
include hR

theorem wp_pdReadBlocks (hn : n < 2 ^ 31) {count i : Nat} (hin : treq.sec / 8 + i + count ≤ n)
    (hP : P d s) : wp L (pdReadBlocks readBlock treq count i d) (fun r s' => r.1 = 0 ∧
      r.2.1.length = count * 4096 ∧
      (T → ∀ k < count * 4096, byteAt r.2.1 k = diskByte c ((treq.sec / 8 + i) * 4096 + k)) ∧
      P r.2.2 s') s := by
  induction count generalizing i d s with
  | zero => exact ⟨rfl, by simp, fun _ k hk => by omega, hP⟩
  | succ count ih =>
    obtain ⟨hb, hs⟩ := hR.geometry d s hP
    simp only [pdReadBlocks, hb, hs, Prog.bind_eq]
    rw [u64_of_lt (by omega)]
    refine wp_seq (hR.reads d s (treq.sec / 8 + i) _ hP (by omega) (by rw [length_tabulate])) ?_
    rintro ⟨r, bytes, d1⟩ s1 ⟨rfl, hlen, -, hcont, hP1⟩
    simp only at hlen hcont hP1 ⊢
    rw [length_tabulate] at hlen
    rw [if_neg (by decide)]
    refine wp_seq (ih (i := i + 1) (by omega) hP1) ?_
    rintro ⟨r, rest, d2⟩ s2 ⟨rfl, hlen2, hcont2, hP2⟩
    simp only at hlen2 hcont2 hP2
    refine ⟨rfl, by simp only [List.length_append, hlen, hlen2]; omega, fun hT k hk => ?_, hP2⟩
    rw [byteAt_append, hlen]
    split
    · rename_i h1
      rw [hcont hT k h1, diskByte_eq (b := treq.sec / 8 + i) (p := k) (by omega) (by omega)]
    · rw [hcont2 hT (k - 4096) (by omega)]
      exact congrArg (diskByte c) (by omega)

theorem wp_pdReadCover (hn : n < 2 ^ 31) (hin : treq.sec + treq.secs ≤ 8 * n) (hs8 : treq.secs ≤ 8)
    {fuel sector count : Nat} {buf : Mem} (hfuel : treq.sec + treq.secs - sector < fuel)
    (hplace : sector = treq.sec ∧ count = 0 ∨
      sector = 8 * (treq.sec / 8 + count) ∧ 8 * (treq.sec / 8 + count) < treq.sec + treq.secs + 8)
    (hbuf : buf.length = 8192)
    (hcont : T → ∀ k < count * 4096, byteAt buf k = diskByte c (treq.sec / 8 * 4096 + k)) (hP : P d s) :
    wp L (pdReadCover readBlock treq fuel d sector count buf) (fun r s' => r.1 = 0 ∧
      r.2.1.length = 8192 ∧ (T → ∀ k < treq.secs * 512,
        byteAt r.2.1 (treq.sec % 8 * 512 + k) = diskByte c (treq.sec * 512 + k)) ∧ P r.2.2 s') s := by
  induction fuel generalizing sector count buf d s with
  | zero => omega
  | succ fuel ih =>
    obtain ⟨hb, hs⟩ := hR.geometry d s hP
    simp only [pdReadCover, hs, Prog.bind_eq]
    rw [u64_of_lt (by omega)]
    by_cases hend : sector < treq.sec + treq.secs
    · have hblock : sector / 8 = treq.sec / 8 + count := by omega
      have hcast : toU64 (toInt ((sector : Int) / (8 : Nat))) = treq.sec / 8 + count := by
        have h1 : ((sector : Int) / (8 : Nat)) = ((treq.sec / 8 + count : Nat) : Int) := by
          rw [← hblock]; rfl
        rw [h1, toInt_of_lt (by omega), toU64_natCast (by omega)]
      rw [if_pos hend, hcast, if_pos (by rw [hbuf]; simp only [defaultSectorSize]; omega)]
      have hstart : count * (defaultSectorSize * 8) = count * 4096 := rfl
      rw [hstart]
      have hdrop : (buf.drop (count * 4096)).length = 8192 - count * 4096 := by
        rw [List.length_drop, hbuf]
      refine wp_seq (hR.reads d s (treq.sec / 8 + count) _ hP (by omega) (by rw [hdrop]; omega)) ?_
      rintro ⟨r, bytes, d1⟩ s1 ⟨rfl, hlen, -, hcont1, hP1⟩
      simp only at hlen hcont1 hP1 ⊢
      rw [if_neg (by decide), (hR.geometry d1 s1 hP1).2, u64_of_lt (by omega)]
      have htake : (buf.take (count * 4096)).length = count * 4096 := by
        rw [List.length_take, hbuf]; omega
      have hwhole : count * 4096 + (8192 - count * 4096) = 8192 :=
        Nat.add_sub_of_le (Nat.mul_le_mul_right 4096 (show count ≤ 2 by omega))
      have hlen' : (buf.take (count * 4096) ++ bytes).length = 8192 := by
        rw [List.length_append, htake, hlen, hdrop, hwhole]
      refine ih (by omega) (.inr ⟨by omega, by omega⟩) hlen' (fun hT k hk => ?_) hP1
      rw [byteAt_append, htake]
      split
      · rename_i h1
        rw [byteAt_take h1, hcont hT k h1]
      · rw [hcont1 hT _ (by omega)]
        exact (diskByte_eq (by omega) (by omega)).symm
    · rw [if_neg hend]
      refine ⟨rfl, hbuf, fun hT k hk => ?_, hP⟩
      have hpos : treq.sec / 8 * 4096 + (treq.sec % 8 * 512 + k) = treq.sec * 512 + k := by omega
      have hall : treq.sec % 8 + treq.secs ≤ 8 * count := by omega
      have hbound : treq.sec % 8 * 512 + k < count * 4096 := by omega
      rw [hcont hT _ hbound, hpos]

/-- **`pd_read`** delivers the bytes of the disk at the request's place. -/
theorem wp_pdRead (hn : n < 2 ^ 31) (hq : treq.Readable n) {J : Junk} {fuel : Nat}
    (hrb : readBlockOf J fuel d = readBlock) (hP : P d s) :
    wp L (pdRead J fuel d treq) (fun r s' => r.1 = 0 ∧ r.2.1.length = treq.secs * 512 ∧
      (T → ∀ k < treq.secs * 512, byteAt r.2.1 k = diskByte c (treq.sec * 512 + k)) ∧ P r.2.2 s') s := by
  obtain ⟨⟨hin, -⟩, hshape⟩ := hq
  obtain ⟨-, hs⟩ := hR.geometry d s hP
  simp only [pdRead, hs, hrb]
  rw [if_neg (by decide)]
  by_cases hal : treq.sec % 8 = 0 ∧ treq.secs % 8 = 0
  · rw [if_pos hal]
    refine wp_mono (wp_pdReadBlocks hR hn (i := 0) (by omega) hP) ?_
    rintro ⟨r, bytes, d'⟩ s' ⟨h0, hlen, hcont, hP'⟩
    refine ⟨h0, by rw [hlen]; omega, fun hT k hk => ?_, hP'⟩
    have hpos : (treq.sec / 8 + 0) * 4096 + k = treq.sec * 512 + k := by omega
    have hdiv : treq.secs / 8 * 8 = treq.secs := by omega
    have hbound : k < treq.secs / 8 * 4096 := by
      rw [← hdiv, Nat.mul_assoc] at hk
      exact hk
    rw [hcont hT k hbound, hpos]
  · rw [if_neg hal]
    have hs8 := hshape.resolve_left hal
    refine wp_seq (wp_pdReadCover hR hn hin hs8 (by omega) (.inl ⟨rfl, rfl⟩) (length_zeros _)
      (fun _ k hk => by omega) hP) ?_
    rintro ⟨r, buf, d'⟩ s' ⟨rfl, hlen, hcont, hP'⟩
    simp only at hlen hcont hP' ⊢
    have hfit : treq.sec % 8 * defaultSectorSize + treq.secs * defaultSectorSize ≤ buf.length := by
      rw [hlen]; simp only [defaultSectorSize]; omega
    rw [if_neg (by decide), copyFrom, if_pos hfit]
    refine ⟨rfl, length_slice_of_le hfit, fun hT k hk => ?_, hP'⟩
    simp only
    rw [byteAt_slice hk, hcont hT k hk]

end

end LogDrive
