import LogDrive.Driver.Proof.Address

/-!
# The address range of the driver

`addresses_agree`: the block-aligned path of `pd_read`, its other path and `pd_write` go to the same
blocks exactly for requests below block `2 ^ 31`. Past it the aligned path computes the block in 64
bits and the other two cut it to an `int`.

What a request reads and writes then follows from the blocks alone: `readAligned_delivers` and
`readCovered_delivers` for the two paths of `pd_read`, `storePieces_apply` for `pd_write`.
-/

set_option autoImplicit false

open Bytes

namespace LogDrive

/-! ## Reading blocks -/

section
variable {c : Nat → Mem} {B : Nat} (hc : ∀ b, (c b).length = B)
include hc

theorem flatMap_blocks (n : Nat) : ∀ a, (List.range' a n).flatMap c =
    tabulate (fun k => byteAt (c (a + k / B)) (k % B)) (n * B) := by
  induction n with
  | zero => intro a; simp [tabulate]
  | succ n ih =>
    intro a
    have hfirst : tabulate (fun k => byteAt (c (a + k / B)) (k % B)) B = c a :=
      ext_byteAt (by rw [length_tabulate, hc]) fun i hi => by
        rw [length_tabulate] at hi
        rw [byteAt_tabulate hi, Nat.div_eq_of_lt hi, Nat.mod_eq_of_lt hi, Nat.add_zero]
    rw [List.range'_succ, List.flatMap_cons, ih, Nat.add_mul, Nat.one_mul, Nat.add_comm (n * B), tabulate_add, hfirst]
    congr 2
    funext k
    rcases Nat.eq_zero_or_pos B with rfl | hB
    · rw [byteAt_of_le (by rw [hc]; exact Nat.zero_le _), byteAt_of_le (by rw [hc]; exact Nat.zero_le _)]
    · rw [Nat.add_div_left k hB, Nat.add_mod_left, show a + 1 + k / B = a + (k / B).succ by omega]

theorem readAligned_delivers {q : TdRequest} {disk : PreservationDisk} (hblock : disk.header.blockSize = B)
    (n : Nat) : ∀ a i, readAligned (delivers c) q (List.range' a n) i disk =
      .ret (0, (List.range' a n).flatMap c, disk) := by
  induction n with
  | zero => exact fun _ _ => rfl
  | succ n ih =>
    intro a i
    rw [List.range'_succ, readAligned, hblock, delivers, if_pos (by rw [length_tabulate, hc]),
      store_all (by rw [length_tabulate, hc])]
    simp only [Prog.bind_eq, Prog.ret_bind, ih]
    rfl

/-- The blocks lie one after the other in the buffer, from the `k`th place on. -/
theorem readCovered_delivers {spb : Nat} (hB : B = 512 * spb) {disk : PreservationDisk} (n : Nat) :
    ∀ a k buf, (k + n) * B ≤ buf.length → ∃ out,
      readCovered (delivers c) spb (List.range' a n) disk k buf = .ret (0, out, disk) ∧ out.length = buf.length ∧
      (∀ i < k * B, byteAt out i = byteAt buf i) ∧
      ∀ i < n * B, byteAt out (k * B + i) = byteAt (c (a + i / B)) (i % B) := by
  induction n with
  | zero => exact fun _ _ buf _ => ⟨buf, rfl, rfl, fun _ _ => rfl, fun i hi => by simp at hi⟩
  | succ n ih =>
    intro a k buf hbuf
    have hca := hc a
    have hkn : (k + (n + 1)) * B = k * B + n * B + B := by rw [Nat.add_mul, Nat.add_mul, Nat.one_mul]; omega
    have hk1 : (k + 1) * B = k * B + B := by rw [Nat.add_mul, Nat.one_mul]
    have hn1 : (n + 1) * B = n * B + B := by rw [Nat.add_mul, Nat.one_mul]
    rw [hkn] at hbuf
    have hlen : (store buf (k * B) (c a)).length = buf.length := length_store_of_le (by omega)
    have hnext : (k + 1 + n) * B ≤ (store buf (k * B) (c a)).length := by rw [hlen, Nat.add_mul, hk1]; omega
    obtain ⟨out, hrun, hol, hlow, hhigh⟩ := ih (a + 1) (k + 1) (store buf (k * B) (c a)) hnext
    refine ⟨out, ?_, hol.trans hlen, fun i hi => ?_, fun i hi => ?_⟩
    · simp only [List.range'_succ, readCovered, defaultSectorSize, ← hB]
      rw [if_pos (by omega), delivers, if_pos (by rw [List.length_drop, hc]; omega)]
      simp only [Prog.bind_eq, Prog.ret_bind, take_append_store (show k * B + (c a).length ≤ buf.length by omega)]
      exact hrun
    · rw [hlow i (by omega), byteAt_store_outside (.inl hi)]
    · by_cases hi' : i < B
      · rw [hlow _ (by omega), byteAt_store_inside (by omega) (by omega), Nat.div_eq_of_lt hi', Nat.mod_eq_of_lt hi',
          Nat.add_sub_cancel_left, Nat.add_zero]
      · obtain ⟨j, rfl⟩ : ∃ j, i = B + j := ⟨i - B, by omega⟩
        have hpos : 0 < B := by
          rcases Nat.eq_zero_or_pos B with rfl | h
          · simp at hi
          · exact h
        have := hhigh j (by omega)
        rw [hk1, Nat.add_assoc] at this
        rw [this, Nat.add_div_left j hpos, Nat.add_mod_left, show a + 1 + j / B = a + (j / B).succ by omega]

end

theorem delivers_keeps (c : Nat → Mem) : (delivers c).Keeps := by
  intro d buf b
  rw [delivers]
  split
  · rfl
  · trivial

/-! ## The bytes of a request -/

/-- Where byte `k` of a request lies in the blocks from its first one on. -/
theorem request_byte {spb : Nat} (hspb : 0 < spb) (q : TdRequest) (k : Nat) :
    (q.sec * 512 + k) / (512 * spb) = q.sec / spb + (q.sec % spb * 512 + k) / (512 * spb) ∧
    (q.sec * 512 + k) % (512 * spb) = (q.sec % spb * 512 + k) % (512 * spb) := by
  have hsum : q.sec * 512 + k = q.sec % spb * 512 + k + 512 * spb * (q.sec / spb) := by
    have := congrArg (512 * ·) (Nat.div_add_mod q.sec spb)
    simp only [Nat.mul_add, ← Nat.mul_assoc] at this
    omega
  rw [hsum, Nat.add_mul_div_left _ _ (by omega), Nat.add_mul_mod_self_left]
  exact ⟨Nat.add_comm _ _, rfl⟩

section
variable {spb : Nat} (hspb : spb = 1 ∨ spb = 2 ∨ spb = 4 ∨ spb = 8) {c : Nat → Mem}
  (hc : ∀ b, (c b).length = 512 * spb) {disk : PreservationDisk} (hsectors : disk.sectorsPerBlock = spb)
include hspb hc hsectors

/-- The aligned path. -/
theorem pdReadBlocks_delivers {q : TdRequest} (hwrap : q.sec + q.secs + spb < 2 ^ 64)
    (hblock : disk.header.blockSize = 512 * spb) (hsec : q.sec % spb = 0) (hsecs : q.secs % spb = 0) :
    pdReadBlocks (delivers c) q (q.secs / spb) 0 disk = .ret (0, diskBytes c spb q, disk) := by
  have hpos : 0 < spb := by omega
  have halign := alignedBlocks_eq hpos hwrap hsec hsecs
  have hrange : q.blocks spb = List.range' (q.sec / spb) (q.secs / spb) := by
    rw [← halign, alignedBlocks, List.range'_eq_map_range]
    refine List.map_congr_left fun i hi => u64_of_lt ?_
    have h1 := Nat.div_le_self q.sec spb
    have h2 := Nat.div_le_self q.secs spb
    have := List.mem_range.1 hi
    omega
  rw [pdReadBlocks_eq (delivers_keeps c) _ _ _ hsectors, ← List.range_eq_range', ← alignedBlocks, halign, hrange,
    readAligned_delivers hc hblock, flatMap_blocks hc, diskBytes]
  have hlen : q.secs / spb * (512 * spb) = q.secs * 512 := by
    have := Nat.div_mul_cancel (Nat.dvd_of_mod_eq_zero hsecs)
    rw [Nat.mul_left_comm, this, Nat.mul_comm]
  rw [hlen]
  congr 3
  refine congrArg (tabulate · _) (funext fun k => ?_)
  obtain ⟨h1, h2⟩ := request_byte hpos q k
  rw [h1, h2, hsec, Nat.zero_mul, Nat.zero_add]

/-- The other path. -/
theorem pdReadUnaligned_delivers {q : TdRequest} (hwrap : q.sec + q.secs + spb < 2 ^ 64)
    (hint : ∀ b ∈ q.blocks spb, b < 2 ^ 31) (hsecs : q.secs ≤ 8) :
    pdReadUnaligned (delivers c) q disk = .ret (0, diskBytes c spb q, disk) := by
  have hpos : 0 < spb := by omega
  unfold pdReadUnaligned
  simp only [hsectors]
  rw [pdReadCover_eq (delivers_keeps c) hsectors (coverBlocks_eq hpos hwrap hint), TdRequest.blocks, blocksFrom]
  have hmod := Nat.mod_lt q.sec hpos
  rcases Nat.eq_zero_or_pos q.secs with h0 | h0
  · rw [if_neg (by omega)]
    simp only [readCovered, Prog.pure_eq, Prog.bind_eq, Prog.ret_bind, copyFrom, length_zeros, diskBytes, h0]
    rw [if_neg (by decide), if_pos (by simp only [defaultSectorSize, defaultBlockSize]; omega)]
    simp [tabulate]
  · obtain ⟨hfit, hin⟩ := @blocks_fit spb q.sec _ hpos (by omega) (by omega) hsecs h0
    rw [if_pos (by omega)]
    generalize (q.sec + q.secs - 1) / spb + 1 - q.sec / spb = n at hfit hin
    obtain ⟨out, hrun, hlen, -, hbytes⟩ := @readCovered_delivers _ _ hc _ rfl disk n (q.sec / spb) 0
      (zeros (defaultBlockSize * 2)) (by rw [Nat.zero_add, length_zeros]; exact hfit)
    rw [hrun]
    rw [length_zeros] at hlen
    simp only [Prog.pure_eq, Prog.bind_eq, Prog.ret_bind, copyFrom, defaultSectorSize]
    rw [if_neg (by decide), if_pos (by omega)]
    have hslice : slice out (q.sec % spb * 512) (q.secs * 512) = diskBytes c spb q :=
      ext_byteAt (by rw [length_slice_of_le (by omega), diskBytes, length_tabulate]) fun k hk => by
        rw [length_slice_of_le (by omega)] at hk
        have := hbytes (q.sec % spb * 512 + k) (by omega)
        rw [Nat.zero_mul, Nat.zero_add] at this
        obtain ⟨h1, h2⟩ := request_byte hpos q k
        rw [byteAt_slice hk, this, diskBytes, byteAt_tabulate hk, h1, h2]
    rw [hslice]
    rfl

omit hspb hc hsectors in
/-- A part of a request has blocks of the request. -/
theorem blocks_part {q p : TdRequest} (h : p.sec = q.sec ∧ p.secs ≤ q.secs ∨
    q.sec ≤ p.sec ∧ p.sec + p.secs = q.sec + q.secs) {b : Nat} (hb : b ∈ p.blocks spb) : b ∈ q.blocks spb := by
  obtain ⟨h1, h2, h3⟩ := mem_blocksFrom.1 hb
  refine mem_blocksFrom.2 ⟨by omega, Nat.le_trans (Nat.div_le_div_right (by omega)) h2, ?_⟩
  exact Nat.le_trans h3 (Nat.div_le_div_right (by omega))

/-- The parts of a request read one after the other. -/
theorem readParts_delivers : ∀ {cuts : List Nat} {q : TdRequest}, q.sec + q.secs + spb < 2 ^ 64 →
    (∀ b ∈ q.blocks spb, b < 2 ^ 31) → q.secs ≤ 8 → cuts.sum = q.secs →
    readParts (delivers c) (q.parts cuts) disk = .ret (0, diskBytes c spb q, disk)
  | [], q, _, _, _, hsum => by
    simp only [TdRequest.parts, readParts, diskBytes, ← show 0 = q.secs from hsum]
    rfl
  | k :: ks, q, hwrap, hint, hsecs, hsum => by
    rw [List.sum_cons] at hsum
    have hfirst := pdReadUnaligned_delivers hspb hc hsectors (q := { q with secs := k }) (by simp only; omega)
      (fun b hb => hint b (blocks_part (q := q) (p := { q with secs := k }) (.inl ⟨rfl, by simp only; omega⟩) hb))
      (by simp only; omega)
    have hsum' : ks.sum = q.secs - k := by omega
    have hrest := readParts_delivers (q := ⟨q.sec + k, q.secs - k, fun i => q.buf (i + (k * 512 : Nat))⟩)
      (by simp only; omega)
      (fun b hb => hint b (blocks_part (q := q) (.inr ⟨by simp only; omega, by simp only; omega⟩) hb))
      (by simp only; omega) hsum'
    simp only [TdRequest.parts, readParts, Prog.bind_eq, hfirst, Prog.ret_bind]
    rw [if_neg (by decide), hrest]
    have hbytes : diskBytes c spb { q with secs := k } ++
        diskBytes c spb ⟨q.sec + k, q.secs - k, fun i => q.buf (i + (k * 512 : Nat))⟩ = diskBytes c spb q := by
      simp only [diskBytes]
      rw [show q.secs * 512 = k * 512 + (q.secs - k) * 512 by omega, tabulate_add]
      simp only [Nat.add_mul, Nat.add_assoc]
    simp only [Prog.ret_bind, Prog.pure_eq, hbytes]

end

/-! ## Writing blocks -/

theorem storePieces_apply {spb : Nat} {q : TdRequest} {b : Nat} : ∀ {bs : List Nat} {c : Nat → Mem}, bs.Nodup →
    storePieces q (bs.map (q.piece spb)) c b =
      if b ∈ bs then store (c b) (q.piece spb b).start (q.source (q.piece spb b).done (q.piece spb b).size) else c b
  | [], _, _ => rfl
  | a :: bs, c, h => by
    obtain ⟨ha, hbs⟩ := List.nodup_cons.1 h
    rw [List.map_cons, storePieces, storePieces_apply hbs]
    by_cases hab : b = a
    · subst hab
      rw [if_neg ha, if_pos List.mem_cons_self]
      exact Function.update_self ..
    · have hmem : b ∈ a :: bs ↔ b ∈ bs := by simp [hab]
      have hsame : (q.piece spb a).block = a := rfl
      rw [hsame, Function.update_of_ne hab]
      simp only [hmem]

theorem nodup_blocks (spb : Nat) (q : TdRequest) : (q.blocks spb).Nodup := by
  unfold TdRequest.blocks blocksFrom
  split
  · exact List.nodup_range'
  · exact List.nodup_nil

/-- A byte of the disk after a write request. -/
theorem storePieces_byte {spb : Nat} (hspb : 0 < spb) {q : TdRequest} (hsecs : q.secs ≤ 2 ^ 22) (c : Nat → Mem) (x : Nat) :
    byteAt (storePieces q (q.pieces spb) c (x / (512 * spb))) (x % (512 * spb)) =
      q.over x (byteAt (c (x / (512 * spb))) (x % (512 * spb))) := by
  have hblock : x / (512 * spb) = x / 512 / spb := (Nat.div_div_eq_div_mul ..).symm
  obtain ⟨hlo, hhi⟩ := sector_bounds hspb (x / 512)
  have hoff : x % (512 * spb) + x / 512 / spb * spb * 512 = x := by
    have := Nat.div_add_mod x (512 * spb)
    rw [hblock, Nat.mul_assoc, Nat.mul_comm, Nat.mul_comm spb] at this
    omega
  rw [TdRequest.pieces, storePieces_apply (nodup_blocks spb q), hblock]
  have hmem : x / 512 / spb ∈ q.blocks spb ↔ q.sec < q.sec + q.secs ∧ q.sec / spb ≤ x / 512 / spb ∧
      x / 512 / spb ≤ (q.sec + q.secs - 1) / spb := mem_blocksFrom
  have hin : q.Covers (x / 512) → x / 512 / spb ∈ q.blocks spb := fun ⟨h1, h2⟩ =>
    hmem.2 ⟨by omega, Nat.div_le_div_right h1, Nat.div_le_div_right (by omega)⟩
  generalize x / 512 / spb = b at hlo hhi hoff hmem hin
  unfold TdRequest.over
  by_cases hcov : q.Covers (x / 512)
  · obtain ⟨h1, h2⟩ := hcov
    rw [if_pos (hin ⟨h1, h2⟩), if_pos ⟨h1, h2⟩]
    have hlow : (q.piece spb b).start ≤ x % (512 * spb) := by simp only [TdRequest.piece]; omega
    have hhigh : x % (512 * spb) < (q.piece spb b).start + (q.piece spb b).size := by simp only [TdRequest.piece]; omega
    have hdone : (((q.piece spb b).done : Int) * (defaultSectorSize : Nat)) =
        (((q.piece spb b).done * 512 : Nat) : Int) := by push_cast; rfl
    have hsmall : (q.piece spb b).done * 512 < 2 ^ 31 := by simp only [TdRequest.piece]; omega
    have hplace : (q.piece spb b).done * 512 + (x % (512 * spb) - (q.piece spb b).start) = x - q.sec * 512 := by
      simp only [TdRequest.piece]; omega
    rw [TdRequest.source, byteAt_store_inside hlow (by rw [length_tabulate]; exact hhigh), byteAt_tabulate (by omega), hdone,
      toInt_of_lt hsmall]
    rw [← Nat.cast_add, hplace]
  · rw [if_neg hcov]
    split
    · refine byteAt_store_outside ?_
      rw [TdRequest.source, length_tabulate]
      simp only [TdRequest.piece]
      rw [TdRequest.Covers] at hcov
      omega
    · rfl

/-! ## The three computations -/

theorem blocks_bound {spb : Nat} (hspb : 0 < spb) {q : TdRequest} :
    (∀ b ∈ q.blocks spb, b < 2 ^ 31) ↔ q.secs = 0 ∨ q.sec + q.secs ≤ 2 ^ 31 * spb := by
  constructor
  · intro h
    rcases Nat.eq_zero_or_pos q.secs with h0 | h0
    · exact .inl h0
    · have hlast := h ((q.sec + q.secs - 1) / spb)
        (mem_blocksFrom.2 ⟨by omega, Nat.div_le_div_right (by omega), Nat.le_refl _⟩)
      have := (Nat.div_lt_iff_lt_mul hspb).1 hlast
      exact .inr (by omega)
  · intro h b hb
    obtain ⟨h1, -, h3⟩ := mem_blocksFrom.1 hb
    refine Nat.lt_of_le_of_lt h3 ((Nat.div_lt_iff_lt_mul hspb).2 ?_)
    omega

/-- **The three address computations agree** exactly on the requests below block `2 ^ 31`. -/
theorem addresses_agree {spb diskSize : Nat} (hspb : spb = 1 ∨ spb = 2 ∨ spb = 4 ∨ spb = 8) (hsize : diskSize < 2 ^ 64)
    {q : TdRequest} (hin : q.sec + q.secs ≤ diskSize / 512) :
    AddressesAgree spb q ↔ q.secs = 0 ∨ q.sec + q.secs ≤ 2 ^ 31 * spb := by
  have hpos : 0 < spb := by omega
  have hwrap : q.sec + q.secs + spb < 2 ^ 64 := by omega
  rw [← blocks_bound hpos]
  constructor
  · intro h b hb
    obtain ⟨s, hs⟩ := mem_coverBlocks h.cover hb
    -- the number of an `int` that is negative is past the end of any disk
    have hle := (mem_blocksFrom.1 hb).2.2
    have hdiv : (q.sec + q.secs - 1) / spb ≤ q.sec + q.secs - 1 := Nat.div_le_self _ _
    have hrange := blockOf_range spb s
    rw [← hs] at hrange
    omega
  · intro hint
    exact {
      cover := coverBlocks_eq hpos hwrap hint
      write := writePieces_eq hpos hwrap hint
      aligned := alignedBlocks_eq hpos hwrap
      loops := fun J fuel d disk ts pad buf hd => by
        refine ⟨pdReadCover_eq (readBlockOf_keeps J fuel d) hd (coverBlocks_eq hpos hwrap hint),
          pdWriteLoop_eq (q := ⟨q, ts, pad⟩) (by omega) hd (writePieces_eq hpos hwrap hint), fun h1 h2 => ?_⟩
        rw [pdReadBlocks_eq (readBlockOf_keeps J fuel d) _ _ _ hd, ← List.range_eq_range', ← alignedBlocks,
          alignedBlocks_eq hpos hwrap h1 h2]
      reads := fun c disk hc hd hblock h1 h2 h8 =>
        ⟨pdReadBlocks_delivers hspb hc hd hwrap hblock h1 h2, fun cuts => readParts_delivers hspb hc hd hwrap hint h8⟩
      seen := fun hsecs c p k hc hk => by
        rw [diskBytes, byteAt_tabulate hk, storePieces_byte hpos hsecs, diskBytes, byteAt_tabulate hk] }

theorem addresses_agree_page : AddressesAgree 8 ⟨2 ^ 34 - 8, 8, fun _ => 0⟩ :=
  (@addresses_agree 8 (2 ^ 44) (.inr (.inr (.inr rfl))) (by omega) ⟨2 ^ 34 - 8, 8, fun _ => 0⟩
    (by simp only; omega)).2 (.inr (by simp only; omega))

/-- The first sector past block `2 ^ 31` of a disk of 16 TiB. -/
theorem addresses_disagree : ¬ ∀ spb diskSize (q : TdRequest), (spb = 1 ∨ spb = 2 ∨ spb = 4 ∨ spb = 8) →
    diskSize < 2 ^ 64 → 512 * spb ∣ diskSize → q.sec + q.secs ≤ diskSize / 512 → AddressesAgree spb q := by
  intro h
  have hcover := (h 8 (2 ^ 44) ⟨2 ^ 34, 1, fun _ => 0⟩ (.inr (.inr (.inr rfl))) (by omega) (by omega)
    (by simp only; omega)).cover
  obtain ⟨s, hs⟩ := mem_coverBlocks hcover (b := 2 ^ 31) (mem_blocksFrom.2 (by simp only; omega))
  rcases blockOf_range 8 s with h1 | h1 <;> omega

end LogDrive
