import LogDrive.Reader.Record
import LogDrive.Driver.Proof.Codec

/-!
# The header of a record through its conversions

`ofBytes_header`: `preservationRecord` reads what the driver wrote. `ofBytes_key`: `ByteControl` reads
the key of a record, but takes four of the eight bytes of each number of the timestamp, so that the
second comes back exactly below `2 ^ 32` (`header_survives`).
-/

set_option autoImplicit false

open Bytes Java

namespace LogDrive

/-! ## Numbers -/

theorem long_toUInt64 (i : Int64) : long i.toUInt64.toNat = i.toInt :=
  (BitVec.toInt_eq_toNat_bmod i.toBitVec).symm

theorem toNat_toUInt64 {i : Int64} (h : 0 ≤ i.toInt) : (i.toUInt64.toNat : Int) = i.toInt := by
  have hl := long_toUInt64 i
  have hlt := i.toUInt64.toNat_lt
  rw [long, Int.bmod_def] at hl
  split at hl <;> omega

/-- The bytes of a block number. -/
theorem putInt_eq {b : Nat} (h : b < 2 ^ 31) : putInt b = le 8 b := by
  have hdiv : b / 256 ^ 4 = 0 := Nat.div_eq_of_lt (by omega)
  have hcast : ((b : Int) % 2 ^ 32).toNat = b := by omega
  rw [putInt, hcast, show 8 = 4 + 4 by rfl, le_add, hdiv, le_zero]

/-- The four low bytes of a number. -/
theorem longOf_low {m : Mem} {pos v : Nat} (h : slice m pos 8 = le 8 v) :
    longOf (slice m pos 4) = ((v % 2 ^ 32 : Nat) : Int) := by
  have hlow : slice m pos 4 = le 4 v := by
    have hslice := @slice_slice m pos 8 0 4 (by decide)
    rw [h, Nat.add_zero, show 8 = 4 + 4 by rfl, le_add] at hslice
    rw [← hslice]
    exact slice_mid [] _ _ rfl rfl (length_le 4 v)
  rw [hlow, longOf_eq, unle_le_mod, show 256 ^ 4 = 2 ^ 32 by decide, long_of_lt (by omega)]

/-! ## `preservationRecord` -/

/-- The constructor on the bytes that it looks at. -/
theorem ofBytes_eq {m : Mem} (hl : m.length = 27) : PreservationRecord.ofBytes m = .ok {
    dataSize := intOf (slice m 24 2)
    sec := longOf (slice m 0 8)
    nsec := longOf (slice m 8 8)
    nextOffset := decimalOf (slice m 16 8)
    flags := intOf (slice m 26 1)
    recordData := none
    recordHeader := m ++ zeros 5 } := by
  have hpad : tabulate (fun i => byteAt m (0 + i)) (32 - 0) = m ++ zeros 5 :=
    ext_byteAt (by rw [length_tabulate, List.length_append, hl, length_zeros]) fun i hi => by
      rw [length_tabulate] at hi
      rw [byteAt_tabulate hi, Nat.zero_add, byteAt_append]
      split
      · rfl
      · rw [byteAt_zeros, byteAt_of_le (by omega)]
  have hcopy := @copyOfRange_eq m 0 32 (Nat.zero_le _) (Nat.zero_le _)
  rw [hpad] at hcopy
  rw [PreservationRecord.ofBytes, if_neg (by rw [hl]; decide)]
  exact congrArg (· >>= _) hcopy

/-- A record as the driver wrote its header. -/
structure PreservationRecord.Of (h : EntryHeader) (r : PreservationRecord) : Prop where
  dataSize : r.dataSize = (h.dataSize : Int)
  sec : r.sec = h.ts.tvSec.toInt
  nsec : r.nsec = h.ts.tvNsec.toInt
  nextOffset : r.nextOffset = h.next
  recordHeader : r.recordHeader = slice h.toBytes 0 27 ++ zeros 5

/-- The 27 bytes of a header that the reader takes. -/
theorem length_headerRead {h : EntryHeader} (hp : h.pad.length = 6) : (slice h.toBytes 0 27).length = 27 :=
  length_slice_of_le (by rw [EntryHeader.length_toBytes, hp]; omega)

/-- **`preservationRecord`** reads what the driver wrote. -/
theorem ofBytes_header {h : EntryHeader} (hs : h.dataSize < 2 ^ 16) (hn : h.next < 2 ^ 64) (hp : h.pad.length = 6) :
    ∃ r, PreservationRecord.ofBytes (slice h.toBytes 0 27) = .ok r ∧ r.Of h := by
  have hlen := length_headerRead hp
  obtain ⟨h1, h2, h3, h4, -⟩ := EntryHeader.slice_toBytes hp
  have hsub : ∀ {a k : Nat} {bs : Mem}, a + k ≤ 27 → slice h.toBytes a k = bs → slice (slice h.toBytes 0 27) a k = bs :=
    fun hk hbs => by rw [slice_slice hk, Nat.zero_add, hbs]
  refine ⟨_, ofBytes_eq hlen, ?_, ?_, ?_, ?_, rfl⟩
  · dsimp only
    rw [hsub (by decide) h4, intOf_eq, unle_le (by omega), int_of_lt (by omega)]
  · dsimp only
    rw [hsub (by decide) h1, longOf_eq, encodeInt64, unle_le h.ts.tvSec.toUInt64.toNat_lt, long_toUInt64]
  · dsimp only
    rw [hsub (by decide) h2, longOf_eq, encodeInt64, unle_le h.ts.tvNsec.toUInt64.toNat_lt, long_toUInt64]
  · dsimp only
    rw [hsub (by decide) h3, decimalOf_eq, unle_le (by omega)]

/-! ## The key -/

/-- The key of a record: the 16 bytes of the timestamp, 8 of the block number and 8 with the size. -/
def keyBytes (h : EntryHeader) (b : Nat) : Mem :=
  encodeInt64 h.ts.tvSec ++ (encodeInt64 h.ts.tvNsec ++ (le 8 b ++ (le 2 h.dataSize ++ (slice h.pad 0 1 ++ zeros 5))))

theorem length_keyBytes {h : EntryHeader} (hp : h.pad.length = 6) (b : Nat) : (keyBytes h b).length = 32 := by
  simp [keyBytes, length_slice, hp]

theorem getHeader_eq {h : EntryHeader} (hp : h.pad.length = 6) {r : PreservationRecord} (hr : r.Of h) {b : Nat}
    (hb : b < 2 ^ 31) : r.getHeader b = keyBytes h b := by
  obtain ⟨h1, h2, -, h4, h5⟩ := EntryHeader.slice_toBytes hp
  have hlen := length_headerRead hp
  have hts : slice (slice h.toBytes 0 27 ++ zeros 5) 0 16 = encodeInt64 h.ts.tvSec ++ encodeInt64 h.ts.tvNsec := by
    rw [slice_append_left (by omega), slice_slice (by decide), ← h1, ← h2]
    exact slice_add h.toBytes 0 8 8
  have hflag : slice h.toBytes 26 1 = slice h.pad 0 1 := by
    rw [← h5, slice_slice (by decide)]
  have hsize : slice (slice h.toBytes 0 27 ++ zeros 5) 24 8 = le 2 h.dataSize ++ (slice h.pad 0 1 ++ zeros 5) := by
    have hend := @slice_append_right (slice h.toBytes 0 27) (zeros 5) 0 5
    rw [hlen] at hend
    rw [show 8 = 2 + (1 + 5) by rfl, slice_add, slice_add, hend, slice_append_left (by omega),
      slice_append_left (by omega), slice_slice (by decide), slice_slice (by decide), Nat.zero_add, Nat.zero_add,
      h4, hflag]
    rfl
  rw [PreservationRecord.getHeader, hr.recordHeader, hts, hsize, putInt_eq hb, keyBytes]
  simp only [List.append_assoc]

/-! ## `ByteControl` -/

/-- What `ByteControl` makes of the key of a record. -/
structure ByteControl.Of (h : EntryHeader) (b : Nat) (bc : ByteControl) : Prop where
  dataSize : bc.dataSize = (h.dataSize : Int)
  minSector : bc.minSector = getMinSectorNum h.dataSize
  sec : bc.sec = ((h.ts.tvSec.toUInt64.toNat % 2 ^ 32 : Nat) : Int)
  nsec : bc.nsec = ((h.ts.tvNsec.toUInt64.toNat % 2 ^ 32 : Nat) : Int)
  blockNum : bc.blockNum = b

/-- `ByteControl` on a key, which may be followed by other bytes. -/
theorem ofBytes_key {h : EntryHeader} (hs : h.dataSize < 2 ^ 16) {b : Nat} (hb : b < 2 ^ 64) (rest : Mem) :
    ∃ bc, ByteControl.ofBytes (keyBytes h b ++ rest) = .ok bc ∧ bc.Of h b := by
  generalize hm : keyBytes h b ++ rest = m
  have hmk := hm
  simp only [keyBytes, List.append_assoc] at hmk
  have h1 : slice m 0 8 = le 8 h.ts.tvSec.toUInt64.toNat := slice_mid [] _ _ hmk.symm rfl (length_le ..)
  have h2 : slice m 8 8 = le 8 h.ts.tvNsec.toUInt64.toNat :=
    slice_mid (encodeInt64 h.ts.tvSec) _ _ hmk.symm (length_encodeInt64 _) (length_le ..)
  have h3 : slice m 16 8 = le 8 b :=
    slice_mid (encodeInt64 h.ts.tvSec ++ encodeInt64 h.ts.tvNsec) _ _ (by rw [← hmk, List.append_assoc]) (by simp)
      (length_le ..)
  have h4 : slice m 24 2 = le 2 h.dataSize :=
    slice_mid (encodeInt64 h.ts.tvSec ++ encodeInt64 h.ts.tvNsec ++ le 8 b) _ (slice h.pad 0 1 ++ (zeros 5 ++ rest))
      (by rw [← hmk]; simp only [List.append_assoc]) (by simp) (length_le ..)
  have hlen : 26 ≤ m.length := by rw [← hmk]; simp; omega
  have hsize : intOf (slice m 24 2) = h.dataSize := by
    rw [h4, intOf_eq, unle_le (by omega), int_of_lt (by omega)]
  rw [ByteControl.ofBytes, if_neg (by omega)]
  refine ⟨_, rfl, hsize, ?_, longOf_low h1, longOf_low h2, ?_⟩
  · dsimp only
    rw [hsize]
  · dsimp only
    rw [h3, decimalOf_eq, unle_le (by omega)]

/-- `ByteControl` on the text of the values. -/
theorem ofText_valueText {bc : ByteControl} {sec nsec size : Nat} (h1 : bc.sec = sec) (h2 : bc.nsec = nsec)
    (h4 : bc.dataSize = size) (hs : size < 2 ^ 31) : ByteControl.ofText bc.valueText =
      .ok { dataSize := size, minSector := getMinSectorNum size, sec := 0, nsec := 0, blockNum := 0 } := by
  have hcomma : ∀ n : Nat, ',' ∉ valueOf n := fun n => not_mem_valueOf (by decide)
  have htoken : ∀ (n : Nat) (rest : Text), nextToken ',' (valueOf n ++ ',' :: rest) = .ok (valueOf n, ',' :: rest) :=
    fun n rest => nextToken_append (valueOf_ne_nil n) (hcomma n) (.inr rfl)
  have hlast : nextToken ',' (valueOf size) = .ok (valueOf size, []) := by
    have := @nextToken_append ',' _ [] (valueOf_ne_nil size) (hcomma size) (.inl rfl)
    rwa [List.append_nil] at this
  rw [ByteControl.ofText, ByteControl.valueText, h1, h2, h4, htoken]
  simp only [bind, Except.bind, nextToken_delim, htoken, hlast, parseInt_valueOf (show -2 ^ 31 ≤ (size : Int) by omega)
    (by omega)]
  rfl

/-! ## All conversions -/

/-- A header decoded by `preservationRecord`, encoded by `getHeader` as a key of block `b` and decoded by
`ByteControl` keeps its values, and so does the text that `hashIndex` makes of them. -/
def HeaderSurvives (h : EntryHeader) (b : Nat) : Prop :=
  ∃ record bc line, PreservationRecord.ofBytes (slice h.toBytes 0 entryHeaderLength) = .ok record ∧
    ByteControl.ofBytes (record.getHeader b) = .ok bc ∧ ByteControl.ofText bc.valueText = .ok line ∧
    (record.sec = h.ts.tvSec.toInt ∧ record.nsec = h.ts.tvNsec.toInt ∧ record.dataSize = h.dataSize) ∧
    (bc.sec = h.ts.tvSec.toInt ∧ bc.nsec = h.ts.tvNsec.toInt ∧ bc.blockNum = b ∧ bc.dataSize = h.dataSize) ∧
    line.dataSize = bc.dataSize ∧ line.minSector = bc.minSector

/-- **The header of a record survives** its conversions exactly when its second is below `2 ^ 32`. -/
theorem header_survives {h : EntryHeader} (hsec : 0 ≤ h.ts.tvSec.toInt)
    (hnsec : 0 ≤ h.ts.tvNsec.toInt ∧ h.ts.tvNsec.toInt < 10 ^ 9) (hsize : h.dataSize ≤ 4096) (hnext : h.next < 2 ^ 64)
    (hp : h.pad.length = 6) {b : Nat} (hb : b < 2 ^ 31) : HeaderSurvives h b ↔ h.ts.tvSec.toInt < 2 ^ 32 := by
  have hs : h.dataSize < 2 ^ 16 := by omega
  obtain ⟨record, hrecord, hr⟩ := ofBytes_header hs hnext hp
  obtain ⟨bc, hbc, hk⟩ := ofBytes_key hs (show b < 2 ^ 64 by omega) []
  rw [List.append_nil, ← getHeader_eq hp hr hb] at hbc
  have hs1 := toNat_toUInt64 hsec
  have hs2 := toNat_toUInt64 hnsec.1
  constructor
  · rintro ⟨record', bc', _, h1, h2, -, -, ⟨hsec', -⟩, -⟩
    obtain rfl : record' = record := Except.ok.inj (h1.symm.trans hrecord)
    obtain rfl : bc' = bc := Except.ok.inj (h2.symm.trans hbc)
    rw [hk.sec] at hsec'
    omega
  · intro hlt
    have htext := ofText_valueText hk.sec hk.nsec hk.dataSize (by omega)
    refine ⟨record, bc, _, hrecord, hbc, htext, ⟨hr.sec, hr.nsec, hr.dataSize⟩, ⟨?_, ?_, hk.blockNum, hk.dataSize⟩,
      hk.dataSize.symm, hk.minSector.symm⟩
    · rw [hk.sec]; omega
    · rw [hk.nsec]; omega

/-- The header of a record of one whole block. -/
def plainHeader (sec : Int64) : EntryHeader := ⟨⟨sec, 0⟩, 0, 4096, zeros 6⟩

theorem header_survives_plain : HeaderSurvives (plainHeader 1459382400) 0 :=
  (header_survives (by decide) (by decide) (by decide) (by decide) (by decide) (by decide)).2 (by decide)

/-- In the second `2 ^ 32`, of the year 2106, `ByteControl` gives the second 0. -/
theorem header_lost : ¬ ∀ (h : EntryHeader) (b : Nat), 0 ≤ h.ts.tvSec.toInt → 0 ≤ h.ts.tvNsec.toInt →
    h.ts.tvNsec.toInt < 10 ^ 9 → h.dataSize ≤ 4096 → h.next < 2 ^ 64 → h.pad.length = 6 → b < 2 ^ 31 →
    HeaderSurvives h b := by
  intro h
  obtain ⟨record, bc, _, h1, h2, -, -, ⟨hsec, -⟩, -⟩ := h (plainHeader 4294967296) 0 (by decide) (by decide)
    (by decide) (by decide) (by decide) (by decide) (by decide)
  obtain ⟨record', hrecord, hr⟩ := @ofBytes_header (plainHeader 4294967296) (by decide) (by decide) (by decide)
  obtain rfl : record' = record := Except.ok.inj (hrecord.symm.trans h1)
  obtain ⟨bc', hbc, hk⟩ := @ofBytes_key (plainHeader 4294967296) (by decide) 0 (by decide) []
  rw [List.append_nil, ← getHeader_eq (by decide) hr (by decide)] at hbc
  obtain rfl : bc' = bc := Except.ok.inj (hbc.symm.trans h2)
  rw [hk.sec] at hsec
  revert hsec
  decide

end LogDrive
