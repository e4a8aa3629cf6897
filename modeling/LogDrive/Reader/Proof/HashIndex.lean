import LogDrive.Reader.Hash
import LogDrive.Reader.Proof.Record

/-!
# What the mapper of `hashIndex` writes

`hashMap_eq`: the hashes of the first sectors of the block that it copies from the array of the value,
as many as `ByteControl` counts. The array may hold bytes of earlier records behind the value;
`records_independent` is the exact condition for them not to show.
-/

set_option autoImplicit false

open Bytes Java

namespace LogDrive

/-! ## Hashes as texts -/

theorem length_toEncryptedString (bytes : Mem) : (toEncryptedString bytes).length = 2 * bytes.length := by
  induction bytes with
  | nil => rfl
  | cons b bs ih =>
    simp only [toEncryptedString, List.flatMap_cons, List.length_append, List.length_cons, List.length_nil] at ih ⊢
    omega

theorem digitChar_ne_comma : ∀ n < 16, Nat.digitChar n ≠ ',' := by decide

theorem comma_not_mem_toEncryptedString (bytes : Mem) : ',' ∉ toEncryptedString bytes := by
  intro h
  obtain ⟨b, -, hb⟩ := List.mem_flatMap.1 h
  have := b.toNat_lt
  simp only [List.mem_cons, List.not_mem_nil, or_false] at hb
  rcases hb with hb | hb
  · exact digitChar_ne_comma _ (by omega) hb.symm
  · exact digitChar_ne_comma _ (by omega) hb.symm

theorem MD5.length_toHashValue (md5 : MD5) (bytes : Mem) : (md5.toHashValue bytes).length = 32 := by
  rw [MD5.toHashValue, length_toEncryptedString, md5.length]

theorem MD5.toHashValue_ne_nil (md5 : MD5) (bytes : Mem) : md5.toHashValue bytes ≠ [] := fun h => by
  have := md5.length_toHashValue bytes
  rw [h] at this
  cases this

/-- The hashes after the first one, as they stand in a key. -/
def following (hashes : List Text) : Text := hashes.flatMap fun hash => ',' :: hash

theorem intercalate_cons (hash : Text) (hashes : List Text) :
    [','].intercalate (hash :: hashes) = hash ++ following hashes := by
  induction hashes generalizing hash with
  | nil => simp [List.intercalate, following]
  | cons h hs ih =>
    have := ih h
    simp only [List.intercalate, following, List.intersperse_cons_cons, List.flatten_cons, List.flatMap_cons] at this ⊢
    rw [this]
    simp

/-- Keys of as many hashes of one length are equal when the hashes are. -/
theorem following_injective {k : Nat} : ∀ {as bs : List Text}, (∀ h ∈ as, h.length = k) → (∀ h ∈ bs, h.length = k) →
    as.length = bs.length → following as = following bs → as = bs
  | [], [], _, _, _, _ => rfl
  | a :: as, b :: bs, ha, hb, hl, h => by
    simp only [following, List.flatMap_cons] at h
    obtain ⟨h1, h2⟩ := List.append_inj h (by simp [ha a List.mem_cons_self, hb b List.mem_cons_self])
    obtain rfl := (List.cons.inj h1).2
    rw [following_injective (fun x hx => ha x (List.mem_cons_of_mem _ hx)) (fun x hx => hb x (List.mem_cons_of_mem _ hx))
      (by simpa using hl) h2]

theorem intercalate_injective {k : Nat} {as bs : List Text} (ha : ∀ h ∈ as, h.length = k) (hb : ∀ h ∈ bs, h.length = k)
    (hl : as.length = bs.length) (h : [','].intercalate as = [','].intercalate bs) : as = bs := by
  cases as with
  | nil => cases bs with
    | nil => rfl
    | cons b bs => cases hl
  | cons a as =>
    cases bs with
    | nil => cases hl
    | cons b bs =>
      rw [intercalate_cons, intercalate_cons] at h
      obtain ⟨h1, h2⟩ := List.append_inj h ((ha a List.mem_cons_self).trans (hb b List.mem_cons_self).symm)
      rw [h1, following_injective (fun x hx => ha x (List.mem_cons_of_mem _ hx))
        (fun x hx => hb x (List.mem_cons_of_mem _ hx)) (by simpa using hl) h2]

/-! ## The mapper -/

/-- Sector `k` of a block. -/
def sectorOf (block : Mem) (k : Nat) : Mem := slice block (512 * k) 512

/-- The hashes of `count` sectors from the `i`th one on. -/
def sectorHashes (md5 : MD5) (block : Mem) (i count : Nat) : List Text :=
  (List.range' i count).map fun k => md5.toHashValue (sectorOf block k)

theorem filledWithOne_iff {sector : Mem} : filledWithOne sector = true ↔ ∀ j < 512, byteAt sector j = byteAt sector 0 := by
  rw [filledWithOne, List.all_eq_true]
  constructor
  · intro h j hj
    rcases Nat.eq_zero_or_pos j with rfl | h0
    · rfl
    · exact (beq_iff_eq.1 (h j (List.mem_range'_1.2 (by simp only [hashSectorSize]; omega)))).symm
  · intro h j hj
    have := List.mem_range'_1.1 hj
    exact beq_iff_eq.2 (h j (by simp only [hashSectorSize] at this; omega)).symm

/-- A byte of a sector of the block that the mapper copies. -/
theorem byteAt_sectorOf {bytes : Mem} {k i : Nat} (hk : k < 8) (hi : i < 512) :
    byteAt (sectorOf (copyOf bytes 4096) k) i = byteAt bytes (512 * k + i) := by
  rw [sectorOf, byteAt_slice hi, copyOf, byteAt_tabulate (by omega)]

theorem getMinSectorNum_range (d : Int) : 1 ≤ getMinSectorNum d ∧ getMinSectorNum d ≤ 8 := by
  unfold getMinSectorNum
  split_ifs <;> omega

section
variable {md5 : MD5} {block : Mem} (hlen : block.length = 4096)
include hlen

theorem copyOfRange_sector {k : Nat} (hk : k < 8) :
    copyOfRange block (hashSectorSize * k : Nat) (hashSectorSize * (k + 1) : Nat) = .ok (sectorOf block k) := by
  rw [copyOfRange_eq (by simp only [hashSectorSize]; omega) (by simp only [hashSectorSize]; omega)]
  refine congrArg Except.ok (ext_byteAt ?_ fun i hi => ?_)
  · rw [length_tabulate, sectorOf, length_slice_of_le (by omega)]
    simp only [hashSectorSize]
    omega
  · rw [length_tabulate] at hi
    rw [byteAt_tabulate hi, sectorOf, byteAt_slice (by simp only [hashSectorSize] at hi; omega)]

/-- The loop from a sector that is not the first one. -/
theorem hashSectors_some (count : Nat) : ∀ (i : Nat) (v : Text) (sector : Mem), i + count ≤ 8 →
    hashSectors md5 block count i (some v) sector =
      .ok (some (v ++ following (sectorHashes md5 block i count)),
        if count = 0 then sector else sectorOf block (i + count - 1)) := by
  induction count with
  | zero =>
    intro i v sector _
    simp [hashSectors, sectorHashes, following]
  | succ count ih =>
    intro i v sector hi
    rw [hashSectors, copyOfRange_sector hlen (by omega)]
    simp only [bind, Except.bind]
    have hlast : (if count = 0 then sectorOf block i else sectorOf block (i + 1 + count - 1)) =
        sectorOf block (i + (count + 1) - 1) := by
      split
      · congr 1; omega
      · congr 1; omega
    rw [ih (i + 1) _ _ (by omega), hlast, if_neg (Nat.succ_ne_zero count)]
    simp only [sectorHashes, List.range'_succ, List.map_cons, following, List.flatMap_cons, List.cons_append,
      List.append_assoc]

theorem hashSectors_none {count : Nat} (h1 : 1 ≤ count) (h8 : count ≤ 8) :
    hashSectors md5 block count 0 none (zeros hashSectorSize) =
      .ok (some ([','].intercalate (sectorHashes md5 block 0 count)), sectorOf block (count - 1)) := by
  obtain ⟨count, rfl⟩ : ∃ k, count = k + 1 := ⟨count - 1, by omega⟩
  rw [hashSectors, copyOfRange_sector hlen (by omega)]
  simp only [bind, Except.bind]
  rw [hashSectors_some hlen count 1 _ _ (by omega)]
  have hlast : (if count = 0 then sectorOf block 0 else sectorOf block (0 + 1 + count - 1)) =
      sectorOf block (count + 1 - 1) := by
    split
    · congr 1; omega
    · congr 1; omega
  simp only [sectorHashes, List.range'_succ, List.map_cons, intercalate_cons, Nat.zero_add] at hlast ⊢
  rw [hlast]

end

/-- **`HashMapper.map`.** -/
theorem hashMap_eq {md5 : MD5} {key value : BytesWritable} {bc : ByteControl} (hkey : ByteControl.ofBytes key.bytes = .ok bc)
    {d : Int} (hd : bc.minSector = getMinSectorNum d) : hashMap md5 key value =
      .ok (if filledWithOne (sectorOf (copyOf value.bytes 4096) ((getMinSectorNum d).toNat - 1)) then none
        else some ([','].intercalate (sectorHashes md5 (copyOf value.bytes 4096) 0 (getMinSectorNum d).toNat), bc.valueText)) := by
  have hrange := getMinSectorNum_range d
  rw [hashMap, hkey]
  simp only [bind, Except.bind, hashBlockSize]
  have hblock : (copyOf value.bytes 4096).length = 4096 := length_tabulate ..
  rw [hd, hashSectors_none hblock (by omega) (by omega)]
  rfl

/-! ## Records in reused arrays -/

/-- What the mapper makes of a record whose value is followed by zeros. -/
def cleanPair (md5 : MD5) (record : Mem × Mem) : Exec (Option (Text × Text)) :=
  hashMap md5 (.of record.1) (.of record.2)

/-- The bytes that the mapper hashes of a value in the array `bytes`. -/
def hashedBytes (bytes : Mem) (sectors : Nat) : Mem := slice (copyOf bytes 4096) 0 (512 * sectors)

/-- What is left over in the array `w` behind the value of the record does not show: the bytes hashed
are those of the value followed by zeros, or the record is left out either way. -/
def LeftoverHidden (w : BytesWritable) (record : Mem × Mem) : Prop :=
  let sectors := (getMinSectorNum (intOf (slice record.1 24 2))).toNat
  hashedBytes (w.set record.2).bytes sectors = hashedBytes record.2 sectors ∨
    filledWithOne (sectorOf (copyOf (w.set record.2).bytes 4096) (sectors - 1)) = true ∧
    filledWithOne (sectorOf (copyOf record.2 4096) (sectors - 1)) = true

/-- A key as the converter writes it, in an array that earlier keys have used. -/
theorem ofBytes_set {w : BytesWritable} {key : Mem} (hkey : key.length = 32) :
    ∃ bc, ByteControl.ofBytes (w.set key).bytes = .ok bc ∧ ByteControl.ofBytes key = .ok bc ∧
      bc.minSector = getMinSectorNum (intOf (slice key 24 2)) := by
  have hlong : 32 ≤ (w.set key).bytes.length := hkey ▸ (w.set key).le
  have hslice : ∀ {pos n : Nat}, pos + n ≤ 32 → slice (w.set key).bytes pos n = slice key pos n := fun hp =>
    ext_byteAt (by rw [length_slice_of_le (by omega), length_slice_of_le (by omega)]) fun i hi => by
      rw [length_slice_of_le (by omega)] at hi
      rw [byteAt_slice hi, byteAt_slice hi]
      exact byteAt_store_inside (by omega) (by omega)
  simp only [ByteControl.ofBytes]
  rw [if_neg (by omega), if_neg (by omega), hslice (by decide), hslice (by decide), hslice (by decide),
    hslice (by decide)]
  exact ⟨_, rfl, rfl, rfl⟩

/-- Some function tells a sector from all others. -/
theorem exists_md5_apart (a : Mem) : ∃ md5 : MD5, ∀ b, md5.toHashValue b = md5.toHashValue a → b = a := by
  refine ⟨⟨fun m => if m = a then List.replicate 16 0 else List.replicate 16 1, fun m => by split <;> rfl⟩, ?_⟩
  intro b h
  by_contra hne
  simp only [MD5.toHashValue, if_neg hne, if_true] at h
  revert h
  decide

/-- Sectors that differ have other hashes under some function. -/
theorem exists_md5_ne {a b : Mem} (h : a ≠ b) : ∃ md5 : MD5, md5.toHashValue a ≠ md5.toHashValue b := by
  obtain ⟨md5, hmd5⟩ := exists_md5_apart b
  exact ⟨md5, fun heq => h (hmd5 a heq)⟩

/-- The sectors of bytes that are the same. -/
theorem sectorOf_congr {a b : Mem} {count k : Nat} (h : slice a 0 (512 * count) = slice b 0 (512 * count)) (hk : k < count) :
    sectorOf a k = sectorOf b k := by
  have hcut : ∀ m : Mem, sectorOf m k = slice (slice m 0 (512 * count)) (512 * k) 512 := fun m => by
    rw [slice_slice (by omega), Nat.zero_add, sectorOf]
  rw [hcut, hcut, h]

/-- A block is hashed alike under every function when the bytes hashed are the same. -/
theorem hashes_eq_iff {a b : Mem} (ha : a.length = 4096) (hb : b.length = 4096) {count : Nat} (hcount : count ≤ 8) :
    (∀ md5 : MD5, sectorHashes md5 a 0 count = sectorHashes md5 b 0 count) ↔
      slice a 0 (512 * count) = slice b 0 (512 * count) := by
  constructor
  · intro h
    have hsector : ∀ k < count, sectorOf a k = sectorOf b k := fun k hk => by
      by_contra hne
      obtain ⟨md5, hmd5⟩ := exists_md5_ne hne
      refine hmd5 ?_
      have := congrArg (·[k]?) (h md5)
      simpa [sectorHashes, List.getElem?_range', hk] using this
    refine ext_byteAt (by rw [length_slice_of_le (by omega), length_slice_of_le (by omega)]) fun i hi => ?_
    rw [length_slice_of_le (by omega)] at hi
    have hbyte := congrArg (byteAt · (i % 512)) (hsector (i / 512) (by omega))
    simp only [sectorOf] at hbyte
    rw [byteAt_slice (by omega), byteAt_slice (by omega), Nat.div_add_mod] at hbyte
    rw [byteAt_slice hi, byteAt_slice hi, Nat.zero_add, hbyte]
  · intro h md5
    refine List.map_congr_left fun k hk => congrArg _ (sectorOf_congr h ?_)
    have := List.mem_range'_1.1 hk
    omega

/-- The pair of a record depends on the bytes hashed alone, and only where it is not left out. -/
theorem pairs_eq_iff {a b : Mem} (ha : a.length = 4096) (hb : b.length = 4096) {count : Nat} (h1 : 1 ≤ count)
    (h8 : count ≤ 8) (text : Text) :
    (∀ md5 : MD5, (if filledWithOne (sectorOf a (count - 1)) then none
        else some ([','].intercalate (sectorHashes md5 a 0 count), text)) =
      if filledWithOne (sectorOf b (count - 1)) then none
        else some ([','].intercalate (sectorHashes md5 b 0 count), text)) ↔
    slice a 0 (512 * count) = slice b 0 (512 * count) ∨
      filledWithOne (sectorOf a (count - 1)) = true ∧ filledWithOne (sectorOf b (count - 1)) = true := by
  have hhash : ∀ (md5 : MD5) (m : Mem), ∀ h ∈ sectorHashes md5 m 0 count, h.length = 32 := fun md5 m h hh => by
    obtain ⟨k, -, rfl⟩ := List.mem_map.1 hh
    exact md5.length_toHashValue _
  have hlen : ∀ (md5 : MD5) (m : Mem), (sectorHashes md5 m 0 count).length = count := fun md5 m => by
    rw [sectorHashes, List.length_map, List.length_range']
  obtain ⟨md5, -⟩ := @exists_md5_ne [0] [1] (by decide)
  constructor
  · intro h
    by_cases hA : filledWithOne (sectorOf a (count - 1)) = true
    · by_cases hB : filledWithOne (sectorOf b (count - 1)) = true
      · exact .inr ⟨hA, hB⟩
      · have := h md5
        rw [if_pos hA, if_neg hB] at this
        cases this
    · by_cases hB : filledWithOne (sectorOf b (count - 1)) = true
      · have := h md5
        rw [if_neg hA, if_pos hB] at this
        cases this
      · refine .inl ((hashes_eq_iff ha hb h8).1 fun md5 => ?_)
        have hpair := h md5
        rw [if_neg hA, if_neg hB] at hpair
        exact intercalate_injective (hhash md5 a) (hhash md5 b) ((hlen md5 a).trans (hlen md5 b).symm)
          (congrArg Prod.fst (Option.some.inj hpair))
  · rintro (h | ⟨hA, hB⟩) md5
    · rw [sectorOf_congr h (by omega), (hashes_eq_iff ha hb h8).2 h md5]
    · rw [if_pos hA, if_pos hB]

/-- One record: it does not depend on what is left over exactly when that does not show. -/
theorem pair_independent {key value : BytesWritable} {record : Mem × Mem} (hkey : record.1.length = 32) :
    (∀ md5, hashMap md5 (key.set record.1) (value.set record.2) = cleanPair md5 record) ↔ LeftoverHidden value record := by
  obtain ⟨bc, hbc, hbc', hsectors⟩ := @ofBytes_set key record.1 hkey
  have hrange := getMinSectorNum_range (intOf (slice record.1 24 2))
  have hcount : 1 ≤ (getMinSectorNum (intOf (slice record.1 24 2))).toNat := by omega
  have hiff := pairs_eq_iff (a := copyOf (value.set record.2).bytes 4096) (b := copyOf record.2 4096) (length_tabulate ..)
    (length_tabulate ..) hcount (by omega) bc.valueText
  refine Iff.trans (forall_congr' fun md5 => ?_) hiff
  rw [cleanPair, hashMap_eq hbc hsectors, @hashMap_eq md5 (.of record.1) (.of record.2) bc hbc' _ hsectors]
  exact Except.ok.injEq .. |>.to_iff

/-- Every record of the sequence meets `LeftoverHidden` in the array that the ones before it leave. -/
def AllHidden : BytesWritable → List (Mem × Mem) → Prop
  | _, [] => True
  | value, record :: records => LeftoverHidden value record ∧ AllHidden (value.set record.2) records

/-- Under every function each record of the sequence gives what it gives alone. -/
def RecordsIndependent (key value : BytesWritable) (records : List (Mem × Mem)) : Prop :=
  ∀ md5, mapRecords md5 key value records = records.map (cleanPair md5)

/-- **Indexing a record does not depend on other records**, in a sequence, exactly when nothing that they
leave in the array shows. -/
theorem records_independent {key value : BytesWritable} {records : List (Mem × Mem)}
    (hkey : ∀ record ∈ records, record.1.length = 32) :
    RecordsIndependent key value records ↔ AllHidden value records := by
  induction records generalizing key value with
  | nil => exact ⟨fun _ => trivial, fun _ _ => rfl⟩
  | cons record records ih =>
    have hfirst := @pair_independent key value record (hkey record List.mem_cons_self)
    have hrest := @ih (key.set record.1) (value.set record.2) fun r hr => hkey r (List.mem_cons_of_mem _ hr)
    rw [RecordsIndependent] at hrest
    simp only [RecordsIndependent, mapRecords, List.map_cons, List.cons.injEq, forall_and, hfirst, hrest, AllHidden]

/-- A record of `size` bytes. -/
def plainRecord (byte : UInt8) (size : Nat) : Mem × Mem :=
  (keyBytes { plainHeader 1459382400 with dataSize := size } 0, List.replicate size byte)

/-- A record of 32 bytes covers all that one of 16 bytes leaves. -/
theorem records_independent_two : RecordsIndependent (.of []) (.of []) [plainRecord 1 16, plainRecord 2 32] := by
  have hfirst : ((BytesWritable.of []).set (plainRecord 1 16).2).bytes = (plainRecord 1 16).2 := by decide
  have hsecond : (((BytesWritable.of []).set (plainRecord 1 16).2).set (plainRecord 2 32).2).bytes = (plainRecord 2 32).2 := by
    decide
  have hkey : ∀ record ∈ [plainRecord 1 16, plainRecord 2 32], record.1.length = 32 := fun r hr => by
    rcases List.mem_pair.1 hr with rfl | rfl
    · decide
    · decide
  exact (records_independent hkey).2
    ⟨.inl (congrArg (hashedBytes · _) hfirst), .inl (congrArg (hashedBytes · _) hsecond), trivial⟩

/-- A record of 16 bytes after one of 32: the second half of the longer one is hashed with it. -/
theorem records_dependent : ¬ ∀ (key value : BytesWritable) (records : List (Mem × Mem)),
    (∀ record ∈ records, record.1.length = 32) → RecordsIndependent key value records := by
  intro h
  have hrun := h (.of []) (.of []) [plainRecord 1 32, plainRecord 2 16] fun r hr => by
    simp only [List.mem_cons, List.not_mem_nil, or_false] at hr
    rcases hr with rfl | rfl <;> decide
  have hsecond := fun md5 => (List.cons.inj (List.cons.inj (hrun md5)).2).1
  have hone : (getMinSectorNum (intOf (slice (plainRecord 2 16).1 24 2))).toNat = 1 := by decide
  have hbytes : (((BytesWritable.of []).set (plainRecord 1 32).2).set (plainRecord 2 16).2).bytes =
      List.replicate 16 2 ++ List.replicate 16 1 := by decide
  have hhidden := (pair_independent (by decide)).1 hsecond
  simp only [LeftoverHidden, hone, hbytes] at hhidden
  rcases hhidden with heq | ⟨hfilled, -⟩
  · have hbyte := congrArg (byteAt · 16) heq
    simp only [hashedBytes] at hbyte
    rw [byteAt_slice (by decide), byteAt_slice (by decide), copyOf, copyOf, byteAt_tabulate (by decide),
      byteAt_tabulate (by decide)] at hbyte
    revert hbyte
    decide
  · have hbyte := filledWithOne_iff.1 hfilled 16 (by decide)
    rw [byteAt_sectorOf (by decide) (by decide), byteAt_sectorOf (by decide) (by decide)] at hbyte
    revert hbyte
    decide

end LogDrive
