import LogDrive.Reader.Proof.Database
import LogDrive.Driver.Proof.Records

/-!
# What the Java reader finds in a chain

`WellFormed file bs n chains`: the file is a database of `n` blocks of `bs` bytes, and following the
`next` fields from the index gives the versions `chains b` of each block `b`. The reader gives each of
them as `PreservationRecord.ofVersion`: `countRecords_eq`, `findRecord_eq` and `getRecordSequence_eq` for
the loops, `getNumOfRecord_eq` and `getRecord_eq` for a block.
-/

set_option autoImplicit false

open Bytes Java

namespace LogDrive

/-! ## Versions in a file -/

/-- The version lies in the file, and its bytes fit into a block. -/
structure Version.Readable (file : Mem) (bs : Nat) (v : Version) : Prop where
  inFile : v.stop ≤ file.length
  bound : v.stop < 2 ^ 63
  size : v.data.length ≤ bs

structure WellFormed (file : Mem) (bs n : Nat) (chains : Nat → List Version) : Prop where
  blockSize : numAt (byteAt file) 8 8 = bs
  pos : 0 < bs
  intSize : bs < 2 ^ 31
  blocks : numAt (byteAt file) 0 8 / bs = n
  count : n < 2 ^ 31
  chain : ∀ b < n, Chain (byteAt file) (storedEntry file b) (chains b)
  version : ∀ b < n, ∀ v ∈ chains b, v.Readable file bs

/-- The record that the reader makes of a version. -/
def PreservationRecord.ofVersion (v : Version) : PreservationRecord where
  dataSize := v.head.dataSize
  sec := v.head.ts.tvSec.toInt
  nsec := v.head.ts.tvNsec.toInt
  nextOffset := v.head.next
  flags := intOf (slice v.head.pad 0 1)
  recordData := some v.data
  recordHeader := slice v.head.toBytes 0 27 ++ zeros 5

theorem EntryHeader.toBytes_ofBytes {m : Mem} (h : m.length = 32) : (EntryHeader.ofBytes m).toBytes = m := by
  have hle : ∀ {pos k : Nat}, pos + k ≤ 32 → le k (unle (slice m pos k)) = slice m pos k := fun {pos k} hk => by
    have := le_unle (slice m pos k)
    rwa [length_slice_of_le (by omega)] at this
  have h64 : ∀ {pos : Nat}, pos + 8 ≤ 32 → encodeInt64 (decodeInt64 (slice m pos 8)) = slice m pos 8 := fun {pos} hk => by
    have hlt := unle_lt (slice m pos 8)
    rw [length_slice_of_le (by omega)] at hlt
    rw [encodeInt64, decodeInt64, UInt64.toUInt64_toInt64, UInt64.toNat_ofNat_of_lt' hlt, hle hk]
  have hsplit := slice_all m
  rw [h, show 32 = 8 + (8 + (8 + (2 + 6))) by rfl, slice_add, slice_add, slice_add, slice_add] at hsplit
  rw [EntryHeader.toBytes, EntryHeader.ofBytes]
  dsimp only
  rw [h64 (by decide), h64 (by decide), hle (by decide), hle (by decide)]
  simpa only [List.append_assoc] using hsplit

section
variable {file : Mem} {bs off : Nat}

/-- The header of a version in the file. -/
theorem versionAt_head (h : off + 32 ≤ file.length) : (versionAt (byteAt file) off).head.toBytes = slice file off 32 := by
  have heq : tabulate (fun i => byteAt file (off + i)) 32 = slice file off 32 :=
    ext_byteAt (by rw [length_tabulate, length_slice_of_le h]) fun i hi => by
      rw [length_tabulate] at hi
      rw [byteAt_tabulate hi, byteAt_slice hi]
  simp only [versionAt, heq]
  exact EntryHeader.toBytes_ofBytes (length_slice_of_le h)

/-- The data of a version in the file. -/
theorem versionAt_data (h : (versionAt (byteAt file) off).stop ≤ file.length) :
    (versionAt (byteAt file) off).data = slice file (off + 32) (versionAt (byteAt file) off).head.dataSize := by
  rw [versionAt_stop] at h
  refine ext_byteAt (by rw [length_slice_of_le (by omega)]; exact length_tabulate ..) fun i hi => ?_
  have hi' : i < (versionAt (byteAt file) off).head.dataSize := by
    rwa [show (versionAt (byteAt file) off).data.length = (versionAt (byteAt file) off).head.dataSize from length_tabulate ..] at hi
  rw [byteAt_slice hi']
  exact byteAt_tabulate hi'

theorem versionAt_pad : (versionAt (byteAt file) off).head.pad.length = 6 := by
  simp only [versionAt, EntryHeader.ofBytes]
  rw [length_slice_of_le (by rw [length_tabulate])]

theorem versionAt_next : (versionAt (byteAt file) off).head.next < 2 ^ 64 := unle_slice_lt ..

theorem versionAt_dataSize : (versionAt (byteAt file) off).head.dataSize < 2 ^ 16 := unle_slice_lt ..

end

/-- The constructor on the header of a version. -/
theorem ofBytes_version {v : Version} (hs : v.head.dataSize < 2 ^ 16) (hn : v.head.next < 2 ^ 64)
    (hp : v.head.pad.length = 6) : PreservationRecord.ofBytes (slice v.head.toBytes 0 27) =
      .ok { PreservationRecord.ofVersion v with recordData := none } := by
  have hlen := length_headerRead hp
  obtain ⟨r, hr, hof⟩ := ofBytes_header hs hn hp
  have hflags : slice (slice v.head.toBytes 0 27) 26 1 = slice v.head.pad 0 1 := by
    rw [slice_slice (by decide), ← (EntryHeader.slice_toBytes hp).2.2.2.2, slice_slice (by decide)]
  rw [ofBytes_eq hlen, hflags] at hr ⊢
  obtain rfl := Except.ok.inj hr
  simp only [PreservationRecord.ofVersion, ← hof.dataSize, ← hof.sec, ← hof.nsec, ← hof.nextOffset]

/-! ## One record -/

section
variable {db : PreservationDatabase} {bs off : Nat}

theorem recordAt_eq (h : off + 32 ≤ db.file.length) {header : Mem} (hh : header.length = 27) :
    db.recordAt off header = .ok ({ PreservationRecord.ofVersion (versionAt (byteAt db.file) off) with recordData := none },
      slice db.file off 27) := by
  have hread := @readAt_eq db.file header off 27 (by omega)
  have hcut : slice db.file off 27 = slice (versionAt (byteAt db.file) off).head.toBytes 0 27 := by
    rw [versionAt_head h, slice_slice (by decide), Nat.add_zero]
  rw [store_all (by rw [length_slice_of_le (by omega), hh])] at hread
  rw [PreservationDatabase.recordAt, show ((entryHeaderLength : Nat) : Int) = ((27 : Nat) : Int) by rfl, hread, ok_bind,
    hcut, ofBytes_version versionAt_dataSize versionAt_next versionAt_pad]
  rfl

theorem fullRecordAt_eq (hv : (versionAt (byteAt db.file) off).Readable db.file bs) {header data : Mem}
    (hh : header.length = 27) (hd : data.length = bs) : ∃ data' : Mem, data'.length = bs ∧
      db.fullRecordAt off header data =
        .ok (PreservationRecord.ofVersion (versionAt (byteAt db.file) off), slice db.file off 27, data') := by
  obtain ⟨v, hveq⟩ : ∃ v, versionAt (byteAt db.file) off = v := ⟨_, rfl⟩
  have hstop := versionAt_stop (byteAt db.file) off
  have hdata := versionAt_data hv.inFile
  rw [hveq] at hv hstop hdata
  have hin := hv.inFile
  have hbound := hv.bound
  have hlen : v.data.length = v.head.dataSize := by rw [hdata, length_slice_of_le (by omega)]
  have hsize := hv.size
  have hread := @readAt_eq db.file data (off + 32) v.head.dataSize (by omega)
  have hlong : long ((off : Int) + (entryHeaderLengthActualSize : Nat)) = ((off + 32 : Nat) : Int) := by
    rw [← Nat.cast_add, long_of_lt (by simp only [entryHeaderLengthActualSize]; omega)]
  have hcopy := @copyOfRange_eq (store data 0 v.data) 0 v.head.dataSize (Nat.zero_le _) (Nat.zero_le _)
  have hcut : tabulate (fun i => byteAt (store data 0 v.data) (0 + i)) (v.head.dataSize - 0) = v.data :=
    ext_byteAt (by rw [length_tabulate]; omega) fun i hi => by
      rw [length_tabulate] at hi
      rw [byteAt_tabulate hi, byteAt_store_inside (by omega) (by omega), Nat.zero_add, Nat.sub_zero]
  refine ⟨store data 0 v.data, by rw [length_store_of_le (by omega), hd], ?_⟩
  have hrec := @recordAt_eq db off (by omega) header hh
  rw [hveq] at hrec ⊢
  rw [← hdata] at hread
  rw [hcut] at hcopy
  rw [PreservationDatabase.fullRecordAt, hrec, ok_bind]
  dsimp only
  rw [hlong, show (PreservationRecord.ofVersion v).dataSize = ((v.head.dataSize : Nat) : Int) from rfl, hread, ok_bind,
    PreservationRecord.setData]
  dsimp only
  rw [show (0 : Int) = ((0 : Nat) : Int) from rfl, hcopy]
  rfl

end

/-! ## Chains -/

theorem Chain.headOff_eq {img : Nat → UInt8} {off : Nat} {vs : List Version} (h : Chain img off vs) : headOff vs = off := by
  cases h <;> rfl

theorem headOff_lt {file : Mem} {bs : Nat} {vs : List Version} (hv : ∀ v ∈ vs, v.Readable file bs) :
    headOff vs < 2 ^ 63 := by
  cases vs with
  | nil => exact Nat.two_pow_pos 63
  | cons v vs =>
    have := (hv v List.mem_cons_self).bound
    rw [Version.stop] at this
    rw [headOff]
    omega

/-- A chain of readable versions that is not empty. -/
theorem Chain.cases_cons {file : Mem} {bs off : Nat} {v : Version} {vs : List Version}
    (h : Chain (byteAt file) off (v :: vs)) (hv : ∀ w ∈ v :: vs, w.Readable file bs) : off ≠ 0 ∧
      v = versionAt (byteAt file) off ∧ Chain (byteAt file) v.head.next vs ∧ v.head.next < 2 ^ 63 ∧
      (∀ w ∈ vs, w.Readable file bs) := by
  cases h with
  | link h0 hrest =>
    have hvs : ∀ w ∈ vs, w.Readable file bs := fun w hw => hv w (List.mem_cons_of_mem _ hw)
    refine ⟨h0, rfl, hrest, ?_, hvs⟩
    rw [← hrest.headOff_eq]
    exact headOff_lt hvs

section
variable {db : PreservationDatabase} {bs : Nat}

/-- The loop of `getNumOfRecord`. -/
theorem countRecords_eq : ∀ {vs : List Version} {off fuel : Nat} {header : Mem} (k : Int),
    Chain (byteAt db.file) off vs → (∀ v ∈ vs, v.Readable db.file bs) → vs.length < fuel → header.length = 27 →
    db.countRecords fuel off header (int k) = .ok (int (k + vs.length))
  | [], off, fuel + 1, header, k, hc, _, _, _ => by
    cases hc
    rw [PreservationDatabase.countRecords, if_pos Nat.cast_zero]
    simp
  | v :: vs, off, fuel + 1, header, k, hc, hv, hf, hh => by
    obtain ⟨h0, rfl, hrest, hnext, hvs⟩ := hc.cases_cons hv
    have hin := (hv _ List.mem_cons_self).inFile
    rw [versionAt_stop] at hin
    rw [List.length_cons] at hf
    rw [PreservationDatabase.countRecords, if_neg (by omega), recordAt_eq (by omega) hh, ok_bind]
    dsimp only [PreservationRecord.ofVersion]
    rw [long_of_lt hnext, int_succ_int, countRecords_eq (k + 1) hrest hvs (by omega)
      (length_slice_of_le (by omega)), List.length_cons]
    congr 2
    push_cast
    ring

/-- The loop of `getRecord` down to the record at `pos`. -/
theorem findRecord_eq {pos : Nat} : ∀ {vs : List Version} {off fuel : Nat} {header data : Mem}
    {record : Option PreservationRecord}, Chain (byteAt db.file) off vs → (∀ v ∈ vs, v.Readable db.file bs) →
    ∀ hpos : pos < vs.length, pos < 2 ^ 31 → pos + 1 < fuel → header.length = 27 → data.length = bs →
    db.findRecord fuel off pos header data record = .ok (some (.ofVersion vs[pos])) := by
  induction pos with
  | zero =>
    intro vs off fuel header data record hc hv hpos _ hf hh hd
    obtain ⟨v, vs, rfl⟩ := List.exists_cons_of_ne_nil (List.ne_nil_of_length_pos hpos)
    obtain ⟨fuel, rfl⟩ : ∃ k, fuel = k + 2 := ⟨fuel - 2, by omega⟩
    obtain ⟨h0, rfl, -, -, -⟩ := hc.cases_cons hv
    obtain ⟨data', -, hrec⟩ := fullRecordAt_eq (hv _ List.mem_cons_self) hh hd
    have hdec : int (((0 : Nat) : Int) - 1) = -1 := by decide
    rw [PreservationDatabase.findRecord, if_pos (by omega), hrec, ok_bind]
    dsimp only
    rw [hdec, PreservationDatabase.findRecord, if_neg (by omega)]
    rfl
  | succ pos ih =>
    intro vs off fuel header data record hc hv hpos hint hf hh hd
    obtain ⟨v, vs, rfl⟩ := List.exists_cons_of_ne_nil (List.ne_nil_of_length_pos (Nat.lt_of_le_of_lt (Nat.zero_le _) hpos))
    obtain ⟨fuel, rfl⟩ : ∃ k, fuel = k + 1 := ⟨fuel - 1, by omega⟩
    obtain ⟨h0, rfl, hrest, hnext, hvs⟩ := hc.cases_cons hv
    have hin := (hv _ List.mem_cons_self).inFile
    rw [versionAt_stop] at hin
    rw [List.length_cons] at hpos
    obtain ⟨data', hd', hrec⟩ := fullRecordAt_eq (hv _ List.mem_cons_self) hh hd
    have hdec : int (((pos + 1 : Nat) : Int) - 1) = (pos : Int) := by
      rw [Nat.cast_succ, Int.add_sub_cancel, int_of_lt (by omega)]
    have hoff : long (PreservationRecord.ofVersion (versionAt (byteAt db.file) off)).nextOffset =
        ((versionAt (byteAt db.file) off).head.next : Int) := long_of_lt hnext
    rw [PreservationDatabase.findRecord, if_pos (by omega), hrec, ok_bind]
    dsimp only
    rw [hoff, hdec, ih hrest hvs (by omega) (by omega) (by omega) (length_slice_of_le (by omega)) hd']
    rfl

end

/-! ## Blocks -/

namespace WellFormed

variable {file : Mem} {bs n : Nat} {chains : Nat → List Version} (h : WellFormed file bs n chains)
include h

/-- The entry of the index that the reader has loaded. -/
theorem indexAt_eq {b : Nat} (hb : b < n) : (PreservationDatabase.ofFile file).indexAt b =
    .ok (if b < loadedEntries n then (storedEntry file b : Int) else 0) := by
  obtain ⟨start, table, hdb, hlen, hget⟩ := ofFile_eq h.blockSize h.pos h.intSize h.blocks h.count
  have hlt : storedEntry file b < 2 ^ 63 := by
    rw [← (h.chain b hb).headOff_eq]
    exact headOff_lt (h.version b hb)
  rw [hdb, PreservationDatabase.indexAt]
  dsimp only
  rw [nonNull_some, ok_bind, if_neg (by omega), Int.toNat_natCast, hget b hb, long_of_lt hlt]
  rfl

theorem file_eq : (PreservationDatabase.ofFile file).file = file := by
  obtain ⟨start, table, hdb, -⟩ := ofFile_eq h.blockSize h.pos h.intSize h.blocks h.count
  rw [hdb]

theorem blockSize_eq : (PreservationDatabase.ofFile file).blockSize = bs := by
  obtain ⟨start, table, hdb, -⟩ := ofFile_eq h.blockSize h.pos h.intSize h.blocks h.count
  rw [hdb]

/-- A block without an entry in the index has no versions. -/
theorem storedEntry_eq_zero {b : Nat} (hb : b < n) : storedEntry file b = 0 ↔ chains b = [] := by
  rw [← (h.chain b hb).headOff_eq]
  cases hvs : chains b with
  | nil => exact ⟨fun _ => rfl, fun _ => rfl⟩
  | cons v vs =>
    have hc := h.chain b hb
    have hv := h.version b hb
    rw [hvs] at hc hv
    have h0 := (hc.cases_cons hv).1
    rw [← hc.headOff_eq] at h0
    exact ⟨fun heq => absurd heq h0, nofun⟩

/-- **`getNumOfRecord`.** -/
theorem getNumOfRecord_eq {b fuel : Nat} (hb : b < n) (hf : (chains b).length < fuel) :
    (PreservationDatabase.ofFile file).getNumOfRecord fuel b =
      .ok (if b < loadedEntries n then int (chains b).length else 0) := by
  rw [PreservationDatabase.getNumOfRecord, h.indexAt_eq hb, ok_bind]
  split
  · by_cases h0 : storedEntry file b = 0
    · rw [if_pos (by omega), (h.storedEntry_eq_zero hb).1 h0]
      rfl
    · have hcount := @countRecords_eq (.ofFile file) bs (chains b) (storedEntry file b) fuel (zeros 27) 0
        (by rw [h.file_eq]; exact h.chain b hb) (by rw [h.file_eq]; exact h.version b hb) hf (length_zeros 27)
      rw [if_neg (by omega), show (0 : Int) = int 0 from rfl, hcount, zero_add]
      rfl
  · rw [if_pos rfl]
    rfl

/-- **`getRecord`.** -/
theorem getRecord_eq {b j fuel : Nat} (hb : b < n) (hload : b < loadedEntries n) (hj : j < (chains b).length)
    (hint : j < 2 ^ 31) (hf : (chains b).length < fuel) :
    (PreservationDatabase.ofFile file).getRecord fuel b j = .ok (some (.ofVersion (chains b)[j])) := by
  have hne : storedEntry file b ≠ 0 := fun h0 => by
    rw [(h.storedEntry_eq_zero hb).1 h0] at hj
    cases hj
  have hnew : newArray (bs : Int) = .ok (zeros bs) := by
    rw [newArray, if_neg (by omega)]
    rfl
  have hfind := @findRecord_eq (.ofFile file) bs j (chains b) (storedEntry file b) fuel (zeros 27) (zeros bs) none
    (by rw [h.file_eq]; exact h.chain b hb) (by rw [h.file_eq]; exact h.version b hb) hj hint (by omega)
    (length_zeros 27) (length_zeros bs)
  rw [PreservationDatabase.getRecord, h.blockSize_eq, hnew, ok_bind, h.indexAt_eq hb, if_pos hload, ok_bind,
    if_neg (by omega), hfind]
  rfl

/-- **`getRecordSequence`.** -/
theorem getRecordSequence_eq {off : Nat} (hv : (versionAt (byteAt file) off).Readable file bs) :
    (PreservationDatabase.ofFile file).getRecordSequence off =
      .ok (some (.ofVersion (versionAt (byteAt file) off))) := by
  have hnew : newArray (bs : Int) = .ok (zeros bs) := by
    rw [newArray, if_neg (by omega)]
    rfl
  have hlt := hv.bound
  rw [Version.stop, versionAt_off] at hlt
  obtain ⟨data', -, hrec⟩ := @fullRecordAt_eq (.ofFile file) bs off (by rw [h.file_eq]; exact hv) (zeros 27) (zeros bs)
    (length_zeros 27) (length_zeros bs)
  rw [PreservationDatabase.getRecordSequence, h.blockSize_eq, hnew, ok_bind, long_of_lt (by omega), hrec, h.file_eq]
  rfl

end WellFormed

end LogDrive
