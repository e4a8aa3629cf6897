import LogDrive.Driver.Log

/-!
# The structures on disk and their bytes

Header, index and entries read back what was written: `ofBytes_toBytes` for the two structures,
`versionAt_eq` for an entry in an image, `slice_encodeIndex` and `getElem?_decodeIndex` for the index.
`DataHeader.Of` fixes the geometry: `n` blocks of 4096 bytes.
-/

set_option autoImplicit false

open Bytes

namespace LogDrive

/-! ## Integers -/

theorem toInt_of_lt {n : Nat} (h : n < 2 ^ 31) : toInt n = n := by
  unfold toInt
  rw [Int.bmod_eq_of_le] <;> omega

theorem toU64_natCast {n : Nat} (h : n < 2 ^ 64) : toU64 (n : Int) = n := by
  unfold toU64; omega

@[simp] theorem length_encodeInt64 (i : Int64) : (encodeInt64 i).length = 8 := by simp [encodeInt64]

theorem decodeInt64_encodeInt64 (i : Int64) : decodeInt64 (encodeInt64 i) = i := by
  have h : i.toUInt64.toNat < 256 ^ 8 := i.toUInt64.toNat_lt
  rw [decodeInt64, encodeInt64, unle_le h, UInt64.ofNat_toNat]
  exact Int64.toInt64_toUInt64 i

/-! ## Entry headers -/

theorem EntryHeader.length_toBytes (h : EntryHeader) : h.toBytes.length = 26 + h.pad.length := by
  simp [EntryHeader.toBytes]; omega

theorem EntryHeader.length_padded {h : EntryHeader} (hp : h.pad.length = 6) : h.toBytes.length = entryHeaderSize := by
  rw [EntryHeader.length_toBytes, hp]

/-- A header and the first bytes behind it. -/
theorem EntryHeader.copyFrom_toBytes {h : EntryHeader} (hp : h.pad.length = 6) {data : Mem} {size : Nat}
    (hs : size ≤ data.length) : copyFrom (h.toBytes ++ data) 0 (entryHeaderSize + size) = .ret (h.toBytes ++ data.take size) := by
  have hlen := EntryHeader.length_padded hp
  rw [copyFrom, if_pos (by rw [List.length_append, hlen]; omega)]
  simp only [slice, List.drop_zero, Prog.pure_eq]
  rw [← hlen, List.take_length_add_append]

/-- Where each field lies. -/
theorem EntryHeader.slice_toBytes {h : EntryHeader} (hp : h.pad.length = 6) :
    slice h.toBytes 0 8 = encodeInt64 h.ts.tvSec ∧ slice h.toBytes 8 8 = encodeInt64 h.ts.tvNsec ∧
    slice h.toBytes 16 8 = le 8 h.next ∧ slice h.toBytes 24 2 = le 2 h.dataSize ∧ slice h.toBytes 26 6 = h.pad := by
  obtain ⟨⟨s, ns⟩, next, size, pad⟩ := h
  simp only at hp
  simp only [EntryHeader.toBytes, List.append_assoc]
  generalize hm : encodeInt64 s ++ (encodeInt64 ns ++ (le 8 next ++ (le 2 size ++ pad))) = m
  refine ⟨?_, ?_, ?_, ?_, ?_⟩
  · exact slice_mid [] _ _ hm.symm rfl (length_encodeInt64 s)
  · exact slice_mid (encodeInt64 s) _ _ hm.symm (length_encodeInt64 s) (length_encodeInt64 ns)
  · exact slice_mid (encodeInt64 s ++ encodeInt64 ns) _ _ (by rw [← hm, List.append_assoc]) (by simp) (by simp)
  · exact slice_mid (encodeInt64 s ++ encodeInt64 ns ++ le 8 next) _ pad (by rw [← hm]; simp) (by simp) (by simp)
  · exact slice_mid (encodeInt64 s ++ encodeInt64 ns ++ le 8 next ++ le 2 size) _ [] (by rw [← hm]; simp) (by simp) hp

theorem EntryHeader.ofBytes_toBytes {h : EntryHeader} (hn : h.next < 2 ^ 64)
    (hs : h.dataSize < 2 ^ 16) (hp : h.pad.length = 6) : EntryHeader.ofBytes h.toBytes = h := by
  obtain ⟨h1, h2, h3, h4, h5⟩ := EntryHeader.slice_toBytes hp
  obtain ⟨⟨s, ns⟩, next, size, pad⟩ := h
  simp only at hn hs
  rw [EntryHeader.ofBytes, h1, h2, h3, h4, h5, decodeInt64_encodeInt64, decodeInt64_encodeInt64, unle_le (by omega),
    unle_le (by omega)]

theorem Version.length_bytes (v : Version) (h : v.WF) : v.bytes.length = 32 + v.data.length := by
  simp [Version.bytes, EntryHeader.length_toBytes, h.pad]

theorem Version.stop_entry (v : Version) (h : v.WF) : v.entry.stop = v.stop := by
  simp only [Entry.stop, Version.entry, Version.length_bytes v h, Version.stop,
    Nat.add_assoc]

/-- A version is read back from an image in which its bytes lie. -/
theorem versionAt_eq {img : Nat → UInt8} {v : Version} (hv : v.WF) (h : Holds img v.off v.bytes) :
    versionAt img v.off = v := by
  obtain ⟨hh, hd⟩ := holds_append.1 h
  have hl : v.head.toBytes.length = 32 := EntryHeader.length_padded hv.pad
  have hhead : EntryHeader.ofBytes (tabulate (fun i => img (v.off + i)) entryHeaderSize) = v.head := by
    rw [tabulate_eq_of_holds hh hl]
    exact EntryHeader.ofBytes_toBytes hv.next (by have := hv.size; have := hv.short; omega) hv.pad
  have hdata : tabulate (fun i => img (v.off + entryHeaderSize + i)) v.head.dataSize = v.data :=
    tabulate_eq_of_holds (by rw [hl] at hd; exact hd) hv.size.symm
  simp only [versionAt, hhead, hdata]

/-! ## The header of the file -/

/-- The 24 bytes that describe a database of `n` blocks. -/
def headerBytes (n next : Nat) : Mem := le 8 (n * 4096) ++ le 8 4096 ++ le 8 next

@[simp] theorem length_headerBytes (n next : Nat) : (headerBytes n next).length = 24 := by
  simp [headerBytes]

/-- The header structure of a database of `n` blocks. -/
structure DataHeader.Of (n next : Nat) (h : DataHeader) : Prop where
  diskSize : h.diskSize = n * 4096
  blockSize : h.blockSize = 4096
  nextOffset : h.nextOffset = next
  rest : h.rest.length = 488

theorem DataHeader.Of.toBytes {n next : Nat} {h : DataHeader} (hh : h.Of n next) :
    h.toBytes = headerBytes n next ++ h.rest := by
  rw [DataHeader.toBytes, hh.diskSize, hh.blockSize, hh.nextOffset, headerBytes]

theorem DataHeader.Of.length_toBytes {n next : Nat} {h : DataHeader} (hh : h.Of n next) :
    h.toBytes.length = 512 := by
  rw [hh.toBytes, List.length_append, length_headerBytes, hh.rest]

/-- The header is read back from a sector that begins with its bytes. -/
theorem DataHeader.ofBytes_of {n next : Nat} {m : Mem} (hn : n < 2 ^ 31) (hs : next < 2 ^ 64)
    (hl : m.length = 512) (h : Holds (byteAt m) 0 (headerBytes n next)) :
    (DataHeader.ofBytes m).Of n next := by
  obtain ⟨h12, h3⟩ := holds_append.1 h
  obtain ⟨h1, h2⟩ := holds_append.1 h12
  simp only [List.length_append, length_le, Nat.zero_add] at h2 h3
  have hnum : ∀ {pos v : Nat}, pos + 8 ≤ 512 → v < 2 ^ 64 → Holds (byteAt m) pos (le 8 v) →
      unle (slice m pos 8) = v := fun hp hv hh => by
    rw [← numAt_slice (by omega), numAt_of_holds hh (by omega)]
  refine ⟨?_, ?_, ?_, ?_⟩
  · exact hnum (by omega) (by omega) h1
  · exact hnum (by omega) (by omega) h2
  · exact hnum (by omega) hs h3
  · simp only [DataHeader.ofBytes]
    rw [length_slice, hl]
    omega

/-! ## The index -/

theorem length_encodeIndex (table : List Nat) : (encodeIndex table).length = 8 * table.length := by
  induction table with
  | nil => rfl
  | cons o os ih => simp only [encodeIndex, List.flatMap_cons, List.length_append, length_le,
      List.length_cons] at ih ⊢; omega

theorem slice_encodeIndex {table : List Nat} {b o : Nat} (h : table[b]? = some o) :
    slice (encodeIndex table) (8 * b) 8 = le 8 o := by
  obtain ⟨hb, rfl⟩ := List.getElem?_eq_some_iff.1 h
  have hsplit : encodeIndex table =
      encodeIndex (table.take b) ++ (le 8 table[b] ++ encodeIndex (table.drop (b + 1))) := by
    simp only [encodeIndex]
    rw [← List.flatMap_cons, ← List.flatMap_append, ← List.drop_eq_getElem_cons hb,
      List.take_append_drop]
  refine slice_mid _ _ _ hsplit ?_ (length_le 8 _)
  rw [length_encodeIndex, List.length_take]
  omega

theorem length_decodeIndex (m : Mem) : (decodeIndex m).length = m.length / 8 := by
  simp [decodeIndex]

theorem getElem?_decodeIndex {m : Mem} {b : Nat} (h : 8 * b + 8 ≤ m.length) :
    (decodeIndex m)[b]? = some (unle (slice m (8 * b) 8)) := by
  simp only [decodeIndex, List.getElem?_map, List.getElem?_range (show b < m.length / 8 by omega),
    Option.map_some]

/-! ## Sizes -/

theorem DataHeader.Of.indexTableSize {n next : Nat} {h : DataHeader} (hh : h.Of n next)
    (hn : n < 2 ^ 31) : h.indexTableSize = tableBytes n := by
  have hd : n * 4096 / 4096 * 8 = 8 * n := by omega
  rw [DataHeader.indexTableSize, hh.diskSize, hh.blockSize, hd, u64_of_lt (by omega), tableBytes]
  exact roundUp_sector (by omega)

theorem DataHeader.Of.blocks {n next : Nat} {h : DataHeader} (hh : h.Of n next) :
    h.diskSize / h.blockSize = n := by
  rw [hh.diskSize, hh.blockSize]; omega

theorem tableBytes_bounds (n : Nat) : 8 * n ≤ tableBytes n ∧ tableBytes n ≤ 8 * n + 511 ∧
    tableBytes n % 512 = 0 := by
  unfold tableBytes; omega

theorem mkimage_eq (n : Nat) : mkimage (n * 4096) 4096 = headerBytes n (logStart n) := by
  have hd : n * 4096 / 4096 = n := by omega
  simp only [mkimage, headerBytes, hd, logStart, tableBytes, Nat.mul_comm n 8]

end LogDrive
