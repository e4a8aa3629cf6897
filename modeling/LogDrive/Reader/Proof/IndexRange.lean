import LogDrive.Reader.Proof.Database
import LogDrive.Driver.Proof.Address
import LogDrive.Driver.Proof.FileInv

/-!
# The blocks of the requests and the entries of the index

The size of a disk is rounded four times: to the sectors that `pd_set_driver_info` advertises, to the
blocks that `open_disk` allocates entries for, and twice more for the bytes of the index and of the
bitmap. `requests_inside`: every sector advertised lies in a block that has an entry exactly when the
last partial block, if there is one, has no whole sector; the Java reader loads these entries below
`2 ^ 28` blocks.
-/

set_option autoImplicit false

open Bytes

namespace LogDrive

/-! ## The statement -/

/-- `pd_read` or `pd_write` goes to block `b` for the request. -/
def TdRequest.Uses (q : TdRequest) (spb b : Nat) : Prop :=
  (∃ bs, coverBlocks spb q (q.secs + 1) q.sec = some bs ∧ b ∈ bs) ∨
  (q.sec % spb = 0 ∧ q.secs % spb = 0 ∧ b ∈ alignedBlocks spb q) ∨
  ∃ ps, writePieces spb q (q.secs + 1) q.sec q.secs = some ps ∧ ∃ p ∈ ps, p.block = b

/-- The file has the header of a disk of `diskSize` bytes in blocks of 4096. -/
structure HasSize (diskSize : Nat) (file : Mem) : Prop where
  length : 24 ≤ file.length
  header : Holds (byteAt file) 0 (le 8 diskSize ++ le 8 4096)

/-- A request inside the sectors that the opened disk advertises; `secs` is an `int`. -/
structure TdRequest.Admitted (q : TdRequest) (disk : PreservationDisk) : Prop where
  inside : q.sec + q.secs ≤ (pdSetDriverInfo disk).1
  int : q.secs < 2 ^ 31

/-- Block `b` has an entry in every array that `open_disk` allocates and in the bytes of the index that
`pd_finalize` stores. -/
structure PreservationDisk.Has (disk : PreservationDisk) (b : Nat) : Prop where
  block : b < disk.header.diskSize / disk.header.blockSize
  indexTable : b < disk.indexTable.length
  indexCacheEnable : disk.readOnly = true → b / 8 < disk.indexCacheEnable.length
  cachedDataSize : disk.readOnly = true → b < disk.cachedDataSize.length
  stored : 8 * b + 8 ≤ disk.header.indexTableSize

/-- Every admitted request stays inside the arrays of the driver. -/
def DriverInside (diskSize : Nat) : Prop := ∀ J readOnly (s s' : Os Event) disk, HasSize diskSize s.file →
  Done (openDisk J readOnly) s (some disk) s' → ∀ q : TdRequest, q.Admitted disk → ∀ b,
  q.Uses disk.sectorsPerBlock b → disk.Has b

/-- The Java reader loads the entry of every block of an admitted request. -/
def ReaderInside (diskSize : Nat) : Prop := ∀ J readOnly (s s' : Os Event) disk, HasSize diskSize s.file →
  Done (openDisk J readOnly) s (some disk) s' → ∀ q : TdRequest, q.Admitted disk → ∀ b,
  q.Uses disk.sectorsPerBlock b → ∃ table, (PreservationDatabase.ofFile s.file).indexTable = some table ∧
    table[b]? = some (Java.long (storedEntry s.file b))

/-! ## Opening -/

/-- The disk that `open_disk` makes for a disk of `size` bytes. -/
structure PreservationDisk.Sized (size : Nat) (disk : PreservationDisk) : Prop where
  diskSize : disk.header.diskSize = size
  blockSize : disk.header.blockSize = 4096
  sectorsPerBlock : disk.sectorsPerBlock = 8
  indexTable : disk.indexTable.length = tableBytes (size / 4096) / 8
  indexCacheEnable : disk.readOnly = true → disk.indexCacheEnable.length = roundUp (size / 4096) 8
  cachedDataSize : disk.readOnly = true → disk.cachedDataSize.length = size / 4096

section
variable {diskSize : Nat}

theorem HasSize.numbers {f : Mem} (h : HasSize diskSize f) (hsize : diskSize < 2 ^ 64) :
    numAt (byteAt f) 0 8 = diskSize ∧ numAt (byteAt f) 8 8 = 4096 := by
  obtain ⟨h1, h2⟩ := holds_append.1 h.header
  rw [length_le] at h2
  exact ⟨numAt_of_holds h1 (by omega), numAt_of_holds h2 (by decide)⟩

theorem HasSize.headerRead {f : Mem} (h : HasSize diskSize f) (hsize : diskSize < 2 ^ 64) (J : Junk) :
    (headerRead J (slice f 0 512)).diskSize = diskSize ∧ (headerRead J (slice f 0 512)).blockSize = 4096 := by
  have hlen : (slice f 0 512).length = min 512 f.length := length_slice ..
  have hlong := h.length
  have hfield : ∀ {pos : Nat}, pos + 8 ≤ 24 → unle (slice (store (tabulate J.header 512) 0 (slice f 0 512)) pos 8) =
      numAt (byteAt f) pos 8 := fun hp => by
    rw [← numAt_slice (by rw [length_store_of_le (by rw [length_tabulate]; omega), length_tabulate]; omega)]
    refine numAt_congr fun i _ hi => ?_
    rw [byteAt_store_inside (by omega) (by omega), byteAt_slice (by omega), Nat.zero_add, Nat.sub_zero]
  obtain ⟨h1, h2⟩ := h.numbers hsize
  exact ⟨(hfield (by decide)).trans h1, (hfield (by decide)).trans h2⟩

theorem openIndex_sized (hn : diskSize / 4096 < 2 ^ 31) {J : Junk} {readOnly : Bool} {h : DataHeader} {s : Os Event}
    (h1 : h.diskSize = diskSize) (h2 : h.blockSize = 4096) :
    wp (Logic.plain Event) (openIndex J readOnly h) (fun d _ => d.Sized diskSize) s := by
  have hsize : h.indexTableSize = tableBytes (diskSize / 4096) := by
    rw [DataHeader.indexTableSize, h1, h2, u64_of_lt (by omega), tableBytes, Nat.mul_comm]
    exact roundUp_sector (by omega)
  unfold openIndex
  rw [if_neg (by rw [h2]; decide)]
  simp only [Prog.bind_eq, Prog.sysRead_bind, Prog.mark_bind, Prog.pure_eq]
  refine wp_read_alone Logic.plain_alone ⟨fun _ => trivial, fun _ => ?_⟩
  refine ⟨h1, h2, by simp only [h2]; decide, ?_, fun hr => ?_, fun hr => ?_⟩
  · refine (length_decodeIndex _).trans ?_
    rw [hsize, length_store_of_le, length_zeros]
    rw [length_zeros, Option.getD_some, Os.chunk, length_slice]
    omega
  · simp only at hr
    simp only [hr, if_true, length_zeros, h1, h2]
  · simp only at hr
    simp only [hr, if_true, List.length_replicate, h1, h2]

theorem openDisk_sized (hn : diskSize / 4096 < 2 ^ 31) {J : Junk} {readOnly : Bool} {s : Os Event}
    (h : HasSize diskSize s.file) :
    wp (Logic.plain Event) (openDisk J readOnly) (fun r _ => ∃ d, r = some d ∧ d.Sized diskSize) s := by
  obtain ⟨h1, h2⟩ := h.headerRead (by omega) J
  rw [openDisk_eq]
  refine wp_opens_alone Logic.plain_alone (wp_read_alone Logic.plain_alone ⟨fun _ => trivial, fun _ => ?_⟩)
  exact wp_seq (openIndex_sized hn h1 h2) fun d s' hd => ⟨d, rfl, hd⟩

/-- Where the blocks of a request have numbers of an `int`, the loops use these and no others. -/
theorem TdRequest.uses_iff {q : TdRequest} {spb : Nat} (hspb : 0 < spb) (hwrap : q.sec + q.secs + spb < 2 ^ 64)
    (hint : ∀ b ∈ q.blocks spb, b < 2 ^ 31) {b : Nat} : q.Uses spb b ↔ b ∈ q.blocks spb := by
  have hcover := coverBlocks_eq hspb hwrap hint
  have hwrite := writePieces_eq hspb hwrap hint
  constructor
  · rintro (⟨bs, hbs, hb⟩ | ⟨h1, h2, hb⟩ | ⟨ps, hps, p, hp, rfl⟩)
    · obtain rfl := Option.some.inj (hcover.symm.trans hbs)
      exact hb
    · rwa [alignedBlocks_eq hspb hwrap h1 h2] at hb
    · obtain rfl := Option.some.inj (hwrite.symm.trans hps)
      obtain ⟨b, hb, rfl⟩ := List.mem_map.1 hp
      exact hb
  · exact fun hb => .inl ⟨_, hcover, hb⟩

section
variable (hn : diskSize / 4096 < 2 ^ 31)
include hn

/-- The blocks that an admitted request uses. -/
theorem admitted_uses {disk : PreservationDisk} (hd : disk.Sized diskSize) {q : TdRequest} (hq : q.Admitted disk) {b : Nat} :
    q.Uses disk.sectorsPerBlock b ↔ b ∈ q.blocks 8 := by
  have hin := hq.inside
  rw [pdSetDriverInfo, hd.diskSize, Nat.shiftRight_eq_div_pow] at hin
  rw [hd.sectorsPerBlock]
  refine TdRequest.uses_iff (by decide) (by omega) fun b hb => ?_
  have := (mem_blocksFrom.1 hb).2.2
  omega

omit hn in
/-- A whole number of blocks but for less than a sector: every block of an admitted request is one. -/
theorem admitted_lt (hfit : diskSize % 4096 < 512) {disk : PreservationDisk} (hd : disk.Sized diskSize) {q : TdRequest}
    (hq : q.Admitted disk) {b : Nat} (hb : b ∈ q.blocks 8) : b < diskSize / 4096 := by
  have hin := hq.inside
  rw [pdSetDriverInfo, hd.diskSize, Nat.shiftRight_eq_div_pow] at hin
  obtain ⟨h1, -, h3⟩ := mem_blocksFrom.1 hb
  omega

/-- Every sector that is advertised can be asked for. -/
theorem admitted_block {disk : PreservationDisk} (hd : disk.Sized diskSize) {b : Nat} (hb : 8 * b + 1 ≤ diskSize / 512) :
    (⟨8 * b, 1, fun _ => 0⟩ : TdRequest).Admitted disk ∧
      (⟨8 * b, 1, fun _ => 0⟩ : TdRequest).Uses disk.sectorsPerBlock b := by
  have hadm : (⟨8 * b, 1, fun _ => 0⟩ : TdRequest).Admitted disk := by
    refine ⟨?_, by simp only; decide⟩
    rw [pdSetDriverInfo, hd.diskSize, Nat.shiftRight_eq_div_pow]
    exact hb
  refine ⟨hadm, (admitted_uses hn hd hadm).2 (mem_blocksFrom.2 ?_)⟩
  simp only
  omega

end

/-! ## The driver -/

theorem mkimage_hasSize (diskSize : Nat) : HasSize diskSize (mkimage diskSize 4096) :=
  ⟨by simp [mkimage], fun i hi => by
    rw [mkimage, Nat.zero_add]
    exact byteAt_append_left hi⟩

/-- An opened disk of the size exists. -/
theorem exists_sized (hn : diskSize / 4096 < 2 ^ 31) {f : Mem} (hf : HasSize diskSize f) :
    ∃ disk s', Done (openDisk zeroJunk false) ⟨f, 0, []⟩ (some disk) s' ∧ disk.Sized diskSize := by
  obtain ⟨r, s', hdone, ⟨disk, rfl, hd⟩, -⟩ := wp_total trivial id
    (@openDisk_sized _ hn zeroJunk false ⟨f, 0, []⟩ hf) trivial
  exact ⟨disk, s', hdone, hd⟩

theorem driverInside_iff (hn : diskSize / 4096 < 2 ^ 31) : DriverInside diskSize ↔ diskSize % 4096 < 512 := by
  constructor
  · intro h
    obtain ⟨disk, s', hdone, hd⟩ := exists_sized hn (mkimage_hasSize diskSize)
    by_contra hlarge
    obtain ⟨hadm, huse⟩ := admitted_block hn hd (b := diskSize / 4096) (by omega)
    have := (h zeroJunk false _ _ disk (mkimage_hasSize diskSize) hdone _ hadm _ huse).block
    rw [hd.diskSize, hd.blockSize] at this
    omega
  · intro hfit J readOnly s s' disk hs hdone q hq b hb
    obtain ⟨_, ⟨rfl⟩, hd⟩ := wp_done (openDisk_sized hn hs) hdone (Assumed.of_forall (fun _ _ => trivial) _)
    have hlt := admitted_lt hfit hd hq ((admitted_uses hn hd hq).1 hb)
    have ht := tableBytes_bounds (diskSize / 4096)
    have hsize : disk.header.indexTableSize = tableBytes (diskSize / 4096) := by
      rw [DataHeader.indexTableSize, hd.diskSize, hd.blockSize, u64_of_lt (by omega), tableBytes, Nat.mul_comm]
      exact roundUp_sector (by omega)
    refine ⟨?_, ?_, fun hr => ?_, fun hr => ?_, ?_⟩
    · rw [hd.diskSize, hd.blockSize]; exact hlt
    · rw [hd.indexTable]; omega
    · rw [hd.indexCacheEnable hr, roundUp_char (by omega)]; omega
    · rw [hd.cachedDataSize hr]; exact hlt
    · rw [hsize]; omega

/-! ## The Java reader -/

/-- A database whose index has the entry `logStart` for block `b`. -/
def indexedImage (diskSize b : Nat) : Mem := store (mkimage diskSize 4096) (512 + 8 * b) (le 8 (logStart (diskSize / 4096)))

theorem indexedImage_hasSize (diskSize b : Nat) : HasSize diskSize (indexedImage diskSize b) := by
  have h := mkimage_hasSize diskSize
  refine ⟨Nat.le_trans h.length (le_length_store ..), h.header.congr fun i _ hi => ?_⟩
  simp only [List.length_append, length_le] at hi
  exact byteAt_store_outside (.inl (by omega))

theorem readerInside_iff (hn : diskSize / 4096 < 2 ^ 31) (hfit : diskSize % 4096 < 512) :
    ReaderInside diskSize ↔ diskSize / 4096 < 2 ^ 28 := by
  have hload : ∀ {f : Mem}, HasSize diskSize f →
      ∃ table, (PreservationDatabase.ofFile f).Loaded f (diskSize / 4096) table := fun hf => by
    obtain ⟨h1, h2⟩ := hf.numbers (by omega)
    exact ofFile_loaded h2 (by rw [h1]) hn
  constructor
  · intro h
    by_contra hlarge
    have hlost := loadedEntries_lt (diskSize / 4096)
    have hf := indexedImage_hasSize diskSize (diskSize / 4096 - 1)
    obtain ⟨disk, s', hdone, hd⟩ := exists_sized hn hf
    obtain ⟨hadm, huse⟩ := admitted_block hn hd (b := diskSize / 4096 - 1) (by omega)
    obtain ⟨table, htable, hget⟩ := h zeroJunk false _ _ disk hf hdone _ hadm _ huse
    obtain ⟨table', hL⟩ := hload hf
    obtain rfl : table' = table := Option.some.inj (hL.indexTable.symm.trans htable)
    have hentry := (hL.entries (diskSize / 4096 - 1) (by omega)).symm.trans hget
    have hstart := logStart_bounds (diskSize / 4096)
    have hstored : storedEntry (indexedImage diskSize (diskSize / 4096 - 1)) (diskSize / 4096 - 1) =
        logStart (diskSize / 4096) := numAt_of_holds (Holds.store _ _ _) (by omega)
    rw [if_neg (by omega), hstored, Java.long_of_lt (by omega)] at hentry
    have := Option.some.inj hentry
    omega
  · intro hsmall J readOnly s s' disk hs hdone q hq b hb
    obtain ⟨_, ⟨rfl⟩, hd⟩ := wp_done (openDisk_sized hn hs) hdone (Assumed.of_forall (fun _ _ => trivial) _)
    have hlt := admitted_lt hfit hd hq ((admitted_uses hn hd hq).1 hb)
    obtain ⟨table, hL⟩ := hload hs
    refine ⟨table, hL.indexTable, ?_⟩
    rw [hL.entries b hlt, if_pos (by rw [loadedEntries_eq hsmall]; exact hlt)]

/-- **Every admitted request stays inside the index** of the driver exactly when the part of the disk
past its last whole block has no whole sector, and inside what the Java reader loads exactly when there
are also fewer than `2 ^ 28` blocks. -/
theorem requests_inside {diskSize : Nat} (hn : diskSize / 4096 < 2 ^ 31) :
    (DriverInside diskSize ↔ diskSize % 4096 < 512) ∧
    (DriverInside diskSize ∧ ReaderInside diskSize ↔ diskSize % 4096 < 512 ∧ diskSize / 4096 < 2 ^ 28) := by
  have hdriver := driverInside_iff hn
  refine ⟨hdriver, ?_⟩
  constructor
  · rintro ⟨h1, h2⟩
    have hfit := hdriver.1 h1
    exact ⟨hfit, (readerInside_iff hn hfit).1 h2⟩
  · rintro ⟨hfit, hsmall⟩
    exact ⟨hdriver.2 hfit, (readerInside_iff hn hfit).2 hsmall⟩

/-- A hundred blocks and 100 bytes, and a hundred blocks and a sector. -/
theorem requests_inside_hundred : DriverInside 409700 ∧ ReaderInside 409700 ∧ ¬DriverInside 410112 := by
  obtain ⟨hd, hr⟩ := (@requests_inside 409700 (by decide)).2.2 (by decide)
  exact ⟨hd, hr, fun h => absurd ((@requests_inside 410112 (by decide)).1.1 h) (by decide)⟩

/-- A disk of nine sectors: the ninth lies in block 1, of which there is no entry. -/
theorem requests_outside : ¬ ∀ diskSize, 0 < diskSize → diskSize / 4096 < 2 ^ 31 →
    DriverInside diskSize ∧ ReaderInside diskSize := by
  intro h
  have hinside := (h 4608 (by decide) (by decide)).1
  rw [driverInside_iff (by decide)] at hinside
  revert hinside
  decide

end

end LogDrive
