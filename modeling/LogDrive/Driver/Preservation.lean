import LogDrive.Driver.Utils

/-!
# The preservation disk (`preservation.c`, `preservation.h`, the two block drivers)

A database file starts with a header and an index of 8 bytes a block, followed by the entries. An
entry is a 32-byte `entry_header` and the block's bytes up to its trailing zeros; `next` is the
offset of the entry that the block had before.

`PreservationDisk` is the state of one session. Arrays that the code allocates are lists of the
allocated length, so an access past the allocation is `undefined`, as is a division by zero. The
reading of the clock and the padding of the header structure are data of a request. The memory
around the pointer `treq->buf` is a function of the signed distance from it. `fuel` bounds the
loops; a loop that uses it up is `spin`.
-/

set_option autoImplicit false

open Bytes
open Prog (sysOpen sysLseek sysRead sysWrite mark)

namespace LogDrive

/-! ## Conversions between integer types -/

/-- `(int) i`, and the result of an `int` multiplication. -/
def toInt (i : Int) : Int := Int.bmod i (2 ^ 32)

/-- The conversion to `uint64_t`. -/
def toU64 (i : Int) : Nat := (i % 2 ^ 64).toNat

/-! ## The structures on disk -/

structure TimeSpec where
  tvSec : Int64
  tvNsec : Int64
  deriving DecidableEq

/-- `header.ts.tv_sec < ts->tv_sec || (header.ts.tv_sec == ts->tv_sec && ...)`. -/
def TimeSpec.before (a b : TimeSpec) : Bool :=
  decide (a.tvSec < b.tvSec) || (decide (a.tvSec = b.tvSec) && decide (a.tvNsec < b.tvNsec))

def encodeInt64 (i : Int64) : Mem := le 8 i.toUInt64.toNat
def decodeInt64 (m : Mem) : Int64 := (UInt64.ofNat (unle m)).toInt64

/-- `struct entry_header` with its six bytes of padding. -/
structure EntryHeader where
  ts : TimeSpec
  next : Nat
  dataSize : Nat
  pad : Mem
  deriving DecidableEq

def EntryHeader.toBytes (h : EntryHeader) : Mem :=
  encodeInt64 h.ts.tvSec ++ encodeInt64 h.ts.tvNsec ++ le 8 h.next ++ le 2 h.dataSize ++ h.pad

def EntryHeader.ofBytes (m : Mem) : EntryHeader where
  ts := ⟨decodeInt64 (slice m 0 8), decodeInt64 (slice m 8 8)⟩
  next := unle (slice m 16 8)
  dataSize := unle (slice m 24 2)
  pad := slice m 26 6

/-- `struct data_header`, and what else lies in the sector allocated for it. -/
structure DataHeader where
  diskSize : Nat
  blockSize : Nat
  nextOffset : Nat
  rest : Mem
  deriving DecidableEq

def DataHeader.toBytes (h : DataHeader) : Mem :=
  le 8 h.diskSize ++ le 8 h.blockSize ++ le 8 h.nextOffset ++ h.rest

def DataHeader.ofBytes (m : Mem) : DataHeader where
  diskSize := unle (slice m 0 8)
  blockSize := unle (slice m 8 8)
  nextOffset := unle (slice m 16 8)
  rest := slice m 24 (m.length - 24)

/-- `ROUND_UPPED_DATA_HEADER_SIZE`. -/
abbrev roundUppedDataHeaderSize : Nat := 512

def encodeIndex (table : List Nat) : Mem := table.flatMap (le 8)

def decodeIndex (m : Mem) : List Nat := (List.range (m.length / 8)).map fun i => unle (slice m (8 * i) 8)

/-- The file that `mkimage.rb` writes. -/
def mkimage (diskSize blockSize : Nat) : Mem :=
  le 8 diskSize ++ le 8 blockSize ++ le 8 (512 + (diskSize / blockSize * 8 + 511) / 512 * 512)

/-! ## A session -/

structure PreservationDisk where
  header : DataHeader
  bio : BufferedIo
  readOnly : Bool
  ts : TimeSpec
  sectorsPerBlock : Nat
  indexTable : List Nat
  indexCacheEnable : Mem
  cachedDataSize : List Nat

/-- `index_table_size`, in bytes. -/
def DataHeader.indexTableSize (h : DataHeader) : Nat :=
  roundUp (u64 (h.diskSize / h.blockSize * 8)) defaultSectorSize

/-- The part of `open_disk` after the header has been read. The index is read from where the
descriptor is: nothing seeks to it. -/
def openIndex (J : Junk) (readOnly : Bool) (header : DataHeader) : Prog Event PreservationDisk :=
  if header.blockSize = 0 then .undefined
  else do
    let blocks := header.diskSize / header.blockSize
    let got ← sysRead header.indexTableSize
    mark .indexRead
    pure {
      header := header
      bio := bioInit J readOnly header.nextOffset
      readOnly := readOnly
      ts := ⟨0, 0⟩
      sectorsPerBlock := header.blockSize / defaultSectorSize
      indexTable := decodeIndex (store (zeros header.indexTableSize) 0 (got.getD []))
      indexCacheEnable := if readOnly then zeros (roundUp blocks 8) else []
      cachedDataSize := if readOnly then List.replicate blocks 0 else [] }

/-- `none` is the result `-1`. The results of the reads are not looked at. -/
def openDisk (J : Junk) (readOnly : Bool) : Prog Event (Option PreservationDisk) := do
  if ← sysOpen then
    let got ← sysRead roundUppedDataHeaderSize
    mark .headerRead
    let disk ← openIndex J readOnly (DataHeader.ofBytes
      (store (tabulate J.header roundUppedDataHeaderSize) 0 (got.getD [])))
    pure (some disk)
  else pure none

def pdInitialize (J : Junk) : Prog Event (Option PreservationDisk) := openDisk J false

def pdInitializeReadOnly (J : Junk) (ts : TimeSpec) : Prog Event (Option PreservationDisk) := do
  let disk ← openDisk J true
  pure (disk.map fun d => { d with ts := ts })

/-- What `pd_set_driver_info` advertises: the number of sectors and their size. -/
def pdSetDriverInfo (disk : PreservationDisk) : Nat × Nat :=
  (disk.header.diskSize >>> 9, defaultSectorSize)

def pdFinalize (disk : PreservationDisk) : Prog Event Unit := do
  mark .finalizing
  let (offset, _) ← bioFinalize disk.bio
  if disk.readOnly then mark .closed
  else if disk.header.blockSize = 0 then .undefined
  else
    sysLseek 0
    let _ ← sysWrite { disk.header with nextOffset := offset }.toBytes
    sysLseek roundUppedDataHeaderSize
    mark (.indexing disk.indexTable)
    let bytes ← copyFrom (encodeIndex disk.indexTable) 0 disk.header.indexTableSize
    let _ ← sysWrite bytes
    mark .closed

/-! ## Reading a block -/

/-- The loop of `get_actual_data_size`: `result` is the size that is still in question. -/
def actualDataSize (buf : Mem) : Nat → Nat
  | 0 => 0
  | result + 1 =>
    if byteAt buf result ≠ 0 then
      if (result + 1) % 16 ≠ 0 then result + 1 + (16 - (result + 1) % 16) else result + 1
    else actualDataSize buf result

def getActualDataSize (disk : PreservationDisk) (buf : Mem) : Nat :=
  actualDataSize buf disk.header.blockSize

/-- `index_table[block]`. -/
def indexAt (disk : PreservationDisk) (block : Nat) : Prog Event Nat :=
  match disk.indexTable[block]? with
  | some offset => pure offset
  | none => .undefined

/-- `memset(buf + start, 0, size)`. -/
def clearFrom (buf : Mem) (start size : Nat) : Prog Event Mem :=
  if start + size ≤ buf.length then pure (store buf start (zeros size)) else .undefined

/-- `bio_read` into `buf`, whose result is not looked at. -/
def bioReadInto (bio : BufferedIo) (pos : Nat) (buf : Mem) (size : Nat) :
    Prog Event (Mem × BufferedIo) := do
  let (got, bio) ← bioRead bio pos size
  match got with
  | none => pure (buf, bio)
  | some bytes =>
    if bytes.length ≤ buf.length then pure (store buf 0 bytes, bio) else .undefined

/-- Reads the payload at `offset` into `buf` and fills the block up with zeros. -/
def readPayload (disk : PreservationDisk) (buf : Mem) (offset dataSize : Nat) :
    Prog Event (Int × Mem × PreservationDisk) := do
  let (buf, bio) ← bioReadInto disk.bio (u64 (offset + entryHeaderSize)) buf dataSize
  if dataSize ≤ disk.header.blockSize then
    let buf ← clearFrom buf dataSize (disk.header.blockSize - dataSize)
    pure (0, buf, { disk with bio := bio })
  else .undefined

/-- The loop over the versions of a block: the offset of the first one before `ts` (0 for none) and
the size in the header read last. -/
def searchVersion (ts : TimeSpec) : Nat → BufferedIo → Nat → Mem → Nat →
    Prog Event (Nat × Nat × BufferedIo)
  | 0, _, _, _, _ => .spin
  | fuel + 1, bio, offset, header, dataSize =>
    if offset = 0 then pure (offset, dataSize, bio)
    else do
      let (header, bio) ← bioReadInto bio offset header entryHeaderSize
      let h := EntryHeader.ofBytes header
      if h.ts.before ts then pure (offset, h.dataSize, bio)
      else searchVersion ts fuel bio h.next header h.dataSize

/-- The bit of `block` in `index_cache_enable`. -/
def cacheBit (block : Nat) : UInt8 := 1 <<< UInt8.ofNat (block % 8)

def readCurrentBlock (J : Junk) (fuel : Nat) (disk : PreservationDisk) (buf : Mem) (block : Nat) :
    Prog Event (Int × Mem × PreservationDisk) := do
  let offset ← indexAt disk block
  match disk.indexCacheEnable[block / 8]?, disk.cachedDataSize[block]? with
  | some bits, some cached =>
    let (offset, dataSize, disk) ← (if bits &&& cacheBit block = 0 then do
        let (offset, dataSize, bio) ←
          searchVersion disk.ts fuel disk.bio offset (tabulate J.entryHeader entryHeaderSize) J.dataSize
        mark (.cached block offset (dataSize % 2 ^ 16))
        pure (offset, dataSize, { disk with
          bio := bio
          indexTable := disk.indexTable.set block offset
          indexCacheEnable := disk.indexCacheEnable.set (block / 8) (bits ||| cacheBit block)
          cachedDataSize := disk.cachedDataSize.set block (dataSize % 2 ^ 16) })
      else pure (offset, cached, disk))
    if offset ≠ 0 ∧ dataSize > 0 then readPayload disk buf offset dataSize
    else
      let buf ← clearFrom buf 0 disk.header.blockSize
      pure (0, buf, disk)
  | _, _ => .undefined

def readLatestBlock (J : Junk) (disk : PreservationDisk) (buf : Mem) (block : Nat) :
    Prog Event (Int × Mem × PreservationDisk) := do
  let offset ← indexAt disk block
  if offset = 0 then
    let buf ← clearFrom buf 0 disk.header.blockSize
    pure (0, buf, disk)
  else
    let (header, bio) ←
      bioReadInto disk.bio offset (tabulate J.entryHeader entryHeaderSize) entryHeaderSize
    let disk := { disk with bio := bio }
    let dataSize := (EntryHeader.ofBytes header).dataSize
    if dataSize = 0 then
      let buf ← clearFrom buf 0 disk.header.blockSize
      pure (0, buf, disk)
    else readPayload disk buf offset dataSize

/-! ## Requests -/

/-- `td_request_t`: the first sector, the number of sectors and the memory around `buf`. -/
structure TdRequest where
  sec : Nat
  secs : Nat
  buf : Int → UInt8

/-- `read_block_t`. -/
abbrev ReadBlock := PreservationDisk → Mem → Nat → Prog Event (Int × Mem × PreservationDisk)

/-- `disk->read_only ? read_current_block : read_latest_block`. -/
def readBlockOf (J : Junk) (fuel : Nat) (disk : PreservationDisk) : ReadBlock :=
  if disk.readOnly then readCurrentBlock J fuel else readLatestBlock J

/-- The loop of `pd_read` over whole blocks: `count` blocks from the `i`th one on. The bytes
returned are those that have been stored in the caller's buffer. -/
def pdReadBlocks (readBlock : ReadBlock) (treq : TdRequest) :
    Nat → Nat → PreservationDisk → Prog Event (Int × Mem × PreservationDisk)
  | 0, _, disk => pure (0, [], disk)
  | count + 1, i, disk => do
    let blockSize := disk.header.blockSize
    let block := u64 (treq.sec / disk.sectorsPerBlock + i)
    let (r, bytes, disk) ←
      readBlock disk (tabulate (fun k => treq.buf (i * blockSize + k)) blockSize) block
    if r = -1 then pure (-1, bytes, disk)
    else
      let (r, rest, disk) ← pdReadBlocks readBlock treq count (i + 1) disk
      pure (r, bytes ++ rest, disk)

/-- The loop of `pd_read` over the blocks that a request touches, into the local `buf`. -/
def pdReadCover (readBlock : ReadBlock) (treq : TdRequest) :
    Nat → PreservationDisk → Nat → Nat → Mem → Prog Event (Int × Mem × PreservationDisk)
  | 0, _, _, _, _ => .spin
  | fuel + 1, disk, sector, readBlocks, buf =>
    if sector < u64 (treq.sec + treq.secs) then do
      let block := toU64 (toInt (sector / disk.sectorsPerBlock))
      let start := readBlocks * (defaultSectorSize * disk.sectorsPerBlock)
      if start ≤ buf.length then
        let (r, bytes, disk) ← readBlock disk (buf.drop start) block
        if r = -1 then pure (-1, buf, disk)
        else
          pdReadCover readBlock treq fuel disk (u64 ((block + 1) * disk.sectorsPerBlock))
            (readBlocks + 1) (buf.take start ++ bytes)
      else .undefined
    else pure (0, buf, disk)

/-- The result, the bytes stored in the caller's buffer, and the disk. -/
def pdRead (J : Junk) (fuel : Nat) (disk : PreservationDisk) (treq : TdRequest) :
    Prog Event (Int × Mem × PreservationDisk) :=
  let spb := disk.sectorsPerBlock
  let readBlock := readBlockOf J fuel disk
  if spb = 0 then .undefined
  else if treq.sec % spb = 0 ∧ treq.secs % spb = 0 then
    pdReadBlocks readBlock treq (treq.secs / spb) 0 disk
  else do
    let (r, buf, disk) ←
      pdReadCover readBlock treq (treq.secs + 1) disk treq.sec 0 (zeros (defaultBlockSize * 2))
    if r = -1 then pure (-1, [], disk)
    else
      let bytes ← copyFrom buf (treq.sec % spb * defaultSectorSize) (treq.secs * defaultSectorSize)
      pure (0, bytes, disk)

/-- One write request with what the clock reads and the padding of its entry headers. -/
structure WriteRequest extends TdRequest where
  ts : TimeSpec
  pad : Nat → UInt8

/-- `treq->buf + (treq->secs - remain_sectors - current_update_sectors) * DEFAULT_SECTOR_SIZE`; the
product is an `int`. -/
def TdRequest.source (treq : TdRequest) (done size : Nat) : Mem :=
  tabulate (fun k => treq.buf (toInt (done * defaultSectorSize) + k)) size

/-- The body of the loop of `pd_write`: `size` bytes of the block from `start` on come from the
request, of which `done` sectors lie before them. `buf` is the local buffer of an entry header and a
block. -/
def pdWriteBlock (J : Junk) (q : WriteRequest) (disk : PreservationDisk) (block start size done : Nat)
    (buf : Mem) : Prog Event (Int × PreservationDisk × Mem) := do
  let (r, data, disk) ← readLatestBlock J disk (buf.drop entryHeaderSize) block
  if r = -1 then pure (-1, disk, buf)
  else if start + size ≤ data.length then
    let data := store data start (q.source done size)
    let dataSize := getActualDataSize disk data
    let next ← indexAt disk block
    let header : EntryHeader := ⟨q.ts, next, dataSize % 2 ^ 16, tabulate q.pad 6⟩
    let buf := header.toBytes ++ data
    if dataSize = 0 ∧ next = 0 then pure (0, disk, buf)
    else
      let bytes ← copyFrom buf 0 (entryHeaderSize + dataSize)
      let (offset, bio) ← bioWrite disk.bio bytes
      mark (.indexed block offset)
      pure (0, { disk with bio := bio, indexTable := disk.indexTable.set block offset }, buf)
  else .undefined

def pdWriteLoop (J : Junk) (q : WriteRequest) :
    Nat → PreservationDisk → Nat → Nat → Mem → Prog Event (Int × PreservationDisk)
  | 0, _, _, _, _ => .spin
  | fuel + 1, disk, sector, remain, buf =>
    let spb := disk.sectorsPerBlock
    if sector < u64 (q.sec + q.secs) then
      if spb = 0 then .undefined
      else do
        let block := toU64 (toInt (sector / spb))
        let current := if spb - sector % spb < remain then spb - sector % spb else remain
        let remain := remain - current
        let (r, disk, buf) ← pdWriteBlock J q disk block (sector % spb * defaultSectorSize)
          (current * defaultSectorSize) (q.secs - remain - current) buf
        if r = -1 then pure (-1, disk)
        else pdWriteLoop J q fuel disk (u64 ((block + 1) * spb)) remain buf
    else pure (0, disk)

def pdWrite (J : Junk) (disk : PreservationDisk) (q : WriteRequest) :
    Prog Event (Int × PreservationDisk) :=
  pdWriteLoop J q (q.secs + 1) disk q.sec q.secs (zeros (entryHeaderSize + defaultBlockSize))

/-! ## The block drivers -/

/-- `EBUSY`. -/
def ebusy : Int := 16

/-- `td_queue_read` of both drivers: what the request is completed with. -/
def queueRead (J : Junk) (fuel : Nat) (disk : PreservationDisk) (treq : TdRequest) :
    Prog Event (Int × Mem × PreservationDisk) := do
  let (r, bytes, disk) ← pdRead J fuel disk treq
  if r = -1 then pure (-ebusy, bytes, disk) else pure (0, bytes, disk)

def tdpreservationQueueRead (J : Junk) (disk : PreservationDisk) (treq : TdRequest) :
    Prog Event (Int × Mem × PreservationDisk) := queueRead J 0 disk treq

def tdtimetravelQueueRead (J : Junk) (fuel : Nat) (disk : PreservationDisk) (treq : TdRequest) :
    Prog Event (Int × Mem × PreservationDisk) := queueRead J fuel disk treq

def tdpreservationQueueWrite (J : Junk) (disk : PreservationDisk) (q : WriteRequest) :
    Prog Event (Int × PreservationDisk) := do
  let (r, disk) ← pdWrite J disk q
  if r = -1 then pure (-ebusy, disk) else pure (0, disk)

/-- `tdpreservation_close` and `tdtimetravel_close`. -/
def tdClose (disk : PreservationDisk) : Prog Event Int := do
  pdFinalize disk
  pure 0

end LogDrive
