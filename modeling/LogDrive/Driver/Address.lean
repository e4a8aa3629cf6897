import LogDrive.Driver.Log

/-!
# Which blocks a request goes to

The control of the three loops over blocks, without what they do to a block: `alignedBlocks` and
`coverBlocks` are the blocks that the two paths of `pd_read` read, `writePieces` what `pd_write`
writes in each block. `readAligned`, `readCovered` and `writeEach` do a loop's work for a given list;
the loops of the source are these (`Proof/Address.lean`).

`TdRequest.blocks` and `TdRequest.pieces` say what the loops are for: the blocks that hold a sector of
the request in order, and the part of the request that lies in each.
-/

set_option autoImplicit false

open Bytes

namespace LogDrive

/-! ## The loops -/

/-- `block = (int) (sector/disk->sectors_per_block)`. -/
def blockOf (spb sector : Nat) : Nat := toU64 (toInt (sector / spb))

def alignedBlocks (spb : Nat) (treq : TdRequest) : List Nat :=
  (List.range (treq.secs / spb)).map fun i => u64 (treq.sec / spb + i)

/-- From `sector` on; `none` when the fuel is used up. -/
def coverBlocks (spb : Nat) (treq : TdRequest) : Nat → Nat → Option (List Nat)
  | 0, _ => none
  | fuel + 1, sector =>
    if sector < u64 (treq.sec + treq.secs) then
      (coverBlocks spb treq fuel (u64 ((blockOf spb sector + 1) * spb))).map (blockOf spb sector :: ·)
    else some []

/-- What one iteration of `pd_write` writes: `size` bytes of the block from `start` on, of which
`done` sectors of the request lie before. -/
structure Piece where
  block : Nat
  start : Nat
  size : Nat
  done : Nat
  deriving DecidableEq

def writePieces (spb : Nat) (treq : TdRequest) : Nat → Nat → Nat → Option (List Piece)
  | 0, _, _ => none
  | fuel + 1, sector, remain =>
    if sector < u64 (treq.sec + treq.secs) then
      let current := if spb - sector % spb < remain then spb - sector % spb else remain
      let remain := remain - current
      (writePieces spb treq fuel (u64 ((blockOf spb sector + 1) * spb)) remain).map
        (⟨blockOf spb sector, sector % spb * defaultSectorSize, current * defaultSectorSize,
          treq.secs - remain - current⟩ :: ·)
    else some []

/-! ## The work -/

def readAligned (readBlock : ReadBlock) (treq : TdRequest) :
    List Nat → Nat → PreservationDisk → Prog Event (Int × Mem × PreservationDisk)
  | [], _, disk => pure (0, [], disk)
  | block :: blocks, i, disk => do
    let blockSize := disk.header.blockSize
    let (r, bytes, disk) ← readBlock disk (tabulate (fun k => treq.buf (i * blockSize + k)) blockSize) block
    if r = -1 then pure (-1, bytes, disk)
    else
      let (r, rest, disk) ← readAligned readBlock treq blocks (i + 1) disk
      pure (r, bytes ++ rest, disk)

def readCovered (readBlock : ReadBlock) (spb : Nat) :
    List Nat → PreservationDisk → Nat → Mem → Prog Event (Int × Mem × PreservationDisk)
  | [], disk, _, buf => pure (0, buf, disk)
  | block :: blocks, disk, readBlocks, buf => do
    let start := readBlocks * (defaultSectorSize * spb)
    if start ≤ buf.length then
      let (r, bytes, disk) ← readBlock disk (buf.drop start) block
      if r = -1 then pure (-1, buf, disk)
      else readCovered readBlock spb blocks disk (readBlocks + 1) (buf.take start ++ bytes)
    else .undefined

def writeEach (J : Junk) (q : WriteRequest) :
    List Piece → PreservationDisk → Mem → Prog Event (Int × PreservationDisk)
  | [], disk, _ => pure (0, disk)
  | piece :: pieces, disk, buf => do
    let (r, disk, buf) ← pdWriteBlock J q disk piece.block piece.start piece.size piece.done buf
    if r = -1 then pure (-1, disk) else writeEach J q pieces disk buf

/-- The second path of `pd_read`. -/
def pdReadUnaligned (readBlock : ReadBlock) (treq : TdRequest) (disk : PreservationDisk) :
    Prog Event (Int × Mem × PreservationDisk) := do
  let spb := disk.sectorsPerBlock
  let (r, buf, disk) ← pdReadCover readBlock treq (treq.secs + 1) disk treq.sec 0 (zeros (defaultBlockSize * 2))
  if r = -1 then pure (-1, [], disk)
  else
    let bytes ← copyFrom buf (treq.sec % spb * defaultSectorSize) (treq.secs * defaultSectorSize)
    pure (0, bytes, disk)

/-! ## The purpose -/

/-- The blocks that hold a sector from `sector` on, up to `stop`. -/
def blocksFrom (spb sector stop : Nat) : List Nat :=
  if sector < stop then List.range' (sector / spb) ((stop - 1) / spb + 1 - sector / spb) else []

def TdRequest.blocks (treq : TdRequest) (spb : Nat) : List Nat := blocksFrom spb treq.sec (treq.sec + treq.secs)

/-- The part of the request that lies in block `b`. -/
def TdRequest.piece (treq : TdRequest) (spb b : Nat) : Piece :=
  let first := max treq.sec (b * spb)
  ⟨b, (first - b * spb) * 512, (min (treq.sec + treq.secs) ((b + 1) * spb) - first) * 512, first - treq.sec⟩

def TdRequest.pieces (treq : TdRequest) (spb : Nat) : List Piece := (treq.blocks spb).map (treq.piece spb)

/-- A reader of blocks that gives the contents `c` and changes nothing. -/
def delivers (c : Nat → Mem) : ReadBlock := fun disk buf block =>
  if (c block).length ≤ buf.length then .ret (0, store buf 0 (c block), disk) else .undefined

/-- The bytes that blocks of `spb` sectors with the contents `c` have for a request. -/
def diskBytes (c : Nat → Mem) (spb : Nat) (treq : TdRequest) : Mem :=
  tabulate (fun k => byteAt (c ((treq.sec * 512 + k) / (512 * spb))) ((treq.sec * 512 + k) % (512 * spb)))
    (treq.secs * 512)

/-- The request cut into parts of the given numbers of sectors. -/
def TdRequest.parts (treq : TdRequest) : List Nat → List TdRequest
  | [] => []
  | secs :: rest =>
    { treq with secs := secs } ::
      TdRequest.parts ⟨treq.sec + secs, treq.secs - secs, fun k => treq.buf (k + (secs * 512 : Nat))⟩ rest

/-- Reads the parts one after the other through the second path. -/
def readParts (readBlock : ReadBlock) :
    List TdRequest → PreservationDisk → Prog Event (Int × Mem × PreservationDisk)
  | [], disk => pure (0, [], disk)
  | part :: parts, disk => do
    let (r, bytes, disk) ← pdReadUnaligned readBlock part disk
    if r = -1 then pure (-1, bytes, disk)
    else
      let (r, rest, disk) ← readParts readBlock parts disk
      pure (r, bytes ++ rest, disk)

/-- The contents after the pieces of a write request have been stored, each from where `pd_write` takes
it in the caller's buffer. -/
def storePieces (treq : TdRequest) : List Piece → (Nat → Mem) → Nat → Mem
  | [], c => c
  | p :: ps, c => storePieces treq ps
      (Function.update c p.block (store (c p.block) p.start (treq.source p.done p.size)))

/-- The byte that a write request has for byte `k` of the disk, whose byte was `old`. -/
def TdRequest.over (treq : TdRequest) (k : Nat) (old : UInt8) : UInt8 :=
  if treq.Covers (k / 512) then treq.buf (k - treq.sec * 512 : Nat) else old

/-- **The three address computations agree** on a request: each loop goes through the blocks that hold
its sectors, in order, and ends after the last one. -/
structure AddressesAgree (spb : Nat) (treq : TdRequest) : Prop where
  cover : coverBlocks spb treq (treq.secs + 1) treq.sec = some (treq.blocks spb)
  write : writePieces spb treq (treq.secs + 1) treq.sec treq.secs = some (treq.pieces spb)
  aligned : treq.sec % spb = 0 → treq.secs % spb = 0 → alignedBlocks spb treq = treq.blocks spb
  /-- The loops of `pd_read` and `pd_write` are these. -/
  loops : ∀ J fuel (d disk : PreservationDisk) ts pad buf, disk.sectorsPerBlock = spb →
    pdReadCover (readBlockOf J fuel d) treq (treq.secs + 1) disk treq.sec 0 buf =
      readCovered (readBlockOf J fuel d) spb (treq.blocks spb) disk 0 buf ∧
    pdWriteLoop J ⟨treq, ts, pad⟩ (treq.secs + 1) disk treq.sec treq.secs buf =
      writeEach J ⟨treq, ts, pad⟩ (treq.pieces spb) disk buf ∧
    (treq.sec % spb = 0 → treq.secs % spb = 0 →
      pdReadBlocks (readBlockOf J fuel d) treq (treq.secs / spb) 0 disk =
        readAligned (readBlockOf J fuel d) treq (treq.blocks spb) 0 disk)
  /-- Whole blocks read at once are their parts read one after the other. -/
  reads : ∀ c (disk : PreservationDisk), (∀ b, (c b).length = 512 * spb) → disk.sectorsPerBlock = spb →
    disk.header.blockSize = 512 * spb → treq.sec % spb = 0 → treq.secs % spb = 0 → treq.secs ≤ 8 →
    pdReadBlocks (delivers c) treq (treq.secs / spb) 0 disk = .ret (0, diskBytes c spb treq, disk) ∧
    ∀ cuts : List Nat, cuts.sum = treq.secs →
      readParts (delivers c) (treq.parts cuts) disk = .ret (0, diskBytes c spb treq, disk)
  /-- What has been written is read, up to 2 GiB a request. -/
  seen : treq.secs ≤ 2 ^ 22 → ∀ c (q : TdRequest) k, (∀ b, (c b).length = 512 * spb) → k < q.secs * 512 →
    byteAt (diskBytes (storePieces treq (treq.pieces spb) c) spb q) k =
      treq.over (q.sec * 512 + k) (byteAt (diskBytes c spb q) k)

end LogDrive
