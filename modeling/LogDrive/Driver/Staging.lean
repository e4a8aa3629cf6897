import LogDrive.Driver.Address

/-!
# The local buffers of `pd_read` and `pd_write`

Both functions go through blocks of `512 * spb` bytes with a local buffer whose size is given in blocks
of `DEFAULT_BLOCK_SIZE` bytes: `pd_read` has two of them for the blocks that a request touches, `pd_write`
one behind an entry header. `StagingFits` says that this is enough for a request.
-/

set_option autoImplicit false

open Bytes

namespace LogDrive

/-- The second path of `pd_read` with the local buffer `buf`. -/
def pdReadStaged (readBlock : ReadBlock) (treq : TdRequest) (buf : Mem) (disk : PreservationDisk) :
    Prog Event (Int × Mem × PreservationDisk) := do
  let spb := disk.sectorsPerBlock
  let (r, buf, disk) ← pdReadCover readBlock treq (treq.secs + 1) disk treq.sec 0 buf
  if r = -1 then pure (-1, [], disk)
  else
    let bytes ← copyFrom buf (treq.sec % spb * defaultSectorSize) (treq.secs * defaultSectorSize)
    pure (0, bytes, disk)

/-- Where in the caller's buffer the bytes lie that one turn of `pd_write` takes. -/
def Piece.taken (p : Piece) : List Int :=
  (List.range p.size).map fun k : Nat => toInt (p.done * defaultSectorSize) + k

/-- **The local buffers are large enough** for a request on a disk with blocks of `512 * spb` bytes. -/
structure StagingFits (spb : Nat) (q : TdRequest) : Prop where
  /-- The unaligned path of `pd_read`: the blocks of the request lie one after the other in the buffer,
  and what is copied to the caller lies in them. -/
  read : ¬(q.sec % spb = 0 ∧ q.secs % spb = 0) → ∃ fuel blocks, coverBlocks spb q fuel q.sec = some blocks ∧
    (∀ b ∈ blocks, b ∈ q.blocks spb) ∧ blocks.length * (512 * spb) ≤ defaultBlockSize * 2 ∧
    ∀ k < q.secs * 512, q.sec % spb * 512 + k < blocks.length * (512 * spb)
  /-- `pd_write`: every turn changes a part of a block of the request, and the turns together take the
  caller's bytes in order, each once. -/
  write : ∃ fuel pieces, writePieces spb q fuel q.sec q.secs = some pieces ∧
    (∀ p ∈ pieces, p.block ∈ q.blocks spb ∧ p.start + p.size ≤ 512 * spb) ∧
    pieces.flatMap Piece.taken = (List.range (q.secs * 512)).map fun k : Nat => (k : Int)
  /-- The entry that a turn appends. -/
  append : ∀ (disk : PreservationDisk) (data : Mem), disk.header.blockSize = 512 * spb →
    entryHeaderSize + getActualDataSize disk data ≤ entryHeaderSize + defaultBlockSize
  /-- A whole run of the unaligned path is the same with any larger buffer, whatever lies in it. -/
  readRoom : ∀ (J : Junk) (fuel : Nat) (d disk : PreservationDisk) (buf : Mem) (r : Int × Mem × PreservationDisk)
    (s s' : Os Event), disk.sectorsPerBlock = spb → disk.header.blockSize = 512 * spb → defaultBlockSize * 2 ≤ buf.length →
    (Done (pdReadUnaligned (readBlockOf J fuel d) q disk) s r s' ↔
      Done (pdReadStaged (readBlockOf J fuel d) q buf disk) s r s')
  /-- And so is a whole run of `pd_write`. -/
  writeRoom : ∀ (J : Junk) (ts : TimeSpec) (pad : Nat → UInt8) (disk : PreservationDisk) (buf : Mem)
    (r : Int × PreservationDisk) (s s' : Os Event), disk.sectorsPerBlock = spb → disk.header.blockSize = 512 * spb →
    entryHeaderSize + defaultBlockSize ≤ buf.length →
    (Done (pdWrite J disk ⟨q, ts, pad⟩) s r s' ↔
      Done (pdWriteLoop J ⟨q, ts, pad⟩ (q.secs + 1) disk q.sec q.secs buf) s r s')

end LogDrive
