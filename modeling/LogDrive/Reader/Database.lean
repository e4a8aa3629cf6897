import LogDrive.Reader.Record

/-!
# The database as the Java programs read it (`preservationDatabase.java`)

`PreservationDatabase.ofFile` is the constructor: an exception that it throws is caught inside, which
leaves the fields as they were set before it. `getNumOfRecord`, `getRecord` and `getRecordSequence`
follow the chain of a block; they catch exceptions too. An array of headers or data is reused by the
reads of one call, so what a read past the end of the file does not fill keeps its bytes.
-/

set_option autoImplicit false

open Bytes Java

namespace LogDrive

structure PreservationDatabase where
  file : Mem
  diskSize : Int
  blockSize : Int
  nextOffset : Nat
  dataStartOffset : Int
  indexTableNum : Int
  /-- `null` until the array has been allocated. -/
  indexTable : Option (List Int)

/-! ## The constructor -/

abbrev databaseHeaderLength : Nat := 24
abbrev indexOffset : Int := 512
abbrev byteNum : Int := 8

/-- `index_table[i] = convertBinaryToInt(buf)` for `count` entries from the `i`th on, up to the
exception that ends the loop. -/
def loadIndex (binary : Mem) : Nat → Nat → List Int → List Int
  | 0, _, table => table
  | count + 1, i, table =>
    handle (copyOfRange binary (int (i * 8)) (int (int (i * 8) + 8))) table fun buf =>
      loadIndex binary count (i + 1) (table.set i (longOf buf))

/-- The part of the constructor after the division by `block_size`. -/
def PreservationDatabase.withIndex (db : PreservationDatabase) : PreservationDatabase :=
  if db.indexTableNum < 0 then db
  else
    let table := List.replicate db.indexTableNum.toNat 0
    let db := { db with indexTable := some table }
    handle (newArray (int (db.indexTableNum * 8))) db fun binary =>
      handle (readAt db.file indexOffset binary (int (db.indexTableNum * 8))) db fun binary =>
        { db with indexTable := some (loadIndex binary db.indexTableNum.toNat 0 table) }

def PreservationDatabase.ofFile (file : Mem) : PreservationDatabase :=
  let header := store (zeros databaseHeaderLength) 0 (slice file 0 databaseHeaderLength)
  let db : PreservationDatabase := {
    file := file
    diskSize := longOf (slice header 0 8)
    blockSize := intOf (slice header 8 8)
    nextOffset := decimalOf (slice header 16 8)
    dataStartOffset := 0
    indexTableNum := 0
    indexTable := none }
  if db.blockSize = 0 then db
  else
    let blocks := long (db.diskSize.tdiv db.blockSize)
    { db with
      dataStartOffset := int (long (long (blocks * byteNum) + indexOffset))
      indexTableNum := int blocks }.withIndex

namespace PreservationDatabase

/-- `index_table[blockNum]`. -/
def indexAt (db : PreservationDatabase) (blockNum : Int) : Exec Int := do
  let table ← nonNull db.indexTable
  if blockNum < 0 then throw .thrown
  nonNull table[blockNum.toNat]?

/-! ## The chain of a block -/

/-- The header at `next`, read into `header`. -/
def recordAt (db : PreservationDatabase) (next : Int) (header : Mem) : Exec (PreservationRecord × Mem) := do
  let header ← readAt db.file next header entryHeaderLength
  let record ← PreservationRecord.ofBytes header
  pure (record, header)

/-- The record at `next` with its data, read into `header` and `data`. -/
def fullRecordAt (db : PreservationDatabase) (next : Int) (header data : Mem) :
    Exec (PreservationRecord × Mem × Mem) := do
  let (record, header) ← db.recordAt next header
  let data ← readAt db.file (long (next + entryHeaderLengthActualSize)) data record.dataSize
  let record ← record.setData data
  pure (record, header, data)

/-- The loop of `getNumOfRecord`; `next` is `next.longValue()`. -/
def countRecords (db : PreservationDatabase) : Nat → Int → Mem → Int → Exec Int
  | 0, _, _, _ => throw .spin
  | fuel + 1, next, header, count =>
    if next = 0 then pure count
    else do
      let (record, header) ← db.recordAt next header
      db.countRecords fuel (long record.nextOffset) header (int (count + 1))

/-- `try { .. } catch (Exception e) { return value; }`. -/
def catching {α : Type} (x : Exec α) (value : α) : Exec α :=
  match x with
  | .error .thrown => pure value
  | x => x

def getNumOfRecord (db : PreservationDatabase) (fuel : Nat) (blockNum : Int) : Exec Int := do
  let next ← db.indexAt blockNum
  if next = 0 then pure 0
  else catching (db.countRecords fuel next (zeros entryHeaderLength) 0) 0

/-- The loop of `getRecord`. -/
def findRecord (db : PreservationDatabase) :
    Nat → Int → Int → Mem → Mem → Option PreservationRecord → Exec (Option PreservationRecord)
  | 0, _, _, _, _, _ => throw .spin
  | fuel + 1, next, pos, header, data, record =>
    if next ≠ 0 ∧ 0 ≤ pos then do
      let (record, header, data) ← db.fullRecordAt next header data
      db.findRecord fuel (long record.nextOffset) (int (pos - 1)) header data (some record)
    else pure record

/-- `null` where there is no record or an exception was caught. -/
def getRecord (db : PreservationDatabase) (fuel : Nat) (blockNum pos : Int) : Exec (Option PreservationRecord) := do
  let data ← newArray db.blockSize
  let next ← db.indexAt blockNum
  if next = 0 then pure none
  else catching (db.findRecord fuel next pos (zeros entryHeaderLength) data none) none

def getRecordSequence (db : PreservationDatabase) (seqOffset : Nat) : Exec (Option PreservationRecord) := do
  let data ← newArray db.blockSize
  catching (do
    let (record, _, _) ← db.fullRecordAt (long seqOffset) (zeros entryHeaderLength) data
    pure (some record)) none

end PreservationDatabase

end LogDrive
