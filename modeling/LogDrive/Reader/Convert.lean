import LogDrive.Reader.Database

/-!
# From a database to a sequence file (`convertToSequenceFileFromLdLocal.java`)

`convertToSequenceFileFromLdLocal` appends the records of every block to the sequence file, each with its
key, and writes the least and the greatest timestamp that it has seen to the info file. It does so in a
`finally` clause, after an exception too. The newest record of a block is read by `getRecord`, the older
ones by `getRecordSequence`; of the variables of `main`, `Converter` has those that go from one block to
the next.
-/

set_option autoImplicit false

open Bytes Java

namespace LogDrive

structure Converter where
  offset : Nat
  secMin : Int
  nsecMin : Int
  secMax : Int
  nsecMax : Int
  /-- What has been appended to the sequence file: keys and values. -/
  appended : List (Mem × Mem)

def Converter.start : Converter := ⟨0, 0, 0, 0, 0, []⟩

namespace Converter

/-- The timestamp of a newest record. -/
def observe (c : Converter) (secCurrent nsecCurrent : Int) : Converter :=
  if c.secMin = 0 ∧ c.secMax = 0 then
    { c with secMin := secCurrent, secMax := secCurrent, nsecMax := nsecCurrent, nsecMin := nsecCurrent }
  else
    let c := if c.secMin > secCurrent ∨ (c.secMin = secCurrent ∧ c.nsecMin > nsecCurrent) then
        { c with secMin := secCurrent, nsecMin := nsecCurrent }
      else c
    if c.secMax < secCurrent ∨ (c.secMax = secCurrent ∧ c.nsecMax < nsecCurrent) then
      { c with secMax := secCurrent, nsecMax := nsecCurrent }
    else c

/-- `key.set(..)`, `value.set(..)` and `writer.append(key, value)` for a record of block `i`; then the
offset of the record before it. -/
def append (c : Converter) (i : Int) (record : PreservationRecord) (data : Mem) : Converter :=
  { c with
    appended := c.appended ++
      [(slice (record.getHeader i) 0 entryHeaderLengthActualSize, slice data 0 record.dataSize.toNat)]
    offset := record.nextOffset }

end Converter

namespace PreservationDatabase

/-- The branch for the newest record of a block; each of its calls of `getRecord` gives the same one. -/
def convertNewest (db : PreservationDatabase) (fuel : Nat) (i : Int) (c : Converter) : Exec Converter := do
  let found ← db.getRecord fuel i 0
  let record ← nonNull found
  let data ← nonNull record.recordData
  pure ((c.observe record.sec record.nsec).append i record data)

/-- The body of the loop over the older records of a block. -/
def convertOlder (db : PreservationDatabase) (i : Int) (c : Converter) : Exec Converter := do
  let found ← db.getRecordSequence c.offset
  let record ← nonNull found
  let data ← nonNull record.recordData
  pure (c.append i record data)

/-- `while (offset.longValue() != 0)`. -/
def convertChain (db : PreservationDatabase) (i : Int) : Nat → Converter → Converter × Exec Unit
  | 0, c => (c, throw .spin)
  | fuel + 1, c =>
    if long c.offset = 0 then (c, pure ())
    else
      match db.convertOlder i c with
      | .error e => (c, .error e)
      | .ok c => db.convertChain i fuel c

/-- The body of the loop over the blocks. -/
def convertBlock (db : PreservationDatabase) (fuel : Nat) (i : Int) (c : Converter) : Converter × Exec Unit :=
  match (do
    let records ← db.getNumOfRecord fuel i
    if records ≠ 0 then db.convertNewest fuel i c else pure c) with
  | .error e => (c, .error e)
  | .ok c => db.convertChain i fuel c

/-- `while (i < pd.getDiskSize() / pd.getBlockSize())`. -/
def convertBlocks (db : PreservationDatabase) (fuel : Nat) : Nat → Int → Converter → Converter × Exec Unit
  | 0, _, c => (c, throw .spin)
  | count + 1, i, c =>
    if db.blockSize = 0 then (c, throw .thrown)
    else if i < long (db.diskSize.tdiv db.blockSize) then
      match db.convertBlock fuel i c with
      | (c, .error e) => (c, .error e)
      | (c, .ok ()) => db.convertBlocks fuel count (int (i + 1)) c
    else (c, pure ())

end PreservationDatabase

/-- The numbers in the info file. -/
structure Info where
  diskSize : Int
  blockSize : Int
  nextOffset : Nat
  secMin : Int
  nsecMin : Int
  secMax : Int
  nsecMax : Int
  deriving DecidableEq

/-- The sequence file, the info file and how `main` ends. `count` bounds the loop over the blocks, `fuel`
those over records. -/
def convertToSequenceFileFromLdLocal (fuel count : Nat) (file : Mem) : List (Mem × Mem) × Info × Exec Unit :=
  let db := PreservationDatabase.ofFile file
  let (c, result) := db.convertBlocks fuel count 0 .start
  (c.appended, ⟨db.diskSize, db.blockSize, db.nextOffset, c.secMin, c.nsecMin, c.secMax, c.nsecMax⟩, result)

end LogDrive
