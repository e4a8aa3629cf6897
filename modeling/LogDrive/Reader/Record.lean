import LogDrive.Lib.Java

/-!
# Records as the Java programs decode them (`preservationRecord.java`, `ByteControl.java`)

`PreservationRecord` is an entry of the database, read from the first 27 of the 32 bytes of its
header. `getHeader` writes the key of a record in the sequence file, where the number of the block
stands in the place of the next offset. `ByteControl` decodes such a key, and `ByteControl.ofText` the
text that `hashIndex` makes of it (`ByteControl.valueText`).
-/

set_option autoImplicit false

open Bytes Java

namespace LogDrive

/-! ## `preservationRecord` -/

abbrev entryHeaderLength : Nat := 27
abbrev entryHeaderLengthActualSize : Nat := 32

structure PreservationRecord where
  dataSize : Int
  sec : Int
  nsec : Int
  nextOffset : Nat
  flags : Int
  recordData : Option Mem
  recordHeader : Mem

/-- The constructor; `in[26]` is the last byte it looks at. -/
def PreservationRecord.ofBytes (bytes : Mem) : Exec PreservationRecord := do
  if bytes.length < entryHeaderLength then throw .thrown
  let recordHeader ← copyOfRange bytes 0 entryHeaderLengthActualSize
  pure {
    dataSize := intOf (slice bytes 24 2)
    sec := longOf (slice bytes 0 8)
    nsec := longOf (slice bytes 8 8)
    nextOffset := decimalOf (slice bytes 16 8)
    flags := intOf (slice bytes 26 1)
    recordData := none
    recordHeader := recordHeader }

/-- `ByteBuffer.allocate(8).order(LITTLE_ENDIAN).putInt(blocknumber)`. -/
def putInt (blockNumber : Int) : Mem := le 4 (blockNumber % 2 ^ 32).toNat ++ zeros 4

def PreservationRecord.getHeader (record : PreservationRecord) (blockNumber : Int) : Mem :=
  slice record.recordHeader 0 16 ++ putInt blockNumber ++ slice record.recordHeader 24 8

def PreservationRecord.setData (record : PreservationRecord) (data : Mem) : Exec PreservationRecord := do
  let recordData ← copyOfRange data 0 record.dataSize
  pure { record with recordData := some recordData }

/-! ## `ByteControl` -/

/-- `ByteControl.sectorSize`. -/
abbrev byteControlSectorSize : Int := 4096

structure ByteControl where
  dataSize : Int
  minSector : Int
  sec : Int
  nsec : Int
  blockNum : Nat

/-- The number of sectors; `getSecNum` returns it. -/
def getMinSectorNum (dataSize : Int) : Int :=
  if dataSize ≤ byteControlSectorSize then 1
  else if dataSize ≤ byteControlSectorSize * 2 then 2
  else if dataSize ≤ byteControlSectorSize * 3 then 3
  else if dataSize ≤ byteControlSectorSize * 4 then 4
  else if dataSize ≤ byteControlSectorSize * 5 then 5
  else if dataSize ≤ byteControlSectorSize * 6 then 6
  else if dataSize ≤ byteControlSectorSize * 7 then 7
  else 8

/-- `ByteControl(byte[])`; `in[25]` is the last byte it looks at. -/
def ByteControl.ofBytes (bytes : Mem) : Exec ByteControl := do
  if bytes.length < 26 then throw .thrown
  let dataSize := intOf (slice bytes 24 2)
  pure {
    dataSize := dataSize
    minSector := getMinSectorNum dataSize
    sec := longOf (slice bytes 0 4)
    nsec := longOf (slice bytes 8 4)
    blockNum := decimalOf (slice bytes 16 8) }

/-- `ByteControl(String)`. -/
def ByteControl.ofText (text : Text) : Exec ByteControl := do
  let (_, st) ← nextToken ',' text
  let (_, st) ← nextToken ',' st
  let (_, st) ← nextToken ',' st
  let (token, _) ← nextToken ',' st
  let dataSize ← parseInt token
  pure { dataSize := dataSize, minSector := getMinSectorNum dataSize, sec := 0, nsec := 0, blockNum := 0 }

/-- What `hashIndex` writes for a record: its second, nanosecond, block number and size. -/
def ByteControl.valueText (bc : ByteControl) : Text :=
  valueOf bc.sec ++ ',' :: (valueOf bc.nsec ++ ',' :: (valueOf bc.blockNum ++ ',' :: valueOf bc.dataSize))

end LogDrive
