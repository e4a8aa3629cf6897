import LogDrive.Reader.Record
import Mathlib.Data.List.Dedup

/-!
# The index of hashes and its search (`HashAlgorithm.java`, `hashIndex.java`, `hashSearch.java`)

`hashMap` is what the mapper of `hashIndex` writes for one record of the sequence file: the hashes of
its sectors and a text with its timestamp, block and size. Its reducer does not override the one of
the framework, which passes every pair on, so a HashDB holds the pairs that the mapper wrote.
`hashSearch` takes a target file apart, hands the hashes to its mapper through the configuration of the
job and gives the lines of its reducer, which gets each distinct key once.

A `BytesWritable` is reused from record to record; its array keeps the bytes that the data set last do
not cover. MD5 is any function to 16 bytes. `draw` is what the random generator gives, in units of
`2 ^ -53`, as is the sampling rate.
-/

set_option autoImplicit false

open Bytes Java

namespace LogDrive

/-! ## `HashAlgorithm` -/

structure MD5 where
  digest : Mem → Mem
  length : ∀ m, (digest m).length = 16

def toEncryptedString (bytes : Mem) : Text :=
  bytes.flatMap fun b => [Nat.digitChar (b.toNat / 16), Nat.digitChar (b.toNat % 16)]

def MD5.toHashValue (md5 : MD5) (bytes : Mem) : Text := toEncryptedString (md5.digest bytes)

/-! ## `hashIndex` -/

/-- `sectorSize` of `hashIndex` and of `hashSearch`. -/
abbrev hashSectorSize : Nat := 512
abbrev hashBlockSize : Nat := 4096

structure BytesWritable where
  bytes : Mem
  length : Nat
  le : length ≤ bytes.length

/-- New data in the array of the earlier ones. -/
def BytesWritable.set (w : BytesWritable) (data : Mem) : BytesWritable where
  bytes := store w.bytes 0 data
  length := data.length
  le := by
    rw [length_store]
    split
    · rename_i h
      rw [h]
      exact Nat.zero_le _
    · omega

/-- An array that holds the data and nothing else. -/
def BytesWritable.of (data : Mem) : BytesWritable := ⟨data, data.length, Nat.le_refl _⟩

/-- The loop of the mapper over `count` sectors from the `i`th one on: the hashes separated by commas,
and the sector cut last. -/
def hashSectors (md5 : MD5) (block : Mem) : Nat → Nat → Option Text → Mem → Exec (Option Text × Mem)
  | 0, _, val, sector => pure (val, sector)
  | count + 1, i, val, _ => do
    let sector ← copyOfRange block (hashSectorSize * i : Nat) (hashSectorSize * (i + 1) : Nat)
    let hash := md5.toHashValue sector
    hashSectors md5 block count (i + 1) (some (match val with | none => hash | some v => v ++ ',' :: hash)) sector

/-- The loop that compares every byte of a sector with its first one. -/
def filledWithOne (sector : Mem) : Bool := (List.range' 1 (hashSectorSize - 1)).all fun j => byteAt sector 0 == byteAt sector j

/-- `HashMapper.map`: the pair that it writes, if any. -/
def hashMap (md5 : MD5) (key value : BytesWritable) : Exec (Option (Text × Text)) := do
  let bc ← ByteControl.ofBytes key.bytes
  let block := copyOf value.bytes hashBlockSize
  let (val, sector) ← hashSectors md5 block bc.minSector.toNat 0 none (zeros hashSectorSize)
  let keyOut ← nonNull val
  pure (if filledWithOne sector then none else some (keyOut, bc.valueText))

/-- The mapper on a sequence of records, each delivered in the arrays of the one before. -/
def mapRecords (md5 : MD5) : BytesWritable → BytesWritable → List (Mem × Mem) → List (Exec (Option (Text × Text)))
  | _, _, [] => []
  | key, value, record :: records =>
    hashMap md5 (key.set record.1) (value.set record.2) ::
      mapRecords md5 (key.set record.1) (value.set record.2) records

/-- A pair that `hashIndex` can have written. -/
def Indexed (md5 : MD5) (pair : Text × Text) : Prop := ∃ key value, hashMap md5 key value = .ok (some pair)

/-! ## `hashSearch` -/

/-- The sectors that `while (input.read(sector) != -1)` reads from `pos` on. -/
def readSectors (file : Mem) : Nat → Nat → List Mem
  | 0, _ => []
  | fuel + 1, pos =>
    if file.length ≤ pos then []
    else store (zeros hashSectorSize) 0 (slice file pos hashSectorSize) :: readSectors file fuel (pos + hashSectorSize)

def targetSectors (file : Mem) : List Mem := readSectors file (file.length + 1) 0

/-- The configuration of a job: what was set last comes first. -/
abbrev Configuration := List (Text × Text)

def Configuration.set (conf : Configuration) (name value : Text) : Configuration := (name, value) :: conf
def Configuration.get (conf : Configuration) (name : Text) : Option Text := conf.lookup name

/-- The loop of `main` over the sectors of the target: the configuration and the number of hashes. -/
def setHashes (md5 : MD5) : List Mem → Configuration → Int → Configuration × Int
  | [], conf, i => (conf, i)
  | sector :: sectors, conf, i =>
    if filledWithOne sector then setHashes md5 sectors conf i
    else setHashes md5 sectors (conf.set (valueOf i) (md5.toHashValue sector)) (int (i + 1))

/-- The loop of `setup`: `count` hashes from the `i`th one on. -/
def getHashes (conf : Configuration) : Nat → Nat → Exec (List Text)
  | 0, _ => pure []
  | count + 1, i => do
    let hash ← nonNull (conf.get (valueOf i))
    let rest ← getHashes conf count (i + 1)
    pure (hash :: rest)

/-- `SearchMapper.setup`. -/
def searchSetup (conf : Configuration) : Exec (List Text) := do
  let size ← nonNull (conf.get ['s', 'i', 'z', 'e'])
  let strSize ← parseInt size
  if strSize < 0 then throw .thrown
  getHashes conf strSize.toNat 0

/-- The loops of `SearchMapper.map` over `count` hashes of the record and over `hashList`. -/
def searchHashes (hashList : List Text) (value : Text) : Nat → Text → Text → Exec Text
  | 0, _, keyOut => pure keyOut
  | count + 1, st, keyOut => do
    let (k, st) ← nextToken ',' st
    searchHashes hashList value count st (hashList.foldl (fun keyOut hash => if hash = k then value else keyOut) keyOut)

/-- `SearchMapper.map`: the key that it writes, if any. -/
def searchMap (hashList : List Text) (samplingRate : Nat) (draw : Fin (2 ^ 53)) (pair : Text × Text) : Exec (Option Text) :=
  if draw.val ≤ samplingRate then do
    let bc ← ByteControl.ofText pair.2
    let keyOut ← searchHashes hashList pair.2 bc.minSector.toNat pair.1 []
    pure (some keyOut)
  else pure none

/-- The mapper on every pair of the HashDB. -/
def searchAll (hashList : List Text) (samplingRate : Nat) (draw : Nat → Fin (2 ^ 53)) :
    Nat → List (Text × Text) → Exec (List Text)
  | _, [] => pure []
  | i, pair :: pairs => do
    let key ← searchMap hashList samplingRate (draw i) pair
    let keys ← searchAll hashList samplingRate draw (i + 1) pairs
    pure (key.toList ++ keys)

/-- The lines that the job puts out; without a hash to look for there is no job. -/
def hashSearch (md5 : MD5) (samplingRate : Nat) (draw : Nat → Fin (2 ^ 53)) (target : Mem) (db : List (Text × Text)) :
    Exec (List Text) :=
  let (conf, listSize) := setHashes md5 (targetSectors target) [] 0
  if listSize = 0 then pure []
  else do
    let hashList ← searchSetup (conf.set ['s', 'i', 'z', 'e'] (valueOf listSize))
    let keys ← searchAll hashList samplingRate draw 0 db
    pure keys.dedup

end LogDrive
