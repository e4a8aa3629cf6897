import LogDrive.Driver.Session

/-!
# The log as chains of versions

What the bytes of a database mean. A `Version` is an entry as it lies in an image at an offset, and
`Chain img off vs` says that following the `next` fields from `off` gives the versions `vs`, newest
first, and ends at 0. A history of writes is a list of records `Rec`, newest first over all blocks;
`LogWF` says that it is one that `pd_write` can have built.

`patch` is the purpose of a write request: which bytes of a block it replaces. `BlockStep` is what
one request does to the chain of one block.
-/

set_option autoImplicit false

open Bytes

namespace LogDrive

/-! ## Versions -/

structure Version where
  off : Nat
  head : EntryHeader
  data : Mem

namespace Version

def bytes (v : Version) : Mem := v.head.toBytes ++ v.data
def entry (v : Version) : Entry := ⟨v.off, v.bytes⟩
def stop (v : Version) : Nat := v.off + entryHeaderSize + v.data.length

/-- A version that `pd_write` can have logged. -/
structure WF (v : Version) : Prop where
  next : v.head.next < 2 ^ 64
  size : v.head.dataSize = v.data.length
  short : v.data.length ≤ 4096
  pad : v.head.pad.length = 6

end Version

/-- The version whose bytes lie at `off` in the image. -/
def versionAt (img : Nat → UInt8) (off : Nat) : Version :=
  let head := EntryHeader.ofBytes (tabulate (fun i => img (off + i)) entryHeaderSize)
  ⟨off, head, tabulate (fun i => img (off + entryHeaderSize + i)) head.dataSize⟩

/-- Following the `next` fields from `off` gives `vs` and ends at 0. -/
inductive Chain (img : Nat → UInt8) : Nat → List Version → Prop
  | done : Chain img 0 []
  | link {off : Nat} {vs : List Version} : off ≠ 0 → Chain img (versionAt img off).head.next vs →
      Chain img off (versionAt img off :: vs)

/-- Where a chain starts. -/
def headOff : List Version → Nat
  | [] => 0
  | v :: _ => v.off

/-- The bytes of a block whose newest version is the first one. -/
def contentOf : List Version → Nat → UInt8
  | [], _ => 0
  | v :: _, p => byteAt v.data p

/-! ## Records -/

/-- A version and the block that it belongs to. -/
structure Rec where
  block : Nat
  ver : Version

/-- The versions of a block. -/
def chainOf : List Rec → Nat → List Version
  | [], _ => []
  | r :: rs, b => if r.block = b then r.ver :: chainOf rs b else chainOf rs b

/-- The size of the index in the file. -/
def tableBytes (n : Nat) : Nat := (8 * n + 511) / 512 * 512

/-- Where the entries of a database of `n` blocks start. -/
def logStart (n : Nat) : Nat := 512 + tableBytes n

/-- `r` may follow the records `older`. -/
structure Rec.Follows (n : Nat) (r : Rec) (older : List Rec) : Prop where
  block : r.block < n
  start : logStart n ≤ r.ver.off
  wf : r.ver.WF
  next : r.ver.head.next = headOff (chainOf older r.block)
  above : ∀ r' ∈ older, r'.ver.stop ≤ r.ver.off

def LogWF (n : Nat) : List Rec → Prop
  | [] => True
  | r :: rs => r.Follows n rs ∧ LogWF n rs

/-! ## Requests -/

/-- The sectors that a request covers. -/
def TdRequest.Covers (q : TdRequest) (sector : Nat) : Prop := q.sec ≤ sector ∧ sector < q.sec + q.secs

instance (q : TdRequest) (sector : Nat) : Decidable (q.Covers sector) := by
  unfold TdRequest.Covers; infer_instance

/-- A request has a sector in the block. -/
def TdRequest.Touches (q : TdRequest) (b : Nat) : Prop :=
  0 < q.secs ∧ q.sec < 8 * (b + 1) ∧ 8 * b < q.sec + q.secs

instance (q : TdRequest) (b : Nat) : Decidable (q.Touches b) := by
  unfold TdRequest.Touches; infer_instance

/-- The first sector of the request in block `b`, counted from the start of the request. -/
def TdRequest.sectorsBefore (q : TdRequest) (b : Nat) : Nat := 8 * b - q.sec

/-- What `pd_write` puts in byte `p` of block `b`, whose bytes are `old`. -/
def TdRequest.patch (q : TdRequest) (b : Nat) (old : Nat → UInt8) (p : Nat) : UInt8 :=
  if q.Covers (8 * b + p / 512) then
    q.buf (toInt (q.sectorsBefore b * 512) + (p - (q.sec - 8 * b) * 512 : Nat))
  else old p

/-- What one write request does to the versions of block `b`. The bytes of the block are as they
should be where `trust` holds. -/
inductive BlockStep (trust : Prop) (q : WriteRequest) (b : Nat) : List Version → List Version → Prop
  /-- A block without versions that stays all zero. -/
  | skip : (∀ p < 4096, q.patch b (contentOf []) p = 0) → BlockStep trust q b [] []
  | push {vs : List Version} {v : Version} (old : Nat → UInt8) : (trust → ∀ p < 4096, old p = contentOf vs p) →
      (vs = [] → (∀ p < 4096, old p = 0) ∧ ∃ p < 4096, q.patch b old p ≠ 0) →
      v.head.ts = q.ts → v.head.next = headOff vs → (∀ p < 4096, byteAt v.data p = q.patch b old p) →
      BlockStep trust q b vs (v :: vs)

end LogDrive
