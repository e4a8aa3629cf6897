import LogDrive.Driver.Session

/-!
# Damaged databases

`ReadSafely file ts` is what a time-travel session may expect of a file whatever lies in it: the
file is refused, or every small request inside the advertised size is answered. `open_disk` refuses
nothing. What a file has to be like instead: its header gives a geometry that the buffers of
`pd_read` are made for (`DataHeader.Sound`), and from every index entry the search comes to its end
inside the log, at a payload that a block can hold (`SearchEnds`).
-/

set_option autoImplicit false

open Bytes

namespace LogDrive

/-! ## What is expected -/

/-- At most 8 sectors, inside the size that `pd_set_driver_info` advertises. -/
def TdRequest.Advertised (treq : TdRequest) (disk : PreservationDisk) : Prop :=
  treq.secs ≤ 8 ∧ treq.sec + treq.secs ≤ (pdSetDriverInfo disk).1

/-- The request is answered with the bytes asked for, or with `-1` and no more than these. -/
def Reply.Answers (reply : Reply) (treq : TdRequest) : Prop :=
  match reply with
  | .got r bytes => r = 0 ∧ bytes.length = treq.secs * 512 ∨ r = -1 ∧ bytes.length ≤ treq.secs * 512
  | .wrote _ => False

/-- **Whatever memory holds, the file is refused or read safely**: the session opens the file, and all
requests that it may then be given are answered, with every access inside the allocated memory. Past
some bound the fuel does not matter: the loops end. -/
def ReadSafely (file : Mem) (ts : TimeSpec) : Prop :=
  ∀ J, ∃ r s, Done (pdInitializeReadOnly J ts) ⟨file, 0, []⟩ r s ∧ ∀ disk, r = some disk →
    ∀ reads : List TdRequest, (∀ treq ∈ reads, treq.Advertised disk) → ∃ bound, ∀ fuel ≥ bound,
      ∃ replies disk' s', Done (readAll J fuel disk reads) s (replies, disk') s' ∧
        List.Forall₂ Reply.Answers replies reads

/-! ## What a file has to be like -/

def DataHeader.blocks (h : DataHeader) : Nat := h.diskSize / h.blockSize

/-- Blocks of at most 8 whole sectors that fill the disk, and whose numbers are an `int`. Where a block
has 6 sectors, 8 sectors can touch 3 blocks, which do not fit the local buffer of `pd_read`. -/
structure DataHeader.Sound (h : DataHeader) : Prop where
  pos : 0 < h.blockSize
  sectors : h.blockSize % 512 = 0
  small : h.blockSize ≤ 4096
  six : h.blockSize = 3072 → h.blocks ≤ 2
  int : h.blocks ≤ 2 ^ 31
  whole : h.diskSize % h.blockSize < 512

section
variable (file : Mem) (h : DataHeader) (ts : TimeSpec)

/-- The entry header at an offset of the file. -/
def headAt (off : Nat) : EntryHeader := EntryHeader.ofBytes (slice file off 32)

/-- The payload behind the entry header at `off` is empty, or fits a block and starts inside the log. -/
def PayloadInside (off dataSize : Nat) : Prop :=
  dataSize = 0 ∨ dataSize ≤ h.blockSize ∧ off + 32 ≤ file.length ∧ off + 32 < h.nextOffset

/-- **The search from an offset ends**, at the end of the chain or at a version before `ts`; every header
on its way lies in the file, below `next_offset`. A chain that comes back to itself has no derivation. -/
inductive SearchEnds : Nat → Prop
  | none : SearchEnds 0
  | found {off : Nat} : off + 32 ≤ file.length → off < h.nextOffset → (headAt file off).ts.before ts = true →
      PayloadInside file h off (headAt file off).dataSize → SearchEnds off
  | older {off : Nat} : off + 32 ≤ file.length → off < h.nextOffset → (headAt file off).ts.before ts = false →
      SearchEnds (headAt file off).next → SearchEnds off

/-- The offsets that the search from `first` looks at. -/
inductive Visits (first : Nat) : Nat → Prop
  | here : Visits first first
  | older {off : Nat} : Visits first off → off ≠ 0 → (headAt file off).ts.before ts = false →
      Visits first (headAt file off).next

/-- No search is led to a header that the file, being cut off, does not hold. -/
def NotCutOff : Prop := ∀ b < h.blocks, ∀ off, Visits file ts (numAt (byteAt file) (512 + 8 * b) 8) off →
  off ≠ 0 → off < h.nextOffset → off + 32 ≤ file.length

/-- From every index entry the search ends. -/
def SearchesEnd : Prop := ∀ b < h.blocks, SearchEnds file h ts (numAt (byteAt file) (512 + 8 * b) 8)

end

end LogDrive
