import LogDrive.Driver.Preservation
import LogDrive.Lib.CString

/-!
# The name of a device (`tapdisk-disktype.c`, `tdtimetravel_open` of `block-timetravel.c`)

A device is named by its type and what the driver of that type makes of the rest, for a time-travel
disk the path of a database and an instant. `tdtimetravel_open` takes the rest apart in a copy of its
own; `NameRun` keeps the size allocated for the copy and the offsets in it that are written or read, so
that one behind the allocation can be told.
-/

set_option autoImplicit false

open Bytes CString

namespace LogDrive

/-! ## Disk types -/

abbrev colon : UInt8 := 58

def einval : Int := 22
def enametoolong : Int := 36
def enosys : Int := 38
def enoent : Int := 2

abbrev diskTypeNameMax : Nat := 32
abbrev diskTypeTimetravel : Int := 11

/-- `tapdisk_disk_types`: the name of a type, and whether `tapdisk_disk_drivers` has a driver for it. -/
def tapdiskDiskTypes : List (Mem × Bool) :=
  [(ascii "aio", true), (ascii "sync", false), (ascii "vmdk", false), (ascii "vhdsync", false), (ascii "vhd", true),
    (ascii "ram", true), (ascii "qcow", true), (ascii "bc", true), (ascii "log", true), (ascii "remus", true),
    (ascii "preservation", true), (ascii "timetravel", true)]

/-- The loop of `tapdisk_disktype_find` over the types from number `i` on. -/
def findDisktype (name : Mem) : List (Mem × Bool) → Nat → Int
  | [], _ => -enoent
  | (info, driver) :: types, i =>
    if name = info then if driver then i else -enosys
    else findDisktype name types (i + 1)

def tapdiskDisktypeFind (name : Mem) : Int := findDisktype name tapdiskDiskTypes 0

/-- The type and, where there is one, the rest of the string. -/
def tapdiskDisktypeParseParams (params : Mem) : Int × Option Mem :=
  match strchr params colon with
  | none => (-einval, none)
  | some len =>
    if len > diskTypeNameMax - 1 then (-enametoolong, none)
    else
      let type := tapdiskDisktypeFind (params.take len)
      (type, if type ≥ 0 then some (params.drop (len + 1)) else none)

/-! ## `tdtimetravel_open` -/

/-- How `tdtimetravel_open` goes on after it has looked at the name. -/
inductive Opening
  /-- `calloc` has failed. -/
  | allocationFailed
  /-- `*colon = '\0'` where `colon` is the null pointer. -/
  | nullWritten
  /-- The call of `pd_initialize_read_only`. -/
  | pdInitializeReadOnly (path : Mem) (ts : TimeSpec)
  deriving DecidableEq

structure NameRun where
  allocated : Nat
  touched : List Nat
  opening : Opening

/-- `strcpy` and `strchr`, then the zero at the colon, `strtoull` behind it and the path up to it. -/
def takeApart (calloc : Bool) (name : Mem) : NameRun :=
  if calloc = false then ⟨0, [], .allocationFailed⟩
  else
    let copied := List.range (name.length + 1)
    match strchr name colon with
    | none => ⟨name.length, copied ++ List.range (name.length + 1), .nullWritten⟩
    | some i =>
      let (sec, read) := strtoull (name.drop (i + 1))
      ⟨name.length, copied ++ List.range (i + 1) ++ [i] ++ List.range' (i + 1) read ++ List.range (i + 1),
        .pdInitializeReadOnly (name.take i) ⟨(UInt64.ofNat sec).toInt64, 0⟩⟩

/-- The result, and the disk with what it advertises. The program runs on the file at the path. -/
def tdtimetravelOpen (J : Junk) (calloc : Bool) (name : Mem) :
    Prog Event (Int × Option (PreservationDisk × (Nat × Nat))) :=
  match (takeApart calloc name).opening with
  | .allocationFailed => pure (0, none)
  | .nullWritten => .undefined
  | .pdInitializeReadOnly _ ts => do
    match ← pdInitializeReadOnly J ts with
    | none => pure (-1, none)
    | some disk => pure (0, some (disk, pdSetDriverInfo disk))

end LogDrive
