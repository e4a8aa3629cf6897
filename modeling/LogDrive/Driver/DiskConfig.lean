import LogDrive.Driver.DiskNumber

/-!
# The disk lines of a domain (`parse_disk_config` of `xl_cmdimpl.c`, `libxl_device_disk_add` of `libxl.c`)

A disk line such as `tap:preservation:/path,xvda,w` is parsed in place: `buf` is the line with its terminating
zero, in which the parser writes zeros behind the words that it has found, and `p` and `tok` are offsets in
it. `libxl_device_disk_add` makes of the disk the string that tapdisk gets; a null pointer that is followed is
`none`.
-/

set_option autoImplicit false

open Bytes CString

namespace LogDrive

abbrev comma : UInt8 := 44

/-- `libxl_disk_format`. -/
inductive DiskFormat
  | unknown | qcow | qcow2 | vhd | raw | preservation | empty
  deriving DecidableEq

/-- `libxl_disk_backend`. -/
inductive DiskBackend
  | unknown | phy | tap | qdisk
  deriving DecidableEq

/-- What `parse_disk_config` sets in a `libxl_device_disk`; a null pointer is `none`. -/
structure DeviceDisk where
  pdevPath : Option Mem
  vdev : Option Mem
  format : DiskFormat
  backend : DiskBackend
  unpluggable : Bool
  readwrite : Bool
  isCdrom : Bool
  deriving DecidableEq

/-- After the `memset`. -/
def DeviceDisk.zero : DeviceDisk := ⟨none, none, .unknown, .unknown, false, false, false⟩

/-! ## `parse_disk_config` -/

/-- `DSTATE_INITIAL` and so on. -/
inductive DState
  | initial | tap | physpath | virtpath | virttype | rw | terminal
  deriving DecidableEq

structure DiskParser where
  state : DState
  buf : Mem
  tok : Nat
  p : Nat
  disk : DeviceDisk

/-- How the body of the loop ends: with `break`, with `goto out` or with `return 0`. -/
inductive DiskTurn
  | next (s : DiskParser)
  | out (s : DiskParser)
  | fail

/-- The string at an offset. -/
def cstr (buf : Mem) (i : Nat) : Mem := (buf.drop i).takeWhile (· ≠ 0)

/-- `(*tok) ? strdup(tok) : NULL`. -/
def strdupOrNull (tok : Mem) : Option Mem := if tok = [] then none else some tok

namespace DiskParser

/-- `*p`. -/
def char (s : DiskParser) : UInt8 := byteAt s.buf s.p

/-- `*p = '\0'`. -/
def cut (s : DiskParser) : DiskParser := { s with buf := s.buf.set s.p 0 }

/-- The word that ends at `p`. -/
def word (s : DiskParser) : Mem := cstr s.buf s.tok

/-- `tok = p + 1`. -/
def behind (s : DiskParser) : DiskParser := { s with tok := s.p + 1 }

end DiskParser

/-- `DSTATE_INITIAL`. -/
def stepInitial (s : DiskParser) : DiskTurn :=
  if s.char = colon then
    let s := s.cut
    if s.word = ascii "phy" then
      .next { s with state := .physpath, disk := { s.disk with format := .raw, backend := .phy } }.behind
    else if s.word = ascii "file" then
      .next { s with state := .physpath, disk := { s.disk with format := .raw, backend := .tap } }.behind
    else if s.word = ascii "tap" ∨ s.word = ascii "tap2" then .next { s with state := .tap }.behind
    else .fail
  else if s.char = comma then
    .next { s with
      state := .virtpath
      disk := { s.disk with format := .empty, backend := .tap, pdevPath := some [] } }.behind
  else .next s

/-- `DSTATE_PHYSPATH`, with the hack for `ioemu:`. -/
def stepPhyspath (s : DiskParser) : DiskTurn :=
  if s.char = comma then
    let s := s.cut
    let s := { s with state := .virtpath, disk := { s.disk with pdevPath := strdupOrNull s.word } }.behind
    if s.tok + 6 < s.buf.length ∧ slice s.buf s.tok 6 = ascii "ioemu:" then
      .next { s with tok := s.tok + 6, p := s.p + 6 }
    else .next s
  else .next s

/-- The types of `DSTATE_TAP` that it goes on to the path for. -/
def tapTypes : List (Mem × DiskFormat × DiskBackend) :=
  [(ascii "vhd", .vhd, .tap), (ascii "qcow", .qcow, .qdisk), (ascii "qcow2", .qcow2, .qdisk),
    (ascii "raw", .raw, .tap), (ascii "preservation", .preservation, .tap)]

/-- `DSTATE_TAP`, which falls through to the path at a comma. -/
def stepTap (s : DiskParser) : DiskTurn :=
  if s.char = comma then
    stepPhyspath { s with state := .physpath, disk := { s.disk with format := .raw, backend := .tap } }
  else if s.char = colon then
    let s := s.cut
    if s.word = ascii "aio" then .next s.behind
    else match tapTypes.find? (·.1 = s.word) with
      | none => .fail
      | some (_, format, backend) =>
        .next { s with state := .physpath, disk := { s.disk with format := format, backend := backend } }.behind
  else .next s

/-- `DSTATE_VIRTPATH`. -/
def stepVirtpath (s : DiskParser) : DiskTurn :=
  if s.char = comma ∨ s.char = colon ∨ s.char = 0 then
    let s := { s with
      state := if s.char = colon then .virttype else if s.char = comma then .rw else .terminal }
    if s.tok = s.p then .out s
    else
      let s := s.cut
      .next { s with disk := { s.disk with vdev := strdupOrNull s.word } }.behind
  else .next s

/-- `DSTATE_VIRTTYPE`. Its last line looks at `*p` again, which is a zero by then. -/
def stepVirttype (s : DiskParser) : DiskTurn :=
  if s.char = comma ∨ s.char = 0 then
    let s := s.cut
    if s.word = ascii "cdrom" then
      .next { s with
        state := if s.char = comma then .rw else .terminal
        disk := { s.disk with isCdrom := true, unpluggable := true } }.behind
    else .fail
  else .next s

/-- `DSTATE_RW`; 119 is `w`. -/
def stepRw (s : DiskParser) : DiskTurn :=
  if s.char = 0 then
    .next { s with state := .terminal, disk := { s.disk with readwrite := byteAt s.buf s.tok = 119 } }.behind
  else .next s

def stepDisk (s : DiskParser) : DiskTurn :=
  match s.state with
  | .initial => stepInitial s
  | .tap => stepTap s
  | .physpath => stepPhyspath s
  | .virtpath => stepVirtpath s
  | .virttype => stepVirttype s
  | .rw => stepRw s
  | .terminal => .out s

/-- The loop, `fuel` times at most; `none` where the function has returned 0. -/
def diskLoop : Nat → DiskParser → Option DiskParser
  | 0, s => some s
  | fuel + 1, s =>
    if s.p < s.buf.length then
      match stepDisk s with
      | .fail => none
      | .out s => some s
      | .next s => diskLoop fuel { s with p := s.p + 1 }
    else some s

/-- What follows the label `out`. -/
def diskOut (s : DiskParser) : Option DeviceDisk :=
  if s.tok ≠ s.p ∨ s.state ≠ .terminal then none else some s.disk

/-- `parse_disk_config`; `none` where it returns 0. Each turn of the loop moves `p` on, so there are at most as
many as there are bytes. -/
def parseDiskConfig (buf2 : Mem) : Option DeviceDisk :=
  (diskLoop (buf2.length + 1) ⟨.initial, buf2 ++ [0], 0, 0, .zero⟩).bind diskOut

/-! ## `libxl_device_disk_add` -/

def errorInval : Int := -6
def errorFail : Int := -3

/-- What `validate_virtual_disk` asks of `stat`. -/
structure DiskStat where
  block : Bool
  regular : Bool
  size : Nat

/-- `validate_virtual_disk` of the disk's own path: what it returns, and the disk; `none` where it follows a
null pointer. `stat` of a null pointer fails. -/
def validateVirtualDisk (stat : Mem → Option DiskStat) (disk : DeviceDisk) : Option (Int × DeviceDisk) :=
  if disk.format = .empty then some (0, disk)
  else if disk.format = .preservation then some (0, disk)
  else
    let checked (fileName : Option Mem) (disk : DeviceDisk) : Int :=
      match fileName.bind stat with
      | none => errorInval
      | some st =>
        if disk.backend = .phy then if st.block then 0 else errorInval
        else if st.regular ∧ st.size = 0 then errorInval
        else 0
    if disk.format = .raw then
      match disk.pdevPath with
      | none => none
      | some path =>
        if colon ∈ path ∧ path.take 4 = ascii "vhd:" then
          let disk := { disk with format := .vhd }
          some (checked (some (path.drop 4)) disk, disk)
        else some (checked (some path) disk, disk)
    else some (checked disk.pdevPath disk, disk)

/-- `libxl__device_disk_string_of_format`. -/
def diskStringOfFormat : DiskFormat → Option Mem
  | .qcow => some (ascii "qcow")
  | .qcow2 => some (ascii "qcow2")
  | .vhd => some (ascii "vhd")
  | .raw => some (ascii "aio")
  | .empty => some (ascii "aio")
  | .preservation => some (ascii "preservation")
  | .unknown => none

/-- What `sprintf` prints for a string. -/
def printed (s : Option Mem) : Mem := s.getD (ascii "(null)")

/-- `DEVICE_VBD` and so on. -/
inductive DeviceKind
  | vbd | tap | qdisk
  deriving DecidableEq

/-- What `libxl_device_disk_add` writes for the backend, without `physical-device`. -/
structure DiskBack where
  kind : DeviceKind
  tapdiskParams : Option Mem
  params : Option Mem
  type : Option Mem
  mode : Mem
  deriving DecidableEq

/-- `libxl__device_disk_string_of_backend`. -/
def diskStringOfBackend : DiskBackend → Option Mem
  | .qdisk => some (ascii "qdisk")
  | .tap => some (ascii "tap")
  | .phy => some (ascii "phy")
  | .unknown => none

/-- What `libxl_device_disk_add` asks of the system: `stat`, `libxl__blktap_enabled` and the device that
`libxl__blktap_devpath` makes; and the number of a virtual disk, where the results take any. -/
structure DiskHost where
  stat : Mem → Option DiskStat
  blktapEnabled : Bool
  devpath : Option Mem → DiskFormat → Option Mem
  devNumber : Mem → Int := libxlDeviceDiskDevNumber

/-- `libxl_device_disk_add` up to the writing: an error, or what it writes; `none` where it follows a null
pointer. -/
def libxlDeviceDiskAdd (H : DiskHost) (disk : DeviceDisk) : Option (Except Int DiskBack) :=
  match validateVirtualDisk H.stat disk with
  | none => none
  | some (rc, disk) =>
    if rc ≠ 0 then some (.error rc)
    else match disk.vdev with
      | none => none
      | some vdev =>
        if H.devNumber vdev = -1 then some (.error errorInval)
        else
          let mode := if disk.readwrite then ascii "w" else ascii "r"
          let type := diskStringOfBackend disk.backend
          let params := printed (diskStringOfFormat disk.format) ++ colon :: printed disk.pdevPath
          let qdisk := DiskBack.mk (if H.blktapEnabled ∧ disk.backend ≠ .qdisk then .tap else .qdisk) none
            (some params) type mode
          match disk.backend with
          | .phy => some (.ok ⟨.vbd, none, disk.pdevPath, type, mode⟩)
          | .tap =>
            if H.blktapEnabled ∧ disk.format ≠ .empty then
              match H.devpath disk.pdevPath disk.format with
              | none => some (.error errorFail)
              | some dev => some (.ok ⟨.vbd, some params, some dev, some (ascii "phy"), mode⟩)
            else some (.ok qdisk)
          | .qdisk => some (.ok qdisk)
          | .unknown => some (.error errorInval)

end LogDrive
