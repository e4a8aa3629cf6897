import LogDrive.Driver.DiskConfig

/-!
# What a disk line says

A disk line names a target, a virtual disk and a mode. `DiskSpec.render` writes it down and `DiskSpec.disk` is
what it stands for. `DiskSpec.WF` leaves out what would be read as something else: a comma or a colon inside of
a word, and a virtual disk `ioemu` with a type, whose name is taken for the prefix `ioemu:`.
-/

set_option autoImplicit false

open Bytes CString

namespace LogDrive

/-- A word without commas, colons and zeros. -/
def IsWord (w : Mem) : Prop := ∀ c ∈ w, c ≠ comma ∧ c ≠ colon ∧ c ≠ 0

/-- A path may have colons. -/
def IsPath (w : Mem) : Prop := ∀ c ∈ w, c ≠ comma ∧ c ≠ 0

inductive TapType
  | vhd | qcow | qcow2 | raw | preservation
  deriving DecidableEq

namespace TapType

def name : TapType → Mem
  | vhd => ascii "vhd"
  | qcow => ascii "qcow"
  | qcow2 => ascii "qcow2"
  | raw => ascii "raw"
  | preservation => ascii "preservation"

def format : TapType → DiskFormat
  | vhd => .vhd
  | qcow => .qcow
  | qcow2 => .qcow2
  | raw => .raw
  | preservation => .preservation

def backend : TapType → DiskBackend
  | qcow => .qdisk
  | qcow2 => .qdisk
  | _ => .tap

end TapType

/-- What is behind the disk: nothing (the word before the comma is ignored), a device, a file, or an image of
tapdisk, whose type may be left out; `aio:` may be repeated. -/
inductive DiskTarget
  | empty (ignored : Mem)
  | phy (path : Mem)
  | file (path : Mem)
  | tap (tap2 : Bool) (aio : Nat) (path : Mem)
  | typed (tap2 : Bool) (aio : Nat) (type : TapType) (path : Mem)

namespace DiskTarget

/-- `tap:aio:aio:` and so on. -/
def tapPrefix (tap2 : Bool) (aio : Nat) : Mem :=
  (if tap2 then ascii "tap2:" else ascii "tap:") ++ (List.replicate aio (ascii "aio:")).flatten

def render : DiskTarget → Mem
  | empty ignored => ignored
  | phy path => ascii "phy:" ++ path
  | file path => ascii "file:" ++ path
  | tap tap2 aio path => tapPrefix tap2 aio ++ path
  | typed tap2 aio type path => tapPrefix tap2 aio ++ (type.name ++ colon :: path)

def WF : DiskTarget → Prop
  | empty ignored => IsWord ignored
  | phy path => IsPath path
  | file path => IsPath path
  | tap _ _ path => IsWord path
  | typed _ _ _ path => IsPath path

def disk : DiskTarget → DeviceDisk
  | empty _ => { DeviceDisk.zero with format := .empty, backend := .tap, pdevPath := some [] }
  | phy path => { DeviceDisk.zero with format := .raw, backend := .phy, pdevPath := strdupOrNull path }
  | file path => { DeviceDisk.zero with format := .raw, backend := .tap, pdevPath := strdupOrNull path }
  | tap _ _ path => { DeviceDisk.zero with format := .raw, backend := .tap, pdevPath := strdupOrNull path }
  | typed _ _ type path =>
    { DeviceDisk.zero with format := type.format, backend := type.backend, pdevPath := strdupOrNull path }

def isEmpty : DiskTarget → Bool
  | empty _ => true
  | _ => false

end DiskTarget

/-- What follows the virtual disk: nothing, a mode, or the type `cdrom`, behind which all is ignored. -/
inductive DiskMode
  | none
  | rw (mode : Mem)
  | cdrom (ignored : Option Mem)

namespace DiskMode

def render : DiskMode → Mem
  | none => []
  | rw mode => comma :: mode
  | cdrom .none => ascii ":cdrom"
  | cdrom (some ignored) => ascii ":cdrom" ++ comma :: ignored

def isCdrom : DiskMode → Bool
  | cdrom _ => true
  | _ => false

/-- The mode is `w` when it starts with it. -/
def set (d : DeviceDisk) : DiskMode → DeviceDisk
  | none => d
  | rw mode => { d with readwrite := decide (mode.head? = some 119) }
  | cdrom _ => { d with isCdrom := true, unpluggable := true }

end DiskMode

structure DiskSpec where
  target : DiskTarget
  ioemu : Bool
  vdev : Mem
  mode : DiskMode

namespace DiskSpec

def render (spec : DiskSpec) : Mem :=
  spec.target.render ++ comma :: ((if spec.ioemu then ascii "ioemu:" else []) ++ (spec.vdev ++ spec.mode.render))

def disk (spec : DiskSpec) : DeviceDisk :=
  spec.mode.set { spec.target.disk with vdev := strdupOrNull spec.vdev }

structure WF (spec : DiskSpec) : Prop where
  target : spec.target.WF
  vdev : IsWord spec.vdev
  /-- Only a line that ends there may leave out the virtual disk. -/
  named : spec.vdev = [] → spec.mode = .none
  /-- A target that is empty has no prefix. -/
  ioemu : spec.ioemu = true → spec.target.isEmpty = false
  plain : spec.ioemu = false → spec.target.isEmpty = false →
    ¬(spec.vdev = ascii "ioemu" ∧ spec.mode.isCdrom = true)

end DiskSpec

end LogDrive
