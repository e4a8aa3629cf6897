import LogDrive.Driver.Preservation

/-!
# The asynchronous drivers (`block-aio.c`, `block-log.c`)

A raw image whose requests tapdisk's queue hands to the kernel, any number of them at a time. The driver
keeps a request structure for each one that is outstanding and a stack of the free ones; a pointer to a
structure is its number in `aio_requests`. `MAX_AIO_REQS` is `TAPDISK_DATA_REQUESTS`, which tapdisk defines.
An access outside of an array is `none`.

The two drivers differ in the flags of `open` and in what they print.
-/

set_option autoImplicit false

open Bytes

namespace LogDrive

/-- `td_disk_info_t`. -/
structure TdDiskInfo where
  size : Nat
  sectorSize : Nat
  info : Nat
  deriving DecidableEq

/-- What `td_prep_read` and `td_prep_write` keep of a request; the callback is always the driver's own. -/
structure Tiocb where
  write : Bool
  fd : Int
  buf : Int → UInt8
  size : Int
  offset : Nat

structure AioRequest where
  treq : TdRequest
  tiocb : Tiocb

/-- `struct tdaio_state` and `struct tdlog_state`. -/
structure TdaioState where
  fd : Int
  aioFreeCount : Nat
  aioRequests : List AioRequest
  aioFreeList : List Nat

/-! ## Opening -/

/-- What `fstat` and the `ioctl`s say of an image; `none` where one fails. -/
inductive ImageStat
  | failed
  | block (imageSize sectorSize : Option Nat)
  | file (stSize : Nat)

/-- `DEFAULT_SECTOR_SIZE` of an image whose size is not known. -/
def unknownImage : TdDiskInfo := ⟨16836057, defaultSectorSize, 0⟩

/-- `tdaio_get_image_info` and `tdlog_get_image_info`. -/
def tdaioGetImageInfo : ImageStat → Except Int TdDiskInfo
  | .failed => .error (-22)
  | .block none _ => .error (-22)
  | .block (some size) sectorSize =>
    if size = 0 then .ok unknownImage else .ok ⟨size, sectorSize.getD defaultSectorSize, 0⟩
  | .file stSize =>
    if stSize / 512 = 0 then .ok unknownImage else .ok ⟨stSize / 512, defaultSectorSize, 0⟩

/-- The flags of `open` that differ. -/
structure OpenFlags where
  direct : Bool
  rdonly : Bool

/-- A request structure after the `memset`. -/
def AioRequest.zero : AioRequest := ⟨⟨0, 0, fun _ => 0⟩, ⟨false, 0, fun _ => 0, 0, 0⟩⟩

/-- `tdaio_open` and `tdlog_open`; `sys` is the descriptor or the `errno` of `open`. A refused `O_DIRECT` is
tried again without it. -/
def aioOpen (direct : Bool) (maxAioReqs : Nat) (sys : OpenFlags → Except Int Int) (stat : ImageStat)
    (rdonly : Bool) : Except Int (TdaioState × TdDiskInfo) :=
  let opened := match sys ⟨direct, rdonly⟩ with
    | .error errno => if errno = 22 then sys ⟨false, rdonly⟩ else .error errno
    | .ok fd => .ok fd
  match opened with
  | .error errno => .error (0 - errno)
  | .ok fd =>
    match tdaioGetImageInfo stat with
    | .error ret => .error ret
    | .ok info =>
      .ok (⟨fd, maxAioReqs, List.replicate maxAioReqs .zero, List.range maxAioReqs⟩, info)

/-- `O_DIRECT_FOR_AIO` is 0. -/
def tdaioOpen (maxAioReqs : Nat) (sys : OpenFlags → Except Int Int) (stat : ImageStat) (rdonly : Bool) :
    Except Int (TdaioState × TdDiskInfo) := aioOpen false maxAioReqs sys stat rdonly

def tdlogOpen (maxAioReqs : Nat) (sys : OpenFlags → Except Int Int) (stat : ImageStat) (rdonly : Bool) :
    Except Int (TdaioState × TdDiskInfo) := aioOpen true maxAioReqs sys stat rdonly

/-! ## Requests -/

/-- What a driver does with a request: `td_complete_request` or `td_queue_tiocb` of a structure. -/
inductive AioEffect
  | complete (treq : TdRequest) (err : Int)
  | queue (aio : Nat)

/-- `td_prep_read` (of a read) and `td_prep_write` (of a write), with `size` and `offset` as the driver
computes them. -/
def tdPrep (write : Bool) (fd : Int) (sectorSize : Nat) (treq : TdRequest) : Tiocb where
  write := write
  fd := fd
  buf := treq.buf
  size := toInt (treq.secs * sectorSize)
  offset := u64 (treq.sec * sectorSize)

/-- The body of the four `queue` functions. -/
def aioQueue (write : Bool) (sectorSize : Nat) (prv : TdaioState) (treq : TdRequest) :
    Option (TdaioState × AioEffect) :=
  if prv.aioFreeCount = 0 then some (prv, .complete treq (-ebusy))
  else
    let count := prv.aioFreeCount - 1
    match prv.aioFreeList[count]? with
    | none => none
    | some aio =>
      if aio < prv.aioRequests.length then
        some ({ prv with
          aioFreeCount := count
          aioRequests := prv.aioRequests.set aio ⟨treq, tdPrep write prv.fd sectorSize treq⟩ }, .queue aio)
      else none

def tdaioQueueRead (sectorSize : Nat) (prv : TdaioState) (treq : TdRequest) : Option (TdaioState × AioEffect) :=
  aioQueue false sectorSize prv treq

def tdaioQueueWrite (sectorSize : Nat) (prv : TdaioState) (treq : TdRequest) : Option (TdaioState × AioEffect) :=
  aioQueue true sectorSize prv treq

def tdlogQueueRead (sectorSize : Nat) (prv : TdaioState) (treq : TdRequest) : Option (TdaioState × AioEffect) :=
  aioQueue false sectorSize prv treq

def tdlogQueueWrite (sectorSize : Nat) (prv : TdaioState) (treq : TdRequest) : Option (TdaioState × AioEffect) :=
  aioQueue true sectorSize prv treq

/-- The first statement of `tdaio_complete` and of `tdlog_complete`: the request goes back to tapdisk, which
may queue others before it returns. -/
def tdaioCompleteReport (prv : TdaioState) (aio : Nat) (err : Int) : Option AioEffect :=
  prv.aioRequests[aio]?.map fun request => .complete request.treq err

/-- The second statement: the structure is free again. -/
def tdaioCompleteRelease (prv : TdaioState) (aio : Nat) : Option TdaioState :=
  if prv.aioFreeCount < prv.aioFreeList.length then
    some { prv with
      aioFreeList := prv.aioFreeList.set prv.aioFreeCount aio
      aioFreeCount := prv.aioFreeCount + 1 }
  else none

/-! ## Tapdisk and the kernel -/

/-- What tapdisk asks of a driver. -/
structure AioCall where
  write : Bool
  treq : TdRequest

def AioCall.queue (c : AioCall) (sectorSize : Nat) (prv : TdaioState) : Option (TdaioState × AioEffect) :=
  if c.write then tdaioQueueWrite sectorSize prv c.treq else tdaioQueueRead sectorSize prv c.treq

/-- A transfer between memory and the image. -/
inductive Move
  | write (offset : Nat) (bytes : Mem)
  | read (offset count : Nat)

/-- The first `n` bytes of what a structure asks for. -/
def Tiocb.move (t : Tiocb) (n : Nat) : Move :=
  if t.write then .write t.offset (tabulate (fun k => t.buf k) n) else .read t.offset n

def Move.exec : Move → Mem → Mem
  | .write offset bytes, file => store file offset bytes
  | .read _ _, file => file

/-- The bytes that are moved. -/
def Move.data : Move → Mem → Mem
  | .write _ bytes, _ => bytes
  | .read offset count, file => slice file offset count

/-- A read does not go beyond the end of the image. -/
def Move.Inside : Move → Mem → Prop
  | .write _ _, _ => True
  | .read offset count, file => offset + count ≤ file.length

/-- A structure that the kernel has, the number of the call it belongs to, and what has been moved. -/
structure InFlight where
  aio : Nat
  call : Nat
  data : Option Mem

/-- What tapdisk was told about a call. -/
structure AioAnswer where
  call : Nat
  treq : TdRequest
  err : Int
  data : Mem

/-- A driver with tapdisk around it: all calls so far and what has been moved for each, the structures that
the kernel has and those whose request is back with tapdisk but that are not free yet. -/
structure AioSystem where
  prv : TdaioState
  file : Mem
  calls : List AioCall
  moves : List (Option Move)
  flight : List InFlight
  returning : List Nat
  answers : List AioAnswer

/-- A device just opened. -/
def AioSystem.opened (prv : TdaioState) (file : Mem) : AioSystem := ⟨prv, file, [], [], [], [], []⟩

/-- The driver, tapdisk and the kernel take steps in any order; tapdisk makes a call only where `P` holds.
The kernel serves what it has in any order, may stop short or fail, and reports success only of what it has
moved as a whole. -/
inductive AioStep (P : AioSystem → AioCall → Prop) (sectorSize : Nat) : AioSystem → AioSystem → Prop
  | refuse {s : AioSystem} {c : AioCall} {prv : TdaioState} {treq : TdRequest} {err : Int} : P s c →
      c.queue sectorSize s.prv = some (prv, .complete treq err) →
      AioStep P sectorSize s { s with
        prv := prv, calls := s.calls ++ [c], moves := s.moves ++ [none]
        answers := ⟨s.calls.length, treq, err, []⟩ :: s.answers }
  | accept {s : AioSystem} {c : AioCall} {prv : TdaioState} {aio : Nat} : P s c →
      c.queue sectorSize s.prv = some (prv, .queue aio) →
      AioStep P sectorSize s { s with
        prv := prv, calls := s.calls ++ [c], moves := s.moves ++ [none]
        flight := ⟨aio, s.calls.length, none⟩ :: s.flight }
  | move {s : AioSystem} {f : InFlight} {before after : List InFlight} {request : AioRequest} {n : Nat} :
      s.flight = before ++ f :: after → f.data = none → s.prv.aioRequests[f.aio]? = some request →
      (n : Int) ≤ request.tiocb.size → (request.tiocb.move n).Inside s.file →
      AioStep P sectorSize s { s with
        file := (request.tiocb.move n).exec s.file
        moves := s.moves.set f.call (some (request.tiocb.move n))
        flight := before ++ { f with data := some ((request.tiocb.move n).data s.file) } :: after }
  | report {s : AioSystem} {f : InFlight} {before after : List InFlight} {request : AioRequest}
      {treq : TdRequest} {err : Int} :
      s.flight = before ++ f :: after → s.prv.aioRequests[f.aio]? = some request →
      (err = 0 → ∃ d, f.data = some d ∧ (d.length : Int) = request.tiocb.size) →
      tdaioCompleteReport s.prv f.aio err = some (.complete treq err) →
      AioStep P sectorSize s { s with
        flight := before ++ after, returning := f.aio :: s.returning
        answers := ⟨f.call, treq, err, f.data.getD []⟩ :: s.answers }
  | release {s : AioSystem} {aio : Nat} {prv : TdaioState} : aio ∈ s.returning →
      tdaioCompleteRelease s.prv aio = some prv →
      AioStep P sectorSize s { s with prv := prv, returning := s.returning.erase aio }

inductive AioRun (P : AioSystem → AioCall → Prop) (sectorSize : Nat) : AioSystem → AioSystem → Prop
  | refl (s : AioSystem) : AioRun P sectorSize s s
  | step {s s' s'' : AioSystem} : AioRun P sectorSize s s' → AioStep P sectorSize s' s'' →
      AioRun P sectorSize s s''

end LogDrive
