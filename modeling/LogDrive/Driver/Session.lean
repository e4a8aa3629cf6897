import LogDrive.Driver.Preservation

/-!
# Sessions on a database file

A session opens the file, serves its requests one after the other and closes the file. A history is
any number of sessions in sequence, each started in the state that the one before left, together
with what each request returned. A time-travel session opens the file read-only and serves reads.
-/

set_option autoImplicit false

open Bytes

namespace LogDrive

inductive Request where
  | write (q : WriteRequest)
  | read (treq : TdRequest)

/-- A request inside a disk of `n` blocks of 8 sectors; `secs` is an `int`. -/
structure TdRequest.Inside (q : TdRequest) (n : Nat) : Prop where
  inside : q.sec + q.secs ≤ 8 * n
  int : q.secs < 2 ^ 31

/-- A request that `pd_read` can serve: of whole blocks, or of at most 8 sectors. -/
structure TdRequest.Readable (q : TdRequest) (n : Nat) : Prop extends q.Inside n where
  shape : q.sec % 8 = 0 ∧ q.secs % 8 = 0 ∨ q.secs ≤ 8

def Request.Inside (n : Nat) : Request → Prop
  | .write q => q.toTdRequest.Inside n
  | .read treq => treq.Readable n

/-- What `pd_write` or `pd_read` returned, and what `pd_read` stored in the caller's buffer. -/
inductive Reply where
  | wrote (r : Int)
  | got (r : Int) (bytes : Mem)
  deriving DecidableEq

def Request.serve (J : Junk) (disk : PreservationDisk) : Request → Prog Event (Reply × PreservationDisk)
  | .write q => do
    let (r, disk) ← pdWrite J disk q
    pure (.wrote r, disk)
  | .read treq => do
    let (r, bytes, disk) ← pdRead J 0 disk treq
    pure (.got r bytes, disk)

def serveAll (J : Junk) : PreservationDisk → List Request → Prog Event (List Reply × PreservationDisk)
  | disk, [] => pure ([], disk)
  | disk, req :: reqs => do
    let (reply, disk) ← req.serve J disk
    let (replies, disk) ← serveAll J disk reqs
    pure (reply :: replies, disk)

/-- What uninitialised memory holds during the session, and its requests. -/
structure Session where
  junk : Junk
  requests : List Request

/-- The session up to its last request; `none` when the file cannot be opened. -/
def Session.work (S : Session) : Prog Event (Option (List Reply × PreservationDisk)) := do
  match ← pdInitialize S.junk with
  | none => pure none
  | some disk =>
    let r ← serveAll S.junk disk S.requests
    pure (some r)

/-- The whole session: the replies and what `tdpreservation_close` returns. -/
def Session.run (S : Session) : Prog Event (Option (List Reply × Int)) := do
  match ← S.work with
  | none => pure none
  | some (replies, disk) =>
    let r ← tdClose disk
    pure (some (replies, r))

/-- The sessions in sequence; a session that cannot open the file gives no replies. -/
def runSessions : List Session → Prog Event (List Reply)
  | [] => pure []
  | S :: rest => do
    let replies ← S.run
    let more ← runSessions rest
    pure ((replies.map Prod.fst).getD [] ++ more)

/-- A session on a database that other sessions have worked on before, up to its last request. -/
def history (past : List Session) (S : Session) : Prog Event (Option (List Reply × PreservationDisk)) := do
  let _ ← runSessions past
  S.work

/-! ## Time travel -/

/-- A time-travel session: the time it goes to and what it reads. -/
structure Travel where
  junk : Junk
  ts : TimeSpec
  fuel : Nat
  reads : List TdRequest

def readAll (J : Junk) (fuel : Nat) :
    PreservationDisk → List TdRequest → Prog Event (List Reply × PreservationDisk)
  | disk, [] => pure ([], disk)
  | disk, treq :: rest => do
    let (r, bytes, disk) ← pdRead J fuel disk treq
    let (replies, disk) ← readAll J fuel disk rest
    pure (.got r bytes :: replies, disk)

/-- The whole session: the replies and what `tdtimetravel_close` returns. -/
def Travel.run (V : Travel) : Prog Event (Option (List Reply × Int)) := do
  match ← pdInitializeReadOnly V.junk V.ts with
  | none => pure none
  | some disk =>
    let (replies, disk) ← readAll V.junk V.fuel disk V.reads
    let r ← tdClose disk
    pure (some (replies, r))

/-! ## The start -/

/-- The system with a database file just laid out, of `blocks` blocks of 4096 bytes. -/
def newDatabase (blocks : Nat) : Os Event := ⟨mkimage (blocks * 4096) 4096, 0, []⟩

end LogDrive
