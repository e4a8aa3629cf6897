import LogDrive.Lib.Prog

/-!
# The buffered log file (`utils.c`, `utils.h`)

Definitions keep the names of the source. Lengths and offsets are `Nat`; a C expression of type
`uint64_t` or `size_t` that can wrap is cut by `u64`. Memory from `posix_memalign` holds whatever it
held before (`Junk`).

`BufferedIo.filledAt` and the events are history: no code reads them. `filledAt` is the value of
`next_offset` when the read buffer was last filled, so a byte served from the read buffer at or
past it was not in the file at that time (`stale`).
-/

set_option autoImplicit false

open Bytes
open Prog (sysOpen sysLseek sysRead sysWrite mark)

namespace LogDrive

/-! ## Sizes -/

def u64 (n : Nat) : Nat := n % 2 ^ 64

/-- `DEFAULT_SECTOR_SIZE` (tapdisk.h). -/
abbrev defaultSectorSize : Nat := 512
/-- `sizeof(struct entry_header)`: a timespec of 16 bytes, 8 bytes, 2 bytes and 6 of padding. -/
abbrev entryHeaderSize : Nat := 32
abbrev defaultBlockSize : Nat := 4096
def readBufferSize : Nat := defaultBlockSize * 2
def bufferSize : Nat := (defaultBlockSize / entryHeaderSize + 1) * defaultBlockSize

theorem readBufferSize_eq : readBufferSize = 8192 := rfl
theorem bufferSize_eq : bufferSize = 528384 := rfl

/-- `n & ~(unit - 1)` on `uint64_t`. -/
def roundDown (n unit : Nat) : Nat := n &&& (2 ^ 64 - unit)

/-- `(n + unit - 1) & ~(unit - 1)` on `uint64_t`. -/
def roundUp (n unit : Nat) : Nat := u64 (n + unit - 1) &&& (2 ^ 64 - unit)

/-! ## History -/

inductive Event where
  /-- `bio_write` returned `offset` for `bytes`. -/
  | logged (offset : Nat) (bytes : Mem)
  /-- `bio_read` copied `bytes` from `pos`. -/
  | fetched (pos : Nat) (bytes : Mem) (stale : Bool)
  /-- `pd_write` set `index_table[block]`. -/
  | indexed (block offset : Nat)
  /-- `read_current_block` set the cache of `block`. -/
  | cached (block offset size : Nat)
  /-- `open_disk` has read the header. -/
  | headerRead
  /-- `open_disk` has read the index. -/
  | indexRead
  /-- `pd_finalize` has been called. -/
  | finalizing
  /-- `pd_finalize` is about to write this index. -/
  | indexing (table : List Nat)
  /-- `pd_finalize` has closed the file. -/
  | closed

/-- What uninitialised memory holds. -/
structure Junk where
  header : Nat → UInt8
  readBuffer : Nat → UInt8
  buffer : Nat → UInt8
  entryHeader : Nat → UInt8
  dataSize : Nat

def zeroJunk : Junk := ⟨fun _ => 0, fun _ => 0, fun _ => 0, fun _ => 0, 0⟩

/-! ## The buffered file -/

structure BufferedIo where
  readOnly : Bool
  readBuffer : Mem
  readBufferPos : Nat
  readBufferEnable : Bool
  buffer : Mem
  bufferPos : Nat
  nextOffset : Nat
  filledAt : Nat

/-- `memcpy` of `size` bytes from `mem + off`; reading past the allocation is undefined. -/
def copyFrom (mem : Mem) (off size : Nat) : Prog Event Mem :=
  if off + size ≤ mem.length then pure (slice mem off size) else .undefined

/-- A read-only file never gets a write buffer. -/
def bioInit (J : Junk) (readOnly : Bool) (nextOffset : Nat) : BufferedIo where
  readOnly := readOnly
  readBuffer := tabulate J.readBuffer readBufferSize
  readBufferPos := 0
  readBufferEnable := false
  buffer := if readOnly then [] else tabulate J.buffer bufferSize
  bufferPos := 0
  nextOffset := nextOffset
  filledAt := nextOffset

def bioFlush (bio : BufferedIo) : Prog Event BufferedIo :=
  if bio.readOnly then pure bio
  else if bio.bufferPos ≠ 0 then do
    let size := roundUp bio.bufferPos defaultSectorSize
    sysLseek bio.nextOffset
    let bytes ← copyFrom bio.buffer 0 size
    -- the result of write() is not looked at
    let _ ← sysWrite bytes
    pure { bio with nextOffset := u64 (bio.nextOffset + size), bufferPos := 0 }
  else pure bio

def bioFinalize (bio : BufferedIo) : Prog Event (Nat × BufferedIo) := do
  let bio ← bioFlush bio
  pure (bio.nextOffset, bio)

def bioWrite (bio : BufferedIo) (bytes : Mem) : Prog Event (Nat × BufferedIo) :=
  if bio.readOnly then pure (0, bio)
  else do
    let bio ← (if bio.bufferPos + bytes.length > bufferSize then bioFlush bio else pure bio)
    if bio.bufferPos + bytes.length ≤ bio.buffer.length then do
      let offset := u64 (bio.nextOffset + bio.bufferPos)
      mark (.logged offset bytes)
      pure (offset, { bio with
        buffer := store bio.buffer bio.bufferPos bytes
        bufferPos := bio.bufferPos + bytes.length })
    else .undefined

/-- The read buffer can serve the range. -/
def BufferedIo.windowHit (bio : BufferedIo) (pos size : Nat) : Bool :=
  bio.readBufferEnable && (decide (bio.readBufferPos ≤ pos) &&
    decide (u64 ((pos - bio.readBufferPos) + size) < readBufferSize))

/-- Loads the read buffer from `p` on; `false` when `read` fails. -/
def fillReadBuffer (bio : BufferedIo) (p : Nat) : Prog Event (Bool × BufferedIo) := do
  let bio := { bio with readBufferEnable := true, readBufferPos := p, filledAt := bio.nextOffset }
  sysLseek p
  match ← sysRead readBufferSize with
  | none => pure (false, bio)
  | some bytes => pure (true, { bio with readBuffer := store bio.readBuffer 0 bytes })

/-- `none` is the result `-1`, where the destination is left as it was. -/
def bioRead (bio : BufferedIo) (pos size : Nat) : Prog Event (Option Mem × BufferedIo) := do
  let p := roundDown pos defaultSectorSize
  if bio.nextOffset ≤ pos then
    let bytes ← copyFrom bio.buffer (pos - bio.nextOffset) size
    mark (.fetched pos bytes false)
    pure (some bytes, bio)
  else
    let (filled, bio) ← (if bio.windowHit pos size then pure (true, bio) else fillReadBuffer bio p)
    if filled then
      let bytes ← copyFrom bio.readBuffer (pos - bio.readBufferPos) size
      mark (.fetched pos bytes (decide (bio.filledAt ≤ pos)))
      pure (some bytes, bio)
    else pure (none, bio)

/-- The range is below `next_offset` and served from the read buffer, which was filled before
`next_offset` moved past it. -/
def BufferedIo.stale (bio : BufferedIo) (pos size : Nat) : Prop :=
  pos < bio.nextOffset ∧ bio.windowHit pos size = true ∧ bio.filledAt ≤ pos

instance (bio : BufferedIo) (pos size : Nat) : Decidable (bio.stale pos size) := by
  unfold BufferedIo.stale; infer_instance

/-- The byte of the log at `pos`: in the file below `next_offset`, in the write buffer from there
on. -/
def BufferedIo.logByte (bio : BufferedIo) (file : Mem) (pos : Nat) : UInt8 :=
  if pos < bio.nextOffset then byteAt file pos else byteAt bio.buffer (pos - bio.nextOffset)

/-- The read buffer is to hold the file from `p` on. -/
def BufferedIo.aimed (b : BufferedIo) (p : Nat) : BufferedIo :=
  { b with readBufferEnable := true, readBufferPos := p, filledAt := b.nextOffset }

/-- The read buffer has been loaded with `bs` from `p`. -/
def BufferedIo.loaded (b : BufferedIo) (p : Nat) (bs : Mem) : BufferedIo :=
  { b.aimed p with readBuffer := store b.readBuffer 0 bs }

/-! ## What has been logged -/

/-- Bytes logged at an offset. -/
structure Entry where
  off : Nat
  bytes : Mem

def Entry.stop (e : Entry) : Nat := e.off + e.bytes.length

/-- The range `[pos, pos + size)` lies inside the entry. -/
def Entry.Covers (e : Entry) (pos size : Nat) : Prop := e.off ≤ pos ∧ pos + size ≤ e.stop

/-- What lies in the entry at the range. -/
def Entry.part (e : Entry) (pos size : Nat) : Mem := slice e.bytes (pos - e.off) size

/-- The entry has been logged, and nothing over it since. -/
def Logged : List Event → Entry → Prop
  | [], _ => False
  | .logged offset bytes :: past, e =>
    e = ⟨offset, bytes⟩ ∨ (Logged past e ∧ (e.stop ≤ offset ∨ offset + bytes.length ≤ e.off))
  | _ :: past, e => Logged past e

/-- A `bio_read` inside a logged entry copies that entry's bytes. -/
def Coherent (past : List Event) : Event → Prop
  | .fetched pos bytes _ => ∀ e, Logged past e → e.Covers pos bytes.length → bytes = e.part pos bytes.length
  | _ => True

/-! ## Rounding -/

theorem u64_of_lt {n : Nat} (h : n < 2 ^ 64) : u64 n = n := Nat.mod_eq_of_lt h

theorem and_mask {n k : Nat} (h : n < 2 ^ 64) (hk : k ≤ 64) :
    n &&& (2 ^ 64 - 2 ^ k) = n / 2 ^ k * 2 ^ k := by
  have hm : 2 ^ 64 - 2 ^ k = (2 ^ (64 - k) - 1) * 2 ^ k := by
    rw [Nat.sub_mul, Nat.one_mul, ← Nat.pow_add, Nat.sub_add_cancel hk]
  apply Nat.eq_of_testBit_eq
  intro j
  rw [Nat.testBit_and, hm, Nat.testBit_mul_two_pow, Nat.testBit_mul_two_pow,
    Nat.testBit_two_pow_sub_one, Nat.testBit_div_two_pow]
  by_cases hj : k ≤ j
  · rw [Nat.sub_add_cancel hj]
    by_cases hj' : j < 64
    · simp [hj]; omega
    · rw [Nat.testBit_lt_two_pow
        (Nat.lt_of_lt_of_le h (Nat.pow_le_pow_right (by decide) (by omega)))]
      simp
  · simp [hj]

theorem roundDown_sector {n : Nat} (h : n < 2 ^ 64) : roundDown n 512 = n / 512 * 512 :=
  and_mask (k := 9) h (by decide)

theorem roundUp_sector {n : Nat} (h : n + 511 < 2 ^ 64) :
    roundUp n 512 = (n + 511) / 512 * 512 := by
  unfold roundUp
  rw [show n + 512 - 1 = n + 511 by omega, u64_of_lt h]
  exact and_mask (k := 9) h (by decide)

theorem roundUp_char {n : Nat} (h : n + 7 < 2 ^ 64) : roundUp n 8 = (n + 7) / 8 * 8 := by
  unfold roundUp
  rw [show n + 8 - 1 = n + 7 by omega, u64_of_lt h]
  exact and_mask (k := 3) h (by decide)

/-! ## The operations case by case -/

theorem bioWrite_room (b : BufferedIo) (bytes : Mem) (hw : b.readOnly = false)
    (hr : b.bufferPos + bytes.length ≤ bufferSize) (hl : b.buffer.length = bufferSize) :
    bioWrite b bytes = .note (.logged (u64 (b.nextOffset + b.bufferPos)) bytes)
      (.ret (u64 (b.nextOffset + b.bufferPos), { b with
        buffer := store b.buffer b.bufferPos bytes, bufferPos := b.bufferPos + bytes.length })) := by
  unfold bioWrite
  rw [if_neg (by simp [hw]), if_neg (by omega)]
  simp only [Prog.pure_eq, Prog.bind_eq, Prog.ret_bind]
  rw [if_pos (by omega)]
  rfl

theorem bioFlush_pending (b : BufferedIo) (hw : b.readOnly = false) (hp : b.bufferPos ≠ 0)
    (hl : roundUp b.bufferPos defaultSectorSize ≤ b.buffer.length) :
    bioFlush b = .lseek b.nextOffset
      (.write (slice b.buffer 0 (roundUp b.bufferPos defaultSectorSize)) fun _ =>
        .ret { b with nextOffset := u64 (b.nextOffset + roundUp b.bufferPos defaultSectorSize),
                      bufferPos := 0 }) := by
  unfold bioFlush
  rw [if_neg (by simp [hw]), if_pos hp]
  simp only [Prog.pure_eq, Prog.bind_eq, Prog.sysLseek_bind, copyFrom]
  rw [if_pos (by omega)]
  rfl

theorem bioRead_buffer (b : BufferedIo) (pos size : Nat) (hp : b.nextOffset ≤ pos)
    (hin : pos - b.nextOffset + size ≤ b.buffer.length) :
    bioRead b pos size = .note (.fetched pos (slice b.buffer (pos - b.nextOffset) size) false)
      (.ret (some (slice b.buffer (pos - b.nextOffset) size), b)) := by
  unfold bioRead
  rw [if_pos hp, copyFrom, if_pos hin]
  rfl

theorem bioRead_hit (b : BufferedIo) (pos size : Nat) (hp : pos < b.nextOffset)
    (hh : b.windowHit pos size = true)
    (hin : pos - b.readBufferPos + size ≤ b.readBuffer.length) :
    bioRead b pos size = .note (.fetched pos (slice b.readBuffer (pos - b.readBufferPos) size)
        (decide (b.filledAt ≤ pos)))
      (.ret (some (slice b.readBuffer (pos - b.readBufferPos) size), b)) := by
  unfold bioRead
  rw [if_neg (by omega), if_pos hh]
  simp only [Prog.pure_eq, Prog.bind_eq, Prog.ret_bind, if_true, copyFrom]
  rw [if_pos hin]
  rfl

theorem bioRead_miss (b : BufferedIo) (pos size : Nat) (hp : pos < b.nextOffset)
    (hh : b.windowHit pos size = false) :
    bioRead b pos size = .lseek (roundDown pos defaultSectorSize) (.read readBufferSize fun
      | none => .ret (none, b.aimed (roundDown pos defaultSectorSize))
      | some bs => (copyFrom (store b.readBuffer 0 bs) (pos - roundDown pos defaultSectorSize)
          size).bind fun bytes => .note (.fetched pos bytes (decide (b.nextOffset ≤ pos)))
            (.ret (some bytes, b.loaded (roundDown pos defaultSectorSize) bs))) := by
  unfold bioRead
  rw [if_neg (by omega), if_neg (by simp [hh])]
  simp only [Prog.pure_eq, Prog.bind_eq, fillReadBuffer, Prog.sysLseek_bind, Prog.sysRead_bind,
    Prog.bind]
  congr 1
  congr 1
  funext r
  cases r <;> rfl

/-! ## Runs of single calls -/

/-- A flush returns where what it writes fits below the largest offset. -/
theorem bioFlush_returns {b : BufferedIo} {size : Nat} (hw : b.readOnly = false) (hp : b.bufferPos ≠ 0)
    (hsize : roundUp b.bufferPos defaultSectorSize = size) (hl : size ≤ b.buffer.length)
    (hfit : b.nextOffset + size ≤ offMax) (s : Os Event) :
    Done (bioFlush b) s { b with nextOffset := u64 (b.nextOffset + size), bufferPos := 0 }
      ⟨store s.file b.nextOffset (slice b.buffer 0 size), b.nextOffset + size, s.notes⟩ := by
  subst hsize
  have hlen : (slice b.buffer 0 (roundUp b.bufferPos defaultSectorSize)).length =
      roundUp b.bufferPos defaultSectorSize := length_slice_of_le (by omega)
  have hseek : b.nextOffset ≤ offMax := by omega
  rw [bioFlush_pending b hw hp hl]
  refine .of_step (if_pos hseek) (.of_step (if_pos (by simp only [hlen]; exact hfit)) ?_)
  simp only [Os.afterWrite, hlen]
  exact .ret _ _

/-- A read that the read buffer cannot serve loads it first. -/
theorem bioRead_loads {b : BufferedIo} {pos size p : Nat} {s : Os Event} (hp : pos < b.nextOffset)
    (hh : b.windowHit pos size = false) (hround : roundDown pos defaultSectorSize = p) (hseek : p ≤ offMax)
    (hin : pos - p + size ≤ b.readBuffer.length) :
    ∃ now notes, Done (bioRead b pos size) s
      (some (slice (store b.readBuffer 0 (slice s.file p readBufferSize)) (pos - p) size),
        b.loaded p (slice s.file p readBufferSize)) ⟨s.file, now, notes⟩ := by
  subst hround
  have hin' := Nat.le_trans hin
    (le_length_store b.readBuffer 0 (slice s.file (roundDown pos defaultSectorSize) readBufferSize))
  rw [bioRead_miss b pos size hp hh]
  have hcopy : copyFrom (store b.readBuffer 0 (slice s.file (roundDown pos defaultSectorSize) readBufferSize))
      (pos - roundDown pos defaultSectorSize) size = .ret _ := if_pos hin'
  exact ⟨_, _, .of_step (if_pos hseek) (.of_step rfl (by
    simp only [Os.chunk, hcopy]
    exact .of_step rfl (.ret _ _)))⟩

end LogDrive
