import LogDrive.Lib.Logic
import LogDrive.Driver.Utils

/-!
# The invariant of the buffered log file

`BioInv b file es`: the writable `b` over `file` holds the entries `es` (newest first). The three
copies of the data are tied together here: below `next_offset` an entry lies in the file, from
there on in the write buffer (`holds`, `side`), and the read buffer agrees with every entry that
was in the file when it was filled (`window`, `filledAt`). Nothing is said of the read buffer past
`filledAt`: there it may be stale.

`wp_bioFlush`, `wp_bioWrite` and `wp_bioRead` are the one specification of each operation; callers
cite them and do not unfold the operations.
-/

set_option autoImplicit false

open Bytes

namespace LogDrive

structure BioInv (b : BufferedIo) (file : Mem) (es : List Entry) : Prop where
  writable : b.readOnly = false
  bufLen : b.buffer.length = bufferSize
  winLen : b.readBuffer.length = readBufferSize
  posLe : b.bufferPos ≤ bufferSize
  aligned : b.nextOffset % 512 = 0
  small : b.nextOffset + b.bufferPos < 2 ^ 64
  sorted : es.Pairwise fun newer older => older.stop ≤ newer.off
  top : ∀ e ∈ es, e.stop ≤ b.nextOffset + b.bufferPos
  side : ∀ e ∈ es, e.stop ≤ b.nextOffset ∨ b.nextOffset ≤ e.off
  holds : ∀ e ∈ es, Holds (b.logByte file) e.off e.bytes
  inFile : ∀ e ∈ es, e.stop ≤ b.nextOffset → e.stop ≤ file.length
  filled : b.filledAt ≤ b.nextOffset
  filledSide : ∀ e ∈ es, e.stop ≤ b.filledAt ∨ b.filledAt ≤ e.off
  window : b.readBufferEnable = true → ∀ e ∈ es, e.stop ≤ b.filledAt → ∀ i, e.off ≤ i →
    i < e.stop → b.readBufferPos ≤ i → i < b.readBufferPos + readBufferSize →
    byteAt b.readBuffer (i - b.readBufferPos) = byteAt e.bytes (i - e.off)

/-- The log part of a buffered file: everything but the read buffer. -/
structure SameLog (b b' : BufferedIo) : Prop where
  readOnly : b'.readOnly = b.readOnly
  buffer : b'.buffer = b.buffer
  bufferPos : b'.bufferPos = b.bufferPos
  nextOffset : b'.nextOffset = b.nextOffset
  filledAt : b.filledAt ≤ b'.filledAt

/-- The read buffer was filled after the last flush. -/
def BufferedIo.Fresh (b : BufferedIo) : Prop := b.readBufferEnable = true → b.filledAt = b.nextOffset

theorem SameLog.rfl {b : BufferedIo} : SameLog b b :=
  ⟨Eq.refl _, Eq.refl _, Eq.refl _, Eq.refl _, Nat.le_refl _⟩

theorem SameLog.trans {a b c : BufferedIo} (h : SameLog a b) (h' : SameLog b c) : SameLog a c :=
  ⟨h'.readOnly.trans h.readOnly, h'.buffer.trans h.buffer, h'.bufferPos.trans h.bufferPos,
    h'.nextOffset.trans h.nextOffset, Nat.le_trans h.filledAt h'.filledAt⟩

theorem Entry.byteAt_part {e : Entry} {pos size i : Nat} (h : i < size) :
    byteAt (e.part pos size) i = byteAt e.bytes (pos - e.off + i) := byteAt_slice h

theorem Entry.length_part {e : Entry} {pos size : Nat} (h : e.Covers pos size) :
    (e.part pos size).length = size := by
  obtain ⟨h1, h2⟩ := h
  rw [Entry.stop] at h2
  exact length_slice_of_le (by omega)

/-! ## Start -/

/-- A file just opened: the entries lie below `next_offset`, inside the file. -/
theorem bioInit_inv {J : Junk} {N : Nat} {file : Mem} {es : List Entry} (hN : N % 512 = 0)
    (hs : N < 2 ^ 64) (hsort : es.Pairwise fun newer older => older.stop ≤ newer.off)
    (hlow : ∀ e ∈ es, e.stop ≤ N) (hin : ∀ e ∈ es, e.stop ≤ file.length)
    (hh : ∀ e ∈ es, Holds (byteAt file) e.off e.bytes) : BioInv (bioInit J false N) file es where
  writable := rfl
  bufLen := by simp [bioInit]
  winLen := by simp [bioInit]
  posLe := Nat.zero_le _
  aligned := hN
  small := hs
  sorted := hsort
  top := hlow
  side := fun e he => .inl (hlow e he)
  holds := fun e he => (hh e he).congr fun i _ hi => by
    have := hlow e he
    rw [Entry.stop] at this
    exact if_pos (show i < N by omega)
  inFile := fun e he _ => hin e he
  filled := Nat.le_refl _
  filledSide := fun e he => .inl (hlow e he)
  window := fun h => by cases h

/-! ## Flush -/

/-- Every write at or past `lo` into the file as it is now is allowed. -/
def AllowsFrom (L : Logic Event) (file : Mem) (lo : Nat) : Prop :=
  ∀ (t : Os Event) (bs : Mem), t.file = file → lo ≤ t.pos → L.allow t bs

/-- What a flush may change. -/
structure Flushed (b : BufferedIo) (file : Mem) (b' : BufferedIo) (file' : Mem) : Prop where
  next : b.nextOffset ≤ b'.nextOffset
  room : b'.bufferPos ≤ b.bufferPos
  top : b.nextOffset + b.bufferPos ≤ b'.nextOffset + b'.bufferPos
  upper : b'.nextOffset ≤ b.nextOffset + (b.bufferPos + 511) / 512 * 512
  grow : file.length ≤ file'.length
  long : file' = file ∨ b'.nextOffset ≤ file'.length
  below : ∀ i < b.nextOffset, byteAt file' i = byteAt file i
  moved : b'.nextOffset ≠ b.nextOffset → b'.nextOffset ≤ offMax
  filledAt : b'.filledAt = b.filledAt

theorem Flushed.refl (b : BufferedIo) (file : Mem) : Flushed b file b file :=
  ⟨Nat.le_refl _, Nat.le_refl _, Nat.le_refl _, Nat.le_add_right _ _, Nat.le_refl _, .inl rfl,
    fun _ _ => rfl, fun h => absurd rfl h, rfl⟩

theorem roundUp_bufferPos {n : Nat} (h : n ≤ bufferSize) :
    roundUp n 512 = (n + 511) / 512 * 512 := roundUp_sector (by rw [bufferSize_eq] at h; omega)

section
variable {L : Logic Event} (hL : L.Alone) {b : BufferedIo} {s : Os Event} {es : List Entry}
include hL

theorem wp_bioFlush (hI : BioInv b s.file es) (hA : AllowsFrom L s.file b.nextOffset)
    (ht : L.total → b.nextOffset + bufferSize ≤ offMax) :
    wp L (bioFlush b) (fun b' s' => BioInv b' s'.file es ∧ s'.notes = s.notes ∧
      b'.bufferPos = 0 ∧ Flushed b s.file b' s'.file) s := by
  have hpos := hI.posLe
  have hsm := hI.small
  unfold bioFlush
  rw [if_neg (by simp [hI.writable])]
  split
  · rename_i hne
    have hr := roundUp_bufferPos hpos
    generalize hz : roundUp b.bufferPos defaultSectorSize = size at *
    have hmod := hI.aligned
    have hbs : b.bufferPos ≤ size ∧ size ≤ bufferSize ∧ size % 512 = 0 ∧ 0 < size := by
      rw [bufferSize_eq] at hpos ⊢; omega
    obtain ⟨h1, h2, h3, h4⟩ := hbs
    have hlen : (slice b.buffer 0 size).length = size :=
      length_slice_of_le (by rw [hI.bufLen]; omega)
    simp only [Prog.bind_eq, Prog.sysLseek_bind, copyFrom]
    rw [if_pos (by rw [hI.bufLen]; omega)]
    refine wp_lseek_alone hL (fun h => by have := ht h; omega) fun hl => ?_
    simp only [Prog.pure_eq, Prog.ret_bind, Prog.sysWrite_bind]
    refine wp_write_alone hL ?_ (hA _ _ rfl (Nat.le_refl _)) fun hw => ?_
    · intro h; rw [hlen]; have := ht h; simp only; omega
    · simp only [hlen] at hw
      have hnext : u64 (b.nextOffset + size) = b.nextOffset + size :=
        u64_of_lt (by simp only [offMax] at hw; omega)
      have hne' : slice b.buffer 0 size ≠ [] := by
        intro h; rw [h] at hlen; simp at hlen; omega
      have hbelow : ∀ i, i < b.nextOffset ∨ b.nextOffset + size ≤ i →
          byteAt (store s.file b.nextOffset (slice b.buffer 0 size)) i = byteAt s.file i :=
        fun i hi => byteAt_store_outside (by rw [hlen]; exact hi)
      have hin : ∀ i, b.nextOffset ≤ i → i < b.nextOffset + size →
          byteAt (store s.file b.nextOffset (slice b.buffer 0 size)) i =
            byteAt b.buffer (i - b.nextOffset) := fun i hi hi' => by
        rw [byteAt_store_inside hi (by rw [hlen]; exact hi'), byteAt_slice (by omega), Nat.zero_add]
      have hgrow := le_length_store s.file b.nextOffset (slice b.buffer 0 size)
      have hend := end_le_length_store (m := s.file) b.nextOffset hne'
      rw [hlen] at hend
      simp only [wp_ret, hnext, Os.afterWrite_file]
      refine ⟨?_, rfl, trivial, ?_⟩
      · refine { hI with
          posLe := Nat.zero_le _
          aligned := by simp only; omega
          small := by simp only [offMax] at hw ⊢; omega
          top := fun e he => by have := hI.top e he; simp only; omega
          side := fun e he => by have := hI.top e he; exact .inl (by simp only; omega)
          holds := fun e he => (hI.holds e he).congr fun i hi hi' => ?_
          inFile := fun e he hs => ?_
          filled := by have := hI.filled; simp only; omega }
        · have := hI.top e he
          rw [Entry.stop] at this
          simp only [BufferedIo.logByte]
          rw [if_pos (by omega)]
          by_cases hlt : i < b.nextOffset
          · rw [if_pos hlt]; exact hbelow i (.inl hlt)
          · rw [if_neg hlt]; exact hin i (by omega) (by omega)
        · rcases hI.side e he with h | h
          · exact Nat.le_trans (hI.inFile e he h) hgrow
          · simp only at hs; omega
      · exact ⟨by simp only; omega, Nat.zero_le _, by simp only; omega, by simp only [hr]; omega, hgrow,
          .inr hend,
          fun i hi => hbelow i (.inl hi), fun _ => by simp only at hw ⊢; exact hw, rfl⟩
  · rename_i h0
    have h0 : b.bufferPos = 0 := by simpa using h0
    exact ⟨hI, rfl, h0, Flushed.refl b s.file⟩

/-! ## Write -/

/-- What a `bio_write` of `size` bytes may change. -/
structure Wrote (b : BufferedIo) (file : Mem) (size : Nat) (b' : BufferedIo) (file' : Mem) :
    Prop where
  next : b.nextOffset ≤ b'.nextOffset
  grow : file.length ≤ file'.length
  long : file' = file ∨ b'.nextOffset ≤ file'.length
  below : ∀ i < b.nextOffset, byteAt file' i = byteAt file i
  moved : b'.nextOffset ≠ b.nextOffset → b'.nextOffset ≤ offMax
  filledAt : b'.filledAt = b.filledAt
  /-- There was room in the write buffer: nothing is flushed. -/
  calm : b.bufferPos + size ≤ bufferSize → file' = file ∧ b'.nextOffset = b.nextOffset ∧
    b'.bufferPos = b.bufferPos + size ∧ (b.Fresh → b'.Fresh)

omit hL in
/-- An entry copied into the write buffer. -/
theorem BioInv.push {file : Mem} (hI : BioInv b file es) {bytes : Mem} (hne : 0 < bytes.length)
    (hroom : b.bufferPos + bytes.length ≤ bufferSize)
    (hsmall : b.nextOffset + b.bufferPos + bytes.length < 2 ^ 64) :
    BioInv { b with buffer := store b.buffer b.bufferPos bytes,
                    bufferPos := b.bufferPos + bytes.length } file
      (⟨b.nextOffset + b.bufferPos, bytes⟩ :: es) := by
  have hlen : (store b.buffer b.bufferPos bytes).length = bufferSize := by
    rw [length_store_of_le (by rw [hI.bufLen]; omega), hI.bufLen]
  refine { hI with
    bufLen := hlen
    posLe := hroom
    small := by simp only; omega
    sorted := List.pairwise_cons.2 ⟨fun e he => hI.top e he, hI.sorted⟩
    top := ?_, side := ?_, holds := ?_, inFile := ?_, filledSide := ?_, window := ?_ }
  · intro e he
    rcases List.mem_cons.1 he with rfl | he
    · simp only [Entry.stop]; omega
    · have := hI.top e he; simp only; omega
  · intro e he
    rcases List.mem_cons.1 he with rfl | he
    · exact .inr (by simp only; omega)
    · exact hI.side e he
  · intro e he
    rcases List.mem_cons.1 he with rfl | he
    · intro i hi
      simp only [BufferedIo.logByte] at hi ⊢
      rw [if_neg (by omega), byteAt_store_inside (by omega) (by omega)]
      congr 1; omega
    · refine (hI.holds e he).congr fun i hi hi' => ?_
      have := hI.top e he
      rw [Entry.stop] at this
      simp only [BufferedIo.logByte]
      split
      · rfl
      · exact byteAt_store_outside (.inl (by omega))
  · intro e he hs
    rcases List.mem_cons.1 he with rfl | he
    · simp only [Entry.stop] at hs; omega
    · exact hI.inFile e he hs
  · intro e he
    rcases List.mem_cons.1 he with rfl | he
    · exact .inr (by have := hI.filled; simp only; omega)
    · exact hI.filledSide e he
  · intro hen e he hs i h1 h2
    rcases List.mem_cons.1 he with rfl | he
    · have := hI.filled; simp only [Entry.stop] at h1 h2 hs; omega
    · exact hI.window hen e he hs i h1 h2

/-- **`bio_write`**: the entry is added above all others. -/
theorem wp_bioWrite (hI : BioInv b s.file es) {bytes : Mem} (hne : 0 < bytes.length)
    (hsize : bytes.length ≤ bufferSize)
    (hsmall : b.nextOffset + b.bufferPos + bytes.length < 2 ^ 64)
    (hA : AllowsFrom L s.file b.nextOffset)
    (ht : L.total → b.bufferPos + bytes.length ≤ bufferSize ∧
      ∀ off, L.assume s.notes (.logged off bytes)) :
    wp L (bioWrite b bytes) (fun r s' => BioInv r.2 s'.file (⟨r.1, bytes⟩ :: es) ∧
      s'.notes = .logged r.1 bytes :: s.notes ∧ b.nextOffset + b.bufferPos ≤ r.1 ∧
      Wrote b s.file bytes.length r.2 s'.file) s := by
  unfold bioWrite
  rw [if_neg (by simp [hI.writable])]
  have hfirst : wp L (if b.bufferPos + bytes.length > bufferSize then bioFlush b else pure b)
      (fun b1 s1 => BioInv b1 s1.file es ∧ s1.notes = s.notes ∧
        b1.bufferPos + bytes.length ≤ bufferSize ∧ Flushed b s.file b1 s1.file ∧
        (b.bufferPos + bytes.length ≤ bufferSize → b1 = b ∧ s1.file = s.file)) s := by
    split
    · rename_i hfull
      refine wp_mono (wp_bioFlush hL hI hA fun h => absurd (ht h).1 (by omega)) ?_
      rintro b1 s1 ⟨h1, h2, h3, h4⟩
      exact ⟨h1, h2, by omega, h4, fun h => absurd h (by omega)⟩
    · exact ⟨hI, rfl, by omega, Flushed.refl b s.file, fun _ => ⟨rfl, rfl⟩⟩
  refine wp_seq hfirst ?_
  rintro b1 s1 ⟨hI1, hn1, hroom, hF, hcalm⟩
  have hsm1 : b1.nextOffset + b1.bufferPos + bytes.length < 2 ^ 64 := by
    by_cases hm : b1.nextOffset = b.nextOffset
    · have := hF.room; omega
    · have := hF.moved hm
      have := hI1.posLe
      rw [bufferSize_eq] at *
      simp only [offMax] at *
      omega
  have hoff : u64 (b1.nextOffset + b1.bufferPos) = b1.nextOffset + b1.bufferPos :=
    u64_of_lt (by omega)
  rw [if_pos (by rw [hI1.bufLen]; exact hroom)]
  simp only [Prog.bind_eq, Prog.mark_bind, Prog.pure_eq, hoff]
  refine ⟨fun h => by rw [hn1]; exact (ht h).2 _, fun _ => ?_⟩
  refine ⟨hI1.push hne hroom hsm1, by simp only [hn1], hF.top, ?_⟩
  refine ⟨hF.next, hF.grow, hF.long, hF.below, hF.moved, hF.filledAt, fun h => ?_⟩
  obtain ⟨rfl, hfile⟩ := hcalm h
  exact ⟨hfile, rfl, rfl, fun hf => hf⟩

/-! ## Read -/

omit hL in
/-- A copy out of the write buffer. -/
theorem BioInv.buffer_part {file : Mem} (hI : BioInv b file es) {pos size : Nat}
    (hpos : b.nextOffset ≤ pos) (hin : pos - b.nextOffset + size ≤ b.buffer.length) {e : Entry}
    (he : e ∈ es) (hc : e.Covers pos size) :
    slice b.buffer (pos - b.nextOffset) size = e.part pos size := by
  have hl := length_slice_of_le hin
  refine ext_byteAt (by rw [hl, Entry.length_part hc]) fun i hi => ?_
  rw [hl] at hi
  obtain ⟨h1, h2⟩ := hc
  rw [Entry.stop] at h2
  have := hI.holds e he (pos - e.off + i) (by omega)
  simp only [BufferedIo.logByte] at this
  rw [if_neg (by omega)] at this
  rw [byteAt_slice hi, Entry.byteAt_part hi, ← this]
  congr 1; omega

omit hL in
/-- A copy out of the read buffer below `filledAt`. -/
theorem BioInv.window_part {file : Mem} (hI : BioInv b file es) {pos size : Nat}
    (hen : b.readBufferEnable = true) (hlo : b.readBufferPos ≤ pos)
    (hin : pos - b.readBufferPos + size ≤ b.readBuffer.length) (hf : pos < b.filledAt) {e : Entry}
    (he : e ∈ es) (hc : e.Covers pos size) :
    slice b.readBuffer (pos - b.readBufferPos) size = e.part pos size := by
  have hl := length_slice_of_le hin
  refine ext_byteAt (by rw [hl, Entry.length_part hc]) fun i hi => ?_
  rw [hl] at hi
  rw [hI.winLen] at hin
  obtain ⟨h1, h2⟩ := hc
  have hst : e.stop ≤ b.filledAt := by
    rcases hI.filledSide e he with h | h
    · exact h
    · omega
  have := hI.window hen e he hst (pos + i) (by omega) (by omega) (by omega) (by omega)
  rw [byteAt_slice hi, Entry.byteAt_part hi, show pos - e.off + i = pos + i - e.off by omega, ← this]
  congr 1; omega

omit hL in
/-- The read buffer after a fill from `p` agrees with every entry in the file. -/
theorem BioInv.fill (hI : BioInv b s.file es) (p : Nat) :
    BioInv { b with readBufferEnable := true, readBufferPos := p, filledAt := b.nextOffset,
                    readBuffer := store b.readBuffer 0 (slice s.file p readBufferSize) }
      s.file es := by
  have hc : (slice s.file p readBufferSize).length = min readBufferSize (s.file.length - p) :=
    length_slice _ _ _
  refine { hI with
    winLen := ?_
    filled := Nat.le_refl _
    filledSide := fun e he => hI.side e he
    window := fun _ e he hs i h1 h2 h3 h4 => ?_ }
  · rw [length_store_of_le (by rw [hI.winLen, hc]; omega), hI.winLen]
  · simp only at hs h3 h4 ⊢
    have h5 := hI.inFile e he hs
    rw [byteAt_store_inside (by omega) (by rw [hc]; omega), byteAt_slice (by omega)]
    rw [Entry.stop] at h2 hs
    have := hI.holds e he (i - e.off) (by omega)
    simp only [BufferedIo.logByte] at this
    rw [if_pos (by omega)] at this
    rw [← this]
    congr 1; omega

/-- What `bio_read` delivers and leaves. -/
structure Fetched (b : BufferedIo) (s : Os Event) (es : List Entry) (pos size : Nat) (bytes : Mem)
    (stale : Bool) (b' : BufferedIo) (s' : Os Event) : Prop where
  length : bytes.length = size
  file : s'.file = s.file
  notes : s'.notes = .fetched pos bytes stale :: s.notes
  inv : BioInv b' s'.file es
  log : SameLog b b'
  fresh : b.Fresh → b'.Fresh ∧ stale = false
  isStale : stale = true → b.stale pos size
  right : stale = false → ∀ e ∈ es, e.Covers pos size → bytes = e.part pos size

/-- The read buffer has been set to serve a range below `next_offset`. -/
structure Windowed (b : BufferedIo) (s : Os Event) (es : List Entry) (pos size : Nat) (b' : BufferedIo)
    (s' : Os Event) : Prop where
  file : s'.file = s.file
  notes : s'.notes = s.notes
  inv : BioInv b' s.file es
  log : SameLog b b'
  enabled : b'.readBufferEnable = true
  low : b'.readBufferPos ≤ pos
  fresh : b.Fresh → b'.filledAt = b.nextOffset
  isStale : b'.filledAt ≤ pos → b.stale pos size
  inside : (size ≤ 4128 ∧ ∃ e ∈ es, e.Covers pos size) → pos - b'.readBufferPos + size ≤ b'.readBuffer.length

/-- The first part of `bio_read`: the read buffer is kept or filled. -/
theorem wp_window (hI : BioInv b s.file es) {pos size : Nat} (hlt : pos < b.nextOffset)
    (ht : L.total → b.nextOffset ≤ offMax) :
    wp L (if b.windowHit pos size = true then pure (true, b) else fillReadBuffer b (roundDown pos defaultSectorSize))
      (fun r s' => r.1 = true ∧ Windowed b s es pos size r.2 s') s := by
  have hsm := hI.small
  split
  · rename_i hhit
    have hh := hhit
    simp only [BufferedIo.windowHit, Bool.and_eq_true, decide_eq_true_eq] at hh
    obtain ⟨hen, hlo, hwin⟩ := hh
    refine ⟨rfl, rfl, rfl, hI, .rfl, hen, hlo, fun h => h hen, fun h => ⟨hlt, hhit, h⟩, fun h => ?_⟩
    obtain ⟨hs, e, he, hc⟩ := h
    have := hI.top e he
    have := hc.2
    rw [u64_of_lt (by omega)] at hwin
    simp only [hI.winLen]
    omega
  · have hp : roundDown pos defaultSectorSize = pos / 512 * 512 := roundDown_sector (by omega)
    rw [hp]
    simp only [fillReadBuffer, Prog.bind_eq, Prog.sysLseek_bind, Prog.sysRead_bind]
    refine wp_lseek_alone hL (fun h => by have := ht h; omega) fun _ => wp_read_alone hL ?_
    have hF := hI.fill (pos / 512 * 512)
    refine ⟨rfl, rfl, rfl, hF, ⟨rfl, rfl, rfl, rfl, hI.filled⟩, rfl, by simp only; omega, fun _ => rfl,
      fun h => absurd h (by simp only; omega), fun h => ?_⟩
    have hs := h.1
    have := hF.winLen
    simp only [readBufferSize_eq] at this ⊢
    simp only [Os.chunk]
    rw [this]
    omega

/-- **`bio_read`** inside an entry copies the entry's bytes unless it is stale. -/
theorem wp_bioRead (hI : BioInv b s.file es) {pos size : Nat}
    (hr : L.ub ∨ size ≤ 4128 ∧ ∃ e ∈ es, e.Covers pos size)
    (ht : L.total → b.Fresh ∧ b.nextOffset ≤ offMax ∧ ∀ bytes, bytes.length = size →
      (∀ e ∈ es, e.Covers pos size → bytes = e.part pos size) →
      L.assume s.notes (.fetched pos bytes false)) :
    wp L (bioRead b pos size) (fun r s' => ∃ bytes stale, r.1 = some bytes ∧
      L.assume s.notes (.fetched pos bytes stale) ∧ Fetched b s es pos size bytes stale r.2 s') s := by
  have hsm := hI.small
  unfold bioRead
  split
  · rename_i hge
    by_cases hin : pos - b.nextOffset + size ≤ b.buffer.length
    · rw [copyFrom, if_pos hin]
      simp only [Prog.pure_eq, Prog.bind_eq, Prog.ret_bind, Prog.mark_bind]
      have hpart : ∀ e ∈ es, e.Covers pos size → _ := fun e he hc => hI.buffer_part hge hin he hc
      refine ⟨fun h => (ht h).2.2 _ (length_slice_of_le hin) hpart, fun ha => ⟨_, false, rfl, ha, ?_⟩⟩
      exact ⟨length_slice_of_le hin, rfl, rfl, hI, .rfl, fun h => ⟨h, rfl⟩, (by simp),
        fun _ => hpart⟩
    · rw [copyFrom, if_neg hin]
      refine hr.resolve_right fun h => hin ?_
      obtain ⟨_, e, he, hc⟩ := h
      have := hI.top e he
      have := hI.posLe
      have := hI.bufLen
      have := hc.2
      omega
  · rename_i hlt
    simp only [Prog.bind_eq]
    refine wp_seq (wp_window hL hI (by omega) fun h => (ht h).2.1) ?_
    rintro ⟨ok, b1⟩ s1 ⟨rfl, hfile, hn, hI1, hS, hen, hlo, hfr, hst, hin⟩
    simp only [if_true]
    by_cases hin' : pos - b1.readBufferPos + size ≤ b1.readBuffer.length
    · rw [copyFrom, if_pos hin']
      simp only [Prog.pure_eq, Prog.ret_bind, Prog.mark_bind]
      have hpart : b1.filledAt > pos → ∀ e ∈ es, e.Covers pos size →
          slice b1.readBuffer (pos - b1.readBufferPos) size = e.part pos size :=
        fun hf e he hc => hI1.window_part hen hlo hin' hf he hc
      have hfresh : b.Fresh → pos < b1.filledAt := fun h => by rw [hfr h]; omega
      refine ⟨fun h => ?_, fun ha => ⟨_, _, rfl, by rw [← hn]; exact ha, ?_⟩⟩
      · obtain ⟨hf, -, has⟩ := ht h
        rw [hn, decide_eq_false (by have := hfresh hf; omega)]
        exact has _ (length_slice_of_le hin') (hpart (hfresh hf))
      · refine ⟨length_slice_of_le hin', hfile, by simp only [hn], by simp only [hfile]; exact hI1, hS,
          fun h => ⟨fun _ => by rw [hfr h, hS.nextOffset], decide_eq_false (by have := hfresh h; omega)⟩,
          fun h => hst (of_decide_eq_true h), fun h => hpart ?_⟩
        have := of_decide_eq_false h
        omega
    · rw [copyFrom, if_neg hin']
      exact hr.resolve_right fun h => hin' (hin h)

end

end LogDrive
