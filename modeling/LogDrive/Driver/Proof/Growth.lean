import LogDrive.Driver.Proof.Address
import LogDrive.Driver.Proof.Total

/-!
# How fast the file grows

An entry has at most 4128 bytes, and a flush fills up the last sector. `BufferedIo.reach` is where the file
ends if the write buffer is flushed now: reads leave it as it is, and a version moves it on by nine sectors
at most (`wp_pdWriteBlock_reach`). So after any sessions, each of which may be killed, the file is not longer
than header, index and nine sectors for each version that the requests can log (`log_growth`).
-/

set_option autoImplicit false

open Bytes

namespace LogDrive

/-- The most that a version adds to the file: 4128 bytes, filled up to whole sectors. -/
abbrev versionSectors : Nat := 9 * 512

/-- Where the file ends when the write buffer has been flushed. -/
def BufferedIo.reach (b : BufferedIo) : Nat := b.nextOffset + (b.bufferPos + 511) / 512 * 512

theorem SameLog.reach {b b' : BufferedIo} (h : SameLog b b') : b'.reach = b.reach := by
  rw [BufferedIo.reach, BufferedIo.reach, h.nextOffset, h.bufferPos]

theorem BufferedIo.reach_flushed (b : BufferedIo) :
    BufferedIo.reach { b with nextOffset := u64 (b.nextOffset + (b.bufferPos + 511) / 512 * 512), bufferPos := 0 } ≤
      b.reach := by
  have hu : u64 (b.nextOffset + (b.bufferPos + 511) / 512 * 512) ≤ b.nextOffset + (b.bufferPos + 511) / 512 * 512 :=
    Nat.mod_le _ _
  simp only [BufferedIo.reach]
  omega

/-- An entry that is copied into the write buffer. -/
theorem BufferedIo.reach_push (b : BufferedIo) (buffer : Mem) {size : Nat} (h : size ≤ 4128) :
    BufferedIo.reach { b with buffer := buffer, bufferPos := b.bufferPos + size } ≤ b.reach + versionSectors := by
  simp only [BufferedIo.reach, versionSectors]
  omega

/-- A write that ends at `B` at most and leaves no higher `next_offset` in the header. -/
def EndsBy (B : Nat) (s : Os Event) (bs : Mem) : Prop :=
  s.pos + bs.length ≤ B ∧ (512 ≤ s.pos ∨ fileNext (s.afterWrite bs).file ≤ B)

/-- The mode in which every write has to end at `B`. Nothing is taken for granted of reads. -/
abbrev growthLogic (B : Nat) : Logic Event := bioLogic.allowing (EndsBy B)

theorem bioLogic_alone (A : Os Event → Mem → Prop) : (bioLogic.allowing A).Alone := fun _ _ _ h => h

/-- A fact that holds whatever is written, next to one that asks for the guarantee. -/
theorem wp_growth {α : Type} {B : Nat} {p : Prog Event α} {Q R : α → Os Event → Prop} {s : Os Event}
    (h : wp (bioLogic.allowing fun _ _ => True) p Q s) (h' : wp (growthLogic B) p R s) :
    wp (growthLogic B) p (fun a s' => Q a s' ∧ R a s') s :=
  wp_both (fun _ _ _ hb => hb) h h'

/-! ## The buffered file -/

section
variable {B : Nat} {b : BufferedIo} {s : Os Event}

theorem wp_bioFlush_reach (hpos : b.bufferPos ≤ bufferSize) (hlo : 512 ≤ b.nextOffset) (hB : b.reach ≤ B) :
    wp (growthLogic B) (bioFlush b) (fun b' _ => b'.reach ≤ b.reach) s := by
  unfold bioFlush
  split
  · exact Nat.le_refl b.reach
  · split
    · have hsize : roundUp b.bufferPos defaultSectorSize = (b.bufferPos + 511) / 512 * 512 := roundUp_bufferPos hpos
      rw [hsize]
      simp only [Prog.bind_eq, Prog.sysLseek_bind, copyFrom]
      split
      · rename_i hfit
        simp only [Prog.pure_eq, Prog.ret_bind, Prog.sysWrite_bind]
        have hlen := length_slice_of_le hfit
        refine wp_lseek_alone (bioLogic_alone _) (fun h => h.elim) fun _ => ?_
        refine wp_write_alone (bioLogic_alone _) (fun h => h.elim) ⟨?_, .inl hlo⟩ fun _ => ?_
        · rw [hlen]
          exact hB
        · exact BufferedIo.reach_flushed b
      · exact wp_lseek_alone (bioLogic_alone _) (fun h => h.elim) fun _ => trivial
    · exact Nat.le_refl b.reach

/-- **`bio_write`** of an entry moves the end on by nine sectors. -/
theorem wp_bioWrite_reach (hpos : b.bufferPos ≤ bufferSize) (hlo : 512 ≤ b.nextOffset) (hB : b.reach ≤ B)
    {bytes : Mem} (hsize : bytes.length ≤ 4128) :
    wp (growthLogic B) (bioWrite b bytes) (fun r _ => r.2.reach ≤ b.reach + versionSectors) s := by
  unfold bioWrite
  split
  · exact Nat.le_add_right b.reach versionSectors
  · have hfirst : wp (growthLogic B) (if b.bufferPos + bytes.length > bufferSize then bioFlush b else pure b)
        (fun b1 _ => b1.reach ≤ b.reach) s := by
      split
      · exact wp_bioFlush_reach hpos hlo hB
      · exact Nat.le_refl b.reach
    refine wp_seq hfirst ?_
    intro b1 s1 h1
    split
    · simp only [Prog.bind_eq, Prog.mark_bind, Prog.pure_eq, wp_note]
      refine ⟨fun _ => trivial, fun _ => ?_⟩
      exact Nat.le_trans (b1.reach_push _ hsize) (Nat.add_le_add_right h1 _)
    · trivial

end

/-! ## Requests -/

section
variable {n N B : Nat} {old recs : List Rec} {d : PreservationDisk} {s : Os Event}

/-- The end of the header lies below the log. -/
theorem LogInv.next_ge (hI : LogInv n N old d s recs) : 512 ≤ d.bio.nextOffset := by
  have := logStart_bounds n
  have := hI.file.start
  have := hI.start
  omega

/-- **One block of a request.** -/
theorem wp_pdWriteBlock_reach (hI : LogInv n N old d s recs) {q : WriteRequest} {b : Nat} (hb : b < n) {J : Junk}
    {start size done : Nat} {buf : Mem} (hbuf : buf.length = 4128) (hB : d.bio.reach ≤ B) :
    wp (growthLogic B) (pdWriteBlock J q d b start size done buf)
      (fun r _ => r.2.1.bio.reach ≤ d.bio.reach + versionSectors) s := by
  unfold pdWriteBlock
  have hdest : 4096 ≤ (buf.drop entryHeaderSize).length := by
    rw [List.length_drop, hbuf]
    decide
  refine wp_seq (wp_readLatestBlock (bio_mode.allowing _) hI hb hdest fun h => h.elim) ?_
  rintro ⟨r, out, d1⟩ s1 ⟨hR, hI1, hS⟩
  obtain ⟨rfl, -, -, -⟩ := hR
  have hreach : d1.bio.reach = d.bio.reach := hS.log.reach
  dsimp only
  rw [if_neg (by decide)]
  split
  · rw [Prog.bind_eq, hI1.indexAt hb, getActualDataSize, hI1.header.blockSize]
    generalize store out start (q.source done size) = data
    have hsize : actualDataSize data 4096 ≤ 4096 := actualDataSize_le_size (by decide)
    split
    · exact Nat.le_trans (Nat.le_of_eq hreach) (Nat.le_add_right _ _)
    · rw [copyFrom]
      split
      · simp only [Prog.pure_eq, Prog.bind_eq, Prog.ret_bind]
        refine wp_seq (wp_bioWrite_reach hI1.bio.posLe hI1.next_ge (by rw [hreach]; exact hB) ?_) ?_
        · rw [length_slice]
          simp only [entryHeaderSize]
          omega
        · intro r s2 h2
          rw [hreach] at h2
          exact ⟨fun _ => trivial, fun _ => h2⟩
      · trivial
  · trivial

/-- The loop of `pd_write` over some of the request's blocks. -/
theorem wp_writeEach_reach {q : WriteRequest} (hq : q.sec + q.secs ≤ 8 * n) {J : Junk} {bs : List Nat}
    (hbs : ∀ b ∈ bs, b ∈ q.blocks 8) {buf : Mem} (hbuf : buf.length = 4128) (hI : LogInv n N old d s recs)
    (hB : d.bio.reach + versionSectors * bs.length ≤ B) :
    wp (growthLogic B) (writeEach J q (bs.map (q.piece 8)) d buf)
      (fun r s' => (∃ recs', LogInv n N old r.2 s' recs') ∧ r.2.bio.reach ≤ d.bio.reach + versionSectors * bs.length) s := by
  induction bs generalizing d s recs buf with
  | nil => exact ⟨⟨recs, hI⟩, Nat.le_refl _⟩
  | cons b bs ih =>
    simp only [List.length_cons, Nat.mul_add, Nat.mul_one] at hB ⊢
    obtain ⟨hlt, hlo, hhi⟩ := mem_blocksFrom.1 (hbs b List.mem_cons_self)
    have hb : b < n := by omega
    -- the piece starts at the first sector of the request in the block
    have hat : At q.toTdRequest (max q.sec (b * 8)) b := ⟨by omega, by omega, by omega⟩
    have hpiece : q.piece 8 b = ⟨b, max q.sec (b * 8) % 8 * 512,
        min (8 - max q.sec (b * 8) % 8) (q.sec + q.secs - max q.sec (b * 8)) * 512, max q.sec (b * 8) - q.sec⟩ := by
      simp only [TdRequest.piece, Piece.mk.injEq, true_and, and_true]
      omega
    rw [List.map_cons, hpiece, writeEach]
    refine wp_seq (wp_growth (wp_pdWriteBlock (bio_mode.allowing _) hI (fun _ _ _ _ _ _ => trivial) hat hb hbuf rfl
      fun h => h.elim) (wp_pdWriteBlock_reach hI hb hbuf (by omega))) ?_
    rintro ⟨r, d1, buf1⟩ s1 ⟨⟨rfl, hbuf1, new, hI1, -⟩, hreach⟩
    simp only at hbuf1 hI1 hreach ⊢
    rw [if_neg (by decide)]
    refine wp_mono (ih (fun b' hb' => hbs b' (List.mem_cons_of_mem _ hb')) hbuf1 hI1 (by omega)) ?_
    rintro r s2 ⟨hI2, hreach2⟩
    exact ⟨hI2, by omega⟩

/-- **`pd_write`.** -/
theorem wp_pdWrite_reach (hn : n < 2 ^ 31) {q : WriteRequest} (hq : q.toTdRequest.Inside n) {J : Junk}
    (hI : LogInv n N old d s recs) (hB : d.bio.reach + versionSectors * (Request.write q).versions ≤ B) :
    wp (growthLogic B) (pdWrite J d q) (fun r s' => (∃ recs', LogInv n N old r.2 s' recs') ∧
      r.2.bio.reach ≤ d.bio.reach + versionSectors * (Request.write q).versions) s := by
  have hinside := hq.inside
  have hwrites : pdWrite J d q = writeEach J q (q.pieces 8) d (zeros (entryHeaderSize + defaultBlockSize)) :=
    pdWriteLoop_eq (by decide) hI.sectors (writePieces_eq (by decide) (by omega) fun b hb => by
      obtain ⟨-, -, hhi⟩ := mem_blocksFrom.1 hb
      omega)
  have hcount : (q.blocks 8).length ≤ (Request.write q).versions := by
    rw [TdRequest.blocks, blocksFrom]
    split
    · rw [List.length_range', Request.versions, TdRequest.touchedBlocks, if_neg (by omega), Nat.card_Ico]
      omega
    · exact Nat.zero_le _
  have hle := Nat.mul_le_mul_left versionSectors hcount
  rw [hwrites]
  refine wp_mono (wp_writeEach_reach hinside (fun b hb => hb) (length_zeros _) hI (by omega)) ?_
  rintro r s' ⟨hI', hreach⟩
  exact ⟨hI', by omega⟩

/-- **A request.** -/
theorem wp_serve_reach (hn : n < 2 ^ 31) {req : Request} (hreq : req.Inside n) {J : Junk} (hI : LogInv n N old d s recs)
    (hB : d.bio.reach + versionSectors * req.versions ≤ B) :
    wp (growthLogic B) (req.serve J d) (fun r s' => (∃ recs', LogInv n N old r.2 s' recs') ∧
      r.2.bio.reach ≤ d.bio.reach + versionSectors * req.versions) s := by
  cases req with
  | write q =>
    refine wp_seq (wp_pdWrite_reach hn hreq hI hB) ?_
    intro r s' h
    exact h
  | read treq =>
    have hR : BlockReader (growthLogic B) False n (fun d' s' => LogInv n N old d' s' recs ∧ SameSession d s recs d' s')
        (fun b => contentOf (chainOf recs b)) (readLatestBlock J) := latestReader (bio_mode.allowing _) fun h => h.elim
    have hrb : readBlockOf J 0 d = readLatestBlock J := if_neg (by simp [hI.writable])
    refine wp_seq (wp_pdRead hR hn hreq hrb ⟨hI, .rfl⟩) ?_
    rintro ⟨r, bytes, d'⟩ s' ⟨-, -, -, hI', hS⟩
    exact ⟨⟨recs, hI'⟩, Nat.le_trans (Nat.le_of_eq hS.log.reach) (Nat.le_add_right _ _)⟩

theorem wp_serveAll_reach (hn : n < 2 ^ 31) {reqs : List Request} (hreqs : ∀ req ∈ reqs, req.Inside n) {J : Junk}
    (hI : LogInv n N old d s recs) (hB : d.bio.reach + versionSectors * (reqs.map Request.versions).sum ≤ B) :
    wp (growthLogic B) (serveAll J d reqs) (fun r s' => (∃ recs', LogInv n N old r.2 s' recs') ∧
      r.2.bio.reach ≤ d.bio.reach + versionSectors * (reqs.map Request.versions).sum) s := by
  induction reqs generalizing d s recs with
  | nil => exact ⟨⟨recs, hI⟩, Nat.le_refl _⟩
  | cons req reqs ih =>
    rw [List.map_cons, List.sum_cons, Nat.mul_add] at hB ⊢
    refine wp_seq (wp_serve_reach hn (hreqs req List.mem_cons_self) hI (by omega)) ?_
    rintro ⟨reply, d1⟩ s1 ⟨⟨recs1, hI1⟩, h1⟩
    simp only at h1
    refine wp_seq (ih (fun r hr => hreqs r (List.mem_cons_of_mem _ hr)) hI1 (by omega)) ?_
    rintro ⟨replies, d2⟩ s2 ⟨hI2, h2⟩
    exact ⟨hI2, Nat.le_trans h2 (by omega)⟩

end

/-! ## Sessions -/

/-- `next_offset` in a header just written. -/
theorem fileNext_header {n N' : Nat} {hd : DataHeader} (hh : hd.Of n N') (hN : N' ≤ offMax) (f : Mem) :
    fileNext (store f 0 hd.toBytes) = N' := by
  have hs := Holds.store f 0 hd.toBytes
  rw [hh.toBytes, headerBytes, List.append_assoc] at hs
  have h3 := (holds_append.1 (holds_append.1 hs).2).1
  simp only [List.length_append, length_le, Nat.zero_add] at h3
  rw [fileNext, hh.toBytes, headerBytes, List.append_assoc]
  exact numAt_of_holds h3 (by unfold offMax at hN; omega)

section
variable {n N B : Nat} {old : List Rec} (hn : n < 2 ^ 31) {s : Os Event}
include hn

/-- **`pd_finalize`.** -/
theorem wp_pdFinalize_reach {recs : List Rec} {d : PreservationDisk} (hI : LogInv n N old d s recs)
    (hB : d.bio.reach ≤ B) (hstart : logStart n ≤ B) : wp (growthLogic B) (pdFinalize d) (fun _ _ => True) s := by
  have htb := tableBytes_bounds n
  have hl := logStart_bounds n
  unfold pdFinalize
  simp only [Prog.bind_eq, Prog.mark_bind, bioFinalize, Prog.pure_eq]
  refine ⟨fun _ => trivial, fun _ => ?_⟩
  rw [Prog.bind_assoc]
  refine wp_seq (wp_growth (wp_bioFlush (bioLogic_alone _) hI.bio (fun _ _ _ _ => trivial) fun h => h.elim)
    (wp_bioFlush_reach hI.bio.posLe hI.next_ge hB)) ?_
  rintro bio s2 ⟨⟨hF, -, -, hflush⟩, hreach⟩
  simp only [Prog.ret_bind]
  rw [if_neg (by simp [hI.writable]), if_neg (by rw [hI.header.blockSize]; decide)]
  simp only [Prog.sysLseek_bind, Prog.sysWrite_bind]
  have hhd : ({ d.header with nextOffset := bio.nextOffset } : DataHeader).Of n bio.nextOffset :=
    ⟨hI.header.diskSize, hI.header.blockSize, rfl, hI.header.rest⟩
  generalize ({ d.header with nextOffset := bio.nextOffset } : DataHeader) = hd at hhd
  have hnext : bio.nextOffset ≤ B := by
    have : bio.nextOffset ≤ bio.reach := Nat.le_add_right _ _
    omega
  have hbound : bio.nextOffset ≤ offMax := by
    by_cases h : bio.nextOffset = d.bio.nextOffset
    · rw [h]
      exact hI.bound
    · exact hflush.moved h
  refine wp_lseek_alone (bioLogic_alone _) (fun h => h.elim) fun _ => ?_
  refine wp_write_alone (bioLogic_alone _) (fun h => h.elim) ⟨?_, .inr ?_⟩ fun _ => ?_
  · rw [hhd.length_toBytes]
    simp only
    omega
  · rw [Os.afterWrite_file, fileNext_header hhd hbound]
    exact hnext
  refine wp_lseek_alone (bioLogic_alone _) (fun h => h.elim) fun _ => ?_
  simp only [wp_note]
  refine ⟨fun _ => trivial, fun _ => ?_⟩
  rw [hI.header.indexTableSize hn, copyFrom]
  split
  · simp only [Prog.pure_eq, Prog.ret_bind]
    refine wp_write_alone (bioLogic_alone _) (fun h => h.elim) ⟨?_, .inl (Nat.le_refl _)⟩ fun _ => ⟨fun _ => trivial, fun _ => trivial⟩
    rw [length_slice]
    unfold logStart at hstart
    simp only [roundUppedDataHeaderSize]
    omega
  · trivial

/-- **A session** writes no further than nine sectors for each of its versions. -/
theorem wp_session_reach (hf : FileInv n N old s.file) {S : Session} (hreqs : ∀ req ∈ S.requests, req.Inside n)
    (hB : N + versionSectors * S.versions ≤ B) : wp (growthLogic B) S.run (fun _ _ => True) s := by
  have hstart : logStart n ≤ B := by
    have := hf.start
    omega
  unfold Session.run Session.work pdInitialize
  simp only [Prog.bind_eq]
  rw [Prog.bind_assoc]
  refine wp_seq (wp_openDisk (bioLogic_alone _) hn hf fun h => h.elim) ?_
  rintro _ s1 ⟨hfile, -, d, rfl, ho⟩
  have hI := ho.logInv hf hfile
  have hreach : d.bio.reach = N := by
    rw [ho.disk]
    simp only [openedDisk, BufferedIo.reach, bioInit, ho.header.nextOffset]
    omega
  dsimp only
  rw [Prog.bind_assoc]
  refine wp_seq (wp_serveAll_reach hn hreqs hI (by rw [hreach]; exact hB)) ?_
  rintro ⟨replies, d'⟩ s2 ⟨⟨recs, hI'⟩, hreach'⟩
  rw [hreach] at hreach'
  simp only [Prog.pure_eq, Prog.ret_bind, tdClose, Prog.bind_eq]
  rw [Prog.bind_assoc]
  refine wp_seq (wp_pdFinalize_reach hn hI' (Nat.le_trans hreach' hB) hstart) ?_
  intro _ _ _
  trivial

end

/-! ## Any sessions -/

variable {n N B : Nat} {old recs : List Rec}

/-- A file that ends at `B` at most, as does its log. -/
structure Stored (B : Nat) (f : Mem) : Prop where
  length : f.length ≤ B
  next : fileNext f ≤ B

theorem length_afterWrite_le {s : Os Event} {bs : Mem} (hs : s.file.length ≤ B) (he : s.pos + bs.length ≤ B) :
    (s.afterWrite bs).file.length ≤ B := by
  rw [Os.afterWrite_file, length_store]
  split <;> omega

/-- A write behind the header. -/
theorem fileNext_afterWrite {s : Os Event} {bs : Mem} (hp : 512 ≤ s.pos) :
    fileNext (s.afterWrite bs).file = fileNext s.file :=
  numAt_congr fun i _ hi => byteAt_store_outside (.inl (by omega))

/-- Each write of a session. -/
theorem Stored.write {s : Os Event} {bs : Mem} (h : Stored B s.file) (he : EndsBy B s bs) :
    Stored B (s.afterWrite bs).file where
  length := length_afterWrite_le h.length he.1
  next := by
    rcases he.2 with hp | hn
    · rw [fileNext_afterWrite hp]
      exact h.next
    · exact hn

/-- A write of the index that is cut short. -/
theorem Stored.write_within {s : Os Event} {bs : Mem} (h : Stored B s.file) (he : EndsBy B s bs) (hp : s.pos = 512)
    (k : Nat) : Stored B (s.afterWrite (bs.take k)).file where
  length := length_afterWrite_le h.length (by
    have := he.1
    rw [List.length_take]
    omega)
  next := by
    rw [fileNext_afterWrite (by omega)]
    exact h.next

/-- **One more session**, killed or not. -/
theorem Killed.stored (hn : n < 2 ^ 31) {s s' : Os Event} (hf : FileInv n N old s.file) (h : Stored B s.file) {S : Session}
    (hreqs : ∀ req ∈ S.requests, req.Inside n) {begun : Bool} (hk : Killed S s begun s') :
    Stored (B + versionSectors * S.versions) s'.file := by
  have hN : N ≤ B := by
    rw [← hf.next]
    exact h.next
  have hw := wp_session_reach hn hf hreqs (B := B + versionSectors * S.versions) (by omega)
  have hall := bio_assumed (EndsBy (B + versionSectors * S.versions))
  have hstart : Stored (B + versionSectors * S.versions) s.file :=
    ⟨Nat.le_trans h.length (Nat.le_add_right _ _), Nat.le_trans h.next (Nat.le_add_right _ _)⟩
  have hrun : ∀ {m q s'}, runOk m (S.run, s) = some (q, s') → Stored (B + versionSectors * S.versions) s'.file :=
    fun hr => wp_runOk_file (I := Stored (B + versionSectors * S.versions)) (fun _ _ hI he => hI.write he) hw hr (hall _)
      hstart
  cases hk with
  | before hr _ => exact hrun hr
  | behind hr _ _ _ => exact hrun hr
  | @within m k c c' hr hat hs =>
    obtain ⟨p, s1⟩ := c
    obtain ⟨hp, bs, k', rfl⟩ := hat
    simp only [step] at hs
    split at hs
    · cases hs
      exact (hrun hr).write_within (wp_runOk hw hr (hall _) s1.file rfl).2.1 hp _
    · cases hs

/-- The states after any sessions, killed or not, whose requests can log `k` versions. -/
inductive Grown (n : Nat) : Nat → Os Event → Prop
  | new : Grown n 0 (newDatabase n)
  | session {k : Nat} {S : Session} {s s' : Os Event} {begun : Bool} : Grown n k s →
      (∀ req ∈ S.requests, req.Inside n) → Killed S s begun s' → Grown n (k + S.versions) s'

theorem Grown.reached {k : Nat} {s : Os Event} (h : Grown n k s) : Reached n s := by
  induction h with
  | new => exact .new
  | session _ hreqs hk ih => exact .session ih hreqs hk

theorem Grown.stored (hn : n < 2 ^ 31) {k : Nat} {s : Os Event} (h : Grown n k s) :
    Stored (logStart n + versionSectors * k) s.file := by
  induction h with
  | new =>
    have hl := logStart_bounds n
    refine ⟨?_, ?_⟩
    · have hlen : (newDatabase n).file.length = 24 := by
        rw [show (newDatabase n).file = headerBytes n (logStart n) from mkimage_eq n, length_headerBytes]
      omega
    · rw [(newDatabase_inv hn).next]
      exact Nat.le_add_right _ _
  | session hg hreqs hk ih =>
    obtain ⟨N, recs, hf⟩ := hg.reached.database hn
    have := hk.stored hn hf ih hreqs
    rwa [Nat.mul_add, ← Nat.add_assoc]

/-! ## A session that needs all of it -/

/-- A block of ones. -/
def blockWrite : WriteRequest where
  sec := 0
  secs := 8
  buf _ := 1
  ts := ⟨1, 0⟩
  pad _ := 0

def blockSession : Session := ⟨zeroJunk, [.write blockWrite]⟩

theorem blockWrite_inside (hn : 0 < n) : ∀ req ∈ blockSession.requests, req.Inside n := fun req hr => by
  rcases List.mem_singleton.1 hr with rfl
  exact ⟨show 0 + 8 ≤ 8 * n by omega, by decide⟩

theorem blockSession_affordable (recs : List Rec) : Affordable True 0 recs blockSession.requests :=
  affordable_of_versions (by rw [bufferSize_eq]; decide)

theorem blockSession_versions : blockSession.versions = 1 := by decide

theorem blockWrite_patch (old : Nat → UInt8) {p : Nat} (hp : p < 4096) : blockWrite.patch 0 old p = 1 := by
  have hcov : blockWrite.Covers (8 * 0 + p / 512) := ⟨Nat.zero_le _, show 8 * 0 + p / 512 < 0 + 8 by omega⟩
  rw [TdRequest.patch, if_pos hcov]
  rfl

/-- The block gets a version of all its bytes. -/
theorem WriteStep.block {recs' : List Rec} (h : WriteStep True blockWrite recs recs') :
    ∃ v, chainOf recs' 0 = v :: chainOf recs 0 ∧ 4096 ≤ v.data.length := by
  have hstep := h.touched 0 ⟨by decide, by decide, by decide⟩
  generalize chainOf recs 0 = vs at hstep
  generalize chainOf recs' 0 = vs' at hstep
  cases hstep with
  | skip hzero =>
    have h0 := hzero 0 (by decide)
    rw [blockWrite_patch _ (by decide)] at h0
    exact absurd h0 (by decide)
  | @push _ v old _ _ _ _ hdata =>
    refine ⟨v, rfl, ?_⟩
    by_contra hlen
    have hlast := hdata 4095 (by decide)
    rw [blockWrite_patch _ (by decide), byteAt_of_le (by omega)] at hlast
    exact absurd hlast (by decide)

/-- The session logs at least nine sectors. -/
theorem wp_blockSession (hn : n < 2 ^ 31) (h0 : 0 < n) {s : Os Event} (hf : FileInv n N recs s.file)
    (hfull : Full s recs) (hN : N + 2 ^ 20 ≤ offMax) :
    wp totalLogic blockSession.run (fun _ s' => ∃ N' recs', FileInv n N' recs' s'.file ∧ Full s' recs' ∧
      N + versionSectors ≤ N') s := by
  unfold Session.run
  refine wp_seq (wp_work total_mode hn (fun _ _ _ _ _ _ => trivial) hf (blockWrite_inside h0) [] fun _ =>
    ⟨hfull, blockSession_affordable recs⟩) ?_
  rintro _ s1 ⟨replies, d, new, rfl, hI, hR, hfull1, hcalm⟩
  simp only [tdClose, Prog.bind_eq]
  rw [Prog.bind_assoc]
  refine wp_seq (wp_pdFinalize total_mode hn (fun _ _ _ _ _ _ => trivial) (fun _ _ _ _ => trivial) hI fun h => ?_) ?_
  · rw [(hcalm h).2.2, bufferSize_eq]
    omega
  rintro _ s' ⟨N', hC⟩
  refine ⟨N', new ++ recs, hC.database, fun e he => ?_, ?_⟩
  · rw [hC.notes] at he
    exact hfull1 hfull e he
  · cases hR with
    | cons hs hrest =>
      cases hrest
      cases hs with
      | write hW =>
        obtain ⟨v, hchain, hlen⟩ := hW.block
        rw [chainOf_append] at hchain
        have hv : v ∈ chainOf new 0 := by
          rw [List.append_cancel_right (hchain.trans (show v :: chainOf recs 0 = [v] ++ chainOf recs 0 from rfl))]
          exact List.mem_singleton_self v
        obtain ⟨r, hr, -, rfl⟩ := mem_chainOf.1 hv
        obtain ⟨new', hnew, hlo⟩ := hI.new
        rw [List.append_cancel_right hnew] at hr
        have h1 := hlo r hr
        have h2 := hC.database.below r (List.append_cancel_right hnew ▸ List.mem_append_left _ hr)
        have h3 := hC.database.aligned
        have h4 := hf.aligned
        unfold Version.stop entryHeaderSize at h2
        unfold versionSectors
        omega

/-- After `k` such sessions the log is as long as it can be. -/
theorem grown_all (hn : n < 2 ^ 31) (h0 : 0 < n) (k : Nat) (hk : logStart n + versionSectors * k + 2 ^ 20 ≤ offMax) :
    ∃ s recs, Grown n k s ∧ FileInv n (logStart n + versionSectors * k) recs s.file ∧ Full s recs ∧
      Assumed totalLogic.assume s.notes := by
  induction k with
  | zero => exact ⟨newDatabase n, [], .new, newDatabase_inv hn, nofun, trivial⟩
  | succ k ih =>
    rw [Nat.mul_add, Nat.mul_one, ← Nat.add_assoc] at hk ⊢
    obtain ⟨s, recs, hg, hf, hfull, ha⟩ := ih (by omega)
    obtain ⟨r, s', ⟨m, hr⟩, ⟨N', recs', hf', hfull', hle⟩, ha'⟩ :=
      exists_done (wp_blockSession hn h0 hf hfull (by omega)) ha
    obtain ⟨begun, hkill⟩ := Killed.of_run hr
    have hg' : Grown n (k + 1) s' := by
      rw [← blockSession_versions]
      exact .session hg (blockWrite_inside h0) hkill
    have hupper := (hg'.stored hn).next
    rw [hf'.next, Nat.mul_add, Nat.mul_one, ← Nat.add_assoc] at hupper
    have hN : N' = logStart n + versionSectors * k + versionSectors := Nat.le_antisymm hupper hle
    exact ⟨s', recs', hg', hN ▸ hf', hfull', ha'⟩

/-- **How fast the file grows.** After any sessions, killed anywhere or not, file and log end at the latest with
header, index and nine sectors for each version, and for every number of versions there are sessions whose log
does not end earlier. -/
theorem log_growth (hn : n < 2 ^ 31) : (∀ k s, Grown n k s →
      s.file.length ≤ logStart n + versionSectors * k ∧ fileNext s.file ≤ logStart n + versionSectors * k) ∧
    ∀ k, 0 < n → logStart n + versionSectors * k + 2 ^ 20 ≤ offMax →
      ∃ s, Grown n k s ∧ fileNext s.file = logStart n + versionSectors * k := by
  refine ⟨fun k s h => ⟨(h.stored hn).length, (h.stored hn).next⟩, fun k h0 hk => ?_⟩
  obtain ⟨s, recs, hg, hf, -, -⟩ := grown_all hn h0 k hk
  exact ⟨s, hg, hf.next⟩

/-- Two blocks on a disk of one block. -/
theorem log_growth_two : ∃ s, Grown 1 2 s ∧ s.file.length ≤ 10240 ∧ fileNext s.file = 10240 := by
  have h := @log_growth 1 (by decide)
  obtain ⟨s, hg, hnext⟩ := h.2 2 (by decide) (by decide)
  exact ⟨s, hg, (h.1 2 s hg).1, hnext⟩

end LogDrive
