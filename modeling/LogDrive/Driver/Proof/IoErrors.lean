import LogDrive.Lib.Faults
import LogDrive.Driver.Proof.Reading
import LogDrive.Driver.Proof.WriteErrors

/-!
# What errors leave of the log

Nothing looks at the result of `bio_read`, `write` or `lseek`, so an error of a transfer goes unseen and what
a session logs behind it may be worthless. It is never more than that: in a session whose `open_disk` has read
header and index each write still goes behind the log that was there or, in `pd_finalize`, in front of it
(`serveAll_places`, `tdClose_places`). So whatever reads fail and whatever writes fail or stop short after that,
and wherever the session is killed, every version that it has found is still in the file, and up to
`pd_finalize` the database is the one that it has found (`errors_keep_log`).
-/

set_option autoImplicit false

open Bytes

namespace LogDrive

/-- A write buffer whose bytes go to `N` or behind it. -/
structure Placed (N : Nat) (b : BufferedIo) : Prop where
  next : N ≤ b.nextOffset
  buffer : b.buffer.length = bufferSize

/-- A session with the header `h` that logs at `N` or behind it. -/
structure Recording (N : Nat) (h : DataHeader) (d : PreservationDisk) : Prop where
  header : d.header = h
  writable : d.readOnly = false
  bio : Placed N d.bio

theorem Recording.withBio {N : Nat} {h : DataHeader} {d : PreservationDisk} (hd : Recording N h d) {b : BufferedIo}
    (hb : Placed N b) : Recording N h { d with bio := b } := ⟨hd.header, hd.writable, hb⟩

section
variable {A : Nat → Mem → Prop} {N : Nat} {place : Option Nat}

/-! ## Copies -/

theorem copyFrom_places (mem : Mem) (off size : Nat) :
    (copyFrom mem off size).Places A (fun r => r = slice mem off size ∧ off + size ≤ mem.length) place := by
  unfold copyFrom
  split
  · exact ⟨rfl, ‹_›⟩
  · trivial

theorem clearFrom_places (buf : Mem) (start size : Nat) : (clearFrom buf start size).Places A (fun _ => True) place := by
  unfold clearFrom
  split <;> trivial

theorem indexAt_places (d : PreservationDisk) (b : Nat) : (indexAt d b).Places A (fun _ => True) place := by
  unfold indexAt
  split <;> trivial

/-! ## The buffered file -/

section
variable {b : BufferedIo} (hb : Placed N b)
include hb

theorem fillReadBuffer_places (p : Nat) : (fillReadBuffer b p).Places A (fun r => Placed N r.2) place := by
  intro _ got
  cases got <;> exact ⟨hb.next, hb.buffer⟩

theorem bioRead_places (pos size : Nat) : (bioRead b pos size).Places A (fun r => Placed N r.2) place := by
  unfold bioRead
  split
  · exact (copyFrom_places ..).bind fun bytes _ => hb
  · have hwindow : ∀ place, (if b.windowHit pos size then pure (true, b) else
        fillReadBuffer b (roundDown pos defaultSectorSize) : Prog Event (Bool × BufferedIo)).Places A
          (fun r => Placed N r.2) place := fun place => by
      split
      · exact hb
      · exact fillReadBuffer_places hb _
    refine (hwindow place).bind fun r hr => ?_
    dsimp only
    split
    · exact (copyFrom_places ..).bind fun bytes _ => hr
    · exact hr

theorem bioReadInto_places (pos : Nat) (buf : Mem) (size : Nat) :
    (bioReadInto b pos buf size).Places A (fun r => Placed N r.2) place := by
  refine (bioRead_places hb pos size).bind fun r hr => ?_
  dsimp only
  split
  · exact hr
  · split
    · exact hr
    · trivial

variable (hA : ∀ pos bs, N ≤ pos → A pos bs)
include hA

/-- The flush goes to `next_offset`, which does not wrap around: `lseek` has been there. -/
theorem bioFlush_places : (bioFlush b).Places A (Placed N) place := by
  unfold bioFlush
  split
  · exact hb
  · split
    · simp only [Prog.bind_eq, Prog.sysLseek_bind, copyFrom]
      intro hpos
      by_cases hsize : 0 + roundUp b.bufferPos defaultSectorSize ≤ b.buffer.length
      · rw [if_pos hsize]
        refine ⟨⟨_, rfl, hA _ _ hb.next⟩, fun _ => ⟨?_, hb.buffer⟩⟩
        rw [hb.buffer, bufferSize_eq] at hsize
        have hnext := hb.next
        simp only [offMax] at hpos
        rw [u64_of_lt (by omega)]
        exact Nat.le_trans hnext (Nat.le_add_right _ _)
      · rw [if_neg hsize]
        trivial
    · exact hb

theorem bioWrite_places (bytes : Mem) : (bioWrite b bytes).Places A (fun r => Placed N r.2) place := by
  unfold bioWrite
  split
  · exact hb
  · have hfirst : ∀ place, (if b.bufferPos + bytes.length > bufferSize then bioFlush b else pure b :
        Prog Event BufferedIo).Places A (Placed N) place := fun place => by
      split
      · exact bioFlush_places hb hA
      · exact hb
    refine (hfirst place).bind fun b1 h1 => ?_
    split
    · rename_i hfit
      refine ⟨h1.next, ?_⟩
      rw [length_store_of_le hfit]
      exact h1.buffer
    · trivial

end

/-! ## Reading -/

/-- A reader of blocks that leaves the log as it is. -/
def ReadBlock.Leaves (A : Nat → Mem → Prop) (N : Nat) (h : DataHeader) (readBlock : ReadBlock) : Prop :=
  ∀ d buf b place, Recording N h d → (readBlock d buf b).Places A (fun r => Recording N h r.2.2) place

variable {h : DataHeader} {d : PreservationDisk} (hd : Recording N h d)

section
include hd

theorem clearBlock_places (buf : Mem) (start size : Nat) : (do
    let buf ← clearFrom buf start size
    pure (0, buf, d) : Prog Event (Int × Mem × PreservationDisk)).Places A (fun r => Recording N h r.2.2) place :=
  (clearFrom_places ..).bind fun _ _ => hd

theorem readPayload_places (buf : Mem) (offset dataSize : Nat) :
    (readPayload d buf offset dataSize).Places A (fun r => Recording N h r.2.2) place := by
  refine (bioReadInto_places hd.bio ..).bind fun r hr => ?_
  dsimp only
  split
  · exact clearBlock_places (hd.withBio hr) ..
  · trivial

end

theorem readLatestBlock_places (J : Junk) : ReadBlock.Leaves A N h (readLatestBlock J) := by
  intro d buf b place hd
  refine (indexAt_places d b).bind fun offset _ => ?_
  split
  · exact clearBlock_places hd ..
  · refine (bioReadInto_places hd.bio ..).bind fun r hr => ?_
    have hd1 := hd.withBio hr
    dsimp only
    split
    · exact clearBlock_places hd1 ..
    · exact readPayload_places hd1 ..

section
variable {readBlock : ReadBlock} (hR : readBlock.Leaves A N h)
include hR hd

theorem pdReadBlocks_places (treq : TdRequest) (count i : Nat) :
    (pdReadBlocks readBlock treq count i d).Places A (fun r => Recording N h r.2.2) place := by
  induction count generalizing i d place with
  | zero => exact hd
  | succ count ih =>
    refine (hR d _ _ place hd).bind fun r hr => ?_
    dsimp only
    split
    · exact hr
    · exact (ih hr (i + 1)).bind fun r' hr' => hr'

theorem pdReadCover_places (treq : TdRequest) (fuel sector readBlocks : Nat) (buf : Mem) :
    (pdReadCover readBlock treq fuel d sector readBlocks buf).Places A (fun r => Recording N h r.2.2) place := by
  induction fuel generalizing sector readBlocks buf d place with
  | zero => trivial
  | succ fuel ih =>
    rw [pdReadCover]
    split
    · dsimp only
      split
      · refine (hR d _ _ place hd).bind fun r hr => ?_
        split
        · exact hr
        · exact ih hr ..
      · trivial
    · exact hd

end

section
include hd

theorem pdRead_places (J : Junk) (treq : TdRequest) :
    (pdRead J 0 d treq).Places A (fun r => Recording N h r.2.2) place := by
  have hR : (readBlockOf J 0 d).Leaves A N h := by
    rw [readBlockOf, if_neg (by simp [hd.writable])]
    exact readLatestBlock_places J
  unfold pdRead
  dsimp only
  split
  · trivial
  · split
    · exact pdReadBlocks_places hd hR ..
    · refine (pdReadCover_places hd hR ..).bind fun r hr => ?_
      split
      · exact hr
      · exact (copyFrom_places ..).bind fun _ _ => hr

/-! ## Writing -/

variable (hA : ∀ pos bs, N ≤ pos → A pos bs)
include hA

theorem pdWriteBlock_places (J : Junk) (q : WriteRequest) (block start size done : Nat) (buf : Mem) :
    (pdWriteBlock J q d block start size done buf).Places A (fun r => Recording N h r.2.1) place := by
  refine (readLatestBlock_places J d _ _ place hd).bind fun r hr => ?_
  dsimp only
  split
  · exact hr
  · split
    · refine (indexAt_places ..).bind fun next _ => ?_
      split
      · exact hr
      · refine (copyFrom_places ..).bind fun bytes _ => (bioWrite_places hr.bio hA bytes).bind fun w hw => ?_
        exact ⟨hr.header, hr.writable, hw⟩
    · trivial

theorem pdWriteLoop_places (J : Junk) (q : WriteRequest) (fuel sector remain : Nat) (buf : Mem) :
    (pdWriteLoop J q fuel d sector remain buf).Places A (fun r => Recording N h r.2) place := by
  induction fuel generalizing sector remain buf d place with
  | zero => trivial
  | succ fuel ih =>
    rw [pdWriteLoop]
    dsimp only
    split
    · split
      · trivial
      · refine (pdWriteBlock_places hd hA ..).bind fun r hr => ?_
        split
        · exact hr
        · exact ih hr ..
    · exact hd

/-! ## Sessions -/

/-- **The requests of a session** write behind the log only. -/
theorem serveAll_places (J : Junk) (reqs : List Request) :
    (serveAll J d reqs).Places A (fun r => Recording N h r.2) place := by
  induction reqs generalizing d place with
  | nil => exact hd
  | cons req reqs ih =>
    have hserve : (req.serve J d).Places A (fun r => Recording N h r.2) place := by
      cases req with
      | write q => exact (pdWriteLoop_places hd hA ..).bind fun r hr => hr
      | read treq => exact (pdRead_places hd J treq).bind fun r hr => hr
    exact hserve.bind fun r hr => (ih hr).bind fun r' hr' => hr'

/-- **Closing** writes behind the log, header and index. -/
theorem tdClose_places {n : Nat} (hn : n < 2 ^ 31) (hh : h.Of n N)
    (hfront : ∀ pos bs, pos + bs.length ≤ logStart n → A pos bs) : (tdClose d).Places A (fun _ => True) place := by
  have hl := logStart_bounds n
  obtain ⟨hheader, hwritable, hbio⟩ := hd
  simp only [tdClose, pdFinalize, bioFinalize, Prog.bind_eq, Prog.mark_bind, Prog.pure_eq, Prog.bind_assoc, Prog.bind]
  refine Prog.Places.bind (P := Placed N) (bioFlush_places hbio hA) fun bio _ => ?_
  rw [if_neg (by simp [hwritable]), if_neg (by rw [hheader, hh.blockSize]; decide)]
  simp only [Prog.sysLseek_bind, Prog.sysWrite_bind, Prog.bind]
  have hhd : ({ d.header with nextOffset := bio.nextOffset } : DataHeader).Of n bio.nextOffset := by
    rw [hheader]
    exact ⟨hh.diskSize, hh.blockSize, rfl, hh.rest⟩
  intro _
  refine ⟨⟨0, rfl, hfront _ _ ?_⟩, fun _ _ => ?_⟩
  · rw [hhd.length_toBytes]
    omega
  · rw [hheader, hh.indexTableSize hn]
    by_cases hsize : 0 + tableBytes n ≤ (encodeIndex d.indexTable).length
    · rw [copyFrom, if_pos hsize]
      refine ⟨⟨_, rfl, hfront _ _ ?_⟩, fun _ => trivial⟩
      rw [length_slice_of_le hsize]
      exact Nat.le_refl _
    · rw [copyFrom, if_neg hsize]
      trivial

end

end

/-- **Errors keep the log.** A session is opened in any state that sessions, killed or not, have reached; then
reads may fail and writes may fail or stop short. Wherever it is killed, the versions that it has found are still in the
file, and up to `pd_finalize` opening the file again finds the same chains. -/
theorem errors_keep_log {n : Nat} (hn : n < 2 ^ 31) {s s1 : Os Event} (hs : Reached n s) {J : Junk}
    {d : PreservationDisk} (hopen : Done (pdInitialize J) s (some d) s1) (reqs : List Request) :
    ∃ vs, Finds n s vs ∧
      (∀ os q s', run os (serveAll J d reqs, s1) = some (q, s') → OnlyTransfersFail os (serveAll J d reqs, s1) →
        Finds n s' vs) ∧
      ∀ os q s', run os ((serveAll J d reqs).bind fun r => tdClose r.2, s1) = some (q, s') →
        OnlyTransfersFail os ((serveAll J d reqs).bind fun r => tdClose r.2, s1) →
        ∀ b < n, ∀ v ∈ vs b, Holds (byteAt s'.file) v.off v.bytes := by
  obtain ⟨N, old, hf⟩ := hs.database hn
  obtain ⟨hfile, -, _, heq, ho⟩ := bio_done (wp_openDisk (bio_mode.alone) hn hf fun h => h.elim) hopen
  obtain rfl := Option.some.inj heq
  have hd : Recording N d.header d := by
    refine ⟨rfl, by rw [ho.disk]; rfl, ?_⟩
    rw [ho.disk]
    exact ⟨Nat.le_of_eq ho.header.nextOffset.symm, by simp [openedDisk, bioInit]⟩
  have hunknown : ∀ pos : Nat, none = some pos → s1.pos = pos := fun pos hp => by cases hp
  refine ⟨chainOf old, hf.finds hn, fun os q s' hr hos => ?_, fun os q s' hr hos b _ v hv => ?_⟩
  · have hp := @serveAll_places (fun pos _ => N ≤ pos) N none d.header d hd (fun _ _ hp => hp) J reqs
    exact (hp.of_run (I := FileInv n N old) (fun f pos bs k hp hI => hI.store hp) hunknown hr hos
      (hfile ▸ hf)).finds hn
  · have hp := (@serveAll_places (fun pos bs => N ≤ pos ∨ pos + bs.length ≤ logStart n) N none d.header d hd
      (fun _ _ hp => .inl hp) J reqs).bind (Q := fun _ => True) (f := fun r => tdClose r.2) fun r hr =>
        tdClose_places hr (fun _ _ hp => .inl hp) hn ho.header fun _ _ hp => .inr hp
    have hlog := hp.of_run (I := fun f => ∀ i, logStart n ≤ i → i < N → byteAt f i = byteAt s.file i)
      (fun f pos bs k hplace hI i hlo hhi => by
        have hk : (bs.take k).length ≤ bs.length := by
          rw [List.length_take]
          exact Nat.min_le_right ..
        rw [byteAt_store_outside (by omega)]
        exact hI i hlo hhi) hunknown hr hos (fun i _ _ => by rw [hfile])
    obtain ⟨r, hrm, -, rfl⟩ := mem_chainOf.1 hv
    refine (hf.holds r hrm).congr fun i hlo hhi => hlog i (Nat.le_trans (hf.wf.mem hrm).2.1 hlo) ?_
    have hbelow := hf.below r hrm
    rw [Version.length_bytes _ (hf.wf.mem hrm).2.2] at hhi
    unfold Version.stop entryHeaderSize at hbelow
    omega

/-- One more write on a database with a version, and a close in which every `write` fails. -/
theorem errors_keep_log_small : ∃ s s1 d vs os s', Reached 1 s ∧ Done (pdInitialize zeroJunk) s (some d) s1 ∧
    Finds 1 s vs ∧ run os ((serveAll zeroJunk d smallSession.requests).bind fun r => tdClose r.2, s1) = some (.ret 0, s') ∧
    ∀ b < 1, ∀ v ∈ vs b, Holds (byteAt s'.file) v.off v.bytes := by
  obtain ⟨s, N, recs, hs, hf, hfull, ha, -⟩ := reached_block
  have hw := @wp_openDisk totalLogic total_mode.alone zeroJunk false 1 N recs s (by decide) hf
    fun h past => ⟨total_mode.plain trivial h, total_mode.plain trivial h⟩
  obtain ⟨_, s1, hopen, ⟨hfile, hnotes, d, rfl, ho⟩, ha1⟩ := exists_done hw ha
  have hI := ho.logInv hf hfile
  have hbio : d.bio = bioInit zeroJunk false N := by
    rw [ho.disk]
    simp only [openedDisk, ho.header.nextOffset]
  have hcalm : Calm d s1 recs := by
    refine ⟨?_, fun e he => ?_⟩
    · rw [hbio]
      exact fun h => by cases h
    · rw [hnotes] at he
      exact hfull e he
  have hserve := wp_serveAll total_mode (by decide) (fun _ _ _ _ _ _ => trivial) hI smallSession_inside (J := zeroJunk) []
    fun _ => ⟨hcalm, by rw [hbio, List.append_nil]; exact small_affordable recs⟩
  obtain ⟨⟨replies, d2⟩, s2, hd2, ⟨new, hI2, -⟩, -⟩ := exists_done hserve ha1
  obtain ⟨s', hclose, -⟩ := tdClose_failed (by decide) hI2
  obtain ⟨os, hr, hos⟩ := (Unwritten.of_done hd2).bind (f := fun r => tdClose r.2) hclose
  obtain ⟨vs, hfinds, -, hkept⟩ := errors_keep_log (by decide) hs hopen smallSession.requests
  exact ⟨s, s1, d, vs, os, s', hs, hopen, hfinds, hr, hkept os _ s' hr (onlyTransfersFail_of_writes hos)⟩

end LogDrive
