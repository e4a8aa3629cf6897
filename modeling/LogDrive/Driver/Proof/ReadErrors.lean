import LogDrive.Lib.Faults
import LogDrive.Driver.Proof.Isolation

/-!
# Errors of `read`

`bio_read` returns `-1` where `read` does, but neither reader of blocks looks at its result. So a
request never returns `-1` (`DiskCall.returns_zero`): an error of `read` is reported in no run
(`read_error_reported`). In the run of `read_error_lost` the header of a version cannot be read and
what lies in memory is cached as the block's version.
-/

set_option autoImplicit false

open Bytes

namespace LogDrive

/-- A request to a disk; a read of a time-travel disk has fuel for the chains. -/
inductive DiskCall where
  | read (fuel : Nat) (treq : TdRequest)
  | write (q : WriteRequest)

/-- What the request returns, and the disk. -/
def DiskCall.serve (J : Junk) (disk : PreservationDisk) : DiskCall → Prog Event (Int × PreservationDisk)
  | .read fuel treq => do
    let (r, _, disk) ← pdRead J fuel disk treq
    pure (r, disk)
  | .write q => pdWrite J disk q

/-- An event by which a request changes the log, the index or the cache. -/
def Event.Changes : Event → Prop
  | .logged _ _ => True
  | .indexed _ _ => True
  | .cached _ _ _ => True
  | _ => False

/-- Where a read fails the request returns `-1`, and it changes nothing from there on. -/
def ReadErrorReported {α : Type} (os : List Outcome) (c : Conf Event α) (r : Int) (s' : Os Event) : Prop :=
  ReadFails os c → r = -1 ∧ ∀ done rest c', os = done ++ .err :: rest → run done c = some c' → c'.1.AtRead →
    ∀ new, s'.notes = new ++ c'.2.notes → ∀ e ∈ new, ¬e.Changes

/-! ## The requests return 0 -/

theorem readPayload_returns (d : PreservationDisk) (buf : Mem) (offset dataSize : Nat) :
    (readPayload d buf offset dataSize).Returns fun r => r.1 = 0 := by
  refine .bind_any fun a => ?_
  dsimp only
  split
  · exact .bind_any fun b => rfl
  · trivial

theorem readCurrentBlock_returns (J : Junk) (fuel : Nat) (d : PreservationDisk) (buf : Mem) (b : Nat) :
    (readCurrentBlock J fuel d buf b).Returns fun r => r.1 = 0 := by
  refine .bind_any fun offset => ?_
  split
  · refine .bind_any fun a => ?_
    dsimp only
    split
    · exact readPayload_returns ..
    · exact .bind_any fun _ => rfl
  · trivial

theorem readLatestBlock_returns (J : Junk) (d : PreservationDisk) (buf : Mem) (b : Nat) :
    (readLatestBlock J d buf b).Returns fun r => r.1 = 0 := by
  refine .bind_any fun offset => ?_
  dsimp only
  split
  · exact .bind_any fun _ => rfl
  · refine .bind_any fun a => ?_
    split
    · exact .bind_any fun _ => rfl
    · exact readPayload_returns ..

/-- A reader of blocks that does not report errors. -/
def ReadBlock.Silent (readBlock : ReadBlock) : Prop := ∀ d buf b, (readBlock d buf b).Returns fun r => r.1 = 0

theorem readBlockOf_silent (J : Junk) (fuel : Nat) (d : PreservationDisk) : (readBlockOf J fuel d).Silent := by
  unfold readBlockOf
  split
  · exact readCurrentBlock_returns J fuel
  · exact readLatestBlock_returns J

theorem pdReadBlocks_returns {readBlock : ReadBlock} (h : readBlock.Silent) (treq : TdRequest) (count : Nat) :
    ∀ i d, (pdReadBlocks readBlock treq count i d).Returns fun r => r.1 = 0 := by
  induction count with
  | zero => exact fun i d => rfl
  | succ count ih =>
    intro i d
    refine Prog.Returns.bind (h _ _ _) fun a ha => ?_
    dsimp only
    rw [if_neg (by rw [ha]; decide)]
    exact (ih _ _).bind fun b hb => hb

theorem pdReadCover_returns {readBlock : ReadBlock} (h : readBlock.Silent) (treq : TdRequest) (fuel : Nat) :
    ∀ d sector k buf, (pdReadCover readBlock treq fuel d sector k buf).Returns fun r => r.1 = 0 := by
  induction fuel with
  | zero => exact fun _ _ _ _ => trivial
  | succ fuel ih =>
    intro d sector k buf
    rw [pdReadCover]
    split
    · dsimp only
      split
      · refine Prog.Returns.bind (h _ _ _) fun a ha => ?_
        rw [if_neg (by rw [ha]; decide)]
        exact ih _ _ _ _
      · trivial
    · rfl

theorem pdRead_returns (J : Junk) (fuel : Nat) (d : PreservationDisk) (treq : TdRequest) :
    (pdRead J fuel d treq).Returns fun r => r.1 = 0 := by
  have hsilent := readBlockOf_silent J fuel d
  unfold pdRead
  dsimp only
  split
  · trivial
  · split
    · exact pdReadBlocks_returns hsilent ..
    · refine Prog.Returns.bind (pdReadCover_returns hsilent ..) fun a ha => ?_
      rw [if_neg (by rw [ha]; decide)]
      exact .bind_any fun _ => rfl

theorem pdWriteBlock_returns (J : Junk) (q : WriteRequest) (d : PreservationDisk) (block start size done : Nat)
    (buf : Mem) : (pdWriteBlock J q d block start size done buf).Returns fun r => r.1 = 0 := by
  refine Prog.Returns.bind (readLatestBlock_returns ..) fun a ha => ?_
  dsimp only
  rw [if_neg (by rw [ha]; decide)]
  split
  · refine .bind_any fun next => ?_
    split
    · rfl
    · exact .bind_any fun bytes => .bind_any fun o => rfl
  · trivial

theorem pdWriteLoop_returns (J : Junk) (q : WriteRequest) (fuel : Nat) :
    ∀ d sector remain buf, (pdWriteLoop J q fuel d sector remain buf).Returns fun r => r.1 = 0 := by
  induction fuel with
  | zero => exact fun _ _ _ _ => trivial
  | succ fuel ih =>
    intro d sector remain buf
    rw [pdWriteLoop]
    dsimp only
    split
    · split
      · trivial
      · refine Prog.Returns.bind (pdWriteBlock_returns ..) fun a ha => ?_
        rw [if_neg (by rw [ha]; decide)]
        exact ih _ _ _ _
    · rfl

/-- **A request returns 0**, whatever the system answers. -/
theorem DiskCall.returns_zero (J : Junk) (d : PreservationDisk) (call : DiskCall) :
    (call.serve J d).Returns fun r => r.1 = 0 := by
  cases call with
  | read fuel treq => exact Prog.Returns.bind (pdRead_returns J fuel d treq) fun a ha => ha
  | write q => exact pdWriteLoop_returns ..

/-! ## The block drivers

So neither driver completes a request with `EBUSY`, and its queue functions are `pd_read` and `pd_write`.
-/

theorem queueRead_eq (J : Junk) (fuel : Nat) (d : PreservationDisk) (treq : TdRequest) :
    queueRead J fuel d treq = pdRead J fuel d treq := by
  refine (pdRead_returns J fuel d treq).bind_eq_self ?_
  rintro ⟨r, bytes, d'⟩ rfl
  exact if_neg (by decide)

theorem tdpreservationQueueWrite_eq (J : Junk) (d : PreservationDisk) (q : WriteRequest) :
    tdpreservationQueueWrite J d q = pdWrite J d q := by
  refine (DiskCall.returns_zero J d (.write q)).bind_eq_self ?_
  rintro ⟨r, d'⟩ rfl
  exact if_neg (by decide)

/-- The requests of a session, as `block-preservation.c` serves them. -/
theorem Request.serve_eq (J : Junk) (d : PreservationDisk) (req : Request) : req.serve J d = match req with
    | .write q => (tdpreservationQueueWrite J d q).bind fun r => .ret (.wrote r.1, r.2)
    | .read treq => (tdpreservationQueueRead J d treq).bind fun r => .ret (.got r.1 r.2.1, r.2.2) := by
  cases req with
  | write q =>
    simp only [tdpreservationQueueWrite_eq]
    rfl
  | read treq =>
    simp only [tdpreservationQueueRead, queueRead_eq]
    rfl

/-- The reads of a journey, as `block-timetravel.c` serves them. -/
theorem readAll_cons (J : Junk) (fuel : Nat) (d : PreservationDisk) (treq : TdRequest) (rest : List TdRequest) :
    readAll J fuel d (treq :: rest) = (tdtimetravelQueueRead J fuel d treq).bind fun r =>
      (readAll J fuel r.2.2 rest).bind fun out => .ret (.got r.1 r.2.1 :: out.1, out.2) := by
  rw [tdtimetravelQueueRead, queueRead_eq]
  rfl

/-! ## Errors -/

/-- **An error of `read`** is never reported: from any state, a request does what it should where no
read fails, and only there. -/
theorem read_error_reported {J : Junk} {d d' : PreservationDisk} {call : DiskCall} {os : List Outcome}
    {s s' : Os Event} {r : Int} (h : run os (call.serve J d, s) = some (.ret (r, d'), s')) :
    ReadErrorReported os (call.serve J d, s) r s' ↔ ¬ReadFails os (call.serve J d, s) := by
  have hr : r = 0 := (call.returns_zero J d).of_run h
  constructor
  · intro hrep hfail
    have := (hrep hfail).1
    omega
  · exact fun hno hfail => absurd hfail hno

/-! ## A lost error -/

/-- The first read of a block where the header of its newest version cannot be read: what lies in memory
is taken for the header. -/
theorem readCurrentBlock_failed {fuel b off size : Nat} {d : PreservationDisk} {buf : Mem} {s : Os Event}
    (hidx : d.indexTable[b]? = some off) (hbits : d.indexCacheEnable[b / 8]? = some 0)
    (hsize : d.cachedDataSize[b]? = some size) (hen : d.bio.readBufferEnable = false) (h0 : off ≠ 0)
    (hN : off < d.bio.nextOffset) (hmax : off ≤ offMax) (hts : d.ts = ⟨2, 0⟩) (hblock : d.header.blockSize = buf.length) :
    ∃ out d' s', run [.ok, .err, .ok] (readCurrentBlock zeroJunk (fuel + 1) d buf b, s) = some (.ret (0, out, d'), s') ∧
      ReadFails [.ok, .err, .ok] (readCurrentBlock zeroJunk (fuel + 1) d buf b, s) ∧
      s'.notes = .cached b off 0 :: s.notes := by
  have hmiss : d.bio.windowHit off entryHeaderSize = false := by
    rw [BufferedIo.windowHit, hen, Bool.false_and]
  have hround : roundDown off defaultSectorSize ≤ offMax := by
    rw [roundDown_sector (by simp only [offMax] at hmax; omega)]
    omega
  have hhead : EntryHeader.ofBytes (tabulate zeroJunk.entryHeader entryHeaderSize) = ⟨⟨0, 0⟩, 0, 0, zeros 6⟩ := by decide
  have hbefore : (⟨0, 0⟩ : TimeSpec).before ⟨2, 0⟩ = true := by decide
  unfold readCurrentBlock
  simp only [indexAt, hidx, hbits, hsize, Prog.pure_eq, Prog.bind_eq, Prog.ret_bind]
  rw [if_pos (UInt8.zero_and ..), searchVersion, if_neg h0]
  simp only [bioReadInto, Prog.bind_eq, bioRead_miss _ _ _ hN hmiss, Prog.bind, run, step, if_pos hround,
    Option.bind_some, Prog.pure_eq, Prog.ret_bind, hhead, hts, hbefore, if_true, Prog.mark_bind, ReadFails]
  rw [if_neg (fun h => Nat.lt_irrefl 0 h.2), clearFrom, if_pos (by rw [hblock]; omega)]
  exact ⟨_, _, _, rfl, .inr ⟨_, rfl, .inl ⟨trivial, trivial⟩⟩, rfl⟩

/-- The whole first block. -/
def wholeBlock : TdRequest := ⟨0, 8, fun _ => 0⟩

theorem wholeBlock_failed {N fuel : Nat} {f : Mem} {d : PreservationDisk} {s : Os Event} (ho : Opened zeroJunk true 1 N f d)
    (h0 : fileIndex f 0 ≠ 0) (hN : fileIndex f 0 < N) (hmax : N ≤ offMax) : ∃ out s',
    run [.ok, .err, .ok] (DiskCall.serve zeroJunk { d with ts := ⟨2, 0⟩ } (.read (fuel + 1) wholeBlock), s) =
      some (.ret out, s') ∧
    ReadFails [.ok, .err, .ok] (DiskCall.serve zeroJunk { d with ts := ⟨2, 0⟩ } (.read (fuel + 1) wholeBlock), s) ∧
    s'.notes = .cached 0 (fileIndex f 0) 0 :: s.notes := by
  have hspb : d.sectorsPerBlock = 8 := by rw [ho.disk]; rfl
  have hblock := ho.header.blockSize
  obtain ⟨out, d', s', hrun, hfail, hnotes⟩ := @readCurrentBlock_failed fuel 0 _ 0 { d with ts := ⟨2, 0⟩ }
    (tabulate (fun k => wholeBlock.buf ((0 : Nat) * (4096 : Nat) + k)) 4096) s
    (ho.table 0 (by decide)) (by rw [ho.disk]; rfl) (by rw [ho.disk]; rfl) (by rw [ho.disk]; rfl) h0
    (by rw [ho.disk]; exact Nat.lt_of_lt_of_eq hN ho.header.nextOffset.symm) (by omega) rfl (by rw [length_tabulate]; exact hblock)
  have hread : pdRead zeroJunk (fuel + 1) { d with ts := ⟨2, 0⟩ } wholeBlock =
      (readCurrentBlock zeroJunk (fuel + 1) { d with ts := ⟨2, 0⟩ }
        (tabulate (fun k => wholeBlock.buf ((0 : Nat) * (4096 : Nat) + k)) 4096) 0).bind fun r =>
          if r.1 = -1 then .ret (-1, r.2.1, r.2.2) else .ret (0, r.2.1 ++ [], r.2.2) := by
    unfold pdRead
    simp only [hspb]
    rw [if_neg (by decide), if_pos (by decide), readBlockOf, if_pos (by rw [ho.disk]; rfl)]
    show pdReadBlocks _ _ 1 0 _ = _
    simp only [pdReadBlocks, hblock]
    rfl
  simp only [DiskCall.serve, Prog.bind_eq, hread, Prog.bind_assoc]
  exact ⟨(0, d'), s', run_bind _ hrun, hfail.bind _, hnotes⟩

/-- A session has written the first sector. A time-travel session reads the first block, and the read of
the version's header fails. -/
theorem failed_header : ∃ (a : Option (List Reply × Int)) (s : Os Event) (d : PreservationDisk) (r : Os Event)
    (os : List Outcome) (out : Int × PreservationDisk) (r' : Os Event), Done smallSession.run (newDatabase 1) a s ∧
    Assumed Coherent s.notes ∧ Done (pdInitializeReadOnly zeroJunk ⟨2, 0⟩) s (some d) r ∧
    run os (DiskCall.serve zeroJunk d (.read 1 wholeBlock), r) = some (.ret out, r') ∧
    ReadFails os (DiskCall.serve zeroJunk d (.read 1 wholeBlock), r) ∧
    ∃ off, r'.notes = .cached 0 off 0 :: r.notes := by
  obtain ⟨a, s, hd, -, ha⟩ := exists_done (wp_session total_mode (by decide) (fun _ _ _ => trivial)
    (newDatabase_inv (n := 1) (by decide)) smallSession_inside fun _ => ⟨nofun, small_affordable _, by decide⟩) trivial
  have hc := (assumed_of_total ha).1
  obtain ⟨replies, N, recs, -, hf, hR, -⟩ := driver_done (wp_session (driver_mode 1) (by decide) (fun _ _ h => h)
    (newDatabase_inv (n := 1) (by decide)) smallSession_inside fun h => h.elim) hd hc
  rw [List.append_nil] at hf hR
  obtain ⟨h0, hN⟩ := smallSession_index hR hf
  obtain ⟨d, r, hopen, -, -, ho⟩ := quiet_openReader (by decide) hf zeroJunk ⟨2, 0⟩
  obtain ⟨out, r', hrun, hfail, hnotes⟩ := @wholeBlock_failed _ 0 _ _ r ho h0 hN hf.bound
  exact ⟨a, s, _, r, _, out, r', hd, hc, hopen, hrun, hfail, _, hnotes⟩

theorem read_error_reported_header : ∃ d r os out r',
    run os (DiskCall.serve zeroJunk d (.read 1 wholeBlock), r) = some (.ret out, r') ∧
    (ReadErrorReported os (DiskCall.serve zeroJunk d (.read 1 wholeBlock), r) out.1 r' ↔
      ¬ReadFails os (DiskCall.serve zeroJunk d (.read 1 wholeBlock), r)) := by
  obtain ⟨_, _, d, r, os, out, r', -, -, -, hrun, -, -⟩ := failed_header
  exact ⟨d, r, os, out, r', hrun, read_error_reported hrun⟩

/-- **An error that is lost**: the request returns 0 and the block's version is cached as empty. -/
theorem read_error_lost : ∃ (a : Option (List Reply × Int)) (s : Os Event) (d : PreservationDisk) (r : Os Event)
    (os : List Outcome) (out : Int × PreservationDisk) (r' : Os Event), Done smallSession.run (newDatabase 1) a s ∧
    Assumed Coherent s.notes ∧ Done (pdInitializeReadOnly zeroJunk ⟨2, 0⟩) s (some d) r ∧
    run os (DiskCall.serve zeroJunk d (.read 1 wholeBlock), r) = some (.ret out, r') ∧
    ¬ReadErrorReported os (DiskCall.serve zeroJunk d (.read 1 wholeBlock), r) out.1 r' := by
  obtain ⟨a, s, d, r, os, out, r', hd, hc, hopen, hrun, hfail, -⟩ := failed_header
  have hzero := (DiskCall.returns_zero zeroJunk d (.read 1 wholeBlock)).of_run hrun
  refine ⟨a, s, d, r, os, out, r', hd, hc, hopen, hrun, fun hrep => ?_⟩
  exact absurd (hzero.symm.trans (hrep hfail).1) (by decide)

end LogDrive
