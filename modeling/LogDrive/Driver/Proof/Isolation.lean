import LogDrive.Lib.Interleave
import LogDrive.Driver.Proof.TimeTravel

/-!
# An open time-travel session does not see later logging

A time-travel session (the reader) and any number of preservation sessions in sequence (the writer)
take turns on one file. `readerLogic n` is what the reader relies on: a database stays a database,
the log below `next_offset` stays as it is, and header and index do while the reader is between its
reads of them. The writer gives that at every write (`driver_reader`). So the records of the database
that was opened stay where they are (`Kept`), and the reader gets what it would get from a file that
nobody changes (`isolated`).
-/

set_option autoImplicit false

open Bytes

namespace LogDrive

/-- `open_disk` has read the header, not yet the index. -/
def Between : List Event → Prop
  | .headerRead :: _ => True
  | _ => False

/-- A writer in `pd_finalize` waits while the reader is between header and index. -/
def Apart (writer reader : List Event) : Prop := InFinalize writer → ¬Between reader

/-! ## What the reader relies on -/

theorem Stable.refl (n : Nat) (f : Mem) : Stable n f f := ⟨Nat.le_refl _, Nat.le_refl _, fun _ _ _ => rfl⟩

theorem Stable.trans {n : Nat} {f f' f'' : Mem} (h : Stable n f f') (h' : Stable n f' f'') : Stable n f f'' where
  grow := Nat.le_trans h.grow h'.grow
  next := Nat.le_trans h.next h'.next
  log i hi hi' := (h'.log i hi (Nat.lt_of_lt_of_le hi' h.next)).trans (h.log i hi hi')

/-- What others do to a database. -/
structure Logging (n : Nat) (past : List Event) (f f' : Mem) : Prop where
  database : ∃ N recs, FileInv n N recs f'
  stable : Stable n f f'
  front : Between past → ∀ i < logStart n, byteAt f' i = byteAt f i

def readerLogic (n : Nat) : Logic Event where
  rely past f f' := (∃ N recs, FileInv n N recs f) → Logging n past f f'
  rely_refl _ _ := fun h => ⟨h, .refl n _, fun _ _ _ => rfl⟩
  assume _ _ := True
  allow _ _ := False
  ub := False
  total := True

theorem reader_assumed (n : Nat) : ∀ notes : List Event, Assumed (readerLogic n).assume notes
  | [] => trivial
  | _ :: past => ⟨trivial, reader_assumed n past⟩

/-- A writer that keeps the guarantee gives what the reader relies on. -/
theorem guarantee_reader {n : Nat} {L : Logic Event} (hL : L.Alone) (hA : ∀ s bs, L.allow s bs → Guarantee n s bs) :
    Compatible L (readerLogic n) Apart where
  alone := hL
  quiet _ _ h := h
  trans past f f' f'' h h' := fun hf =>
    have h1 := h hf
    have h2 := h' h1.database
    ⟨h2.database, h1.stable.trans h2.stable, fun hb i hi => (h2.front hb i hi).trans (h1.front hb i hi)⟩
  gives s bs past hG hP := fun _ => ⟨(hA _ _ hG).database, (hA _ _ hG).stable, fun hb i hi => by
    rcases (hA _ _ hG).front with hin | hpos
    · exact absurd hb (hP hin)
    · exact byteAt_store_outside (.inl (by omega))⟩

theorem driver_reader (n : Nat) : Compatible (driverLogic n) (readerLogic n) Apart :=
  guarantee_reader (driver_mode n).alone fun _ _ h => h

/-- Between header and index a database stays the one that it is. -/
theorem FileInv.between {n N : Nat} {recs : List Rec} {f f' : Mem} {past : List Event} (h : FileInv n N recs f)
    (hb : Between past) (hr : (readerLogic n).rely past f f') :
    FileInv n N recs f' ∧ ∀ i < logStart n, byteAt f' i = byteAt f i := by
  have hl := hr ⟨N, recs, h⟩
  obtain ⟨N', recs', h'⟩ := hl.database
  have h24 := h.length_ge
  have hgrow := hl.stable.grow
  refine ⟨h.congr hgrow ?_ fun i hi => ?_, hl.front hb⟩
  · rcases h'.shape with h1 | h1
    · exact .inl (by omega)
    · exact .inr h1
  · by_cases hlow : i < logStart n
    · exact hl.front hb i hlow
    · exact hl.stable.log i (by omega) (by rw [h.next]; exact hi)

/-! ## The records stay -/

/-- A database whose log begins with the records of an earlier one. -/
structure Kept (n N : Nat) (recs : List Rec) (f : Mem) : Prop where
  earlier : ∃ f0, FileInv n N recs f0
  database : ∃ N' recs', FileInv n N' recs' f
  next : N ≤ fileNext f
  inFile : ∀ r ∈ recs, r.ver.stop ≤ f.length
  holds : ∀ r ∈ recs, Holds (byteAt f) r.ver.off r.ver.bytes

variable {n N : Nat} {recs : List Rec} {f : Mem}

theorem FileInv.kept (h : FileInv n N recs f) : Kept n N recs f :=
  ⟨⟨f, h⟩, ⟨N, recs, h⟩, Nat.le_of_eq h.next.symm, h.inFile, h.holds⟩

theorem Kept.logging (h : Kept n N recs f) {past : List Event} {f' : Mem} (hl : Logging n past f f') :
    Kept n N recs f' where
  earlier := h.earlier
  database := hl.database
  next := Nat.le_trans h.next hl.stable.next
  inFile r hr := Nat.le_trans (h.inFile r hr) hl.stable.grow
  holds r hr := (h.holds r hr).congr fun i hlo hhi => by
    obtain ⟨f0, h0⟩ := h.earlier
    obtain ⟨-, hstart, hver⟩ := h0.wf.mem hr
    have hstop := h0.below r hr
    have hnext := h.next
    rw [Version.length_bytes _ hver] at hhi
    simp only [Version.stop, entryHeaderSize] at hstop
    exact hl.stable.log i (Nat.le_trans hstart hlo) (by omega)

/-- The reader's records, in a mode that takes no event for granted. -/
theorem Kept.snapshot (h : Kept n N recs f) {L : Logic Event}
    (hrely : ∀ past f f', Kept n N recs f → L.rely past f f' → Kept n N recs f')
    (hsure : ∀ past e, L.assume past e) : Snapshot L n N recs (fun s => Kept n N recs s.file) := by
  obtain ⟨f0, h0⟩ := h.earlier
  exact {
    wf := h0.wf
    below := h0.below
    bound := h0.bound
    inFile := fun _ hK => hK.inFile
    holds := fun _ hK => hK.holds
    rely := fun s f' _ hK hr => hrely s.notes s.file f' hK hr
    note := fun _ _ hK _ => hK
    sure := fun _ _ _ _ _ => hsure _ _ }

theorem Kept.reader (h : Kept n N recs f) :
    Snapshot (readerLogic n) n N recs (fun s => Kept n N recs s.file) :=
  h.snapshot (fun _ _ _ hK hr => hK.logging (hr hK.database)) fun _ _ => trivial

theorem Kept.frozen (h : Kept n N recs f) : Snapshot quietLogic n N recs (fun s => Kept n N recs s.file) :=
  h.snapshot (fun _ f f' hK hr => by rw [quiet_alone _ _ _ hr]; exact hK) fun _ _ => trivial

/-! ## Fuel -/

/-- Every record takes room in the log. -/
theorem LogWF.length_le (h : LogWF n recs) (hN : logStart n ≤ N) (hb : ∀ r ∈ recs, r.ver.stop ≤ N) :
    recs.length + logStart n ≤ N := by
  induction recs generalizing N with
  | nil => simpa using hN
  | cons r rs ih =>
    have hrest := ih h.2 h.1.start h.1.above
    have hstop := hb r List.mem_cons_self
    simp only [Version.stop, entryHeaderSize] at hstop
    rw [List.length_cons]
    omega

theorem length_chainOf (recs : List Rec) (b : Nat) : (chainOf recs b).length ≤ recs.length := by
  induction recs with
  | nil => exact Nat.le_refl _
  | cons r rs ih =>
    simp only [chainOf]
    split
    · exact Nat.succ_le_succ ih
    · exact Nat.le_succ_of_le ih

/-- No chain is longer than the log. -/
theorem Kept.chain_fuel (h : Kept n N recs f) (b : Nat) : (chainOf recs b).length < N := by
  obtain ⟨f0, h0⟩ := h.earlier
  have hlen := h0.wf.length_le h0.start h0.below
  have hchain := length_chainOf recs b
  have hstart := logStart_bounds n
  omega

/-! ## The session -/

/-- What the reader has after `open_disk`, whatever others have done since then. -/
def ReaderOpen (n : Nat) (ts : TimeSpec) (d : PreservationDisk) (f : Mem) : Prop :=
  ∃ N recs, Kept n N recs f ∧ Travelling n N recs ts d

theorem ReaderOpen.logging {ts : TimeSpec} {d : PreservationDisk} (h : ReaderOpen n ts d f) {past : List Event}
    {f' : Mem} (hr : (readerLogic n).rely past f f') : ReaderOpen n ts d f' := by
  obtain ⟨N, recs, hK, hT⟩ := h
  exact ⟨N, recs, hK.logging (hr hK.database), hT⟩

/-- **`open_disk`** of the reader. -/
theorem wp_openReader (hn : n < 2 ^ 31) {s : Os Event} (hf : FileInv n N recs s.file) {J : Junk} {ts : TimeSpec} :
    wp (readerLogic n) (pdInitializeReadOnly J ts) (fun r s' => ∃ d, r = some d ∧ ReaderOpen n ts d s'.file) s := by
  unfold pdInitializeReadOnly
  refine wp_seq (wp_openShared (D := fun N recs f => FileInv n N recs f) hn (fun _ _ _ h => h) ?_ ?_
    (fun _ _ => ⟨trivial, trivial⟩) hf) ?_
  · exact fun N recs f f' h hr => (hr ⟨N, recs, h⟩).database
  · exact fun N recs f f' h hr => h.between (show Between (.headerRead :: s.notes) from trivial) hr
  · rintro _ s' ⟨-, N, recs, hd, d, rfl, ho⟩
    exact ⟨_, rfl, N, recs, hd.kept, ho.travelling hd hn ts⟩

/-- The reader after any interleaving with its `open_disk`. -/
theorem reader_opened (hn : n < 2 ^ 31) {Ss : List Session} (hreqs : ∀ S ∈ Ss, ∀ req ∈ S.requests, req.Inside n)
    {J : Junk} {ts : TimeSpec} {D : Duo Event (List Reply) (Option PreservationDisk)}
    (hr : DuoRun Apart ⟨settle (runSessions Ss) (newDatabase n), settle (pdInitializeReadOnly J ts) (newDatabase n)⟩ D)
    (hc : Assumed Coherent D.writer.2.notes) :
    D.Fit (driverLogic n) (readerLogic n) (fun _ _ => True) (fun r s => ∃ d, r = some d ∧ ReaderOpen n ts d s.file) := by
  have hf := newDatabase_inv hn
  refine Duo.Fit.run (driver_reader n) ?_ ⟨?_, settle_settled _ _, ?_, ?_⟩ hr hc (reader_assumed n _)
  · rintro _ s f ⟨d, rfl, ho⟩ hrely
    exact ⟨d, rfl, ho.logging hrely⟩
  · rw [settle_file, settle_file]
  · refine wp_settle ?_ (hr.assumed hc)
    exact wp_mono (wp_runSessions (driver_mode n) hn (fun _ _ h => h) hf hreqs [] fun h => h.elim)
      fun _ _ _ => trivial
  · exact wp_settle (wp_openReader hn hf) (reader_assumed n _)

/-- The reader after any interleaving with its reads. -/
theorem reader_served (hn : n < 2 ^ 31) {ts : TimeSpec} {w : Conf Event (List Reply)} {d : PreservationDisk}
    {r : Os Event} (hw : wp (driverLogic n) w.1 (fun _ _ => True) w.2) (hf : r.file = w.2.file)
    (hK : Kept n N recs r.file) (hT : Travelling n N recs ts d) {reads : List TdRequest}
    (hreads : ∀ treq ∈ reads, treq.Readable n) {J : Junk} {fuel : Nat} (hfuel : N ≤ fuel)
    {D : Duo Event (List Reply) (List Reply × PreservationDisk)}
    (hr : DuoRun Apart ⟨w, settle (readAll J fuel d reads) r⟩ D) (hc : Assumed Coherent D.writer.2.notes) :
    D.Fit (driverLogic n) (readerLogic n) (fun _ _ => True) fun out _ => out.1 = reads.map (asOfReply ts recs) := by
  have hall := wp_readAll hK.reader hn hreads (J := J) (fun b => Nat.lt_of_lt_of_le (hK.chain_fuel b) hfuel) hT hK
  refine Duo.Fit.run (driver_reader n) (fun _ _ _ h _ => h) ⟨?_, settle_settled _ _, hw, ?_⟩ hr hc
    (reader_assumed n _)
  · rw [settle_file]; exact hf
  · exact wp_settle (wp_mono hall fun _ _ h => h.1) (reader_assumed n _)

/-- **An open time-travel session is isolated from later logging.** The reader opens the file while any
sessions work on it, none of them in `pd_finalize` between its reads of header and index. From any
state behind `open_disk` on, whatever turns follow, it returns what it would return if the writer
stopped there, and it is never stuck. -/
theorem isolated (hn : n < 2 ^ 31) {Ss : List Session} (hreqs : ∀ S ∈ Ss, ∀ req ∈ S.requests, req.Inside n)
    {J : Junk} {ts : TimeSpec} {w : Conf Event (List Reply)} {d : PreservationDisk} {r : Os Event}
    (hopen : DuoRun Apart ⟨settle (runSessions Ss) (newDatabase n), settle (pdInitializeReadOnly J ts) (newDatabase n)⟩
      ⟨w, (.ret (some d), r)⟩) (hc : Assumed Coherent w.2.notes)
    {reads : List TdRequest} (hreads : ∀ treq ∈ reads, treq.Readable n) {fuel : Nat}
    (hfuel : d.header.nextOffset ≤ fuel) :
    ∃ frozen d' s', Done (readAll J fuel d reads) r (frozen, d') s' ∧
      ∀ D, DuoRun Apart ⟨w, settle (readAll J fuel d reads) r⟩ D → Assumed Coherent D.writer.2.notes →
        (∃ d2, D.reader.1 = .ret (frozen, d2)) ∨ ∃ c, turn D.reader = some c := by
  have hF := reader_opened hn hreqs hopen hc
  obtain ⟨_, hd, N, recs, hK, hT⟩ := hF.reader
  cases hd
  rw [hT.header.nextOffset] at hfuel
  have hall := wp_readAll hK.frozen hn hreads (J := J) (fun b => Nat.lt_of_lt_of_le (hK.chain_fuel b) hfuel) hT hK
  obtain ⟨⟨frozen, d'⟩, s', hdone, rfl, -⟩ := quiet_exists hall
  refine ⟨_, d', s', hdone, fun D hr hcD => ?_⟩
  have hD := reader_served hn hF.writer hF.file hK hT hreads hfuel hr hcD
  rcases hD.reader_moves trivial id with ⟨⟨replies, d2⟩, hret, rfl⟩ | hmoves
  · exact .inl ⟨d2, hret⟩
  · exact .inr hmoves

/-! ## A session between opening and reading -/

/-- The first read of a block that has a version goes to the file. -/
theorem readCurrentBlock_calls {J : Junk} {fuel b off size : Nat} {d : PreservationDisk} {buf : Mem}
    (hidx : d.indexTable[b]? = some off) (hbits : d.indexCacheEnable[b / 8]? = some 0)
    (hsize : d.cachedDataSize[b]? = some size) (hen : d.bio.readBufferEnable = false) (h0 : off ≠ 0)
    (hN : off < d.bio.nextOffset) : (readCurrentBlock J (fuel + 1) d buf b).Calls := by
  have hmiss : d.bio.windowHit off entryHeaderSize = false := by
    rw [BufferedIo.windowHit, hen, Bool.false_and]
  unfold readCurrentBlock
  simp only [indexAt, hidx, hbits, hsize, Prog.pure_eq, Prog.bind_eq, Prog.ret_bind]
  rw [if_pos (UInt8.zero_and ..)]
  refine Prog.Calls.bind (Prog.Calls.bind ?_ _) _
  rw [searchVersion, if_neg h0]
  refine Prog.Calls.bind (Prog.Calls.bind ?_ _) _
  rw [bioRead_miss _ _ _ hN hmiss]
  trivial

theorem Opened.calls {J : Junk} {d : PreservationDisk} (ho : Opened J true 1 N f d) (h0 : fileIndex f 0 ≠ 0)
    (hN : fileIndex f 0 < N) (ts : TimeSpec) (fuel : Nat) :
    (readAll J (fuel + 1) { d with ts := ts } [smallWrite.toTdRequest]).Calls := by
  have hspb : d.sectorsPerBlock = 8 := by rw [ho.disk]; rfl
  refine Prog.Calls.bind ?_ _
  unfold pdRead
  simp only [hspb]
  rw [if_neg (by decide), if_neg (by decide)]
  refine Prog.Calls.bind ?_ _
  rw [readBlockOf, if_pos (by rw [ho.disk]; rfl), pdReadCover, if_pos (by decide),
    if_pos (Nat.le_trans (Nat.le_of_eq (Nat.zero_mul _)) (Nat.zero_le _))]
  refine Prog.Calls.bind ?_ _
  simp only
  have hblock : toU64 (toInt ((smallWrite.sec : Int) / (8 : Nat))) = 0 := by decide
  rw [hblock]
  refine @readCurrentBlock_calls _ _ _ _ 0 _ _ (ho.table 0 (by decide)) ?_ ?_ ?_ h0 ?_
  all_goals rw [ho.disk]
  · show (zeros (roundUp 1 8))[0 / 8]? = some 0
    decide
  · rfl
  · rfl
  · exact Nat.lt_of_lt_of_eq hN ho.header.nextOffset.symm

/-- The small session logs a version of the first block. -/
theorem smallSession_index {rs : List Reply} (hR : ServeRun True [] smallSession.requests rs recs)
    (h : FileInv 1 N recs f) : fileIndex f 0 ≠ 0 ∧ fileIndex f 0 < N := by
  change ServeRun True [] [.write smallWrite] rs recs at hR
  cases hR with
  | cons hs hr =>
    cases hr
    cases hs with
    | write hw =>
      have hstep := hw.touched 0 ⟨by decide, by decide, by decide⟩
      rw [fileIndex, h.index 0 (by decide)]
      cases hvs : chainOf recs 0 with
      | nil =>
        have hbyte := hstep.content (p := 0) (by decide)
        rw [hvs] at hbyte
        exact absurd hbyte (by decide)
      | cons v vs =>
        obtain ⟨r, hr, -, rfl⟩ := mem_chainOf.1 (show v ∈ chainOf recs 0 by rw [hvs]; exact List.mem_cons_self)
        have hlow := (h.wf.mem hr).2.1
        have hstop := h.below r hr
        have hstart := logStart_bounds 1
        simp only [Version.stop, entryHeaderSize] at hstop
        exact ⟨by rw [headOff]; omega, by rw [headOff]; omega⟩

theorem quiet_openReader (hn : n < 2 ^ 31) {s : Os Event} (hf : FileInv n N recs s.file) (J : Junk) (ts : TimeSpec) :
    ∃ d r, Done (pdInitializeReadOnly J ts) s (some { d with ts := ts }) r ∧ r.file = s.file ∧
      r.notes = .indexRead :: .headerRead :: s.notes ∧ Opened J true n N s.file d := by
  have hw : wp quietLogic (pdInitializeReadOnly J ts) (fun out r => r.file = s.file ∧
      r.notes = .indexRead :: .headerRead :: s.notes ∧
      ∃ d, out = some { d with ts := ts } ∧ Opened J true n N s.file d) s := by
    unfold pdInitializeReadOnly
    refine wp_seq (wp_openDisk quiet_alone hn hf fun _ _ => ⟨trivial, trivial⟩) ?_
    rintro _ r ⟨hfile, hnotes, d, rfl, ho⟩
    exact ⟨hfile, hnotes, d, rfl, ho⟩
  obtain ⟨_, r, hd, hfile, hnotes, d, rfl, ho⟩ := quiet_exists hw
  exact ⟨d, r, hd, hfile, hnotes, ho⟩

/-- The first of two small sessions has ended, the reader opens the file, then the second session runs
from start to end, then the reader reads. -/
theorem isolated_small : ∃ (w w2 : Conf Event (List Reply)) (d : PreservationDisk) (r r2 : Os Event)
    (rs : List Reply) (frozen : List Reply) (d2 : PreservationDisk),
    DuoRun Apart ⟨settle (runSessions [smallSession, smallSession]) (newDatabase 1),
      settle (pdInitializeReadOnly zeroJunk ⟨2, 0⟩) (newDatabase 1)⟩ ⟨w, (.ret (some d), r)⟩ ∧
    DuoRun Apart ⟨w, settle (readAll zeroJunk (d.header.nextOffset + 1) d [smallWrite.toTdRequest]) r⟩
      ⟨w2, (.ret (frozen, d2), r2)⟩ ∧ w2.1 = .ret rs ∧
    ∃ d' s', Done (readAll zeroJunk (d.header.nextOffset + 1) d [smallWrite.toTdRequest]) r (frozen, d') s' := by
  have hin : ∀ S ∈ [smallSession, smallSession], ∀ req ∈ S.requests, req.Inside 1 := fun S hS => by
    rcases List.mem_cons.1 hS with rfl | hS
    · exact smallSession_inside
    · rcases List.mem_singleton.1 hS with rfl
      exact smallSession_inside
  have hreads : ∀ treq ∈ [smallWrite.toTdRequest], treq.Readable 1 := fun treq ht => by
    rcases List.mem_singleton.1 ht with rfl
    exact ⟨smallWrite_inside, .inr (by decide)⟩
  -- the run of the writer
  obtain ⟨rs, s2, hd, -, ha⟩ := exists_done (wp_runSessions total_mode (by decide) (fun _ _ _ => trivial)
    (newDatabase_inv (n := 1) (by decide)) hin [] fun _ => ⟨nofun, ⟨small_affordable _, fun _ _ _ =>
      ⟨small_affordable _, fun _ _ _ => trivial⟩⟩, by decide⟩) trivial
  have hc2 : Assumed Coherent s2.notes := (assumed_of_total ha).1
  let next (o : Option (List Reply × Int)) : Prog Event (List Reply) := do
    let more ← runSessions [smallSession]
    pure ((o.map Prod.fst).getD [] ++ more)
  obtain ⟨a, s1, ⟨k1, h1⟩, ⟨k2, h2⟩⟩ := Done.bind_inv (p := smallSession.run) (f := next) hd
  obtain ⟨new, hnew⟩ := run_notes h2
  have hc1 : Assumed Coherent s1.notes := by rw [hnew] at hc2; exact hc2.of_append
  obtain ⟨replies, N, recs, -, hf, hR, -⟩ := driver_done (wp_session (driver_mode 1) (by decide) (fun _ _ h => h)
    (newDatabase_inv (n := 1) (by decide)) smallSession_inside fun h => h.elim) ⟨k1, h1⟩ hc1
  rw [List.append_nil] at hf hR
  obtain ⟨h0, hN⟩ := smallSession_index hR hf
  -- the reader opens the file
  obtain ⟨d, r, ⟨k3, h3⟩, hfile, hnotes, ho⟩ := quiet_openReader (s := (newDatabase 1).put s1.file) (by decide) hf
    zeroJunk ⟨2, 0⟩
  have hfirst : DuoRun Apart ⟨settle (runSessions [smallSession, smallSession]) (newDatabase 1),
      (pdInitializeReadOnly zeroJunk ⟨2, 0⟩, newDatabase 1)⟩
      ⟨settle (next a) s1, (pdInitializeReadOnly zeroJunk ⟨2, 0⟩, (newDatabase 1).put s1.file)⟩ :=
    .writes rfl (fun _ _ h => h) (run_bind next h1)
  have hw : settle (next a) s1 = ((settle (next a) s1).1, (settle (next a) s1).2.put r.file) := by
    rw [hfile, ← settle_file (next a) s1]
  have hread := DuoRun.reads (P := Apart) (w := settle (next a) s1) (s := (newDatabase 1).put s1.file)
    (settle_file (next a) s1) h3
  rw [← hw] at hread
  have hopen := hfirst.trans hread
  -- the second session, then the reader
  have hcalls := ho.calls h0 hN ⟨2, 0⟩ d.header.nextOffset
  have hwait : ∀ past, Apart past r.notes := fun _ _ h => by rw [hnotes] at h; exact h
  generalize hd1 : ({ d with ts := ⟨2, 0⟩ } : PreservationDisk) = d1 at hopen hcalls
  generalize hp : readAll zeroJunk (d.header.nextOffset + 1) d1 [smallWrite.toTdRequest] = p at hcalls
  have hsecond : DuoRun Apart ⟨settle (next a) s1, settle p r⟩ ⟨(.ret rs, s2), (p, r.put s2.file)⟩ := by
    rw [settle_of_settled hcalls.settled]
    exact .writes hfile hwait h2
  have hc1' : Assumed Coherent (settle (next a) s1).2.notes := hsecond.assumed hc2
  have hF := reader_opened (by decide) hin hopen hc1'
  obtain ⟨_, hsome, N', recs', hK, hT⟩ := hF.reader
  cases hsome
  have hd1next : d1.header.nextOffset = d.header.nextOffset := by rw [← hd1]
  have hfuel : d1.header.nextOffset ≤ d.header.nextOffset + 1 := by omega
  have hN' : N' ≤ d.header.nextOffset + 1 := by rw [← hT.header.nextOffset]; exact hfuel
  have hserved := reader_served (by decide) hF.writer hF.file hK hT hreads (J := zeroJunk) hN'
    (by rw [hp]; exact hsecond) hc2
  obtain ⟨out, r2, ⟨k4, h4⟩, -⟩ := wp_total trivial id hserved.reader (reader_assumed 1 _)
  have hlast := DuoRun.reads (P := Apart) (w := (.ret rs, s2)) (s := r.put s2.file) rfl h4
  rw [settle_of_settled hcalls.settled] at hlast
  -- what it returns
  obtain ⟨frozen, d', s', hdone, hall⟩ := isolated (by decide) hin hopen hc1' hreads (J := zeroJunk) hfuel
  rw [hp] at hall hdone
  have hend := hsecond.trans hlast
  rcases hall _ hend hc2 with ⟨d2, hret⟩ | ⟨c, hmove⟩
  · have hout : out = (frozen, d2) := Prog.ret.inj hret
    subst hout
    refine ⟨_, (.ret rs, s2.put r2.file), d1, r, r2, rs, frozen, d2, hopen, ?_, rfl, d', s', ?_⟩
    · rw [hd1next, hp]; exact hend
    · rw [hd1next, hp]; exact hdone
  · cases hmove

end LogDrive
