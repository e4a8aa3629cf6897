import LogDrive.Driver.Proof.Growth

/-!
# A session that only reads

A preservation session writes even if it has only served reads: `pd_finalize` puts back the header and the
index that `open_disk` has loaded. Both codings are exact, so every one of these writes leaves the bytes of the
file as they were (`QuietWrite`), wherever the session is killed. Since nothing is ever flushed, no read is
stale: nothing has to be taken for granted of them, and the session returns the newest contents of the
database (`reading_leaves_file`), which is what a journey to a time after all versions shows (`travel_now`).
-/

set_option autoImplicit false

open Bytes

namespace LogDrive

/-! ## Codings -/

theorem DataHeader.toBytes_ofBytes {m : Mem} (h : 24 ≤ m.length) : (DataHeader.ofBytes m).toBytes = m := by
  have hnum : ∀ pos, pos + 8 ≤ m.length → le 8 (unle (slice m pos 8)) = slice m pos 8 := fun pos hp => by
    have hle := le_unle (slice m pos 8)
    rwa [length_slice_of_le hp] at hle
  have hall : slice m 0 (8 + 8 + 8 + (m.length - 24)) = m := by
    rw [show 8 + 8 + 8 + (m.length - 24) = m.length by omega, slice_all]
  rw [slice_add, slice_add, slice_add] at hall
  simp only [DataHeader.toBytes, DataHeader.ofBytes]
  rw [hnum 0 (by omega), hnum 8 (by omega), hnum 16 (by omega)]
  exact hall

theorem encodeIndex_decodeIndex {m : Mem} (h : m.length % 8 = 0) : encodeIndex (decodeIndex m) = m := by
  have hpart : ∀ k, 8 * k ≤ m.length →
      encodeIndex ((List.range k).map fun i => unle (slice m (8 * i) 8)) = slice m 0 (8 * k) := by
    intro k
    induction k with
    | zero => exact fun _ => (slice_zero m 0).symm
    | succ k ih =>
      intro hk
      have hlast := le_unle (slice m (8 * k) 8)
      rw [length_slice_of_le (by omega)] at hlast
      have hprev := ih (by omega)
      simp only [encodeIndex] at hprev ⊢
      rw [List.range_succ, List.map_append, List.flatMap_append, hprev, Nat.mul_add, slice_add, Nat.zero_add]
      simp only [List.map_cons, List.map_nil, List.flatMap_cons, List.flatMap_nil, List.append_nil]
      rw [hlast]
  rw [decodeIndex, hpart _ (by omega), show 8 * (m.length / 8) = m.length by omega, slice_all]

/-! ## Writes that change nothing -/

/-- The bytes are in the file already, or zeros that belong to the index. -/
structure QuietWrite (n : Nat) (s : Os Event) (bs : Mem) : Prop where
  same : Holds (byteAt s.file) s.pos bs
  low : s.pos + bs.length ≤ logStart n

/-- The file with the same bytes, filled up at most to the start of the log. -/
structure SameBytes (n : Nat) (f f' : Mem) : Prop where
  bytes : ∀ i, byteAt f' i = byteAt f i
  grow : f.length ≤ f'.length
  low : f'.length ≤ max f.length (logStart n)

theorem SameBytes.eq {n : Nat} {f f' : Mem} (h : SameBytes n f f') (hlong : logStart n ≤ f.length) : f' = f :=
  ext_byteAt (by have := h.grow; have := h.low; omega) fun i _ => h.bytes i

variable {n : Nat}

theorem SameBytes.refl (n : Nat) (f : Mem) : SameBytes n f f := ⟨fun _ => rfl, Nat.le_refl _, Nat.le_max_left _ _⟩

theorem SameBytes.write {f : Mem} {s : Os Event} {bs : Mem} (h : SameBytes n f s.file) (hw : QuietWrite n s bs) :
    SameBytes n f (s.afterWrite bs).file where
  bytes i := by
    rw [← h.bytes i, Os.afterWrite_file, byteAt_store]
    split
    · rename_i hi
      rw [← hw.same (i - s.pos) (by omega)]
      congr 1
      omega
    · rfl
  grow := Nat.le_trans h.grow (le_length_store ..)
  low := by
    have := h.low
    have := hw.low
    rw [Os.afterWrite_file, length_store]
    split <;> omega

/-- A write that is cut short. -/
theorem QuietWrite.take {s : Os Event} {bs : Mem} (h : QuietWrite n s bs) (k : Nat) : QuietWrite n s (bs.take k) where
  same i hi := by
    rw [List.length_take] at hi
    rw [byteAt_take (by omega)]
    exact h.same i (by omega)
  low := by
    have := h.low
    rw [List.length_take]
    omega

/-- The mode of a session that only reads. -/
abbrev readingLogic (n : Nat) : Logic Event := totalLogic.allowing (QuietWrite n)

theorem reading_mode (n : Nat) : Mode (readingLogic n) True := total_mode.allowing _

/-! ## The session -/

section
variable {N : Nat} {recs : List Rec} (hn : n < 2 ^ 31) {s : Os Event}
include hn

/-- What `open_disk` has loaded is what lies in the file. -/
structure Loaded (n : Nat) (f : Mem) (d : PreservationDisk) : Prop where
  header : Holds (byteAt f) 0 d.header.toBytes
  index : Holds (byteAt f) 512 (encodeIndex d.indexTable)

theorem wp_openDisk_loaded {L : Logic Event} (hL : L.Alone) (hf : FileInv n N recs s.file) (hlong : 512 ≤ s.file.length)
    {J : Junk} (ht : L.total → ∀ past, L.assume past .headerRead ∧ L.assume past .indexRead) :
    wp L (openDisk J false) (fun r s' => s'.file = s.file ∧ s'.notes = .indexRead :: .headerRead :: s.notes ∧
      ∃ d, r = some d ∧ Opened J false n N s.file d ∧ Loaded n s.file d) s := by
  have hload : wp L (openDisk J false) (fun r _ => ∀ d, r = some d → Loaded n s.file d) s := by
    rw [openDisk_eq]
    refine wp_opens_alone hL (wp_read_alone hL ?_)
    have hgot : (slice s.file 0 512).length = 512 := length_slice_of_le (by omega)
    have hall : store (tabulate J.header roundUppedDataHeaderSize) 0 (slice s.file 0 512) = slice s.file 0 512 :=
      store_all (by rw [hgot, length_tabulate])
    have hh := hf.headerRead hn J
    simp only [Os.chunk, Os.afterRead, Option.getD_some, wp_note]
    refine ⟨fun h => (ht h _).1, fun _ => ?_⟩
    rw [openIndex_eq hn hh]
    refine wp_read_alone hL ?_
    simp only [Prog.bind, wp_note]
    refine ⟨fun h => (ht h _).2, fun _ => ?_⟩
    rintro d hd
    cases hd
    refine ⟨?_, ?_⟩
    · rw [openedDisk, headerRead, hall, DataHeader.toBytes_ofBytes (by omega)]
      exact holds_slice _ _ _
    · have ht8 := tableBytes_bounds n
      rw [openedDisk, tableRead, Option.getD_some, encodeIndex_decodeIndex (by
        rw [Os.chunk, length_store_slice]
        omega)]
      intro i hi
      rw [Os.chunk, length_store_slice] at hi
      rw [Os.chunk, byteAt_store_slice hi]
      simp only [Nat.zero_add, hgot]
  refine wp_mono (wp_both (L := L) (fun _ _ ha _ => ha) (wp_openDisk hL hn hf ht) hload) ?_
  rintro r s' ⟨⟨hfile, hnotes, d, rfl, ho⟩, hl⟩
  exact ⟨hfile, hnotes, d, rfl, ho, hl d rfl⟩

/-- What a read gives of the newest versions of each block. -/
def latestReply (vs : Nat → List Version) (treq : TdRequest) : Reply :=
  .got 0 (tabulate (fun k => diskByte (fun b => contentOf (vs b)) (treq.sec * 512 + k)) (treq.secs * 512))

section
variable {L : Logic Event} (hM : Mode L True) {J : Junk} {d0 d : PreservationDisk} {s0 : Os Event}
variable (hc : L.total → Calm d0 s0 recs) {old : List Rec}
include hM hc

theorem wp_serveRead {treq : TdRequest} (hreq : treq.Readable n) (hI : LogInv n N old d s recs)
    (hS : SameSession d0 s0 recs d s) : wp L (Request.serve J d (.read treq)) (fun r s' => r.1 = latestReply (chainOf recs) treq ∧
      LogInv n N old r.2 s' recs ∧ SameSession d0 s0 recs r.2 s') s := by
  have hrb : readBlockOf J 0 d = readLatestBlock J := if_neg (by simp [hI.writable])
  refine wp_seq (wp_pdRead (latestReader hM hc) hn hreq hrb ⟨hI, hS⟩) ?_
  rintro ⟨r, bytes, d1⟩ s1 ⟨rfl, hlen, hcont, hI1, hS1⟩
  have hbytes : bytes = tabulate (fun k => diskByte (fun b => contentOf (chainOf recs b)) (treq.sec * 512 + k))
      (treq.secs * 512) :=
    ext_byteAt (by rw [hlen, length_tabulate]) fun k hk => by
      rw [hlen] at hk
      rw [hcont trivial k hk, byteAt_tabulate hk]
  exact ⟨by rw [latestReply, ← hbytes], hI1, hS1⟩

theorem wp_serveReads {reads : List TdRequest} (hreads : ∀ treq ∈ reads, treq.Readable n)
    (hI : LogInv n N old d s recs) (hS : SameSession d0 s0 recs d s) :
    wp L (serveAll J d (reads.map .read)) (fun r s' => r.1 = reads.map (latestReply (chainOf recs)) ∧
      LogInv n N old r.2 s' recs ∧ SameSession d0 s0 recs r.2 s') s := by
  induction reads generalizing d s with
  | nil => exact ⟨rfl, hI, hS⟩
  | cons treq reads ih =>
    refine wp_seq (wp_serveRead hn hM hc (hreads treq List.mem_cons_self) hI hS) ?_
    rintro ⟨reply, d1⟩ s1 ⟨rfl, hI1, hS1⟩
    refine wp_seq (ih (fun t ht => hreads t (List.mem_cons_of_mem _ ht)) hI1 hS1) ?_
    rintro ⟨replies, d2⟩ s2 ⟨rfl, hI2, hS2⟩
    exact ⟨rfl, hI2, hS2⟩

end

/-- **`pd_finalize`** of a session that has logged nothing. -/
theorem wp_pdFinalize_loaded {d : PreservationDisk} (hI : LogInv n N recs d s recs) (hempty : d.bio.bufferPos = 0)
    (hnext : d.bio.nextOffset = N) (hd : Loaded n s.file d) :
    wp (readingLogic n) (pdFinalize d) (fun _ _ => True) s := by
  have hM := reading_mode n
  have hl := logStart_bounds n
  have htb := tableBytes_bounds n
  have hflush : bioFlush d.bio = .ret d.bio := by
    rw [bioFlush, if_neg (by simp [hI.bio.writable]), if_neg (by simp [hempty])]
    rfl
  have hsame : ({ d.header with nextOffset := d.bio.nextOffset } : DataHeader) = d.header := by
    rw [hnext, ← hI.header.nextOffset]
  have hlen : (encodeIndex d.indexTable).length = tableBytes n := by
    rw [length_encodeIndex, hI.tableLen]
    omega
  have hbound : logStart n ≤ offMax := Nat.le_trans hI.file.start hI.file.bound
  unfold pdFinalize
  simp only [Prog.bind_eq, Prog.mark_bind, bioFinalize, hflush, Prog.ret_bind, Prog.pure_eq]
  refine ⟨hM.plain trivial, fun _ => ?_⟩
  rw [if_neg (by simp [hI.writable]), if_neg (by rw [hI.header.blockSize]; decide), hsame]
  simp only [Prog.sysLseek_bind, Prog.sysWrite_bind]
  have hquiet : QuietWrite n ⟨s.file, 0, .finalizing :: s.notes⟩ d.header.toBytes :=
    ⟨hd.header, by rw [hI.header.length_toBytes]; simp only; omega⟩
  refine wp_lseek_alone hM.alone (fun _ => Nat.zero_le _) fun _ => ?_
  refine wp_write_alone hM.alone (fun _ => by rw [hI.header.length_toBytes]; simp only [offMax]; omega) hquiet fun _ => ?_
  refine wp_lseek_alone hM.alone (fun _ => by decide) fun _ => ?_
  simp only [wp_note]
  refine ⟨hM.plain trivial, fun _ => ?_⟩
  rw [hI.header.indexTableSize hn, copyFrom, if_pos (by omega), ← hlen, slice_all]
  simp only [Prog.pure_eq, Prog.ret_bind]
  have hafter : SameBytes n s.file (Os.afterWrite ⟨s.file, 0, .finalizing :: s.notes⟩ d.header.toBytes).file :=
    SameBytes.write (.refl n s.file) hquiet
  refine wp_write_alone hM.alone (fun _ => ?_) ⟨fun i hi => ?_, ?_⟩ fun _ => ⟨hM.plain trivial, fun _ => trivial⟩
  · unfold logStart at hbound
    rw [hlen]
    exact hbound
  · rw [← hd.index i hi]
    exact hafter.bytes (512 + i)
  · rw [hlen]
    exact Nat.le_refl _

/-- The reads of a session that has just been opened, with an empty history. -/
theorem wp_serveOpened {L : Logic Event} (hM : Mode L True) (hf : FileInv n N recs s.file) {J : Junk}
    {d : PreservationDisk} {s1 : Os Event} (ho : Opened J false n N s.file d) (hfile : s1.file = s.file)
    (hnotes : s1.notes = [.indexRead, .headerRead]) {reads : List TdRequest}
    (hreads : ∀ treq ∈ reads, treq.Readable n) : wp L (serveAll J d (reads.map .read))
      (fun r s' => r.1 = reads.map (latestReply (chainOf recs)) ∧ LogInv n N recs r.2 s' recs ∧
        SameSession d s1 recs r.2 s' ∧ r.2.bio.bufferPos = 0 ∧ r.2.bio.nextOffset = N) s1 := by
  have hbio : d.bio = bioInit J false N := by
    rw [ho.disk]
    simp only [openedDisk, ho.header.nextOffset]
  have hcalm : Calm d s1 recs := by
    refine ⟨?_, fun e he => ?_⟩
    · rw [hbio]
      exact fun h => by cases h
    · rw [hnotes] at he
      exact he.elim
  refine wp_mono (wp_serveReads hn hM (fun _ => hcalm) hreads (ho.logInv hf hfile) .rfl) ?_
  rintro r s' ⟨hreply, hI, hS⟩
  refine ⟨hreply, hI, hS, ?_, ?_⟩
  · rw [hS.log.bufferPos, hbio]
    rfl
  · rw [hS.log.nextOffset, hbio]
    rfl

/-- **A session that only reads**, with an empty history. -/
theorem wp_reading (hf : FileInv n N recs s.file) (hlong : 512 ≤ s.file.length) (hnotes : s.notes = []) {S : Session}
    {reads : List TdRequest} (hS : S.requests = reads.map .read) (hreads : ∀ treq ∈ reads, treq.Readable n) :
    wp (readingLogic n) S.run (fun r _ => r = some (reads.map (latestReply (chainOf recs)), 0)) s := by
  have hM := reading_mode n
  unfold Session.run Session.work pdInitialize
  simp only [Prog.bind_eq]
  rw [Prog.bind_assoc]
  refine wp_seq (wp_openDisk_loaded hn hM.alone hf hlong fun h past => ⟨hM.plain trivial h, hM.plain trivial h⟩) ?_
  rintro _ s1 ⟨hfile, hnotes1, d, rfl, ho, hload⟩
  rw [hnotes] at hnotes1
  dsimp only
  rw [hS, Prog.bind_assoc]
  refine wp_seq (wp_serveOpened hn hM hf ho hfile hnotes1 hreads) ?_
  rintro ⟨replies, d'⟩ s2 ⟨rfl, hI, hSame, hempty, hnext⟩
  simp only [Prog.pure_eq, Prog.ret_bind, tdClose, Prog.bind_eq]
  rw [Prog.bind_assoc]
  simp only at hI hSame hempty hnext
  have hload' : Loaded n s2.file d' := by
    rw [hSame.file, hfile, hSame.disk]
    exact ⟨hload.header, hload.index⟩
  refine wp_seq (wp_pdFinalize_loaded hn hI hempty hnext hload') ?_
  intro _ _ _
  rfl

/-- The session up to its last request, on any file. -/
theorem wp_readingWork (hf : FileInv n N recs s.file) (hnotes : s.notes = []) {S : Session} {reads : List TdRequest}
    (hS : S.requests = reads.map .read) (hreads : ∀ treq ∈ reads, treq.Readable n) :
    wp totalLogic S.work (fun r _ => ∃ d, r = some (reads.map (latestReply (chainOf recs)), d)) s := by
  unfold Session.work pdInitialize
  refine wp_seq (wp_openDisk total_mode.alone hn hf fun h past =>
    ⟨total_mode.plain trivial h, total_mode.plain trivial h⟩) ?_
  rintro _ s1 ⟨hfile, hnotes1, d, rfl, ho⟩
  rw [hnotes] at hnotes1
  rw [hS]
  refine wp_seq (wp_serveOpened hn total_mode hf ho hfile hnotes1 hreads) ?_
  rintro ⟨replies, d'⟩ s2 ⟨rfl, -⟩
  exact ⟨d', rfl⟩

omit hn in
/-- A run with a history is a run without one. -/
theorem Os.run_unnoted {α : Type} {p q : Prog Event α} {s' : Os Event} {m : Nat} (h : runOk m (p, s) = some (q, s')) :
    ∃ s0, runOk m (p, ⟨s.file, s.pos, []⟩) = some (q, s0) ∧ s' = s0.under s.notes := by
  have hs : s = Os.under ⟨s.file, s.pos, []⟩ s.notes := rfl
  rw [hs, runOk, run_under] at h
  obtain ⟨⟨q', s0⟩, hr, heq⟩ := Option.map_eq_some_iff.1 h
  cases heq
  exact ⟨s0, hr, rfl⟩

omit hn in
/-- A session has the replies that it has before it is closed. -/
theorem Session.run_replies {S : Session} {replies : List Reply} {code : Int} {s' : Os Event}
    (h : Done S.run s (some (replies, code)) s') : ∃ d s1, Done S.work s (some (replies, d)) s1 := by
  obtain ⟨a, s1, hwork, hclose⟩ := Done.bind_inv (p := S.work) h
  cases a with
  | none => cases (Done.ret_inv hclose).1
  | some r =>
    obtain ⟨replies', d⟩ := r
    obtain ⟨code', s2, -, hret⟩ := Done.bind_inv (p := tdClose d) hclose
    cases (Done.ret_inv hret).1
    exact ⟨d, s1, hwork⟩

/-- What a session that only reads replies, whatever `bio_read` returns. -/
theorem reading_replies (hf : FileInv n N recs s.file) {S : Session} {reads : List TdRequest}
    (hS : S.requests = reads.map .read) (hreads : ∀ treq ∈ reads, treq.Readable n) {replies : List Reply} {code : Int}
    {s' : Os Event} (hd : Done S.run s (some (replies, code)) s') : replies = reads.map (latestReply (chainOf recs)) := by
  obtain ⟨d, s1, m, hr⟩ := Session.run_replies hd
  obtain ⟨s0, hr0, -⟩ := Os.run_unnoted hr
  have hw := @wp_readingWork n N recs hn ⟨s.file, s.pos, []⟩ hf rfl S reads hS hreads
  obtain ⟨d', heq⟩ := wp_runOk hw hr0 (wp_runOk_total trivial hw trivial hr0)
  cases heq
  rfl

/-- **A session that only reads.** In any state that sessions, killed or not, have reached, but not on a file that
`mkimage.rb` has just laid out, it ends with the newest contents of the database, whatever `bio_read` returns;
and wherever it is killed, every byte of the file is as it was. -/
theorem reading_leaves_file (hs : Reached n s) (hused : s.file.length ≠ 24) {S : Session} {reads : List TdRequest}
    (hS : S.requests = reads.map .read) (hreads : ∀ treq ∈ reads, treq.Readable n) :
    (∃ vs s', Finds n s vs ∧ Done S.run s (some (reads.map (latestReply vs), 0)) s') ∧
      ∀ begun s', Killed S s begun s' → SameBytes n s.file s'.file := by
  obtain ⟨N, recs, hf⟩ := hs.database hn
  have hlong : 512 ≤ s.file.length := hf.shape.resolve_left hused
  have hw := @wp_reading n N recs hn ⟨s.file, s.pos, []⟩ hf hlong rfl S reads hS hreads
  refine ⟨?_, fun begun s' hk => ?_⟩
  · obtain ⟨r, s0, ⟨m, hr⟩, rfl, -⟩ := wp_total trivial id hw trivial
    have hnoted : run (List.replicate m .ok) (S.run, Os.under ⟨s.file, s.pos, []⟩ s.notes) = _ :=
      (run_under s.notes _ _ _).trans (congrArg _ hr)
    exact ⟨chainOf recs, s0.under s.notes, hf.finds hn, m, hnoted⟩
  · have hrun : ∀ {m q s'}, runOk m (S.run, s) = some (q, s') → SameBytes n s.file s'.file ∧
        ∀ bs k, q = .write bs k → QuietWrite n s' bs := fun hr => by
      obtain ⟨s0, hr0, rfl⟩ := Os.run_unnoted hr
      have ha := wp_runOk_total trivial hw trivial hr0
      have hfile : SameBytes n s.file s0.file :=
        wp_runOk_file (I := SameBytes n s.file) (fun _ _ hI (hq : QuietWrite ..) => hI.write hq) hw hr0 ha (.refl n s.file)
      refine ⟨hfile, fun bs k hq => ?_⟩
      have hnext := wp_runOk hw hr0 ha
      subst hq
      have hquiet : QuietWrite n s0 bs := (hnext s0.file rfl).2.1
      exact ⟨hquiet.same, hquiet.low⟩
    cases hk with
    | before hr _ => exact (hrun hr).1
    | behind hr _ _ _ => exact (hrun hr).1
    | @within m k c c' hr hat hstep =>
      obtain ⟨p, s1⟩ := c
      obtain ⟨-, bs, k', rfl⟩ := hat
      obtain ⟨hsame, hnext⟩ := hrun hr
      simp only [step] at hstep
      split at hstep
      · cases hstep
        exact hsame.write ((hnext bs k' rfl).take _)
      · cases hstep

/-! ## A journey to now -/

omit hn in
/-- Every version of the database is of a time before `ts`. -/
def AllBefore (n : Nat) (f : Mem) (ts : TimeSpec) : Prop :=
  ∀ b < n, ∀ vs, Chain (byteAt f) (fileIndex f b) vs → ∀ v ∈ vs, v.head.ts.before ts = true

/-- **A journey to now.** In any state that sessions, killed or not, have reached, a journey to a time after
all versions and a preservation session with the same reads return the same. -/
theorem travel_now (hs : Reached n s) {V : Travel} (hreads : ∀ treq ∈ V.reads, treq.Readable n) (hfuel : offMax ≤ V.fuel)
    (hts : AllBefore n s.file V.ts) {S : Session} (hS : S.requests = V.reads.map .read) {replies : List Reply}
    {code : Int} {s1 : Os Event} (hd : Done S.run s (some (replies, code)) s1) :
    ∃ s2, Done V.run s (some (replies, 0)) s2 ∧ s2.file = s.file := by
  obtain ⟨N, recs, hf⟩ := hs.database hn
  obtain ⟨s2, h2, hfile⟩ := hf.journey hn hreads hfuel
  refine ⟨s2, ?_, hfile⟩
  have hall : V.reads.map (asOfReply V.ts recs) = replies := by
    rw [reading_replies hn hf hS hreads hd]
    refine List.map_congr_left fun treq ht => ?_
    have hinside := (hreads treq ht).inside
    have hbytes : tabulate (fun k => diskByte (asOfByte V.ts recs) (treq.sec * 512 + k)) (treq.secs * 512) =
        tabulate (fun k => diskByte (fun b => contentOf (chainOf recs b)) (treq.sec * 512 + k)) (treq.secs * 512) := by
      refine ext_byteAt (by rw [length_tabulate, length_tabulate]) fun k hk => ?_
      rw [length_tabulate] at hk
      have hb : (treq.sec * 512 + k) / 4096 < n := by omega
      rw [byteAt_tabulate hk, byteAt_tabulate hk, diskByte, diskByte, asOfByte]
      -- the newest version is the one that the search stops at
      have hbefore := hts _ hb _ (hf.chain hb)
      cases hvs : chainOf recs ((treq.sec * 512 + k) / 4096) with
      | nil => rfl
      | cons v vs =>
        rw [hvs] at hbefore
        rw [asOfVersion, List.find?_cons_of_pos (p := fun v : Version => v.head.ts.before V.ts) (hbefore v List.mem_cons_self)]
        rfl
    rw [asOfReply, latestReply, hbytes]
  rwa [← hall]

end

/-! ## After one write -/

/-- A database of one block with a version. -/
theorem reached_block : ∃ s N recs, Reached 1 s ∧ FileInv 1 N recs s.file ∧ Full s recs ∧
    Assumed totalLogic.assume s.notes ∧ 24 < s.file.length := by
  have h := wp_session total_mode (by decide) (fun _ _ _ => trivial) (newDatabase_inv (n := 1) (by decide))
    (blockWrite_inside (by decide)) fun _ => ⟨fun _ h => h.elim, blockSession_affordable [], by decide⟩
  obtain ⟨_, s, ⟨m, hr⟩, ⟨replies, N, recs, rfl, hf, hR, -, hfull⟩, ha⟩ := exists_done h trivial
  rw [List.append_nil] at hf hR hfull
  obtain ⟨begun, hk⟩ := Killed.of_run hr
  have hs : Reached 1 s := .session .new (blockWrite_inside (by decide)) hk
  refine ⟨s, N, recs, hs, hf, (hfull trivial).1, ha, ?_⟩
  cases hR with
  | cons hstep hrest =>
    cases hrest
    cases hstep with
    | write hW =>
      obtain ⟨v, hchain, hlen⟩ := hW.block
      obtain ⟨r, hr, -, rfl⟩ := mem_chainOf.1 (show v ∈ chainOf recs 0 by rw [hchain]; exact List.mem_cons_self)
      have := hf.inFile r hr
      unfold Version.stop at this
      omega

/-- The small request is read after a session that has written its block. -/
theorem reading_leaves_file_small : ∃ s vs s' begun, Reached 1 s ∧ Finds 1 s vs ∧
    Done (Session.run ⟨zeroJunk, [.read smallWrite.toTdRequest]⟩) s (some ([latestReply vs smallWrite.toTdRequest], 0)) s' ∧
    Killed ⟨zeroJunk, [.read smallWrite.toTdRequest]⟩ s begun s' ∧ SameBytes 1 s.file s'.file := by
  obtain ⟨s, N, recs, hs, -, -, -, hused⟩ := reached_block
  obtain ⟨⟨vs, s', hfinds, m, hr⟩, hsame⟩ := reading_leaves_file (by decide) hs (Nat.ne_of_gt hused)
    (S := ⟨zeroJunk, [.read smallWrite.toTdRequest]⟩) rfl
    fun treq ht => by rcases List.mem_singleton.1 ht with rfl; exact ⟨smallWrite_inside, .inr (by decide)⟩
  obtain ⟨begun, hk⟩ := Killed.of_run hr
  exact ⟨s, vs, s', begun, hs, hfinds, ⟨m, hr⟩, hk, hsame begun s' hk⟩

/-- The versions of a log are of the times of the writes. -/
theorem ServeRun.before {T : Prop} {recs : List Rec} {reqs : List Request} {rs : List Reply} (h : ServeRun T [] reqs rs recs)
    {ts : TimeSpec} (hq : ∀ q, .write q ∈ reqs → q.ts.before ts = true) (b : Nat) :
    ∀ v ∈ chainOf recs b, v.head.ts.before ts = true := by
  refine @ServeRun.keeps T (fun _ recs => ∀ v ∈ chainOf recs b, v.head.ts.before ts = true) (fun q => q.ts.before ts = true)
    (fun _ recs recs' q hall hq hw => ?_) [] recs reqs rs h [] nofun hq
  by_cases ht : q.Touches b
  · have hstep := hw.touched b ht
    generalize chainOf recs b = vs at hstep hall
    generalize chainOf recs' b = vs' at hstep
    cases hstep with
    | skip _ => exact hall
    | push _ _ _ hts _ _ =>
      intro v hv
      rcases List.mem_cons.1 hv with rfl | hv
      · rw [hts]
        exact hq
      · exact hall v hv
  · rw [hw.others b ht]
    exact hall

theorem travel_now_small : ∃ s replies s1 s2, Reached 1 s ∧
    Done (Session.run ⟨zeroJunk, [.read smallWrite.toTdRequest]⟩) s (some (replies, 0)) s1 ∧
    Done (Travel.run ⟨zeroJunk, ⟨2, 0⟩, offMax, [smallWrite.toTdRequest]⟩) s (some (replies, 0)) s2 := by
  have h := wp_session total_mode (by decide) (fun _ _ _ => trivial) (newDatabase_inv (n := 1) (by decide))
    smallSession_inside fun _ => ⟨nofun, small_affordable _, by decide⟩
  obtain ⟨_, s, ⟨m, hr⟩, ⟨replies, N, recs, rfl, hf, hR, -, hfull⟩, ha⟩ := exists_done h trivial
  rw [List.append_nil] at hf hR hfull
  obtain ⟨begun, hk⟩ := Killed.of_run hr
  have hs : Reached 1 s := .session .new smallSession_inside hk
  have hreads : ∀ treq ∈ [smallWrite.toTdRequest], treq.Readable 1 := fun treq ht => by
    rcases List.mem_singleton.1 ht with rfl
    exact ⟨smallWrite_inside, .inr (by decide)⟩
  have hbefore : AllBefore 1 s.file ⟨2, 0⟩ := fun b hb vs hc => by
    rw [hc.unique (hf.chain hb)]
    exact hR.before (fun q hq => by
      obtain rfl : q = smallWrite := by simpa [smallSession] using hq
      decide) b
  have hstart : logStart 1 = 1024 := rfl
  have h2 := wp_session total_mode (by decide) (fun _ _ _ => trivial) hf
    (S := ⟨zeroJunk, [.read smallWrite.toTdRequest]⟩)
    (fun req hreq => by rcases List.mem_singleton.1 hreq with rfl; exact hreads _ (List.mem_singleton_self _))
    fun _ => ⟨(hfull trivial).1, trivial, by
      have := (hfull trivial).2
      rw [hstart] at this
      simp only [offMax]
      omega⟩
  obtain ⟨_, s1, hd, ⟨replies', N', new', rfl, -⟩, -⟩ := exists_done h2 ha
  obtain ⟨s2, ht, -⟩ := travel_now (by decide) hs (V := ⟨zeroJunk, ⟨2, 0⟩, offMax, [smallWrite.toTdRequest]⟩) hreads
    (Nat.le_refl _) hbefore (S := ⟨zeroJunk, [.read smallWrite.toTdRequest]⟩) rfl hd
  exact ⟨s, replies', s1, s2, hs, hd, ht⟩

end LogDrive
