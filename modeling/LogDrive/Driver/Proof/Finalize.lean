import LogDrive.Driver.Proof.LogInv

/-!
# `pd_finalize`

The log is flushed, then the header is written, then the index. After each of these writes the file
is a database again (`FileInv`): with the old log until the index is written, with the new log for
the blocks whose index entries have been written (`FileInv.indexWritten`).

`Guarantee n s bs` is what every write of a session gives to other processes that have the file open.
-/

set_option autoImplicit false

open Bytes

namespace LogDrive

/-- A call of `pd_finalize` is under way. -/
def InFinalize : List Event → Prop
  | .finalizing :: _ => True
  | .closed :: _ => False
  | _ :: past => InFinalize past
  | [] => False

/-- What never changes of a database file: the log below `next_offset`. -/
structure Stable (n : Nat) (f f' : Mem) : Prop where
  grow : f.length ≤ f'.length
  next : fileNext f ≤ fileNext f'
  log : ∀ i, logStart n ≤ i → i < fileNext f → byteAt f' i = byteAt f i

structure Guarantee (n : Nat) (s : Os Event) (bs : Mem) : Prop where
  database : ∃ N recs, FileInv n N recs (s.afterWrite bs).file
  stable : Stable n s.file (s.afterWrite bs).file
  /-- Header and index change in `pd_finalize` only. -/
  front : InFinalize s.notes ∨ logStart n ≤ s.pos

variable {n N N' : Nat} {old new recs : List Rec} {f : Mem}

/-- A write behind the log keeps the guarantee. -/
theorem FileInv.guarantee_log (h : FileInv n N old f) {t : Os Event} {bs : Mem} (ht : t.file = f)
    (hp : N ≤ t.pos) : Guarantee n t bs := by
  subst ht
  have hst : FileInv n N old (t.afterWrite bs).file := h.store hp
  refine ⟨⟨N, old, hst⟩, ⟨le_length_store .., by rw [h.next, hst.next], fun i _ hi => ?_⟩,
    .inr (Nat.le_trans h.start hp)⟩
  rw [h.next] at hi
  exact byteAt_store_outside (.inl (by omega))

/-! ## The header -/

theorem FileInv.headerWritten (h : FileInv n N old f) {hd : DataHeader} (hh : hd.Of n N')
    (hle : N ≤ N') (hal : N' % 512 = 0) (hb : N' ≤ offMax) :
    FileInv n N' old (Bytes.store f 0 hd.toBytes) := by
  have hl := logStart_bounds n
  have hlen := hh.length_toBytes
  have hgrow := le_length_store f 0 hd.toBytes
  have hout : ∀ i, 512 ≤ i → byteAt (Bytes.store f 0 hd.toBytes) i = byteAt f i := fun i hi =>
    byteAt_store_outside (.inr (by omega))
  have hne : hd.toBytes ≠ [] := fun h0 => by rw [h0] at hlen; simp at hlen
  have hend := end_le_length_store (m := f) 0 hne
  refine {
    shape := .inr (by omega)
    header := ?_
    index := fun b hb => by
      rw [← h.index b hb]
      exact numAt_congr fun i hi _ => hout i (by omega)
    start := Nat.le_trans h.start hle
    aligned := hal
    bound := hb
    wf := h.wf
    below := fun r hr => Nat.le_trans (h.below r hr) hle
    inFile := fun r hr => Nat.le_trans (h.inFile r hr) hgrow
    holds := fun r hr => (h.holds r hr).congr fun i hi _ => hout i (by
      have := (h.wf.mem hr).2.1; omega) }
  have hs := Holds.store f 0 hd.toBytes
  rw [hh.toBytes] at hs
  rw [hh.toBytes]
  exact (holds_append.1 hs).1

/-! ## The index -/

/-- The file holds all records, under the old index; `table` is the index of all records. -/
structure IndexReady (n N : Nat) (new old : List Rec) (table : List Nat) (f : Mem) : Prop where
  file : FileInv n N old f
  wf : LogWF n (new ++ old)
  below : ∀ r ∈ new ++ old, r.ver.stop ≤ N ∧ r.ver.stop ≤ f.length
  holds : ∀ r ∈ new ++ old, Holds (byteAt f) r.ver.off r.ver.bytes
  length : table.length = tableBytes n / 8
  table : ∀ b < n, table[b]? = some (headOff (chainOf (new ++ old) b))
  long : 512 ≤ f.length

/-- The first `k` entries of the index have been written over the old ones. -/
theorem IndexReady.written {table : List Nat} (hr : IndexReady n N new old table f) {k : Nat}
    (hk : k ≤ tableBytes n / 8) :
    FileInv n N (new.filter (fun r => decide (r.block < k)) ++ old)
      (Bytes.store f 512 ((encodeIndex table).take (8 * k))) := by
  obtain ⟨h, hwf, hbelow, hholds, hlen, htable, hlong⟩ := hr
  have hl := logStart_bounds n
  have ht := tableBytes_bounds n
  have htl : ((encodeIndex table).take (8 * k)).length = 8 * k := by
    rw [List.length_take, length_encodeIndex, hlen]; omega
  have hgrow := le_length_store f 512 ((encodeIndex table).take (8 * k))
  have hout : ∀ i, i < 512 ∨ 512 + 8 * k ≤ i →
      byteAt (Bytes.store f 512 ((encodeIndex table).take (8 * k))) i = byteAt f i := fun i hi =>
    byteAt_store_outside (by omega)
  have hstart : 512 + 8 * k ≤ logStart n := by unfold logStart; omega
  obtain ⟨hwf', hchain⟩ := hwf.filter fun b => decide (b < k)
  have hsub : ∀ r ∈ new.filter (fun r => decide (r.block < k)) ++ old, r ∈ new ++ old := fun r hr => by
    rcases List.mem_append.1 hr with h1 | h1
    · exact List.mem_append_left _ (List.mem_filter.1 h1).1
    · exact List.mem_append_right _ h1
  refine {
    shape := .inr (by omega)
    header := h.header.congr fun i _ hi => hout i (by rw [length_headerBytes] at hi; omega)
    index := fun b hb => ?_
    start := h.start
    aligned := h.aligned
    bound := h.bound
    wf := hwf'
    below := fun r hr => (hbelow r (hsub r hr)).1
    inFile := fun r hr => Nat.le_trans (hbelow r (hsub r hr)).2 hgrow
    holds := fun r hr => (hholds r (hsub r hr)).congr fun i hi _ => hout i (by
      have := (hwf.mem (hsub r hr)).2.1; omega) }
  rw [hchain b]
  by_cases hbk : b < k
  · rw [if_pos (decide_eq_true hbk)]
    have hb8 : headOff (chainOf (new ++ old) b) < 256 ^ 8 := chainOf_head_lt (by decide) fun r hr => by
      have h1 := (hbelow r hr).1
      have h2 := h.bound
      simp only [offMax] at h2
      omega
    refine numAt_of_holds ?_ hb8
    have hs : slice ((encodeIndex table).take (8 * k)) (8 * b) 8 =
        le 8 (headOff (chainOf (new ++ old) b)) := by
      rw [← slice_encodeIndex (htable b hb)]
      exact ext_byteAt (by rw [length_slice, length_slice, htl, length_encodeIndex, hlen]; omega)
        fun i hi => by
          rw [length_slice, htl] at hi
          rw [byteAt_slice (by omega), byteAt_slice (by omega), byteAt_take (by omega)]
    have hh := (Holds.store f 512 ((encodeIndex table).take (8 * k))).slice (a := 8 * b) (n := 8)
    rwa [hs] at hh
  · rw [if_neg (by simpa using hbk), ← h.index b hb]
    exact numAt_congr fun i hi _ => hout i (by omega)

/-- The whole index has been written. -/
theorem IndexReady.writtenAll {table : List Nat} (hr : IndexReady n N new old table f) :
    FileInv n N (new ++ old) (Bytes.store f 512 (encodeIndex table)) := by
  have h := hr.written (Nat.le_refl _)
  have ht := tableBytes_bounds n
  have hlen : (encodeIndex table).length ≤ 8 * (tableBytes n / 8) := by
    rw [length_encodeIndex, hr.length]
  have hall : new.filter (fun r => decide (r.block < tableBytes n / 8)) = new :=
    List.filter_eq_self.2 fun r hrm => decide_eq_true (by
      have := (hr.wf.mem (List.mem_append_left old hrm)).1; omega)
  rwa [hall, List.take_of_length_le hlen] at h

/-! ## The whole call -/

/-- The writes of `pd_finalize` behind the flush: the header over the old index, and then the index. -/
inductive FinalWrite (n : Nat) (old recs : List Rec) (s : Os Event) (bs : Mem) : Prop
  | header {N : Nat} : s.pos = 0 → FileInv n N old (s.afterWrite bs).file → Stable n s.file (s.afterWrite bs).file →
      FinalWrite n old recs s bs
  | index {N : Nat} {new : List Rec} {table : List Nat} : recs = new ++ old → s.pos = 512 →
      bs = encodeIndex table → IndexReady n N new old table s.file → FinalWrite n old recs s bs

theorem FinalWrite.guarantee {s : Os Event} {bs : Mem} (h : FinalWrite n old recs s bs)
    (hf : InFinalize s.notes) : Guarantee n s bs := by
  cases h with
  | header _ h hs => exact ⟨⟨_, _, h⟩, hs, .inl hf⟩
  | @index N new table hrecs hp hb hr =>
    have hw : (s.afterWrite bs).file = Bytes.store s.file 512 (encodeIndex table) := by
      rw [Os.afterWrite_file, hp, hb]
    have hall := hr.writtenAll
    have ht := tableBytes_bounds n
    rw [← hw] at hall
    refine ⟨⟨_, _, hall⟩, ⟨le_length_store .., by rw [hr.file.next, hall.next], fun i hi _ => ?_⟩, .inl hf⟩
    rw [hw]
    refine byteAt_store_outside (.inr ?_)
    rw [length_encodeIndex, hr.length]
    unfold logStart at hi
    omega


section
variable {L : Logic Event} {T : Prop} (hM : Mode L T)
variable {d : PreservationDisk} {s : Os Event}
include hM

/-- What a closed session leaves. -/
structure Closed (n N' : Nat) (recs : List Rec) (d : PreservationDisk) (s s' : Os Event) : Prop where
  database : FileInv n N' recs s'.file
  notes : s'.notes = .closed :: .indexing d.indexTable :: .finalizing :: s.notes
  lower : d.bio.nextOffset + d.bio.bufferPos ≤ N'
  upper : N' ≤ d.bio.nextOffset + (d.bio.bufferPos + 511) / 512 * 512

omit hM in
/-- When the write buffer is empty all records lie in the file. -/
theorem LogInv.onDisk (hI : LogInv n N old d s recs) {bio : BufferedIo} (hB : BioInv bio f (entries recs))
    (hempty : bio.bufferPos = 0) {r : Rec} (hr : r ∈ recs) : r.ver.stop ≤ bio.nextOffset ∧
      r.ver.stop ≤ f.length ∧ Holds (byteAt f) r.ver.off r.ver.bytes := by
  have hwf := (hI.wf.mem hr).2.2
  have he : r.ver.entry ∈ entries recs := mem_entries.2 ⟨r, hr, rfl⟩
  have hse := Version.stop_entry _ hwf
  have hstop : r.ver.stop ≤ bio.nextOffset := by
    have := hB.top _ he
    omega
  refine ⟨hstop, by have := hB.inFile _ he; omega, (hB.holds _ he).congr fun i _ hi => ?_⟩
  have hl : r.ver.entry.bytes.length = 32 + r.ver.data.length := Version.length_bytes _ hwf
  have ho : r.ver.entry.off = r.ver.off := rfl
  simp only [Version.stop, entryHeaderSize] at hstop
  exact (if_pos (show i < bio.nextOffset by omega)).symm

/-- What lies in the file after the flush of `pd_finalize`. -/
structure LogFlushed (n N' : Nat) (new old : List Rec) (table : List Nat) (f : Mem) : Prop where
  file : ∃ N, N ≤ N' ∧ FileInv n N old f
  aligned : N' % 512 = 0
  bound : N' ≤ offMax
  wf : LogWF n (new ++ old)
  below : ∀ r ∈ new ++ old, r.ver.stop ≤ N' ∧ r.ver.stop ≤ f.length
  holds : ∀ r ∈ new ++ old, Holds (byteAt f) r.ver.off r.ver.bytes
  length : table.length = tableBytes n / 8
  table : ∀ b < n, table[b]? = some (headOff (chainOf (new ++ old) b))

omit hM in
/-- The header goes over the old one and leaves the rest. -/
theorem LogFlushed.ready {table : List Nat} (h : LogFlushed n N' new old table f) {hd : DataHeader}
    (hh : hd.Of n N') : IndexReady n N' new old table (Bytes.store f 0 hd.toBytes) ∧
      Stable n f (Bytes.store f 0 hd.toBytes) := by
  obtain ⟨N, hle, hf⟩ := h.file
  have hl := logStart_bounds n
  have hdl := hh.length_toBytes
  have hfile := hf.headerWritten hh hle h.aligned h.bound
  have hgrow := le_length_store f 0 hd.toBytes
  have hne : hd.toBytes ≠ [] := fun h0 => by rw [h0] at hdl; simp at hdl
  have hend := end_le_length_store (m := f) 0 hne
  have hout : ∀ i, logStart n ≤ i → byteAt (Bytes.store f 0 hd.toBytes) i = byteAt f i := fun i hi =>
    byteAt_store_outside (.inr (by omega))
  refine ⟨⟨hfile, h.wf, fun r hr => ⟨(h.below r hr).1, Nat.le_trans (h.below r hr).2 hgrow⟩, fun r hr =>
    (h.holds r hr).congr fun i hi _ => hout i ?_, h.length, h.table, by omega⟩, hgrow, ?_, fun i hi _ => hout i hi⟩
  · have := (h.wf.mem hr).2.1; omega
  · rw [hf.next, hfile.next]; exact hle

/-- **`pd_finalize`** leaves a database with the records of the session. -/
theorem wp_pdFinalize (hn : n < 2 ^ 31) (hlog : ∀ f, FileInv n N old f → AllowsFrom L f N)
    (hA : ∀ s bs, InFinalize s.notes → FinalWrite n old recs s bs → L.allow s bs)
    (hI : LogInv n N old d s recs) (ht : L.total → d.bio.nextOffset + bufferSize ≤ offMax) :
    wp L (pdFinalize d) (fun _ s' => ∃ N', Closed n N' recs d s s') s := by
  have htb := tableBytes_bounds n
  obtain ⟨new, rfl, -⟩ := hI.new
  unfold pdFinalize
  simp only [Prog.bind_eq, Prog.mark_bind, bioFinalize, Prog.pure_eq]
  refine ⟨hM.plain trivial, fun _ => ?_⟩
  rw [Prog.bind_assoc]
  refine wp_seq (wp_bioFlush hM.alone hI.bio (fun t bs htf hlo => hlog _ hI.file t bs htf
    (Nat.le_trans hI.start hlo)) ht) ?_
  rintro bio s2 ⟨hB, hnotes, hempty, hF⟩
  have hnext : N ≤ bio.nextOffset := Nat.le_trans hI.start hF.next
  have hflushed : LogFlushed n bio.nextOffset new old d.indexTable s2.file := {
    file := ⟨N, hnext, hI.file.extend hF.grow (hF.long.imp_right fun h => Nat.le_trans hnext h)
      fun i hi => hF.below i (Nat.lt_of_lt_of_le hi hI.start)⟩
    aligned := hB.aligned
    bound := by
      by_cases h : bio.nextOffset = d.bio.nextOffset
      · rw [h]; exact hI.bound
      · exact hF.moved h
    wf := hI.wf
    below := fun r hr => ⟨(hI.onDisk hB hempty hr).1, (hI.onDisk hB hempty hr).2.1⟩
    holds := fun r hr => (hI.onDisk hB hempty hr).2.2
    length := hI.tableLen
    table := hI.table }
  simp only [Prog.ret_bind]
  rw [if_neg (by simp [hI.writable]), if_neg (by rw [hI.header.blockSize]; decide)]
  simp only [Prog.sysLseek_bind, Prog.sysWrite_bind]
  generalize hh : ({ d.header with nextOffset := bio.nextOffset } : DataHeader) = hd
  have hhd : hd.Of n bio.nextOffset := by
    rw [← hh]; exact ⟨hI.header.diskSize, hI.header.blockSize, rfl, hI.header.rest⟩
  have hdl := hhd.length_toBytes
  obtain ⟨hready, hstable⟩ := hflushed.ready hhd
  have hin : InFinalize s2.notes := by rw [hnotes]; trivial
  -- the header
  refine wp_lseek_alone hM.alone (fun _ => Nat.zero_le _) fun _ => ?_
  refine wp_write_alone hM.alone (fun _ => by rw [hdl]; simp only [offMax]; omega) (hA _ _ hin (.header rfl hready.file hstable))
    fun _ => ?_
  refine wp_lseek_alone hM.alone (fun _ => by decide) fun _ => ?_
  -- the index
  simp only [wp_note]
  refine ⟨hM.plain trivial, fun _ => ?_⟩
  have hlen : (encodeIndex d.indexTable).length = tableBytes n := by
    rw [length_encodeIndex, hI.tableLen]; omega
  rw [hI.header.indexTableSize hn, copyFrom, if_pos (by omega)]
  have hall : slice (encodeIndex d.indexTable) 0 (tableBytes n) = encodeIndex d.indexTable := by
    rw [← hlen, slice_all]
  rw [hall]
  simp only [Prog.pure_eq, Prog.ret_bind]
  refine wp_write_alone hM.alone (fun _ => ?_) (hA _ _ hin (.index rfl rfl rfl hready)) fun _ => ?_
  · have := hready.file.start
    have := hflushed.bound
    unfold logStart at *
    rw [hlen]
    simp only [roundUppedDataHeaderSize]
    omega
  refine ⟨hM.plain trivial, fun _ => ?_⟩
  exact ⟨bio.nextOffset, hready.writtenAll, by simp only [Os.afterWrite_notes, hnotes],
    by have := hF.top; omega, hF.upper⟩

end

end LogDrive
