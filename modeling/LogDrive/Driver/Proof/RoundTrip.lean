import LogDrive.Driver.Proof.Codec
import LogDrive.Driver.Proof.Trim
import LogDrive.Driver.Proof.BioCoherent

/-!
# A block is trimmed and read back

`pd_write` logs a block as far as `get_actual_data_size` says, and both readers of blocks fill it up
with zeros again. `trim_lossless`: for every block the size fits its 16-bit field, what is left out is
zero, no smaller multiple of 16 would do, and a reader that is given the entry's bytes rebuilds the
block.

What a reader does is stated of whole runs: `readPayload_done`, `readLatestBlock_done` and
`readCurrentBlock_done` say what is in the caller's buffer, given what `bio_read` copied, and
`Buffered.readLatestBlock` that such a run is there when the entry lies in the write buffer.
-/

set_option autoImplicit false

open Bytes

namespace LogDrive

/-- What was read inside the entry are the entry's bytes. -/
def Faithful (e : Entry) (events : List Event) : Prop :=
  ∀ pos bytes st, Event.fetched pos bytes st ∈ events → e.Covers pos bytes.length → bytes = e.part pos bytes.length

/-- The entry of a block that has been trimmed. -/
def trimmedEntry (disk : PreservationDisk) (data : Mem) (off : Nat) (ts : TimeSpec) (next : Nat) (pad : Mem) : Entry :=
  ⟨off, EntryHeader.toBytes ⟨ts, next, getActualDataSize disk data % 2 ^ 16, pad⟩ ++
    data.take (getActualDataSize disk data)⟩

/-- The run's reader leaves the block of `data` in the caller's buffer and nothing else. -/
def Rebuilt (disk : PreservationDisk) (data buf : Mem) (r : Int) (out : Mem) : Prop :=
  r = 0 ∧ out.take disk.header.blockSize = data.take disk.header.blockSize ∧
    out.drop disk.header.blockSize = buf.drop disk.header.blockSize

/-- **Trimming is lossless and tight** for the block at the start of `data`. -/
structure TrimLossless (disk : PreservationDisk) (data : Mem) : Prop where
  paragraphs : getActualDataSize disk data % 16 = 0
  inBlock : getActualDataSize disk data ≤ disk.header.blockSize
  /-- The `unsigned short` in the header. -/
  stored : ∀ ts next pad, pad.length = 6 → (EntryHeader.ofBytes
    (EntryHeader.toBytes ⟨ts, next, getActualDataSize disk data % 2 ^ 16, pad⟩)).dataSize = getActualDataSize disk data
  /-- What `pd_write` appends. -/
  appended : ∀ off ts next pad, pad.length = 6 → copyFrom
    (EntryHeader.toBytes ⟨ts, next, getActualDataSize disk data % 2 ^ 16, pad⟩ ++ data) 0
      (entryHeaderSize + getActualDataSize disk data) = .ret (trimmedEntry disk data off ts next pad).bytes
  restored : data.take (getActualDataSize disk data) ++ zeros (disk.header.blockSize - getActualDataSize disk data) =
    data.take disk.header.blockSize
  zero : getActualDataSize disk data = 0 ↔ data.take disk.header.blockSize = zeros disk.header.blockSize
  least : ∀ n, n % 16 = 0 → data.take n ++ zeros (disk.header.blockSize - n) = data.take disk.header.blockSize →
    getActualDataSize disk data ≤ n
  /-- `read_latest_block`, for the entry that the index names. -/
  latest : ∀ (J : Junk) (d d' : PreservationDisk) (buf out : Mem) (events : List Event) (block off next : Nat)
    (ts : TimeSpec) (pad : Mem) (r : Int) (s s' : Os Event), d.header.blockSize = disk.header.blockSize →
    pad.length = 6 → off ≠ 0 → (trimmedEntry disk data off ts next pad).stop < 2 ^ 64 →
    d.indexTable[block]? = some off → Done (readLatestBlock J d buf block) s (r, out, d') s' →
    s'.notes = events ++ s.notes → Faithful (trimmedEntry disk data off ts next pad) events →
    Rebuilt disk data buf r out
  /-- `read_current_block`, for the entry that it has found or has in its cache. -/
  current : ∀ (J : Junk) (fuel : Nat) (d d' : PreservationDisk) (buf out : Mem) (events : List Event)
    (block off next : Nat) (ts : TimeSpec) (pad : Mem) (r : Int) (s s' : Os Event),
    d.header.blockSize = disk.header.blockSize → pad.length = 6 → off ≠ 0 →
    (trimmedEntry disk data off ts next pad).stop < 2 ^ 64 → d'.indexTable[block]? = some off →
    (∀ bits, d.indexCacheEnable[block / 8]? = some bits → bits &&& cacheBit block ≠ 0 →
      d.cachedDataSize[block]? = some (getActualDataSize disk data % 2 ^ 16)) →
    Done (readCurrentBlock J fuel d buf block) s (r, out, d') s' → s'.notes = events ++ s.notes →
    Faithful (trimmedEntry disk data off ts next pad) events → Rebuilt disk data buf r out

/-! ## What the readers copy -/

theorem Faithful.mono {e : Entry} {events events' : List Event} (h : Faithful e events')
    (hsub : ∀ ev ∈ events, ev ∈ events') : Faithful e events :=
  fun pos bytes st hm => h pos bytes st (hsub _ hm)

section
variable {b b' : BufferedIo} {s s' : Os Event}

/-- A `bio_read` that ends copies as many bytes as it is asked for. -/
theorem bioRead_done {pos size : Nat} {got : Option Mem} (h : Done (bioRead b pos size) s (got, b') s') :
    ∃ bytes st, got = some bytes ∧ bytes.length = size ∧ s'.notes = .fetched pos bytes st :: s.notes := by
  have hcopy : ∀ (mem : Mem) (off : Nat) (st : Bool) (b1 : BufferedIo) (s1 : Os Event), s1.notes = s.notes →
      wp bioLogic ((copyFrom mem off size).bind fun bytes => .note (.fetched pos bytes st) (.ret (some bytes, b1)))
        (fun r s' => ∃ bytes st, r.1 = some bytes ∧ bytes.length = size ∧ s'.notes = .fetched pos bytes st :: s.notes) s1 := by
    intro mem off st b1 s1 hn
    unfold copyFrom
    split
    · rename_i hin
      exact ⟨fun _ => trivial, fun _ => ⟨_, st, rfl, length_slice_of_le hin, by rw [hn]⟩⟩
    · trivial
  have hL : bioLogic.Alone := fun _ _ _ h => h
  refine bio_done (Q := fun r s' => ∃ bytes st, r.1 = some bytes ∧ bytes.length = size ∧
    s'.notes = .fetched pos bytes st :: s.notes) ?_ h
  by_cases hpos : b.nextOffset ≤ pos
  · unfold bioRead
    rw [if_pos hpos]
    exact hcopy _ _ _ _ _ rfl
  · cases hh : b.windowHit pos size with
    | true =>
      unfold bioRead
      rw [if_neg hpos, if_pos hh]
      exact hcopy _ _ _ _ _ rfl
    | false =>
      rw [bioRead_miss b pos size (by omega) hh]
      refine wp_lseek_alone hL (fun h => h.elim) fun _ => wp_read_alone hL ?_
      exact hcopy _ _ _ _ _ rfl

/-- What has been copied does not depend on the buffer. -/
theorem bioReadInto_done {pos size : Nat} {buf out : Mem} (h : Done (bioReadInto b pos buf size) s (out, b') s') :
    ∃ bytes st, out = store buf 0 bytes ∧ bytes.length = size ∧ size ≤ buf.length ∧
      s'.notes = .fetched pos bytes st :: s.notes ∧
      ∀ buf', size ≤ buf'.length → Done (bioReadInto b pos buf' size) s (store buf' 0 bytes, b') s' := by
  obtain ⟨⟨got, b1⟩, s1, h1, h2⟩ := h.bind_inv
  obtain ⟨bytes, st, rfl, hlen, hn⟩ := bioRead_done h1
  dsimp only at h2
  split at h2
  · rename_i hin
    obtain ⟨heq, rfl⟩ := h2.ret_inv
    cases heq
    refine ⟨bytes, st, rfl, hlen, by omega, hn, fun buf' hbuf => h1.bind ?_⟩
    dsimp only
    rw [if_pos (by omega)]
    exact .ret ..
  · exact h2.undefined_inv.elim

theorem clearFrom_done {buf out : Mem} {start size : Nat} (h : Done (clearFrom buf start size) s out s') :
    start + size ≤ buf.length ∧ out = store buf start (zeros size) ∧ s' = s := by
  unfold clearFrom at h
  split at h
  · rename_i hin
    obtain ⟨rfl, rfl⟩ := h.ret_inv
    exact ⟨hin, rfl, rfl⟩
  · exact h.undefined_inv.elim

end

theorem indexAt_done {d : PreservationDisk} {block off : Nat} {s s' : Os Event} (h : Done (indexAt d block) s off s') :
    d.indexTable[block]? = some off ∧ s' = s := by
  unfold indexAt at h
  split at h
  · rename_i hi
    obtain ⟨rfl, rfl⟩ := h.ret_inv
    exact ⟨hi, rfl⟩
  · exact h.undefined_inv.elim

/-- The payload of an entry and zeros behind it. -/
theorem readPayload_done {d d' : PreservationDisk} {buf out : Mem} {off size : Nat} {r : Int} {s s' : Os Event}
    (h : Done (readPayload d buf off size) s (r, out, d') s') : r = 0 ∧ size ≤ d.header.blockSize ∧
      d.header.blockSize ≤ buf.length ∧ (d'.indexTable = d.indexTable ∧ d'.header = d.header) ∧ ∃ bytes st,
      bytes.length = size ∧ s'.notes = .fetched (u64 (off + entryHeaderSize)) bytes st :: s.notes ∧
      out = store buf 0 (bytes ++ zeros (d.header.blockSize - size)) ∧ ∀ buf', d.header.blockSize ≤ buf'.length →
        Done (readPayload d buf' off size) s (0, store buf' 0 (bytes ++ zeros (d.header.blockSize - size)), d') s' := by
  obtain ⟨⟨buf1, b1⟩, s1, h1, h2⟩ := h.bind_inv
  obtain ⟨bytes, st, rfl, hlen, hsize, hn, hany⟩ := bioReadInto_done h1
  dsimp only at h2
  split at h2
  · rename_i hfit
    obtain ⟨buf2, s2, h3, h4⟩ := h2.bind_inv
    obtain ⟨hin, rfl, rfl⟩ := clearFrom_done h3
    obtain ⟨heq, rfl⟩ := h4.ret_inv
    simp only [Prod.mk.injEq] at heq
    obtain ⟨rfl, rfl, rfl⟩ := heq
    rw [length_store_of_le (by omega)] at hin
    have hjoin : ∀ m : Mem, d.header.blockSize ≤ m.length → store (store m 0 bytes) size (zeros (d.header.blockSize - size)) =
        store m 0 (bytes ++ zeros (d.header.blockSize - size)) := fun m hm => by
      have := @store_store_append m bytes (zeros (d.header.blockSize - size)) 0 (by rw [length_zeros]; omega)
      rwa [Nat.zero_add, hlen] at this
    refine ⟨rfl, hfit, by omega, ⟨rfl, rfl⟩, bytes, st, hlen, hn, hjoin buf (by omega), fun buf' hbuf => ?_⟩
    refine (hany buf' (by omega)).bind ?_
    dsimp only
    rw [if_pos hfit, clearFrom, if_pos (by rw [length_store_of_le (by omega)]; omega), hjoin buf' hbuf]
    exact .ret ..
  · exact h2.undefined_inv.elim

/-- The block is filled with zeros. -/
theorem clear_done {d d' : PreservationDisk} {buf out : Mem} {n : Nat} {r : Int} {s s' : Os Event}
    (h : Done (do let buf ← clearFrom buf 0 n; pure (0, buf, d)) s (r, out, d') s') :
    r = 0 ∧ n ≤ buf.length ∧ out = store buf 0 (zeros n) ∧ d' = d ∧ s' = s := by
  obtain ⟨buf1, s1, h1, h2⟩ := h.bind_inv
  obtain ⟨hin, rfl, rfl⟩ := clearFrom_done h1
  obtain ⟨heq, rfl⟩ := h2.ret_inv
  simp only [Prod.mk.injEq] at heq
  obtain ⟨rfl, rfl, rfl⟩ := heq
  exact ⟨rfl, by omega, rfl, rfl, rfl⟩

theorem done_clear {buf : Mem} {n : Nat} (hbuf : n ≤ buf.length) (d : PreservationDisk) (s : Os Event) :
    Done (do let buf ← clearFrom buf 0 n; pure (0, buf, d)) s ((0 : Int), store buf 0 (zeros n), d) s := by
  rw [clearFrom, if_pos (by omega)]
  exact .ret ..

/-- The header that `bio_read` has put over the one in memory. -/
theorem header_over {J : Junk} {bytes : Mem} (h : bytes.length = entryHeaderSize) :
    store (tabulate J.entryHeader entryHeaderSize) 0 bytes = bytes := store_all (by rw [h, length_tabulate])

/-- A search that finds a version has read the version's header last. -/
theorem searchVersion_done {ts : TimeSpec} {fuel : Nat} : ∀ {bio bio' : BufferedIo} {off off' size size' : Nat}
    {header : Mem} {s s' : Os Event}, Done (searchVersion ts fuel bio off header size) s (off', size', bio') s' →
    header.length = entryHeaderSize → off' ≠ 0 → ∃ events bytes st, s'.notes = events ++ s.notes ∧
      Event.fetched off' bytes st ∈ events ∧ bytes.length = entryHeaderSize ∧
      size' = (EntryHeader.ofBytes bytes).dataSize := by
  induction fuel with
  | zero => intro _ _ _ _ _ _ _ _ _ h; exact h.spin_inv.elim
  | succ fuel ih =>
    intro bio bio' off off' size size' header s s' h hlen hne
    rw [searchVersion] at h
    split at h
    · rename_i h0
      obtain ⟨heq, rfl⟩ := h.ret_inv
      simp only [Prod.mk.injEq] at heq
      exact absurd (heq.1.symm.trans h0) hne
    · obtain ⟨⟨header1, b1⟩, s1, h1, h2⟩ := h.bind_inv
      obtain ⟨bytes, st, rfl, hb, -, hn, -⟩ := bioReadInto_done h1
      have hover : store header 0 bytes = bytes := store_all (by rw [hb, hlen])
      simp only [hover] at h2
      split at h2
      · -- this version is old enough
        obtain ⟨heq, rfl⟩ := h2.ret_inv
        simp only [Prod.mk.injEq] at heq
        obtain ⟨rfl, rfl, rfl⟩ := heq
        exact ⟨[.fetched off bytes st], bytes, st, hn, List.mem_singleton_self _, hb, rfl⟩
      · obtain ⟨events, bytes', st', hn', hmem, hb', hsize⟩ := ih h2 hb hne
        exact ⟨events ++ [.fetched off bytes st], bytes', st', by rw [hn', hn]; simp, List.mem_append_left _ hmem, hb', hsize⟩

/-! ## An entry is read back -/

section
variable {off : Nat} {h : EntryHeader} {data : Mem} (hpad : h.pad.length = 6) (hsize : h.dataSize = data.length)
  (hshort : data.length < 2 ^ 16) (hoff : off ≠ 0) (hstop : Entry.stop ⟨off, h.toBytes ++ data⟩ < 2 ^ 64)
include hpad hsize hshort

/-- The header is read. -/
theorem Faithful.header {events : List Event} (hF : Faithful ⟨off, h.toBytes ++ data⟩ events) {bytes : Mem} {st : Bool}
    (hm : Event.fetched off bytes st ∈ events) (hb : bytes.length = entryHeaderSize) :
    (EntryHeader.ofBytes bytes).dataSize = data.length := by
  have hlen := EntryHeader.length_padded hpad
  have hbytes := hF off bytes st hm ⟨Nat.le_refl _, by
    simp only [Entry.stop, List.length_append]; omega⟩
  have hpart : Entry.part ⟨off, h.toBytes ++ data⟩ off bytes.length = h.toBytes := by
    rw [hb, ← hlen]
    simp only [Entry.part, Nat.sub_self]
    rw [slice_append_left (by omega), slice_all]
  obtain ⟨-, -, -, hfield, -⟩ := EntryHeader.slice_toBytes hpad
  rw [hbytes, hpart]
  simp only [EntryHeader.ofBytes, hfield]
  rw [hsize]
  exact unle_le hshort

include hstop

omit hsize hshort in
/-- The payload is read. -/
theorem Faithful.payload {events : List Event} (hF : Faithful ⟨off, h.toBytes ++ data⟩ events) {bytes : Mem} {st : Bool}
    (hm : Event.fetched (u64 (off + entryHeaderSize)) bytes st ∈ events) (hb : bytes.length = data.length) :
    bytes = data := by
  have hlen := EntryHeader.length_padded hpad
  simp only [Entry.stop, List.length_append, hlen] at hstop
  rw [u64_of_lt (by omega)] at hm
  have hbytes := hF _ bytes st hm ⟨by simp only; omega, by
    simp only [Entry.stop, List.length_append]; omega⟩
  rw [hbytes, hb]
  simp only [Entry.part, Nat.add_sub_cancel_left]
  have := @slice_append_right h.toBytes data 0 data.length
  rwa [hlen, Nat.add_zero, slice_all] at this

include hoff

/-- **`read_latest_block`** gives the payload and zeros behind it. -/
theorem readLatestBlock_done {J : Junk} {d d' : PreservationDisk} {buf out : Mem} {block : Nat} {r : Int} {s s' : Os Event}
    {events : List Event} (hindex : d.indexTable[block]? = some off)
    (hd : Done (readLatestBlock J d buf block) s (r, out, d') s') (hn : s'.notes = events ++ s.notes)
    (hF : Faithful ⟨off, h.toBytes ++ data⟩ events) : r = 0 ∧ data.length ≤ d.header.blockSize ∧
      d.header.blockSize ≤ buf.length ∧ out = store buf 0 (data ++ zeros (d.header.blockSize - data.length)) := by
  unfold readLatestBlock indexAt at hd
  rw [hindex] at hd
  simp only [Prog.pure_eq, Prog.bind_eq, Prog.ret_bind, if_neg hoff] at hd
  obtain ⟨⟨header, b1⟩, s1, h1, h2⟩ := hd.bind_inv
  obtain ⟨bytes, st, rfl, hb, -, hn1, -⟩ := bioReadInto_done h1
  simp only [header_over hb] at h2
  split at h2
  · rename_i h0
    obtain ⟨rfl, hbuf, rfl, -, rfl⟩ := clear_done h2
    obtain rfl : [Event.fetched off bytes st] = events := List.append_cancel_right (hn1.symm.trans hn)
    rw [hF.header hpad hsize hshort (List.mem_singleton_self _) hb] at h0
    rw [List.eq_nil_of_length_eq_zero h0]
    exact ⟨rfl, Nat.zero_le _, hbuf, rfl⟩
  · obtain ⟨rfl, hfit, hbuf, -, got, st', hgot, hn2, rfl, -⟩ := readPayload_done h2
    have hevents : [Event.fetched (u64 (off + entryHeaderSize)) got st', .fetched off bytes st] ++ s.notes =
        events ++ s.notes := by rw [← hn, hn2, hn1]; rfl
    obtain rfl := List.append_cancel_right hevents
    have hfield := hF.header hpad hsize hshort (List.mem_cons_of_mem _ (List.mem_singleton_self _)) hb
    rw [hfield] at hfit hgot ⊢
    rw [hF.payload hpad hstop List.mem_cons_self hgot]
    exact ⟨rfl, hfit, hbuf, rfl⟩

/-- **`read_current_block`** gives the payload and zeros behind it. -/
theorem readCurrentBlock_done {J : Junk} {fuel : Nat} {d d' : PreservationDisk} {buf out : Mem} {block : Nat} {r : Int}
    {s s' : Os Event} {events : List Event} (hindex : d'.indexTable[block]? = some off)
    (hcache : ∀ bits, d.indexCacheEnable[block / 8]? = some bits → bits &&& cacheBit block ≠ 0 →
      d.cachedDataSize[block]? = some data.length)
    (hd : Done (readCurrentBlock J fuel d buf block) s (r, out, d') s') (hn : s'.notes = events ++ s.notes)
    (hF : Faithful ⟨off, h.toBytes ++ data⟩ events) : r = 0 ∧ data.length ≤ d.header.blockSize ∧
      d.header.blockSize ≤ buf.length ∧ out = store buf 0 (data ++ zeros (d.header.blockSize - data.length)) := by
  obtain ⟨first, s1, h1, h2⟩ := hd.bind_inv
  obtain ⟨hfirst, rfl⟩ := indexAt_done h1
  split at h2
  · rename_i bits cached hbits hcached
    obtain ⟨⟨o, size, d1⟩, s2, h3, h4⟩ := h2.bind_inv
    -- the search and the cache give the same
    have hfound : d1.header = d.header ∧ d1.indexTable[block]? = some o ∧ ∃ found, s2.notes = found ++ s1.notes ∧
        (o = off → Faithful ⟨off, h.toBytes ++ data⟩ found → size = data.length) := by
      split at h3
      · obtain ⟨⟨o1, size1, b1⟩, s3, h5, h6⟩ := h3.bind_inv
        obtain ⟨heq, rfl⟩ := h6.note_inv.ret_inv
        simp only [Prod.mk.injEq] at heq
        obtain ⟨rfl, rfl, rfl⟩ := heq
        have hlt : block < d.indexTable.length := (List.getElem?_eq_some_iff.1 hfirst).1
        obtain ⟨seen, hseen⟩ := h5.elim fun _ => run_notes
        refine ⟨rfl, by simp [hlt], .cached block o1 (size1 % 2 ^ 16) :: seen, by simp [hseen], ?_⟩
        rintro rfl hF'
        obtain ⟨events', bytes, st, hn', hm, hb, rfl⟩ := searchVersion_done h5 (length_tabulate _ _) hoff
        obtain rfl := List.append_cancel_right (hseen.symm.trans hn')
        exact hF'.header hpad hsize hshort (List.mem_cons_of_mem _ hm) hb
      · rename_i hbit
        obtain ⟨heq, rfl⟩ := h3.ret_inv
        simp only [Prod.mk.injEq] at heq
        obtain ⟨rfl, rfl, rfl⟩ := heq
        refine ⟨rfl, hfirst, [], rfl, fun _ _ => ?_⟩
        have := hcache bits hbits hbit
        rw [hcached] at this
        exact Option.some.inj this
    obtain ⟨hheader, htable, found, hfoundNotes, hfoundSize⟩ := hfound
    dsimp only at h4
    split at h4
    · obtain ⟨rfl, hfit, hbuf, ⟨hkeep, -⟩, got, st', hgot, hn2, rfl, -⟩ := readPayload_done h4
      rw [hkeep, htable] at hindex
      obtain rfl := Option.some.inj hindex
      have hevents : (Event.fetched (u64 (o + entryHeaderSize)) got st' :: found) ++ s1.notes = events ++ s1.notes := by
        rw [← hn, hn2, hfoundNotes]; rfl
      obtain rfl := List.append_cancel_right hevents
      rw [hheader] at hfit hbuf ⊢
      obtain rfl := hfoundSize rfl (hF.mono fun _ => List.mem_cons_of_mem _)
      rw [hF.payload hpad hstop List.mem_cons_self hgot]
      exact ⟨rfl, hfit, hbuf, rfl⟩
    · rename_i hnone
      obtain ⟨rfl, hbuf, rfl, rfl, rfl⟩ := clear_done h4
      rw [htable] at hindex
      obtain rfl := Option.some.inj hindex
      obtain rfl := List.append_cancel_right (hfoundNotes.symm.trans hn)
      obtain rfl := hfoundSize rfl hF
      have h0 : data.length = 0 := by
        by_contra hpos
        exact hnone ⟨hoff, by omega⟩
      rw [hheader] at hbuf ⊢
      rw [List.eq_nil_of_length_eq_zero h0]
      exact ⟨rfl, Nat.zero_le _, hbuf, rfl⟩
  · exact h2.undefined_inv.elim

end

/-! ## Entries in the write buffer -/

/-- The entry lies in the write buffer. -/
structure Buffered (b : BufferedIo) (e : Entry) : Prop where
  start : b.nextOffset ≤ e.off
  inside : e.off - b.nextOffset + e.bytes.length ≤ b.buffer.length
  holds : slice b.buffer (e.off - b.nextOffset) e.bytes.length = e.bytes

section
variable {b : BufferedIo} {e : Entry} {s : Os Event}

/-- A `bio_read` from the write buffer gives the entry's bytes. -/
theorem Buffered.bioReadInto (h : Buffered b e) {pos size : Nat} (hc : e.Covers pos size) {buf : Mem}
    (hbuf : size ≤ buf.length) : Done (bioReadInto b pos buf size) s (store buf 0 (e.part pos size), b)
      { s with notes := .fetched pos (e.part pos size) false :: s.notes } := by
  have hlen := Entry.length_part hc
  obtain ⟨h1, h2⟩ := hc
  have hstart := h.start
  have hinside := h.inside
  rw [Entry.stop] at h2
  have hpart : slice b.buffer (pos - b.nextOffset) size = e.part pos size := by
    rw [Entry.part, ← congrArg (slice · (pos - e.off) size) h.holds, slice_slice (by omega)]
    congr 1
    omega
  have hrun := bioRead_buffer b pos size (by omega) (by omega)
  rw [hpart] at hrun
  unfold LogDrive.bioReadInto
  rw [hrun]
  refine .of_step rfl ?_
  simp only [Prog.bind, hlen, if_pos hbuf]
  exact .ret _ _

/-- `readPayload` ends when the payload lies in the write buffer. -/
theorem Buffered.readPayload {d : PreservationDisk} (h : Buffered d.bio e) {off size : Nat}
    (hc : e.Covers (off + entryHeaderSize) size) (hoff : off + entryHeaderSize < 2 ^ 64) (hfit : size ≤ d.header.blockSize)
    {buf : Mem} (hbuf : d.header.blockSize ≤ buf.length) : ∃ out,
      Done (readPayload d buf off size) s (0, out, d)
        { s with notes := .fetched (off + entryHeaderSize) (e.part (off + entryHeaderSize) size) false :: s.notes } := by
  have hread := h.bioReadInto (s := s) hc (Nat.le_trans hfit hbuf)
  have hlen : (store buf 0 (e.part (off + entryHeaderSize) size)).length = buf.length :=
    length_store_of_le (by rw [Entry.length_part hc]; omega)
  refine ⟨store (store buf 0 (e.part (off + entryHeaderSize) size)) size (zeros (d.header.blockSize - size)), ?_⟩
  unfold LogDrive.readPayload
  rw [u64_of_lt hoff]
  refine .bind hread ?_
  simp only [if_pos hfit, clearFrom]
  rw [if_pos (by omega)]
  exact .ret ..

variable {head : EntryHeader} (hpad : head.pad.length = 6) {payload : Mem} (hsize : head.dataSize = payload.length)
variable (hpos : payload ≠ []) (hshort : payload.length < 2 ^ 16) {off : Nat} (hoff : off ≠ 0)
include hpad hsize hpos hshort hoff

/-- `read_latest_block` ends for an entry that lies in the write buffer, and its reads are faithful. -/
theorem Buffered.readLatestBlock {d : PreservationDisk} (h : Buffered d.bio ⟨off, head.toBytes ++ payload⟩)
    (hstop : off + 32 + payload.length < 2 ^ 64) {block : Nat} (hindex : d.indexTable[block]? = some off)
    (hfit : payload.length ≤ d.header.blockSize) {buf : Mem} (hbuf : d.header.blockSize ≤ buf.length) (J : Junk) :
    ∃ out events, Done (readLatestBlock J d buf block) s (0, out, d) { s with notes := events ++ s.notes } ∧
      Faithful ⟨off, head.toBytes ++ payload⟩ events := by
  have hhead := EntryHeader.length_padded hpad
  have hlen : payload.length ≠ 0 := fun h0 => hpos (List.eq_nil_of_length_eq_zero h0)
  have hc1 : Entry.Covers ⟨off, head.toBytes ++ payload⟩ off entryHeaderSize :=
    ⟨Nat.le_refl _, by simp only [Entry.stop, List.length_append]; omega⟩
  have hc2 : Entry.Covers ⟨off, head.toBytes ++ payload⟩ (off + entryHeaderSize) payload.length :=
    ⟨by simp only; omega, by simp only [Entry.stop, List.length_append]; omega⟩
  have hF : Faithful ⟨off, head.toBytes ++ payload⟩
      [.fetched (off + entryHeaderSize)
          (Entry.part ⟨off, head.toBytes ++ payload⟩ (off + entryHeaderSize) payload.length) false,
        .fetched off (Entry.part ⟨off, head.toBytes ++ payload⟩ off entryHeaderSize) false] := by
    intro pos bytes st hm _
    simp only [List.mem_cons, Event.fetched.injEq, List.not_mem_nil, or_false] at hm
    obtain ⟨rfl, rfl, rfl⟩ | ⟨rfl, rfl, rfl⟩ := hm
    · rw [Entry.length_part hc2]
    · rw [Entry.length_part hc1]
  have hfield := hF.header hpad hsize hshort (List.mem_cons_of_mem _ List.mem_cons_self) (Entry.length_part hc1)
  have hcopy : store (tabulate J.entryHeader entryHeaderSize) 0
      (Entry.part ⟨off, head.toBytes ++ payload⟩ off entryHeaderSize) =
      Entry.part ⟨off, head.toBytes ++ payload⟩ off entryHeaderSize :=
    store_all (by rw [Entry.length_part hc1, length_tabulate])
  have hfirst : Done (indexAt d block) s off s := by
    rw [indexAt, hindex]
    exact .ret ..
  have hheader := h.bioReadInto (s := s) hc1 (Nat.le_of_eq (length_tabulate J.entryHeader entryHeaderSize).symm)
  obtain ⟨out, hpayload⟩ := h.readPayload (s := { s with notes := .fetched off _ false :: s.notes }) hc2
    (by simp only [entryHeaderSize]; omega) hfit hbuf
  refine ⟨out, _, ?_, hF⟩
  unfold LogDrive.readLatestBlock
  refine hfirst.bind ?_
  rw [if_neg hoff]
  refine hheader.bind ?_
  simp only [hcopy, hfield, if_neg hlen]
  exact hpayload
end

/-! ## Blocks -/

section
variable {disk : PreservationDisk} {data : Mem}

/-- A block is not made longer. -/
theorem getActualDataSize_le (hblock : disk.header.blockSize % 512 = 0) :
    getActualDataSize disk data ≤ disk.header.blockSize := actualDataSize_le_size (by omega)

/-- The size fits the `unsigned short`. -/
theorem getActualDataSize_short (hblock : disk.header.blockSize % 512 = 0) (hmax : disk.header.blockSize ≤ defaultBlockSize) :
    getActualDataSize disk data % 2 ^ 16 = getActualDataSize disk data := by
  have := @getActualDataSize_le disk data hblock
  simp only [defaultBlockSize] at hmax
  omega

variable (hblock : disk.header.blockSize % 512 = 0) (hdata : disk.header.blockSize ≤ data.length)
include hblock hdata

theorem length_take_actual : (data.take (getActualDataSize disk data)).length = getActualDataSize disk data := by
  have := @getActualDataSize_le disk data hblock
  rw [List.length_take]
  omega

theorem take_getActualDataSize : data.take (getActualDataSize disk data) ++
    zeros (disk.header.blockSize - getActualDataSize disk data) = data.take disk.header.blockSize :=
  take_actualDataSize (by omega) hdata

/-- What a reader gives for the trimmed entry is the block. -/
theorem rebuilt_of_filled {buf out : Mem} {r : Int}
    (h : r = 0 ∧ (data.take (getActualDataSize disk data)).length ≤ disk.header.blockSize ∧
      disk.header.blockSize ≤ buf.length ∧ out = store buf 0 (data.take (getActualDataSize disk data) ++
        zeros (disk.header.blockSize - (data.take (getActualDataSize disk data)).length))) :
    Rebuilt disk data buf r out := by
  obtain ⟨hr, -, -, hout⟩ := h
  rw [length_take_actual hblock hdata, take_getActualDataSize hblock hdata] at hout
  have hlen : (data.take disk.header.blockSize).length = disk.header.blockSize := by
    rw [List.length_take]; omega
  have htake := take_store buf (data.take disk.header.blockSize)
  have hdrop := drop_store buf (data.take disk.header.blockSize)
  rw [hlen, ← hout] at htake hdrop
  exact ⟨hr, htake, hdrop⟩

/-- `read_latest_block` ends for a trimmed entry that lies in the write buffer. -/
theorem Buffered.readTrimmed (hmax : disk.header.blockSize ≤ defaultBlockSize) (hpos : getActualDataSize disk data ≠ 0)
    {d : PreservationDisk} {off next block : Nat} {ts : TimeSpec} {pad buf : Mem} {s : Os Event}
    (h : Buffered d.bio (trimmedEntry disk data off ts next pad)) (hpad : pad.length = 6) (hoff : off ≠ 0)
    (hstop : (trimmedEntry disk data off ts next pad).stop < 2 ^ 64) (hindex : d.indexTable[block]? = some off)
    (hd : d.header.blockSize = disk.header.blockSize) (hbuf : d.header.blockSize ≤ buf.length) (J : Junk) :
    ∃ out events, Done (LogDrive.readLatestBlock J d buf block) s (0, out, d) { s with notes := events ++ s.notes } ∧
      Faithful (trimmedEntry disk data off ts next pad) events := by
  have hsize := length_take_actual hblock hdata
  have hmod := @getActualDataSize_short disk data hblock hmax
  have hle := @getActualDataSize_le disk data hblock
  have hne : data.take (getActualDataSize disk data) ≠ [] := fun h0 => hpos (by rw [← hsize, h0]; rfl)
  have hhead := EntryHeader.length_padded (h := ⟨ts, next, getActualDataSize disk data % 2 ^ 16, pad⟩) hpad
  simp only [Entry.stop, trimmedEntry, List.length_append, hhead, hsize, entryHeaderSize] at hstop
  exact Buffered.readLatestBlock hpad (by rw [hmod, hsize]) hne (by rw [hsize]; omega) hoff h (by rw [hsize]; omega) hindex
    (by rw [hsize, hd]; exact hle) hbuf J

/-- **Trimming is lossless and tight.** -/
theorem trim_lossless (hmax : disk.header.blockSize ≤ defaultBlockSize) : TrimLossless disk data := by
  have hsize := length_take_actual hblock hdata
  have hmod := @getActualDataSize_short disk data hblock hmax
  have hshort : (data.take (getActualDataSize disk data)).length < 2 ^ 16 := by omega
  have hfield : getActualDataSize disk data % 2 ^ 16 = (data.take (getActualDataSize disk data)).length := by rw [hsize, hmod]
  refine ⟨actualDataSize_mod _, getActualDataSize_le hblock, fun ts next pad hpad => ?_,
    fun off ts next pad hpad => ?_, take_getActualDataSize hblock hdata, ?_, fun n hn hkeep => ?_, ?_, ?_⟩
  · obtain ⟨-, -, -, h, -⟩ := EntryHeader.slice_toBytes (h := ⟨ts, next, getActualDataSize disk data % 2 ^ 16, pad⟩) hpad
    simp only [EntryHeader.ofBytes, h]
    rw [hfield, unle_le (by omega), hsize]
  · have hle := @getActualDataSize_le disk data hblock
    exact EntryHeader.copyFrom_toBytes hpad (by omega)
  · rw [getActualDataSize, actualDataSize_eq_zero, take_eq_zeros hdata]
  · refine actualDataSize_least hn fun p h1 h2 => ?_
    have hbyte := congrArg (byteAt · p) hkeep
    rw [byteAt_append_right (by rw [List.length_take]; omega), byteAt_zeros, byteAt_take h2] at hbyte
    exact hbyte.symm
  · intro J d d' buf out events block off next ts pad r s s' hd hpad hoff hstop hindex hdone hn hF
    have := readLatestBlock_done hpad hfield hshort hoff hstop hindex hdone hn hF
    rw [hd] at this
    exact rebuilt_of_filled hblock hdata this
  · intro J fuel d d' buf out events block off next ts pad r s s' hd hpad hoff hstop hindex hcache hdone hn hF
    rw [hfield] at hcache
    have := readCurrentBlock_done hpad hfield hshort hoff hstop hindex hcache hdone hn hF
    rw [hd] at this
    exact rebuilt_of_filled hblock hdata this

end

/-- A disk with one block of one sector. -/
def sectorDisk : PreservationDisk :=
  ⟨⟨512, 512, 1024, []⟩, bioInit zeroJunk false 1024, false, ⟨0, 0⟩, 1, List.replicate 64 0, [], []⟩

def sectorBlock : Mem := List.replicate 17 1 ++ zeros 495

theorem length_sectorBlock : sectorBlock.length = 512 := by
  rw [sectorBlock, List.length_append, List.length_replicate, length_zeros]

/-- 17 bytes are kept as 32. -/
theorem sectorBlock_size : getActualDataSize sectorDisk sectorBlock = 32 := by
  have hmod := @actualDataSize_mod sectorBlock 512
  have hle : actualDataSize sectorBlock 512 ≤ 32 := actualDataSize_least (by decide) fun p h1 _ => by
    rw [sectorBlock, byteAt_append_right (by rw [List.length_replicate]; omega), byteAt_zeros]
  have hge : 16 < actualDataSize sectorBlock 512 := by
    by_contra hno
    have hbyte := byteAt_actualDataSize (show actualDataSize sectorBlock 512 ≤ 16 by omega) (by decide)
    revert hbyte
    decide
  exact show actualDataSize sectorBlock 512 = 32 by omega

/-- The entry of the block, at the first offset of the log. -/
def sectorEntry : Entry := trimmedEntry sectorDisk sectorBlock 1024 ⟨1, 0⟩ 0 (zeros 6)

theorem length_sectorEntry : sectorEntry.bytes.length = 64 := by
  simp only [sectorEntry, trimmedEntry, sectorBlock_size]
  rw [List.length_append, EntryHeader.length_padded rfl, List.length_take, length_sectorBlock]
  rfl

theorem sectorEntry_stop : sectorEntry.stop = 1088 := by
  rw [Entry.stop, length_sectorEntry]
  rfl

/-- The disk after the block has been logged. -/
def sectorLogged : PreservationDisk :=
  { sectorDisk with
    bio := { sectorDisk.bio with buffer := store sectorDisk.bio.buffer 0 sectorEntry.bytes, bufferPos := 64 }
    indexTable := 1024 :: List.replicate 63 0 }

theorem sectorLogged_buffered : Buffered sectorLogged.bio sectorEntry := by
  have hin : sectorDisk.bio.buffer.length = bufferSize := by simp [sectorDisk, bioInit]
  have hlen := length_sectorEntry
  have hoff : sectorEntry.off - sectorLogged.bio.nextOffset = 0 := rfl
  have hbuffer : sectorLogged.bio.buffer = store sectorDisk.bio.buffer 0 sectorEntry.bytes := rfl
  refine ⟨Nat.le_refl _, ?_, ?_⟩
  · rw [hoff, hbuffer, length_store_of_le (by rw [hin, hlen, bufferSize_eq]; decide), hin, hlen, bufferSize_eq]
    decide
  · rw [hoff, hbuffer]
    exact take_store ..

/-- `read_latest_block` ends there. -/
theorem sectorLogged_read (s : Os Event) : ∃ out events,
    Done (readLatestBlock zeroJunk sectorLogged (zeros 512) 0) s (0, out, sectorLogged) { s with notes := events ++ s.notes } ∧
      Faithful sectorEntry events :=
  Buffered.readTrimmed (by decide) (by rw [length_sectorBlock]; decide) (by decide) (by rw [sectorBlock_size]; decide)
    sectorLogged_buffered (length_zeros 6) (by decide) (show sectorEntry.stop < 2 ^ 64 by rw [sectorEntry_stop]; decide)
    rfl rfl (by rw [length_zeros]; decide) zeroJunk

/-- 17 bytes are kept as 32, and `read_latest_block` gives the block back. -/
theorem trim_lossless_sector : TrimLossless sectorDisk sectorBlock ∧
    ∃ out s', Done (readLatestBlock zeroJunk sectorLogged (zeros 512) 0) ⟨[], 0, []⟩ (0, out, sectorLogged) s' ∧
      out.take 512 = sectorBlock := by
  have h : TrimLossless sectorDisk sectorBlock :=
    trim_lossless (by decide) (by rw [length_sectorBlock]; decide) (by decide)
  obtain ⟨out, events, hdone, hF⟩ := sectorLogged_read ⟨[], 0, []⟩
  have hstop : sectorEntry.stop < 2 ^ 64 := by
    rw [sectorEntry_stop]
    decide
  have hR := h.latest zeroJunk sectorLogged sectorLogged (zeros 512) out events 0 1024 0 ⟨1, 0⟩ (zeros 6) 0 _ _ rfl rfl
    (by decide) hstop rfl hdone rfl hF
  have hall : out.take 512 = sectorBlock.take 512 := hR.2.1
  exact ⟨h, out, _, hdone, by rw [hall, List.take_of_length_le (by rw [length_sectorBlock])]⟩

end LogDrive
