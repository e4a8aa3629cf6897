import LogDrive.Driver.Proof.FileInv

/-!
# The invariant of a writable session and `read_latest_block`

`LogInv n N old d s recs`: the session `d` on a database of `n` blocks has built the log `recs` over
the log `old` that the file had, with `next_offset` at `N`, when the session opened it. The index in
memory, the buffered log and the file on disk are tied to the records here.

`Mode L T` says what a logic has to give. Where `T` holds the bytes that are read are those that were
logged, so the contents of the blocks are known; where it does not, only the structure of the log is.
`Calm` is what a run needs to be sure to exist (the total modes).
-/

set_option autoImplicit false

open Bytes

namespace LogDrive

/-! ## Modes -/

structure Mode (L : Logic Event) (T : Prop) : Prop where
  alone : L.Alone
  safe : L.ub ∨ T
  trusts : T → ∀ past pos bytes, L.assume past (.fetched pos bytes true) →
    Coherent past (.fetched pos bytes true)
  sure : L.total → ∀ past e, Coherent past e → (∀ pos bytes, e ≠ .fetched pos bytes true) →
    L.assume past e

theorem Mode.allowing {L : Logic Event} {T : Prop} (hM : Mode L T) (A : Os Event → Mem → Prop) :
    Mode (L.allowing A) T := ⟨hM.alone, hM.safe, hM.trusts, hM.sure⟩

/-- An event that is no read. -/
def Event.Plain : Event → Prop
  | .fetched _ _ _ => False
  | _ => True

theorem Mode.plain {L : Logic Event} {T : Prop} (hM : Mode L T) {past : List Event} {e : Event} (he : e.Plain)
    (h : L.total) : L.assume past e := by
  cases e with
  | fetched pos bytes stale => exact he.elim
  | _ => exact hM.sure h _ _ trivial fun _ _ heq => by cases heq

/-- The entries of the records. -/
abbrev entries (recs : List Rec) : List Entry := recs.map fun r => r.ver.entry

structure LogInv (n N : Nat) (old : List Rec) (d : PreservationDisk) (s : Os Event)
    (recs : List Rec) : Prop where
  header : d.header.Of n N
  sectors : d.sectorsPerBlock = 8
  writable : d.readOnly = false
  tableLen : d.indexTable.length = tableBytes n / 8
  table : ∀ b < n, d.indexTable[b]? = some (headOff (chainOf recs b))
  wf : LogWF n recs
  bio : BioInv d.bio s.file (entries recs)
  start : N ≤ d.bio.nextOffset
  bound : d.bio.nextOffset ≤ offMax
  live : ∀ r ∈ recs, N ≤ r.ver.off → Logged s.notes r.ver.entry
  filled : N ≤ d.bio.filledAt
  file : FileInv n N old s.file
  new : ∃ new, recs = new ++ old ∧ ∀ r ∈ new, N ≤ r.ver.off

/-- The read buffer is not stale, and nothing has been logged but the records. -/
structure Calm (d : PreservationDisk) (s : Os Event) (recs : List Rec) : Prop where
  fresh : d.bio.Fresh
  full : ∀ e, Logged s.notes e → e ∈ entries recs

/-! ## Small facts -/

theorem mem_entries {recs : List Rec} {e : Entry} : e ∈ entries recs ↔ ∃ r ∈ recs, r.ver.entry = e :=
  List.mem_map

/-- An event that logs nothing. -/
theorem Logged.of_other {past : List Event} {e : Entry} {ev : Event} (h : Logged past e)
    (hev : ∀ off bytes, ev ≠ .logged off bytes) : Logged (ev :: past) e := by
  cases ev with
  | logged off bytes => exact absurd rfl (hev off bytes)
  | _ => exact h

theorem Logged.of_fetched {past : List Event} {e : Entry} {pos : Nat} {bytes : Mem} {st : Bool}
    (h : Logged (.fetched pos bytes st :: past) e) : Logged past e := h

theorem Version.part_head {v : Version} (h : v.WF) : v.entry.part v.off 32 = v.head.toBytes := by
  have hl : v.head.toBytes.length = 32 := EntryHeader.length_padded h.pad
  simp only [Entry.part, Version.entry, Nat.sub_self, Version.bytes]
  exact slice_mid [] _ _ rfl rfl hl

theorem Version.part_data {v : Version} (h : v.WF) :
    v.entry.part (v.off + 32) v.data.length = v.data := by
  have hl : v.head.toBytes.length = 32 := EntryHeader.length_padded h.pad
  simp only [Entry.part, Version.entry, Nat.add_sub_cancel_left, Version.bytes]
  exact slice_mid _ _ [] (by rw [List.append_nil]) hl rfl

theorem Version.ofBytes_head {v : Version} (h : v.WF) : EntryHeader.ofBytes v.head.toBytes = v.head :=
  EntryHeader.ofBytes_toBytes h.next (by have := h.size; have := h.short; omega) h.pad

/-- A block's memory with a payload at its start and zeros after it. -/
def filled (buf bytes : Mem) : Mem := store (store buf 0 bytes) bytes.length (zeros (4096 - bytes.length))

theorem byteAt_filled {buf bytes : Mem} {p : Nat} (hs : bytes.length ≤ 4096) :
    byteAt (filled buf bytes) p = if p < 4096 then byteAt bytes p else byteAt buf p := by
  rw [filled, byteAt_store, byteAt_store, length_zeros]
  by_cases h1 : p < bytes.length
  · rw [if_neg (by omega), if_pos (by omega), if_pos (by omega), Nat.sub_zero]
  · by_cases h2 : p < 4096
    · rw [if_pos (by omega), if_pos h2, byteAt_zeros, byteAt_of_le (by omega)]
    · rw [if_neg (by omega), if_neg (by omega), if_neg h2]

theorem length_filled {buf bytes : Mem} (hs : bytes.length ≤ 4096) (hl : 4096 ≤ buf.length) :
    (filled buf bytes).length = buf.length := by
  have h0 : (store buf 0 bytes).length = buf.length := length_store_of_le (by omega)
  rw [filled, length_store_of_le (by rw [length_zeros]; omega), h0]

namespace LogInv

variable {n N : Nat} {old recs : List Rec} {d : PreservationDisk} {s : Os Event}

theorem stop_le (h : LogInv n N old d s recs) {r : Rec} (hr : r ∈ recs) :
    r.ver.stop ≤ d.bio.nextOffset + d.bio.bufferPos := by
  rw [← Version.stop_entry _ (h.wf.mem hr).2.2]
  exact h.bio.top _ (mem_entries.2 ⟨r, hr, rfl⟩)

theorem stop_old (h : LogInv n N old d s recs) {r : Rec} (hr : r ∈ recs) (hlo : ¬N ≤ r.ver.off) :
    r.ver.stop ≤ N := by
  obtain ⟨new, rfl, hnew⟩ := h.new
  rcases List.mem_append.1 hr with h1 | h1
  · exact absurd (hnew r h1) hlo
  · exact h.file.below r h1

theorem mem_chain (h : LogInv n N old d s recs) {b : Nat} {v : Version} (hv : v ∈ chainOf recs b) :
    v.WF ∧ logStart n ≤ v.off ∧ v.entry ∈ entries recs ∧
      v.stop ≤ d.bio.nextOffset + d.bio.bufferPos := by
  obtain ⟨r, hr, -, rfl⟩ := mem_chainOf.1 hv
  exact ⟨(h.wf.mem hr).2.2, (h.wf.mem hr).2.1, mem_entries.2 ⟨r, hr, rfl⟩, h.stop_le hr⟩

theorem indexAt {α : Type} (h : LogInv n N old d s recs) {b : Nat} (hb : b < n)
    (f : Nat → Prog Event α) : (indexAt d b).bind f = f (headOff (chainOf recs b)) := by
  rw [LogDrive.indexAt, h.table b hb]; rfl

/-- **The chains in memory.** The index starts the chain of every block in the buffered log. -/
theorem chain (h : LogInv n N old d s recs) (b : Nat) :
    Chain (d.bio.logByte s.file) (headOff (chainOf recs b)) (chainOf recs b) :=
  h.wf.chain (fun r hr => h.bio.holds _ (mem_entries.2 ⟨r, hr, rfl⟩)) b

/-- Another buffered file with the same log. -/
theorem withBio {b' : BufferedIo} {s' : Os Event} (h : LogInv n N old d s recs)
    (hb : BioInv b' s'.file (entries recs)) (hs : SameLog d.bio b') (hf : s'.file = s.file)
    (hl : ∀ r ∈ recs, N ≤ r.ver.off → Logged s'.notes r.ver.entry) :
    LogInv n N old { d with bio := b' } s' recs := { h with
  bio := hb
  start := by simp only [hs.nextOffset]; exact h.start
  bound := by simp only [hs.nextOffset]; exact h.bound
  live := hl
  filled := Nat.le_trans h.filled hs.filledAt
  file := by rw [hf]; exact h.file }

end LogInv

/-! ## Opening a session -/

theorem FileInv.entryStop {n N : Nat} {recs : List Rec} {f : Mem} (h : FileInv n N recs f)
    {e : Entry} (he : e ∈ entries recs) : e.stop ≤ N ∧ e.stop ≤ f.length ∧ Holds (byteAt f) e.off e.bytes := by
  obtain ⟨r, hr, rfl⟩ := mem_entries.1 he
  rw [Version.stop_entry _ (h.wf.mem hr).2.2]
  exact ⟨h.below r hr, h.inFile r hr, h.holds r hr⟩

/-- A session that has just opened the database. -/
theorem Opened.logInv {n N : Nat} {recs : List Rec} {J : Junk} {d : PreservationDisk} {s s' : Os Event}
    (h : Opened J false n N s.file d) (hd : FileInv n N recs s.file) (hf : s'.file = s.file)
    : LogInv n N recs d s' recs := by
  have hbio : d.bio = bioInit J false N := by rw [h.disk]; simp only [openedDisk, h.header.nextOffset]
  exact {
    header := h.header
    sectors := by rw [h.disk]; rfl
    writable := by rw [h.disk]; rfl
    tableLen := h.tableLen
    table := fun b hb => by rw [h.table b hb, fileIndex, hd.index b hb]
    wf := hd.wf
    bio := by
      rw [hbio, hf]
      exact bioInit_inv hd.aligned (by have := hd.bound; unfold offMax at this; omega)
        hd.wf.sortedEntries (fun e he => (hd.entryStop he).1) (fun e he => (hd.entryStop he).2.1)
        (fun e he => (hd.entryStop he).2.2)
    start := by rw [hbio]; exact Nat.le_refl _
    bound := by rw [hbio]; exact hd.bound
    live := fun r hr hlo => by
      have := hd.below r hr
      rw [Version.stop, entryHeaderSize] at this
      omega
    filled := by rw [hbio]; exact Nat.le_refl _
    file := by rw [hf]; exact hd
    new := ⟨[], rfl, fun _ h => absurd h List.not_mem_nil⟩ }

/-! ## Reading a part of a version -/

section
variable {L : Logic Event} {T : Prop} (hM : Mode L T)
variable {n N : Nat} {old recs : List Rec} {d : PreservationDisk} {s : Os Event}
include hM

/-- What reads leave of the session. -/
structure SameSession (d : PreservationDisk) (s : Os Event) (recs : List Rec) (d' : PreservationDisk)
    (s' : Os Event) : Prop where
  disk : d' = { d with bio := d'.bio }
  log : SameLog d.bio d'.bio
  file : s'.file = s.file
  calm : Calm d s recs → Calm d' s' recs

omit hM in
theorem SameSession.rfl : SameSession d s recs d s := ⟨Eq.refl _, .rfl, Eq.refl _, id⟩

omit hM in
theorem SameSession.trans {d' d'' : PreservationDisk} {s' s'' : Os Event}
    (h : SameSession d s recs d' s') (h' : SameSession d' s' recs d'' s'') :
    SameSession d s recs d'' s'' where
  disk := by
    have := h'.disk
    rw [h.disk] at this
    exact this
  log := h.log.trans h'.log
  file := h'.file.trans h.file
  calm hc := h'.calm (h.calm hc)

/-- `bio_read` of `size` bytes at `pos`, inside a version where it matters. -/
theorem wp_fetch (hI : LogInv n N old d s recs) {pos size : Nat} {buf : Mem}
    (hc : L.ub ∨ size ≤ 4128 ∧ size ≤ buf.length ∧ ∃ r ∈ recs, r.ver.entry.Covers pos size)
    (ht : L.total → Calm d s recs) :
    wp L (bioReadInto d.bio pos buf size) (fun r s' => ∃ bytes, r.1 = store buf 0 bytes ∧
      bytes.length = size ∧ size ≤ buf.length ∧
      (T → ∀ r' ∈ recs, r'.ver.entry.Covers pos size → bytes = r'.ver.entry.part pos size) ∧
      LogInv n N old { d with bio := r.2 } s' recs ∧
      SameSession d s recs { d with bio := r.2 } s') s := by
  unfold bioReadInto
  have hin : L.ub ∨ size ≤ 4128 ∧ ∃ e ∈ entries recs, e.Covers pos size := hc.imp_right fun h => ⟨h.1, by
    obtain ⟨r, hr, hcov⟩ := h.2.2
    exact ⟨_, mem_entries.2 ⟨r, hr, rfl⟩, hcov⟩⟩
  have hread := wp_bioRead hM.alone hI.bio hin
    (fun h => ⟨(ht h).fresh, hI.bound, fun bytes hlen hb => hM.sure h _ _
      (fun e he hcov => by
        rw [hlen] at hcov ⊢
        exact hb e ((ht h).full e he) hcov) nofun⟩)
  refine wp_seq hread ?_
  rintro ⟨got, bio'⟩ s' ⟨bytes, st, rfl, ha, hF⟩
  have hnotes := hF.notes
  have hright : T → ∀ r' ∈ recs, r'.ver.entry.Covers pos size → bytes = r'.ver.entry.part pos size := by
    intro hT r' hr' hcov
    cases st with
    | false => exact hF.right rfl _ (mem_entries.2 ⟨r', hr', rfl⟩) hcov
    | true =>
      have hfrom : N ≤ pos := Nat.le_trans hI.filled (hF.isStale rfl).2.2
      by_cases hlo : N ≤ r'.ver.off
      · have := hM.trusts hT _ _ _ ha r'.ver.entry (hI.live r' hr' hlo)
        rw [hF.length] at this
        exact this hcov
      · -- an old version ends at `N`, so the range is empty
        have hold := hI.stop_old hr' hlo
        have hstop := hcov.2
        rw [Version.stop_entry _ (hI.wf.mem hr').2.2] at hstop
        have h0 : size = 0 := by omega
        have hnil : bytes = [] := List.length_eq_zero_iff.1 (hF.length.trans h0)
        rw [hnil, h0]
        exact (slice_zero _ _).symm
  have hinv : LogInv n N old { d with bio := bio' } s' recs := hI.withBio hF.inv hF.log hF.file
    fun r hr => by rw [hnotes]; exact hI.live r hr
  have hcalm : Calm d s recs → Calm { d with bio := bio' } s' recs := fun hc =>
    ⟨(hF.fresh hc.fresh).1, fun e he => hc.full e (by rw [hnotes] at he; exact he.of_fetched)⟩
  simp only
  by_cases hlen : bytes.length ≤ buf.length
  · rw [if_pos hlen]
    have hl := hF.length
    exact ⟨bytes, rfl, hl, by omega, hright, hinv, rfl, hF.log, hF.file, hcalm⟩
  · rw [if_neg hlen]
    exact hc.resolve_right fun h => hlen (by rw [hF.length]; exact h.2.1)

end

/-! ## Reading a block -/

section
variable {L : Logic Event} {d : PreservationDisk} {s : Os Event} {buf : Mem}

theorem wp_clearBlock {Q : Int × Mem × PreservationDisk → Os Event → Prop}
    (hb : d.header.blockSize = 4096) (hbuf : 4096 ≤ buf.length) (h : Q (0, filled buf [], d) s) :
    wp L (do let buf ← clearFrom buf 0 d.header.blockSize; pure (0, buf, d)) Q s := by
  rw [hb, clearFrom, if_pos (by omega)]
  simpa [filled] using h

theorem wp_readPayload {offset dataSize : Nat} {Q : Int × Mem × PreservationDisk → Os Event → Prop}
    (hb : d.header.blockSize = 4096) (hbuf : 4096 ≤ buf.length)
    (h : wp L (bioReadInto d.bio (u64 (offset + entryHeaderSize)) buf dataSize)
      (fun r s' => ∃ bytes, r.1 = store buf 0 bytes ∧ bytes.length = dataSize ∧
        (L.ub ∨ dataSize ≤ 4096) ∧
        (dataSize ≤ 4096 → Q (0, filled buf bytes, { d with bio := r.2 }) s')) s) :
    wp L (readPayload d buf offset dataSize) Q s := by
  unfold readPayload
  refine wp_seq h ?_
  rintro ⟨buf', bio⟩ s' ⟨bytes, rfl, rfl, hub, hq⟩
  simp only [hb]
  by_cases hle : bytes.length ≤ 4096
  · have hl : (store buf 0 bytes).length = buf.length := length_store_of_le (by omega)
    rw [if_pos hle, clearFrom, if_pos (by omega)]
    exact hq hle
  · rw [if_neg hle]
    exact hub.resolve_right hle

end

/-- What reading the block `b` with versions `vs` into `buf` gives; `known` is whether its bytes are
those that were logged. -/
structure BlockRead (known : Prop) (vs : List Version) (buf : Mem) (r : Int) (out : Mem) : Prop where
  code : r = 0
  length : out.length = buf.length
  rest : ∀ p, 4096 ≤ p → byteAt out p = byteAt buf p
  content : known → ∀ p < 4096, byteAt out p = contentOf vs p

theorem BlockRead.of_filled {known : Prop} {vs : List Version} {buf bytes : Mem}
    (hs : bytes.length ≤ 4096) (hl : 4096 ≤ buf.length)
    (h : known → ∀ p < 4096, byteAt bytes p = contentOf vs p) :
    BlockRead known vs buf 0 (filled buf bytes) where
  code := rfl
  length := length_filled hs hl
  rest p hp := by rw [byteAt_filled hs, if_neg (by omega)]
  content hk p hp := by rw [byteAt_filled hs, if_pos hp, h hk p hp]

section
variable {L : Logic Event} {T : Prop} (hM : Mode L T)
variable {n N : Nat} {old recs : List Rec} {d : PreservationDisk} {s : Os Event}
include hM

/-- **`read_latest_block`** gives the newest version of the block, filled up with zeros. -/
theorem wp_readLatestBlock (hI : LogInv n N old d s recs) {b : Nat} (hb : b < n) {J : Junk} {buf : Mem}
    (hbuf : 4096 ≤ buf.length) (ht : L.total → Calm d s recs) :
    wp L (readLatestBlock J d buf b) (fun r s' =>
      BlockRead (T ∨ chainOf recs b = []) (chainOf recs b) buf r.1 r.2.1 ∧
      LogInv n N old r.2.2 s' recs ∧ SameSession d s recs r.2.2 s') s := by
  have hblock := hI.header.blockSize
  unfold readLatestBlock
  rw [Prog.bind_eq, hI.indexAt hb]
  cases hvs : chainOf recs b with
  | nil =>
    rw [if_pos (show headOff [] = 0 from rfl)]
    refine wp_clearBlock hblock hbuf ⟨?_, hI, .rfl⟩
    have h0 : ∀ p < 4096, byteAt [] p = contentOf [] p := fun p _ => byteAt_nil p
    exact .of_filled (Nat.zero_le _) hbuf fun _ => h0
  | cons v vs =>
    obtain ⟨hv, hstart, hmem, hstop⟩ := hI.mem_chain (b := b) (v := v) (by rw [hvs]; exact List.mem_cons_self)
    obtain ⟨r, hr, hre⟩ := mem_entries.1 hmem
    have hlow := logStart_bounds n
    have hsmall := hI.bio.small
    have hsize := hv.size
    have hshort := hv.short
    have hstop' := Version.stop_entry v hv
    simp only [Version.stop, entryHeaderSize] at hstop hstop'
    rw [if_neg (by simp only [headOff]; omega)]
    simp only [headOff]
    have hcov : r.ver.entry.Covers v.off 32 := by
      rw [hre]; exact ⟨Nat.le_refl _, by rw [hstop']; omega⟩
    refine wp_seq (wp_fetch hM hI
      (.inr ⟨by decide, by rw [length_tabulate], r, hr, hcov⟩) ht) ?_
    rintro ⟨header, bio'⟩ s' ⟨bytes, rfl, hbl, -, hright, hI', hS⟩
    rw [store_all (by rw [length_tabulate]; exact hbl)]
    -- where the bytes are known, the header that is decoded is that of `v`
    have hhead : T → (EntryHeader.ofBytes bytes).dataSize = v.data.length := fun hT => by
      rw [hright hT r hr hcov, hre, Version.part_head hv, Version.ofBytes_head hv, hsize]
    have hknown : (T ∨ v :: vs = []) → T := fun h => h.resolve_right (List.cons_ne_nil v vs)
    generalize (EntryHeader.ofBytes bytes).dataSize = ds at hhead
    simp only
    by_cases h0 : ds = 0
    · rw [if_pos h0]
      have hzero : (T ∨ v :: vs = []) → ∀ p < 4096, byteAt [] p = contentOf (v :: vs) p := fun hT p _ => by
        rw [contentOf, byteAt_nil, byteAt_of_le (by have := hhead (hknown hT); omega)]
      refine wp_clearBlock (d := { d with bio := bio' }) hblock hbuf ⟨?_, hI', hS⟩
      exact .of_filled (Nat.zero_le _) hbuf hzero
    · rw [if_neg h0]
      have hcov' : T → r.ver.entry.Covers (v.off + 32) ds := fun hT => by
        rw [hre, hhead hT]; exact ⟨Nat.le_add_right _ _, Nat.le_of_eq hstop'.symm⟩
      refine wp_readPayload (d := { d with bio := bio' }) hblock hbuf ?_
      rw [u64_of_lt (by simp only [entryHeaderSize]; omega)]
      refine wp_mono (wp_fetch hM hI' ?_ fun h => hS.calm (ht h)) ?_
      · refine hM.safe.imp_right fun hT => ⟨?_, ?_, r, hr, hcov' hT⟩
        · have := hhead hT; omega
        · have := hhead hT; omega
      · rintro ⟨out, bio''⟩ s'' ⟨data, rfl, hdl, -, hright', hI'', hS'⟩
        refine ⟨data, rfl, hdl, ?_, fun hle => ⟨?_, hI'', hS.trans hS'⟩⟩
        · exact hM.safe.imp_right fun hT => by have := hhead hT; omega
        · refine .of_filled (by omega) hbuf fun hT p _ => ?_
          have hT := hknown hT
          have h1 := hright' hT r hr (hcov' hT)
          rw [hhead hT, hre, Version.part_data hv] at h1
          rw [contentOf, h1]

end

end LogDrive
