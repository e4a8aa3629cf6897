import LogDrive.Driver.Proof.Records
import LogDrive.Driver.Proof.BioInv

/-!
# The invariant of a database file and `open_disk`

`FileInv n N recs f`: the file `f` is a database of `n` blocks whose header says that the log ends
at `N` and whose index starts the chains of `recs`. It holds of a file just laid out
(`newDatabase_inv`) and at every point where a session's process may be killed.
-/

set_option autoImplicit false

open Bytes

namespace LogDrive

structure FileInv (n N : Nat) (recs : List Rec) (f : Mem) : Prop where
  /-- Just laid out, or with something written behind the header. -/
  shape : f.length = 24 ∨ 512 ≤ f.length
  header : Holds (byteAt f) 0 (headerBytes n N)
  index : ∀ b < n, numAt (byteAt f) (512 + 8 * b) 8 = headOff (chainOf recs b)
  start : logStart n ≤ N
  aligned : N % 512 = 0
  bound : N ≤ offMax
  wf : LogWF n recs
  below : ∀ r ∈ recs, r.ver.stop ≤ N
  inFile : ∀ r ∈ recs, r.ver.stop ≤ f.length
  holds : ∀ r ∈ recs, Holds (byteAt f) r.ver.off r.ver.bytes

/-- The index entry of a block in a file. -/
def fileIndex (f : Mem) (b : Nat) : Nat := numAt (byteAt f) (512 + 8 * b) 8

/-- `next_offset` in the header of a file. -/
def fileNext (f : Mem) : Nat := numAt (byteAt f) 16 8

theorem logStart_bounds (n : Nat) : 512 + 8 * n ≤ logStart n ∧ logStart n ≤ 1023 + 8 * n ∧
    logStart n % 512 = 0 := by
  have := tableBytes_bounds n; unfold logStart; omega

theorem newDatabase_inv {n : Nat} (hn : n < 2 ^ 31) :
    FileInv n (logStart n) [] (newDatabase n).file := by
  have hl := logStart_bounds n
  have hf : (newDatabase n).file = headerBytes n (logStart n) := mkimage_eq n
  rw [hf]
  exact {
    shape := .inl (length_headerBytes ..)
    header := fun i _ => by rw [Nat.zero_add]
    index := fun b _ => numAt_eq_zero fun i _ _ => byteAt_of_le (by rw [length_headerBytes]; omega)
    start := Nat.le_refl _
    aligned := hl.2.2
    bound := by unfold offMax; omega
    wf := trivial
    below := nofun
    inFile := nofun
    holds := nofun }

namespace FileInv

variable {n N : Nat} {recs : List Rec} {f : Mem}

theorem length_ge (h : FileInv n N recs f) : 24 ≤ f.length := by
  rcases h.shape with h | h <;> omega

theorem next (h : FileInv n N recs f) : fileNext f = N := by
  have h3 := (holds_append.1 h.header).2
  simp only [List.length_append, length_le, Nat.zero_add] at h3
  have := h.bound
  exact numAt_of_holds h3 (by unfold offMax at this; omega)

/-- The chain of a block in the file. -/
theorem chain (h : FileInv n N recs f) {b : Nat} (hb : b < n) :
    Chain (byteAt f) (fileIndex f b) (chainOf recs b) := by
  rw [fileIndex, h.index b hb]
  exact h.wf.chain h.holds b

/-- The invariant depends on the header, the index and the records. -/
theorem congr {f' : Mem} (h : FileInv n N recs f) (hl : f.length ≤ f'.length)
    (hlong : f'.length = f.length ∨ 512 ≤ f'.length)
    (hb : ∀ i < N, byteAt f' i = byteAt f i) : FileInv n N recs f' := by
  have hs := logStart_bounds n
  have hst := h.start
  exact { h with
    shape := by have := h.shape; omega
    header := h.header.congr fun i _ hi => hb i (by rw [length_headerBytes] at hi; omega)
    index := fun b hbn => by
      rw [← h.index b hbn]
      exact numAt_congr fun i _ hi => hb i (by omega)
    inFile := fun r hr => Nat.le_trans (h.inFile r hr) hl
    holds := fun r hr => (h.holds r hr).congr fun i _ hi => hb i (by
      have := h.below r hr
      rw [Version.length_bytes _ (h.wf.mem hr).2.2] at hi
      unfold Version.stop entryHeaderSize at this
      omega) }

/-- More of the log has reached the file. -/
theorem extend {f' : Mem} (h : FileInv n N recs f) (hl : f.length ≤ f'.length)
    (hlong : f' = f ∨ N ≤ f'.length) (hb : ∀ i < N, byteAt f' i = byteAt f i) : FileInv n N recs f' := by
  refine h.congr hl ?_ hb
  rcases hlong with rfl | h1
  · exact .inl rfl
  · have := logStart_bounds n
    have := h.start
    exact .inr (by omega)

/-- A write behind the log. -/
theorem store {pos : Nat} {bs : Mem} (h : FileInv n N recs f) (hp : N ≤ pos) :
    FileInv n N recs (Bytes.store f pos bs) := by
  refine h.extend (le_length_store ..) ?_ fun i hi => byteAt_store_outside (.inl (by omega))
  by_cases hb : bs = []
  · subst hb; exact .inl (store_nil ..)
  · have := end_le_length_store (m := f) pos hb
    exact .inr (by omega)

end FileInv

/-! ## Opening -/

/-- The header that `open_disk` decodes. -/
def headerRead (J : Junk) (got : Mem) : DataHeader :=
  DataHeader.ofBytes (store (tabulate J.header roundUppedDataHeaderSize) 0 got)

theorem FileInv.headerRead {n N : Nat} {recs : List Rec} {f : Mem} (h : FileInv n N recs f)
    (hn : n < 2 ^ 31) (J : Junk) : (headerRead J (slice f 0 512)).Of n N := by
  have hlen : (slice f 0 512).length = min 512 f.length := length_slice ..
  have h24 := h.length_ge
  refine DataHeader.ofBytes_of hn (by have := h.bound; unfold offMax at this; omega) ?_ ?_
  · have hle : (slice f 0 512).length ≤ 512 := by omega
    rw [length_store_of_le (by rw [length_tabulate, Nat.zero_add]; exact hle), length_tabulate]
  · refine h.header.congr fun i _ hi => ?_
    rw [length_headerBytes] at hi
    rw [byteAt_store_inside (by omega) (by omega), byteAt_slice (by omega)]
    congr 1; omega

/-- The table that `open_disk` decodes from what it has read at `pos`. -/
def tableRead (n : Nat) (got : Mem) : List Nat := decodeIndex (store (zeros (tableBytes n)) 0 got)

theorem length_tableRead {n : Nat} {got : Mem} (h : got.length ≤ tableBytes n) :
    (tableRead n got).length = tableBytes n / 8 := by
  rw [tableRead, length_decodeIndex, length_store_of_le (by rw [length_zeros]; omega), length_zeros]

/-- The descriptor is at the index, or at the end of the header of a file that has no index yet. -/
theorem getElem?_tableRead {n b pos : Nat} {f : Mem} (hb : b < n)
    (hp : pos = 512 ∨ ∀ i, pos ≤ i → i < logStart n → byteAt f i = 0) (hle : 24 ≤ pos)
    (hpos : pos ≤ 512) : (tableRead n (slice f pos (tableBytes n)))[b]? = some (fileIndex f b) := by
  have ht := tableBytes_bounds n
  have hlen : (slice f pos (tableBytes n)).length = min (tableBytes n) (f.length - pos) :=
    length_slice ..
  rw [tableRead, getElem?_decodeIndex
    (by rw [length_store_of_le (by rw [length_zeros]; omega), length_zeros]; omega)]
  rw [← numAt_slice (by rw [length_store_of_le (by rw [length_zeros]; omega), length_zeros]; omega)]
  refine congrArg some (numAt_shift fun i hi => ?_)
  rw [byteAt_store]
  split
  · rename_i hin
    rw [byteAt_slice (by omega)]
    rcases hp with rfl | hz
    · congr 1; omega
    · rw [hz _ (by omega) (by unfold logStart; omega), hz _ (by omega) (by unfold logStart; omega)]
  · rename_i hout
    rw [byteAt_zeros]
    rcases hp with rfl | hz
    · rw [byteAt_of_le (by omega)]
    · rw [hz _ (by omega) (by unfold logStart; omega)]

/-- The disk that `open_disk` makes. -/
def openedDisk (J : Junk) (readOnly : Bool) (n : Nat) (h : DataHeader) (table : List Nat) :
    PreservationDisk where
  header := h
  bio := bioInit J readOnly h.nextOffset
  readOnly := readOnly
  ts := ⟨0, 0⟩
  sectorsPerBlock := 8
  indexTable := table
  indexCacheEnable := if readOnly then zeros (roundUp n 8) else []
  cachedDataSize := if readOnly then List.replicate n 0 else []

theorem openIndex_eq {J : Junk} {readOnly : Bool} {n N : Nat} {h : DataHeader} (hn : n < 2 ^ 31)
    (hh : h.Of n N) : openIndex J readOnly h = .read (tableBytes n) fun got =>
      .note .indexRead (.ret (openedDisk J readOnly n h (tableRead n (got.getD [])))) := by
  unfold openIndex
  rw [if_neg (by rw [hh.blockSize]; decide)]
  simp only [Prog.bind_eq, Prog.sysRead_bind, Prog.mark_bind, Prog.pure_eq, hh.indexTableSize hn,
    hh.blocks, openedDisk, tableRead]
  rw [hh.blockSize, show 4096 / defaultSectorSize = 8 by decide]

theorem openDisk_eq (J : Junk) (readOnly : Bool) : openDisk J readOnly = .opens fun
    | false => .ret none
    | true => .read 512 fun got => .note .headerRead
        ((openIndex J readOnly (headerRead J (got.getD []))).bind fun disk => .ret (some disk)) := by
  simp only [openDisk, Prog.bind_eq, Prog.sysOpen_bind]
  congr 1
  funext r
  cases r <;> rfl

/-- What `open_disk` finds in a database. -/
structure Opened (J : Junk) (readOnly : Bool) (n N : Nat) (f : Mem) (d : PreservationDisk) : Prop where
  header : d.header.Of n N
  disk : d = openedDisk J readOnly n d.header d.indexTable
  tableLen : d.indexTable.length = tableBytes n / 8
  table : ∀ b < n, d.indexTable[b]? = some (fileIndex f b)

/-- **`open_disk`** while others work on the file. Between the two reads they leave header, index and
log as they are (`D N recs` stays true). -/
theorem wp_openShared {L : Logic Event} {J : Junk} {readOnly : Bool} {n : Nat} {s : Os Event}
    {D : Nat → List Rec → Mem → Prop} (hn : n < 2 ^ 31) (hD : ∀ N recs f, D N recs f → FileInv n N recs f)
    (hany : ∀ N recs f f', D N recs f → L.rely s.notes f f' → ∃ N' recs', D N' recs' f')
    (hsame : ∀ N recs f f', D N recs f → L.rely (.headerRead :: s.notes) f f' →
      D N recs f' ∧ ∀ i < logStart n, byteAt f' i = byteAt f i)
    (ht : L.total → ∀ past, L.assume past .headerRead ∧ L.assume past .indexRead)
    {N0 : Nat} {recs0 : List Rec} (h0 : D N0 recs0 s.file) :
    wp L (openDisk J readOnly) (fun r s' => s'.notes = .indexRead :: .headerRead :: s.notes ∧
      ∃ N recs, D N recs s'.file ∧ ∃ d, r = some d ∧ Opened J readOnly n N s'.file d) s := by
  rw [openDisk_eq]
  intro f0 hf0 f1 hf1
  obtain ⟨N', recs', h0'⟩ := hany _ _ _ _ h0 hf0
  obtain ⟨N, recs, h1⟩ := hany _ _ _ _ h0' hf1
  have hf := hD _ _ _ h1
  have hh := hf.headerRead hn J
  have h24 := hf.length_ge
  have hlen : (slice f1 0 512).length = min 512 f1.length := length_slice ..
  simp only [Os.chunk, Os.afterRead, Option.getD_some, wp_note]
  refine ⟨fun h => (ht h _).1, fun _ => ?_⟩
  rw [openIndex_eq hn hh]
  intro f2 hf2
  obtain ⟨h2, hfront⟩ := hsame _ _ _ _ h1 hf2
  simp only [Prog.bind, wp_note]
  refine ⟨fun h => (ht h _).2, fun _ => ?_⟩
  refine ⟨rfl, N, recs, h2, _, rfl, hh, rfl, length_tableRead ?_, fun b hb => ?_⟩
  · simp only [Option.getD_some, Os.chunk, length_slice]; omega
  · simp only [Option.getD_some, Os.chunk, openedDisk]
    refine getElem?_tableRead hb ?_ (by simp only [Nat.zero_add, hlen]; omega)
      (by simp only [Nat.zero_add, hlen]; omega)
    rcases hf.shape with h | h
    · exact .inr fun i h3 h4 => (hfront i h4).trans
        (byteAt_of_le (by simp only [Nat.zero_add, hlen] at h3; omega))
    · exact .inl (by simp only [Nat.zero_add, hlen]; omega)

theorem wp_openDisk {L : Logic Event} (hL : L.Alone) {J : Junk} {readOnly : Bool} {n N : Nat}
    {recs : List Rec} {s : Os Event} (hn : n < 2 ^ 31) (hf : FileInv n N recs s.file)
    (ht : L.total → ∀ past, L.assume past .headerRead ∧ L.assume past .indexRead) :
    wp L (openDisk J readOnly) (fun r s' => s'.file = s.file ∧
      s'.notes = .indexRead :: .headerRead :: s.notes ∧
      ∃ d, r = some d ∧ Opened J readOnly n N s.file d) s := by
  refine wp_mono (wp_openShared (D := fun N' recs' f => N' = N ∧ recs' = recs ∧ f = s.file) hn ?_ ?_ ?_ ht
    ⟨rfl, rfl, rfl⟩) ?_
  · rintro _ _ _ ⟨rfl, rfl, rfl⟩; exact hf
  · rintro _ _ _ f' ⟨rfl, rfl, rfl⟩ hr; exact ⟨_, _, rfl, rfl, hL _ _ _ hr⟩
  · rintro _ _ _ f' ⟨rfl, rfl, rfl⟩ hr; rw [hL _ _ _ hr]; exact ⟨⟨rfl, rfl, rfl⟩, fun _ _ => rfl⟩
  · rintro r s' ⟨hnotes, _, _, ⟨rfl, rfl, hfile⟩, d, rfl, ho⟩
    exact ⟨hfile, hnotes, d, rfl, hfile ▸ ho⟩

end LogDrive
