import LogDrive.Driver.Proof.SafeReads

/-!
# What a file must be like to be read safely

The other way round: where a session is served, every search ended (`search_done`), at a payload that a
block can hold (`payload_done`). So among the files with a sound header whose chains do not leave the
file, those from whose index entries the search ends are the ones that are read safely (`read_safely`).
Nothing in `open_disk` or in the readers checks any of it: `not_read_safely` has a file for each way to
fail.
-/

set_option autoImplicit false

open Bytes

namespace LogDrive

variable {file : Mem} {h : DataHeader} {ts : TimeSpec}

/-! ## The offsets of a search -/

theorem SearchEnds.reached {first off : Nat} (hE : SearchEnds file h ts first) (hR : Visits file ts first off) :
    SearchEnds file h ts off := by
  induction hR with
  | here => exact hE
  | older _ h0 hb ih =>
    cases ih with
    | none => exact absurd rfl h0
    | found _ _ hb' _ => rw [hb] at hb'; cases hb'
    | older _ _ _ hnext => exact hnext

theorem SearchEnds.inFile {off : Nat} (hE : SearchEnds file h ts off) (h0 : off ≠ 0) : off + 32 ≤ file.length := by
  cases hE with
  | none => exact absurd rfl h0
  | found hin _ _ _ => exact hin
  | older hin _ _ _ => exact hin

/-- A search that goes on from a header looks at what the whole search looks at. -/
theorem Visits.next {first off : Nat} (h0 : first ≠ 0) (hb : (headAt file first).ts.before ts = false)
    (hR : Visits file ts (headAt file first).next off) : Visits file ts first off := by
  induction hR with
  | here => exact .older .here h0 hb
  | older _ h0' hb' ih => exact .older ih h0' hb'

/-! ## Served requests -/

/-- There is no write buffer to read from. -/
theorem bioRead_past {b : BufferedIo} (hB : ReadOnlyBio h file b) {pos size : Nat} (hpos : h.nextOffset ≤ pos)
    (hsize : 0 < size) {s s' : Os Event} {r : Option Mem × BufferedIo} (hd : Done (bioRead b pos size) s r s') : False := by
  have hfit : ¬pos - b.nextOffset + size ≤ b.buffer.length := by rw [hB.buffer, List.length_nil]; omega
  unfold bioRead at hd
  rw [if_pos (by rw [hB.fill.next]; exact hpos), copyFrom, if_neg hfit] at hd
  exact hd.undefined_inv

section
variable (hfile : file.length ≤ offMax)
include hfile

/-- **A search that has ended**: if what it found is empty or can be read, it is one that ends. -/
theorem search_done {fuel : Nat} : ∀ {off size : Nat} {header : Mem} {b : BufferedIo} {s s' : Os Event}
    {r : Nat × Nat × BufferedIo}, ReadOnlyBio h file b → header.length = 32 → s.file = file →
    (∀ o, Visits file ts off o → o ≠ 0 → o < h.nextOffset → o + 32 ≤ file.length) →
    Done (searchVersion ts fuel b off header size) s r s' →
    ReadOnlyBio h file r.2.2 ∧ s'.file = file ∧ (r.1 ≠ 0 → r.1 + 32 ≤ file.length) ∧
      (r.1 = 0 ∨ PayloadInside file h r.1 r.2.1 → SearchEnds file h ts off) := by
  induction fuel with
  | zero => exact fun _ _ _ _ hd => hd.spin_inv.elim
  | succ fuel ih =>
    intro off size header b s s' r hB hh hs hcut hd
    rw [searchVersion] at hd
    split at hd
    · rename_i h0
      obtain ⟨rfl, rfl⟩ := hd.ret_inv
      exact ⟨hB, hs, fun h => absurd h0 h, fun _ => h0 ▸ .none⟩
    · rename_i h0
      obtain ⟨⟨out, b'⟩, s1, hd1, hd2⟩ := hd.bind_inv
      have hoff : off < h.nextOffset := by
        obtain ⟨_, _, hdr, -⟩ := hd1.bind_inv
        by_contra hge
        exact bioRead_past hB (by omega) (by decide) hdr
      have hin := hcut off .here h0 hoff
      have hfit : 32 ≤ header.length := by omega
      obtain ⟨hlen, hout, hB', hs1⟩ := wp_done (wp_plainInto hfile hB hs hoff (by omega) (by decide) hfit) hd1
        (Assumed.of_forall (fun _ _ => trivial) _)
      simp only at hlen hout hB'
      have hall : out = slice file off 32 := by
        rw [hout hin, store_all (by rw [length_slice_of_le hin, hh])]
      have hhead : EntryHeader.ofBytes out = headAt file off := by rw [hall, headAt]
      simp only [hhead] at hd2
      cases hb : (headAt file off).ts.before ts with
      | true =>
        rw [if_pos hb] at hd2
        obtain ⟨rfl, rfl⟩ := hd2.ret_inv
        exact ⟨hB', hs1, fun _ => hin, fun hpay => .found hin hoff hb (hpay.resolve_left h0)⟩
      | false =>
        rw [if_neg (by rw [hb]; decide)] at hd2
        obtain ⟨hB2, hs2, hin2, hends⟩ := ih hB' (hlen.trans hh) hs1 (fun o ho => hcut o (ho.next h0 hb)) hd2
        exact ⟨hB2, hs2, hin2, fun hpay => .older hin hoff hb (hends hpay)⟩

/-- **A payload that has been read** can be read. -/
theorem payload_done {d : PreservationDisk} {buf : Mem} {off size : Nat} {s s' : Os Event}
    {r : Int × Mem × PreservationDisk} (hB : ReadOnlyBio h file d.bio) (hblock : d.header.blockSize = h.blockSize)
    (hin : off ≠ 0 → off + 32 ≤ file.length) (hd : Done (if off ≠ 0 ∧ size > 0 then readPayload d buf off size
      else (clearFrom buf 0 d.header.blockSize).bind fun buf => .ret (0, buf, d)) s r s') :
    off = 0 ∨ PayloadInside file h off size := by
  by_cases hne : off ≠ 0 ∧ size > 0
  · rw [if_pos hne] at hd
    have hend := hin hne.1
    simp only [offMax] at hfile
    rw [readPayload, u64_of_lt (by simp only [entryHeaderSize]; omega)] at hd
    obtain ⟨⟨out, bio⟩, s1, hd1, hd2⟩ := hd.bind_inv
    obtain ⟨_, _, hdr, -⟩ := hd1.bind_inv
    refine .inr (.inr ⟨?_, hend, ?_⟩)
    · by_contra hgt
      simp only at hd2
      rw [if_neg (by rw [hblock]; exact hgt)] at hd2
      exact hd2.undefined_inv
    · by_contra hge
      exact bioRead_past hB (by simp only [entryHeaderSize]; omega) hne.2 hdr
  · rcases Nat.eq_zero_or_pos size with h0 | h1
    · exact .inr (.inl h0)
    · exact .inl (by by_contra h0; exact hne ⟨h0, h1⟩)

/-- A block that has been read for the first time. -/
theorem block_done {d : PreservationDisk} (hD : SafeDisk file h ts d) {b : Nat} (hb : b < h.blocks) (hno : ¬d.Cached b)
    {J : Junk} {fuel : Nat} {buf : Mem} {s s' : Os Event} (hs : s.file = file) {r : Int × Mem × PreservationDisk}
    (hcut : ∀ o, Visits file ts (fileIndex file b) o → o ≠ 0 → o < h.nextOffset → o + 32 ≤ file.length)
    (hd : Done (readCurrentBlock J fuel d buf b) s r s') : SearchEnds file h ts (fileIndex file b) := by
  have hbl := hD.bitsLen
  have hsl := hD.sizesLen
  obtain ⟨bits, hbits⟩ : ∃ bits, d.indexCacheEnable[b / 8]? = some bits :=
    ⟨_, List.getElem?_eq_getElem (by omega)⟩
  obtain ⟨cached, hcached⟩ : ∃ cached, d.cachedDataSize[b]? = some cached :=
    ⟨_, List.getElem?_eq_getElem (by omega)⟩
  have hbyte : byteAt d.indexCacheEnable (b / 8) = bits := by
    simp [byteAt, List.getD_eq_getElem?_getD, hbits]
  have hbit : bits &&& cacheBit b = 0 := by
    by_contra hne
    exact hno (by rw [PreservationDisk.Cached, hbyte]; exact hne)
  obtain rfl := hD.time
  have hidx := hD.fresh b hb hno
  unfold readCurrentBlock at hd
  simp only [indexAt, hidx, hbits, hcached, Prog.bind_eq, Prog.pure_eq, Prog.ret_bind] at hd
  rw [if_pos hbit, Prog.bind_assoc] at hd
  obtain ⟨⟨off, size, bio⟩, s1, hd1, hd2⟩ := hd.bind_inv
  obtain ⟨hB, -, hin, hends⟩ := search_done hfile hD.bio (length_tabulate _ _) hs hcut hd1
  simp only [Prog.mark_bind, Prog.bind] at hd2 hB hin hends
  have hd3 := hd2.note_inv
  refine hends (payload_done hfile ?_ ?_ hin hd3)
  · exact hB
  · exact hD.blockSize

/-- **A file that is read safely**: from every index entry the search ends. The session reads the block. -/
theorem searchesEnd_of_safe (h24 : 24 ≤ file.length) (hg : (DataHeader.ofBytes file).Sound)
    (hcut : NotCutOff file (DataHeader.ofBytes file) ts) (hsafe : ReadSafely file ts) :
    SearchesEnd file (DataHeader.ofBytes file) ts := by
  intro b hb
  obtain ⟨hspb, hspb8⟩ := hg.spb_bounds
  obtain ⟨r, s, hd, hreads⟩ := hsafe zeroJunk
  obtain ⟨d, rfl, hdisk, hD, hbits, hs⟩ := wp_done (wp_openSafe h24 hg) hd (Assumed.of_forall (fun _ _ => trivial) _)
  generalize hspbe : (DataHeader.ofBytes file).blockSize / 512 = spb at *
  have hin : (⟨b * spb, spb, fun _ => 0⟩ : TdRequest).Advertised d := by
    refine ⟨hspb8, ?_⟩
    rw [pdSetDriverInfo, hdisk, hg.advertised, hspbe]
    calc b * spb + spb = (b + 1) * spb := by ring
      _ ≤ (DataHeader.ofBytes file).blocks * spb := Nat.mul_le_mul_right _ hb
  obtain ⟨bound, hall⟩ := hreads d rfl [⟨b * spb, spb, fun _ => 0⟩] (by simpa using hin)
  obtain ⟨replies, d', s', hd, -⟩ := hall bound (Nat.le_refl _)
  obtain ⟨_, _, hd1, -⟩ := hd.bind_inv
  unfold pdRead at hd1
  simp only [hD.sectors, hspbe] at hd1
  rw [if_neg (by omega), if_pos ⟨Nat.mul_mod_left .., Nat.mod_self _⟩, Nat.div_self hspb] at hd1
  simp only [pdReadBlocks, hD.sectors, hspbe, Nat.mul_div_cancel _ hspb, Nat.add_zero] at hd1
  obtain ⟨_, _, hd2, -⟩ := hd1.bind_inv
  have hint := hg.int
  rw [readBlockOf, if_pos hD.readOnly, u64_of_lt (by omega)] at hd2
  have hno : ¬d.Cached b := fun hc => hc (by rw [hbits, byteAt_zeros, UInt8.zero_and])
  exact block_done hfile hD hb hno hs (hcut b hb) hd2

/-- **Damaged files.** Of the files with a sound header, those from whose index entries the search ends are
those that are read safely and whose chains do not leave the file. -/
theorem read_safely (h24 : 24 ≤ file.length) (hg : (DataHeader.ofBytes file).Sound) :
    SearchesEnd file (DataHeader.ofBytes file) ts ↔
      NotCutOff file (DataHeader.ofBytes file) ts ∧ ReadSafely file ts :=
  ⟨fun hE => ⟨fun b hb _ hR h0 _ => ((hE b hb).reached hR).inFile h0, safely_read hfile h24 hg hE⟩,
    fun h => searchesEnd_of_safe hfile h24 hg h.1 h.2⟩

end

/-! ## Damage that is not noticed -/

/-- A header without a block size: `open_disk` divides by it. -/
theorem zero_blockSize {J : Junk} (h0 : (headerRead J (slice file 0 512)).blockSize = 0) : ¬ReadSafely file ts := by
  intro hsafe
  obtain ⟨r, s, hd, -⟩ := hsafe J
  -- nothing can be said after undefined behaviour, not even what is false
  have hw : wp { Logic.plain Event with ub := True } (pdInitializeReadOnly J ts) (fun _ _ => False) ⟨file, 0, []⟩ := by
    unfold pdInitializeReadOnly
    rw [openDisk_eq]
    simp only [Prog.bind_eq, Prog.bind]
    refine wp_opens_alone (fun _ _ _ h => h) (wp_read_alone (fun _ _ _ h => h) ⟨fun _ => trivial, fun _ => ?_⟩)
    simp only [Os.chunk, Option.getD_some]
    rw [openIndex, if_pos h0]
    trivial
  exact wp_done hw hd (Assumed.of_forall (fun _ _ => trivial) _)

/-- A search that stays where it is looks at nothing else. -/
theorem Visits.fixed {first off : Nat} (hR : Visits file ts first off)
    (h : (headAt file first).ts.before ts = true ∨ (headAt file first).next = first) : off = first := by
  induction hR with
  | here => rfl
  | older _ _ hb ih =>
    subst ih
    rcases h with h | h
    · rw [hb] at h; cases h
    · exact h

/-- A header that names itself. -/
theorem not_searchEnds_self {off : Nat} (h0 : off ≠ 0) (hb : (headAt file off).ts.before ts = false)
    (hnext : (headAt file off).next = off) : ¬SearchEnds file h ts off := by
  intro hE
  generalize hx : off = x at hE
  induction hE with
  | none => exact h0 hx
  | found _ _ hb' _ => subst hx; rw [hb] at hb'; cases hb'
  | older _ _ _ _ ih => subst hx; exact ih hnext.symm

theorem DataHeader.one_block {h : DataHeader} (hd : h.diskSize = 4096) (hb : h.blockSize = 4096) : h.blocks = 1 := by
  rw [DataHeader.blocks, hd, hb]

theorem DataHeader.one_sound {h : DataHeader} (hd : h.diskSize = 4096) (hb : h.blockSize = 4096) : h.Sound := by
  have hblocks := DataHeader.one_block hd hb
  exact ⟨by omega, by omega, by omega, by omega, by omega, by rw [hd, hb]; decide⟩

/-- A database of one block with a single entry header, to which its index leads. -/
def damaged (next : Nat) (head : EntryHeader) : Mem :=
  headerBytes 1 next ++ zeros 488 ++ (le 8 1024 ++ zeros 504 ++ head.toBytes)

section
variable {N : Nat} (hN : N < 2 ^ 64) {head : EntryHeader}
variable (hnext : head.next < 2 ^ 64) (hsize : head.dataSize < 2 ^ 16) (hpad : head.pad.length = 6)

include hpad in
theorem length_damaged : (damaged N head).length = 1056 := by
  simp [damaged, EntryHeader.length_toBytes, hpad]

include hN in
theorem header_damaged : (DataHeader.ofBytes (damaged N head)).diskSize = 4096 ∧
    (DataHeader.ofBytes (damaged N head)).blockSize = 4096 ∧ (DataHeader.ofBytes (damaged N head)).nextOffset = N := by
  have hfield : ∀ a v c, headerBytes 1 N = a ++ (le 8 v ++ c) → v < 2 ^ 64 →
      unle (slice (damaged N head) a.length 8) = v := fun a v c heq hv => by
    rw [slice_mid a (le 8 v) (c ++ zeros 488 ++ (le 8 1024 ++ zeros 504 ++ head.toBytes))
      (by simp [damaged, heq]) rfl (length_le 8 v), unle_le (by omega)]
  exact ⟨hfield [] 4096 _ (List.append_assoc ..) (by decide),
    hfield (le 8 4096) 4096 _ (List.append_assoc ..) (by decide),
    hfield (le 8 4096 ++ le 8 4096) N [] (by simp [headerBytes]) hN⟩

theorem index_damaged : fileIndex (damaged N head) 0 = 1024 := by
  have hlen : 512 + 8 * 0 + 8 ≤ (damaged N head).length := by simp [damaged]; omega
  rw [fileIndex, numAt_slice hlen, slice_mid (headerBytes 1 N ++ zeros 488) (le 8 1024) (zeros 504 ++ head.toBytes)
    (by simp [damaged]) (by simp) (length_le 8 1024), unle_le (by decide)]

include hnext hsize hpad in
theorem headAt_damaged : headAt (damaged N head) 1024 = head := by
  rw [headAt, slice_mid (headerBytes 1 N ++ zeros 488 ++ (le 8 1024 ++ zeros 504)) head.toBytes []
    (by simp [damaged]) (by simp) (EntryHeader.length_padded hpad)]
  exact EntryHeader.ofBytes_toBytes hnext hsize hpad

include hN in
theorem blocks_damaged : (DataHeader.ofBytes (damaged N head)).blocks = 1 := by
  obtain ⟨hd, hb, -⟩ := @header_damaged N hN head
  exact DataHeader.one_block hd hb

include hN in
theorem sound_damaged : (DataHeader.ofBytes (damaged N head)).Sound := by
  obtain ⟨hd, hb, -⟩ := @header_damaged N hN head
  exact DataHeader.one_sound hd hb

include hN in
theorem searchesEnd_damaged : SearchesEnd (damaged N head) (DataHeader.ofBytes (damaged N head)) ts ↔
    SearchEnds (damaged N head) (DataHeader.ofBytes (damaged N head)) ts 1024 := by
  have hblocks := @blocks_damaged N hN head
  constructor
  · intro hE
    have := hE 0 (by omega)
    rwa [← fileIndex, index_damaged] at this
  · intro hE b hb
    obtain rfl : b = 0 := by omega
    rwa [← fileIndex, index_damaged]

include hN hnext hsize hpad in
/-- All is decided at the one header. -/
theorem damaged_safe_iff (hfix : head.ts.before ts = true ∨ head.next = 1024) : ReadSafely (damaged N head) ts ↔
    SearchEnds (damaged N head) (DataHeader.ofBytes (damaged N head)) ts 1024 := by
  have hblocks := @blocks_damaged N hN head
  have hlen := length_damaged (N := N) hpad
  have hmax : (damaged N head).length ≤ offMax := by rw [hlen]; decide
  have hcut : NotCutOff (damaged N head) (DataHeader.ofBytes (damaged N head)) ts := by
    intro b hb off hR _ _
    obtain rfl : b = 0 := by omega
    rw [← fileIndex, index_damaged] at hR
    have := hR.fixed (by rw [headAt_damaged hnext hsize hpad]; exact hfix)
    omega
  rw [← searchesEnd_damaged hN]
  exact ⟨searchesEnd_of_safe hmax (by omega) (sound_damaged hN) hcut, safely_read hmax (by omega) (sound_damaged hN)⟩

include hN hnext hsize hpad in
theorem damaged_ends_iff (hb : head.ts.before ts = true) :
    SearchEnds (damaged N head) (DataHeader.ofBytes (damaged N head)) ts 1024 ↔
      1024 < N ∧ (head.dataSize = 0 ∨ head.dataSize ≤ 4096 ∧ 1056 < N) := by
  obtain ⟨-, hblock, hlog⟩ := @header_damaged N hN head
  have hlen := length_damaged (N := N) hpad
  have hhead := headAt_damaged (N := N) hnext hsize hpad
  have hpay : PayloadInside (damaged N head) (DataHeader.ofBytes (damaged N head)) 1024 head.dataSize ↔
      head.dataSize = 0 ∨ head.dataSize ≤ 4096 ∧ 1056 < N := by
    rw [PayloadInside, hblock, hlog, hlen]
    omega
  constructor
  · intro hE
    cases hE with
    | found _ hlt _ hp =>
      rw [hhead] at hp
      rw [hlog] at hlt
      exact ⟨hlt, hpay.1 hp⟩
    | older _ _ hb' _ => rw [hhead, hb] at hb'; cases hb'
  · rintro ⟨hlt, hp⟩
    exact .found (by omega) (by omega) (by rw [hhead]; exact hb) (by rw [hhead]; exact hpay.2 hp)

end

/-- A version of second 5, and behind it one of two bytes of second 1. -/
def later : EntryHeader := ⟨⟨5, 0⟩, 1056, 0, zeros 6⟩
def former : EntryHeader := ⟨⟨1, 0⟩, 0, 2, zeros 6⟩
def chained : Mem := damaged 1536 later ++ (former.toBytes ++ [7, 8])

theorem length_chained : chained.length = 1090 := by
  rw [chained, List.length_append, length_damaged rfl]
  decide

theorem header_chained : (DataHeader.ofBytes chained).diskSize = 4096 ∧ (DataHeader.ofBytes chained).blockSize = 4096 ∧
    (DataHeader.ofBytes chained).nextOffset = 1536 := by
  have hlen : (damaged 1536 later).length = 1056 := length_damaged rfl
  have hfield : ∀ pos, pos + 8 ≤ 1056 → slice chained pos 8 = slice (damaged 1536 later) pos 8 :=
    fun pos hpos => slice_append_left (by omega)
  have h := @header_damaged 1536 (by decide) later
  simp only [DataHeader.ofBytes] at h ⊢
  rw [hfield 0 (by decide), hfield 8 (by decide), hfield 16 (by decide)]
  exact h

theorem headAt_later : headAt chained 1024 = later := by
  have hlen : (damaged 1536 later).length = 1056 := length_damaged rfl
  rw [headAt, chained, slice_append_left (by omega)]
  exact headAt_damaged (by decide) (by decide) rfl

theorem headAt_former : headAt chained 1056 = former := by
  have hlen : (damaged 1536 later).length = 1056 := length_damaged rfl
  have hmid : slice chained 1056 32 = former.toBytes :=
    slice_mid (damaged 1536 later) former.toBytes [7, 8] rfl hlen (EntryHeader.length_padded rfl)
  rw [headAt, hmid]
  exact EntryHeader.ofBytes_toBytes (by decide) (by decide) rfl

theorem searchesEnd_chained : SearchesEnd chained (DataHeader.ofBytes chained) ⟨2, 0⟩ := by
  have hlen := length_chained
  have hdam : (damaged 1536 later).length = 1056 := length_damaged rfl
  obtain ⟨hdisk, hblock, hlog⟩ := header_chained
  have hindex : numAt (byteAt chained) (512 + 8 * 0) 8 = 1024 := by
    rw [← @index_damaged 1536 later, fileIndex]
    exact numAt_congr fun i _ hi => byteAt_append_left (by omega)
  intro b hb
  rw [DataHeader.one_block hdisk hblock] at hb
  obtain rfl : b = 0 := by omega
  have hformer : SearchEnds chained (DataHeader.ofBytes chained) ⟨2, 0⟩ 1056 := by
    refine .found (by rw [hlen]; decide) (by rw [hlog]; decide) (by rw [headAt_former]; decide) (.inr ?_)
    rw [headAt_former, hblock, hlen, hlog]
    decide
  rw [hindex]
  refine .older (by omega) (by omega) (by rw [headAt_later]; decide) ?_
  rw [headAt_later]
  exact hformer

/-- A chain of two versions, of which the session is to see the older one. -/
theorem read_safely_chain : NotCutOff chained (DataHeader.ofBytes chained) ⟨2, 0⟩ ∧ ReadSafely chained ⟨2, 0⟩ := by
  have hlen := length_chained
  obtain ⟨hdisk, hblock, -⟩ := header_chained
  exact (read_safely (by rw [hlen]; decide) (by omega) (DataHeader.one_sound hdisk hblock)).1 searchesEnd_chained

theorem blockSize_zeros (n : Nat) : (headerRead zeroJunk (slice (zeros n) 0 512)).blockSize = 0 := by
  have hgot : (slice (zeros n) 0 512).length ≤ 512 := by rw [length_slice]; omega
  have hlen : (store (tabulate zeroJunk.header roundUppedDataHeaderSize) 0 (slice (zeros n) 0 512)).length = 512 := by
    rw [length_store_of_le (by rw [length_tabulate, roundUppedDataHeaderSize]; omega), length_tabulate]
  show unle (slice (store (tabulate zeroJunk.header roundUppedDataHeaderSize) 0 (slice (zeros n) 0 512)) 8 8) = 0
  rw [← numAt_slice (by omega)]
  refine numAt_eq_zero fun i h1 h2 => ?_
  rw [byteAt_store]
  split
  · rw [byteAt_slice (by omega), byteAt_zeros]
  · rw [byteAt_tabulate (by rw [roundUppedDataHeaderSize]; omega)]
    rfl

/-- **Not every file is read safely**: an empty one, one without a block size, one whose chain comes back to
itself, one with a payload longer than a block, and one whose index leads past `next_offset`. -/
theorem not_read_safely : ¬ReadSafely [] ⟨2, 0⟩ ∧ ¬ReadSafely (zeros 24) ⟨2, 0⟩ ∧
    ¬ReadSafely (damaged 1536 ⟨⟨5, 0⟩, 1024, 0, zeros 6⟩) ⟨2, 0⟩ ∧
    ¬ReadSafely (damaged 1536 ⟨⟨1, 0⟩, 0, 4097, zeros 6⟩) ⟨2, 0⟩ ∧
    ¬ReadSafely (damaged 1024 ⟨⟨1, 0⟩, 0, 0, zeros 6⟩) ⟨2, 0⟩ := by
  refine ⟨zero_blockSize (blockSize_zeros 0), zero_blockSize (blockSize_zeros 24), ?_, ?_, ?_⟩
  · rw [damaged_safe_iff (by decide) (by decide) (by decide) rfl (.inr rfl)]
    have hhead : headAt (damaged 1536 ⟨⟨5, 0⟩, 1024, 0, zeros 6⟩) 1024 = ⟨⟨5, 0⟩, 1024, 0, zeros 6⟩ :=
      headAt_damaged (by decide) (by decide) rfl
    exact not_searchEnds_self (by decide) (by rw [hhead]; decide) (by rw [hhead])
  · rw [damaged_safe_iff (by decide) (by decide) (by decide) rfl (.inl (by decide)),
      damaged_ends_iff (by decide) (by decide) (by decide) rfl (by decide)]
    simp
  · rw [damaged_safe_iff (by decide) (by decide) (by decide) rfl (.inl (by decide)),
      damaged_ends_iff (by decide) (by decide) (by decide) rfl (by decide)]
    simp

end LogDrive
