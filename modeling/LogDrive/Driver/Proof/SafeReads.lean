import Mathlib.Data.Finset.Lattice.Fold
import Mathlib.Tactic.Ring
import LogDrive.Driver.Damage
import LogDrive.Driver.Proof.Address
import LogDrive.Driver.Proof.FailedFill
import LogDrive.Driver.Proof.Snapshot

/-!
# Reading a sound file

A time-travel session on a file that is sound, but need not be a database that the driver wrote. The
read buffer holds the file where the file reaches (`ReadOnlyBio`); the search from an offset where it
ends (`SearchEnds`) does so within some number of headers (`SearchEnds.searches`); index, bitmap and
size cache lead to payloads that can be read (`SafeDisk`). `safely_read` is the session.
-/

set_option autoImplicit false

open Bytes

namespace LogDrive

/-! ## `bio_read` -/

/-- The read buffer of a read-only session over `file`; there is no write buffer. -/
structure ReadOnlyBio (h : DataHeader) (file : Mem) (b : BufferedIo) : Prop where
  fill : FillInv h.nextOffset file false b
  buffer : b.buffer = []

section
variable {file : Mem} (hfile : file.length ≤ offMax) {h : DataHeader} {b : BufferedIo} {s : Os Event}
include hfile

/-- A read that starts in the file, below `next_offset`: it gives the file's bytes as far as the file
reaches. -/
theorem wp_plainRead (hB : ReadOnlyBio h file b) (hs : s.file = file) {pos size : Nat} (hpos : pos < h.nextOffset)
    (hin : pos ≤ file.length) (hsize : size ≤ 4096) : wp (Logic.plain Event) (bioRead b pos size) (fun o s' =>
      ∃ bytes, o.1 = some bytes ∧ bytes.length = size ∧ (pos + size ≤ file.length → bytes = slice file pos size) ∧
        ReadOnlyBio h file o.2 ∧ s'.file = file) s := by
  have hI := hB.fill
  have hlt : pos < b.nextOffset := by rw [hI.next]; exact hpos
  simp only [offMax] at hfile
  have hiff := @windowHit_iff b pos size (by omega)
  cases hh : b.windowHit pos size with
  | true =>
    obtain ⟨hen, hlo, hhi⟩ := hiff.1 hh
    have hfit : pos - b.readBufferPos + size ≤ b.readBuffer.length := by rw [hI.winLen]; omega
    rw [bioRead_hit b _ _ hlt hh hfit]
    exact ⟨fun _ => trivial, fun _ => ⟨_, rfl, length_slice_of_le hfit, hI.slice hen hlo (by omega), hB, hs⟩⟩
  | false =>
    have hround : roundDown pos defaultSectorSize = pos / 512 * 512 := roundDown_sector (by omega)
    rw [bioRead_miss b _ _ hlt hh, hround]
    refine wp_lseek_alone Logic.plain_alone (fun _ => by simp only [offMax]; omega) fun _ => ?_
    refine wp_read_alone Logic.plain_alone ?_
    have hchunk : ({ s with pos := pos / 512 * 512 } : Os Event).chunk readBufferSize =
        slice file (pos / 512 * 512) readBufferSize := by rw [← hs]; rfl
    have hL := hI.loaded (pos / 512 * 512)
    have hfit : pos - pos / 512 * 512 + size ≤
        (store b.readBuffer 0 (slice file (pos / 512 * 512) readBufferSize)).length := by
      rw [show (store b.readBuffer 0 _).length = readBufferSize from hL.winLen, readBufferSize_eq]
      omega
    simp only [hchunk]
    rw [copyFrom, if_pos hfit]
    refine ⟨fun _ => trivial, fun _ => ⟨_, rfl, length_slice_of_le hfit, fun hend => ?_, ⟨hL, hB.buffer⟩, hs⟩⟩
    exact hL.slice rfl (by simp only [BufferedIo.loaded, BufferedIo.aimed]; omega)
      (by simp only [BufferedIo.loaded, BufferedIo.aimed, readBufferSize_eq]; omega) hend

theorem wp_plainInto (hB : ReadOnlyBio h file b) (hs : s.file = file) {pos size : Nat} {buf : Mem}
    (hpos : pos < h.nextOffset) (hin : pos ≤ file.length) (hsize : size ≤ 4096) (hbuf : size ≤ buf.length) :
    wp (Logic.plain Event) (bioReadInto b pos buf size) (fun o s' => o.1.length = buf.length ∧
      (pos + size ≤ file.length → o.1 = store buf 0 (slice file pos size)) ∧ ReadOnlyBio h file o.2 ∧
      s'.file = file) s := by
  refine wp_seq (wp_plainRead hfile hB hs hpos hin hsize) ?_
  rintro ⟨got, b'⟩ s' ⟨bytes, rfl, hlen, hbytes, hB', hs'⟩
  simp only
  rw [if_pos (by omega)]
  exact ⟨length_store_of_le (by omega), fun hend => by rw [hbytes hend], hB', hs'⟩

/-! ## The search -/

/-- Within the fuel the search from `off` comes to its end or to a payload that can be read. -/
def Searches (file : Mem) (h : DataHeader) (ts : TimeSpec) (fuel off : Nat) : Prop :=
  ∀ b header size s, ReadOnlyBio h file b → header.length = 32 → s.file = file →
    wp (Logic.plain Event) (searchVersion ts fuel b off header size) (fun o s' =>
      (o.1 = 0 ∨ PayloadInside file h o.1 o.2.1 ∧ o.2.1 < 2 ^ 16) ∧ ReadOnlyBio h file o.2.2 ∧ s'.file = file) s

omit hfile in
theorem EntryHeader.dataSize_lt (m : Mem) : (EntryHeader.ofBytes m).dataSize < 2 ^ 16 := unle_slice_lt m 24 2

/-- One header of the search, wherever it goes from there. -/
theorem searches_step {ts : TimeSpec} {fuel off : Nat} (hin : off + 32 ≤ file.length) (hoff : off < h.nextOffset)
    (hfound : (headAt file off).ts.before ts = true → PayloadInside file h off (headAt file off).dataSize)
    (holder : (headAt file off).ts.before ts = false → Searches file h ts fuel (headAt file off).next) :
    Searches file h ts (fuel + 1) off := by
  intro b header size s hB hh hs
  rw [searchVersion]
  split
  · rename_i h0
    exact ⟨.inl h0, hB, hs⟩
  · have hfit : 32 ≤ header.length := by omega
    have hread := wp_plainInto hfile hB hs hoff (by omega) (by decide) hfit
    refine wp_seq hread ?_
    rintro ⟨out, b'⟩ s' ⟨hlen, hout, hB', hs'⟩
    simp only at hlen hout hB'
    have hall : out = slice file off 32 := by
      rw [hout hin, store_all (by rw [length_slice_of_le hin, hh])]
    have hhead : EntryHeader.ofBytes out = headAt file off := by rw [hall, headAt]
    simp only [hhead]
    cases hb : (headAt file off).ts.before ts with
    | true => exact ⟨.inr ⟨hfound hb, EntryHeader.dataSize_lt _⟩, hB', hs'⟩
    | false =>
      rw [if_neg (by decide)]
      exact holder hb b' out _ s' hB' (hlen.trans hh) hs'

/-- **Where the search ends** there is a bound on the headers it reads. -/
theorem SearchEnds.searches {ts : TimeSpec} {off : Nat} (hE : SearchEnds file h ts off) :
    ∃ n, ∀ fuel ≥ n, Searches file h ts fuel off := by
  induction hE with
  | none =>
    refine ⟨1, fun fuel hf b header size s hB _ hs => ?_⟩
    obtain ⟨fuel, rfl⟩ : ∃ f, fuel = f + 1 := ⟨fuel - 1, by omega⟩
    rw [searchVersion, if_pos rfl]
    exact ⟨.inl rfl, hB, hs⟩
  | @found off hin hoff hb hpay =>
    refine ⟨1, fun fuel hf => ?_⟩
    obtain ⟨fuel, rfl⟩ : ∃ f, fuel = f + 1 := ⟨fuel - 1, by omega⟩
    exact searches_step hfile hin hoff (fun _ => hpay) fun h => by rw [hb] at h; cases h
  | @older off hin hoff hb _ ih =>
    obtain ⟨n, hn⟩ := ih
    refine ⟨n + 1, fun fuel hf => ?_⟩
    obtain ⟨fuel, rfl⟩ : ∃ f, fuel = f + 1 := ⟨fuel - 1, by omega⟩
    exact searches_step hfile hin hoff (fun h => by rw [hb] at h; cases h) fun _ => hn fuel (by omega)

/-- One bound for all blocks. -/
theorem SearchesEnd.bound {ts : TimeSpec} (hE : SearchesEnd file h ts) :
    ∃ n, ∀ fuel ≥ n, ∀ b < h.blocks, Searches file h ts fuel (fileIndex file b) := by
  have hall : ∀ b, ∃ n, b < h.blocks → ∀ fuel ≥ n, Searches file h ts fuel (fileIndex file b) := fun b => by
    by_cases hb : b < h.blocks
    · obtain ⟨n, hn⟩ := (hE b hb).searches hfile
      exact ⟨n, fun _ => hn⟩
    · exact ⟨0, fun h => absurd h hb⟩
  choose n hn using hall
  exact ⟨(Finset.range h.blocks).sup n, fun fuel hf b hb =>
    hn b hb fuel (Nat.le_trans (Finset.le_sup (Finset.mem_range.2 hb)) hf)⟩

/-! ## Blocks -/

omit hfile in
theorem wp_clear {L : Logic Event} {buf : Mem} {n : Nat} {d : PreservationDisk} {Q : Int × Mem × PreservationDisk → Os Event → Prop}
    (hn : n ≤ buf.length) (hQ : ∀ out, out.length = buf.length → Q (0, out, d) s) :
    wp L ((clearFrom buf 0 n).bind fun buf => .ret (0, buf, d)) Q s := by
  have hfit : 0 + (zeros n).length ≤ buf.length := by rw [length_zeros]; omega
  rw [clearFrom, if_pos (by omega)]
  exact hQ _ (length_store_of_le hfit)

/-- What a block reader gives, and what it leaves. -/
def ReadsBlock (file : Mem) (P : PreservationDisk → Prop) (buf : Mem) (r : Int × Mem × PreservationDisk)
    (s' : Os Event) : Prop :=
  r.1 = 0 ∧ r.2.1.length = buf.length ∧ P r.2.2 ∧ s'.file = file

/-- The payload of an entry, or a block of zeros. -/
theorem wp_safePayload {d : PreservationDisk} {buf : Mem} {off size : Nat} (hB : ReadOnlyBio h file d.bio)
    (hs : s.file = file) (hblock : d.header.blockSize = h.blockSize) (hsmall : h.blockSize ≤ 4096)
    (hbuf : h.blockSize ≤ buf.length) (hpay : off = 0 ∨ PayloadInside file h off size) {P : PreservationDisk → Prop}
    (hP : ∀ bio, ReadOnlyBio h file bio → P { d with bio := bio }) :
    wp (Logic.plain Event) (if off ≠ 0 ∧ size > 0 then readPayload d buf off size
      else (clearFrom buf 0 d.header.blockSize).bind fun buf => .ret (0, buf, d)) (ReadsBlock file P buf) s := by
  split
  · rename_i hne
    obtain ⟨hle, hin, hlt⟩ := (hpay.resolve_left hne.1).resolve_left (by omega)
    simp only [offMax] at hfile
    rw [readPayload, u64_of_lt (by simp only [entryHeaderSize]; omega)]
    refine wp_seq (wp_plainInto hfile hB hs hlt hin (Nat.le_trans hle hsmall) (by omega)) ?_
    rintro ⟨out, bio⟩ s' ⟨hlen, -, hB', hs'⟩
    simp only at hlen hB' ⊢
    have hfit : size + (zeros (h.blockSize - size)).length ≤ out.length := by rw [length_zeros]; omega
    rw [hblock, if_pos hle, clearFrom, if_pos (by omega)]
    exact ⟨rfl, (length_store_of_le hfit).trans hlen, hP _ hB', hs'⟩
  · exact wp_clear (by omega) fun out hout => ⟨rfl, hout, hP _ hB, hs⟩

end

/-- A disk that a read-only session has opened on the file: a block's index entry is the stored one, or
the search from there has ended at a payload that can be read. -/
structure SafeDisk (file : Mem) (h : DataHeader) (ts : TimeSpec) (d : PreservationDisk) : Prop where
  blockSize : d.header.blockSize = h.blockSize
  sectors : d.sectorsPerBlock = h.blockSize / 512
  readOnly : d.readOnly = true
  time : d.ts = ts
  bio : ReadOnlyBio h file d.bio
  bitsLen : h.blocks ≤ 8 * d.indexCacheEnable.length
  sizesLen : h.blocks ≤ d.cachedDataSize.length
  tableLen : h.blocks ≤ d.indexTable.length
  fresh : ∀ b < h.blocks, ¬d.Cached b → d.indexTable[b]? = some (fileIndex file b)
  found : ∀ b < h.blocks, d.Cached b → ∃ off size, d.indexTable[b]? = some off ∧ d.cachedDataSize[b]? = some size ∧
    (off = 0 ∨ PayloadInside file h off size)

namespace SafeDisk

variable {file : Mem} {h : DataHeader} {ts : TimeSpec} {d : PreservationDisk}

theorem withBio (hD : SafeDisk file h ts d) {bio : BufferedIo} (hB : ReadOnlyBio h file bio) :
    SafeDisk file h ts { d with bio := bio } := { hD with bio := hB }

/-- The search for `b` has ended. -/
theorem search (hD : SafeDisk file h ts d) {b : Nat} (hb : b < h.blocks) {bits : UInt8}
    (hbits : d.indexCacheEnable[b / 8]? = some bits) {off size : Nat} (hpay : off = 0 ∨ PayloadInside file h off size) :
    SafeDisk file h ts { d with
      indexTable := d.indexTable.set b off
      indexCacheEnable := d.indexCacheEnable.set (b / 8) (bits ||| cacheBit b)
      cachedDataSize := d.cachedDataSize.set b size } := by
  have hset := cacheBit_set hbits
  have htable := hD.tableLen
  have hsizes := hD.sizesLen
  exact { hD with
    bitsLen := by rw [List.length_set]; exact hD.bitsLen
    sizesLen := by rw [List.length_set]; exact hsizes
    tableLen := by rw [List.length_set]; exact htable
    fresh := fun b' hb' hc => by
      obtain ⟨heq, hc⟩ := not_or.1 (mt (hset b').2 hc)
      simp only [List.getElem?_set_ne (Ne.symm heq)]
      exact hD.fresh b' hb' hc
    found := fun b' hb' hc => by
      by_cases heq : b' = b
      · subst heq
        simp only [List.getElem?_set_self (show b' < d.indexTable.length by omega),
          List.getElem?_set_self (show b' < d.cachedDataSize.length by omega)]
        exact ⟨off, size, rfl, rfl, hpay⟩
      · have hc := ((hset b').1 hc).resolve_left heq
        simp only [List.getElem?_set_ne (Ne.symm heq)]
        exact hD.found b' hb' hc }

end SafeDisk

section
variable {file : Mem} (hfile : file.length ≤ offMax) {h : DataHeader} (hg : h.Sound) {ts : TimeSpec}
variable {d : PreservationDisk} {s : Os Event} {fuel : Nat}
variable (hfuel : ∀ b < h.blocks, Searches file h ts fuel (fileIndex file b))
include hfile hg hfuel

/-- **`read_current_block`** on a sound file. -/
theorem wp_safeBlock (hD : SafeDisk file h ts d) (hs : s.file = file) {b : Nat} (hb : b < h.blocks) {J : Junk} {buf : Mem}
    (hbuf : h.blockSize ≤ buf.length) : wp (Logic.plain Event) (readCurrentBlock J fuel d buf b)
      (ReadsBlock file (SafeDisk file h ts) buf) s := by
  have hbl := hD.bitsLen
  have hsl := hD.sizesLen
  obtain ⟨bits, hbits⟩ : ∃ bits, d.indexCacheEnable[b / 8]? = some bits :=
    ⟨_, List.getElem?_eq_getElem (by omega)⟩
  obtain ⟨cached, hcached⟩ : ∃ cached, d.cachedDataSize[b]? = some cached :=
    ⟨_, List.getElem?_eq_getElem (by omega)⟩
  have hbyte : byteAt d.indexCacheEnable (b / 8) = bits := by
    simp [byteAt, List.getD_eq_getElem?_getD, hbits]
  have hsmall := hg.small
  obtain rfl := hD.time
  unfold readCurrentBlock
  by_cases hbit : bits &&& cacheBit b = 0
  · have hidx := hD.fresh b hb (by rw [PreservationDisk.Cached, hbyte]; exact fun h => h hbit)
    simp only [indexAt, hidx, hbits, hcached, Prog.bind_eq, Prog.pure_eq, Prog.ret_bind]
    rw [if_pos hbit, Prog.bind_assoc]
    refine wp_seq (hfuel b hb d.bio _ _ s hD.bio (length_tabulate _ _) hs) ?_
    rintro ⟨off, size, bio⟩ s' ⟨hend, hB, hs'⟩
    simp only [Prog.mark_bind, Prog.bind]
    refine ⟨fun _ => trivial, fun _ => ?_⟩
    have hpay : off = 0 ∨ PayloadInside file h off size := hend.imp_right And.left
    have hcut : off = 0 ∨ PayloadInside file h off (size % 2 ^ 16) := by
      rcases hend with h0 | ⟨hp, hlt⟩
      · exact .inl h0
      · simp only at hlt
        exact .inr (by rw [Nat.mod_eq_of_lt hlt]; exact hp)
    have hD' := (hD.withBio hB).search hb hbits hcut
    refine wp_safePayload hfile (P := SafeDisk file h d.ts) hD'.bio ?_ hD'.blockSize hsmall hbuf hpay fun _ hB' =>
      hD'.withBio hB'
    exact hs'
  · obtain ⟨off, size, hidx, hsize, hpay⟩ := hD.found b hb (by rw [PreservationDisk.Cached, hbyte]; exact hbit)
    simp only [indexAt, hidx, hbits, hsize, Prog.bind_eq, Prog.pure_eq, Prog.ret_bind]
    rw [if_neg hbit]
    exact wp_safePayload hfile hD.bio hs hD.blockSize hsmall hbuf hpay fun _ hB' => hD.withBio hB'

end

/-! ## Requests -/

namespace DataHeader.Sound

variable {h : DataHeader} (hg : h.Sound)
include hg

theorem size_eq : h.blockSize = 512 * (h.blockSize / 512) := by
  have := hg.sectors
  omega

theorem spb_bounds : 0 < h.blockSize / 512 ∧ h.blockSize / 512 ≤ 8 := by
  have h1 := hg.pos
  have h2 := hg.sectors
  have h3 := hg.small
  omega

/-- The advertised sectors are those of the blocks. -/
theorem advertised : h.diskSize >>> 9 = h.blocks * (h.blockSize / 512) := by
  have hdisk : 512 * (h.blocks * (h.blockSize / 512)) + h.diskSize % h.blockSize = h.diskSize := by
    have hsum := Nat.div_add_mod h.diskSize h.blockSize
    have hmul : 512 * (h.blocks * (h.blockSize / 512)) = h.blockSize * (h.diskSize / h.blockSize) := by
      rw [Nat.mul_comm h.blocks, ← Nat.mul_assoc, ← hg.size_eq, DataHeader.blocks]
    omega
  have hrest := hg.whole
  rw [Nat.shiftRight_eq_div_pow]
  omega

variable {treq : TdRequest} (hin : treq.sec + treq.secs ≤ h.blocks * (h.blockSize / 512))
include hin

theorem blocks_lt {b : Nat} (hb : b ∈ treq.blocks (h.blockSize / 512)) : b < h.blocks := by
  obtain ⟨h1, -, h2⟩ := mem_blocksFrom.1 hb
  have : (treq.sec + treq.secs - 1) / (h.blockSize / 512) < h.blocks :=
    (Nat.div_lt_iff_lt_mul hg.spb_bounds.1).2 (by omega)
  omega

/-- What 8 sectors touch fits the local buffer of `pd_read`. -/
theorem touched (h8 : treq.secs ≤ 8) : (treq.blocks (h.blockSize / 512)).length * h.blockSize ≤ 8192 := by
  obtain ⟨h1, h2⟩ := hg.spb_bounds
  have hsix : h.blockSize / 512 = 6 → h.blocks ≤ 2 := fun h6 => hg.six (by have := hg.size_eq; omega)
  have hsize := hg.size_eq
  generalize h.blockSize / 512 = spb at *
  rw [hsize, TdRequest.blocks, blocksFrom]
  split
  · rw [List.length_range']
    refine (blocks_fit h1 h2 ?_ h8 (by omega)).1
    rintro ⟨rfl, hlast, hsecs⟩
    have := hsix rfl
    omega
  · simp

theorem fits : treq.sec + treq.secs + h.blockSize / 512 < 2 ^ 64 := by
  have := Nat.mul_le_mul hg.int hg.spb_bounds.2
  have := hg.spb_bounds
  omega

end DataHeader.Sound

section
variable {file : Mem} {h : DataHeader} {ts : TimeSpec} {readBlock : ReadBlock}
variable (hread : ∀ d s b buf, SafeDisk file h ts d → s.file = file → b < h.blocks → h.blockSize ≤ buf.length →
  wp (Logic.plain Event) (readBlock d buf b) (ReadsBlock file (SafeDisk file h ts) buf) s)
include hread

theorem wp_safeAligned {treq : TdRequest} {blocks : List Nat} : ∀ {i : Nat} {d : PreservationDisk} {s : Os Event},
    (∀ b ∈ blocks, b < h.blocks) → SafeDisk file h ts d → s.file = file →
    wp (Logic.plain Event) (readAligned readBlock treq blocks i d) (fun r s' => r.1 = 0 ∧
      r.2.1.length = blocks.length * h.blockSize ∧ SafeDisk file h ts r.2.2 ∧ s'.file = file) s := by
  induction blocks with
  | nil => exact fun _ hD hs => ⟨rfl, by simp, hD, hs⟩
  | cons b blocks ih =>
    intro i d s hb hD hs
    simp only [readAligned, Prog.bind_eq, hD.blockSize]
    refine wp_seq (hread d s b _ hD hs (hb b List.mem_cons_self) (by rw [length_tabulate])) ?_
    rintro ⟨r, bytes, d1⟩ s1 ⟨rfl, hlen, hD1, hs1⟩
    simp only [length_tabulate] at hlen ⊢
    rw [if_neg (by decide)]
    refine wp_seq (ih (fun b' hb' => hb b' (List.mem_cons_of_mem _ hb')) hD1 hs1) ?_
    rintro ⟨r, rest, d2⟩ s2 ⟨rfl, hlen2, hD2, hs2⟩
    simp only at hlen2
    exact ⟨rfl, by simp only [List.length_append, List.length_cons, Nat.add_mul, hlen, hlen2]; omega, hD2, hs2⟩

theorem wp_safeCovered {spb : Nat} (hspb : h.blockSize = 512 * spb) {blocks : List Nat} : ∀ {k : Nat} {buf : Mem}
    {d : PreservationDisk} {s : Os Event}, (∀ b ∈ blocks, b < h.blocks) →
    (k + blocks.length) * h.blockSize ≤ buf.length → SafeDisk file h ts d → s.file = file →
    wp (Logic.plain Event) (readCovered readBlock spb blocks d k buf) (fun r s' => r.1 = 0 ∧
      r.2.1.length = buf.length ∧ SafeDisk file h ts r.2.2 ∧ s'.file = file) s := by
  induction blocks with
  | nil => exact fun _ _ hD hs => ⟨rfl, rfl, hD, hs⟩
  | cons b blocks ih =>
    intro k buf d s hb hfit hD hs
    have hstart : defaultSectorSize * spb = h.blockSize := hspb.symm
    have hsum : (k + (b :: blocks).length) * h.blockSize =
        k * h.blockSize + h.blockSize + blocks.length * h.blockSize := by
      rw [List.length_cons]
      ring
    simp only [readCovered, Prog.bind_eq, hstart]
    rw [if_pos (by omega)]
    refine wp_seq (hread d s b _ hD hs (hb b List.mem_cons_self) (by rw [List.length_drop]; omega)) ?_
    rintro ⟨r, bytes, d1⟩ s1 ⟨rfl, hlen, hD1, hs1⟩
    simp only [List.length_drop] at hlen ⊢
    rw [if_neg (by decide)]
    have hwhole : (buf.take (k * h.blockSize) ++ bytes).length = buf.length := by
      rw [List.length_append, List.length_take, hlen]
      omega
    have hrest : (k + 1 + blocks.length) * h.blockSize ≤ (buf.take (k * h.blockSize) ++ bytes).length := by
      rw [hwhole, Nat.add_mul, Nat.add_mul, Nat.one_mul]
      omega
    refine wp_mono (ih (fun b' hb' => hb b' (List.mem_cons_of_mem _ hb')) hrest hD1 hs1) ?_
    rintro ⟨r, out, d2⟩ s2 ⟨hr, hlen2, hD2, hs2⟩
    exact ⟨hr, hlen2.trans hwhole, hD2, hs2⟩

end

section
variable {file : Mem} (hfile : file.length ≤ offMax) {h : DataHeader} (hg : h.Sound) {ts : TimeSpec}
variable {d : PreservationDisk} {s : Os Event} {fuel : Nat}
variable (hfuel : ∀ b < h.blocks, Searches file h ts fuel (fileIndex file b))
include hfile hg hfuel

/-- **`pd_read`** of at most 8 sectors. -/
theorem wp_safeRead (hD : SafeDisk file h ts d) (hs : s.file = file) {treq : TdRequest} (h8 : treq.secs ≤ 8)
    (hin : treq.sec + treq.secs ≤ h.blocks * (h.blockSize / 512)) {J : Junk} :
    wp (Logic.plain Event) (pdRead J fuel d treq) (fun r s' => r.1 = 0 ∧ r.2.1.length = treq.secs * 512 ∧
      SafeDisk file h ts r.2.2 ∧ s'.file = file) s := by
  obtain ⟨hspb, -⟩ := hg.spb_bounds
  have hkeep := readBlockOf_keeps J fuel d
  have hread : ∀ d' s b buf, SafeDisk file h ts d' → s.file = file → b < h.blocks → h.blockSize ≤ buf.length →
      wp (Logic.plain Event) (readBlockOf J fuel d d' buf b) (ReadsBlock file (SafeDisk file h ts) buf) s := by
    intro d' s b buf hD' hs' hb hbuf
    rw [readBlockOf, if_pos hD.readOnly]
    exact wp_safeBlock hfile hg hfuel hD' hs' hb hbuf
  have hblocks : ∀ b ∈ treq.blocks (h.blockSize / 512), b < h.blocks := fun b => hg.blocks_lt hin
  unfold pdRead
  simp only [hD.sectors]
  rw [if_neg (by omega)]
  split
  · rename_i hal
    have hlist := alignedBlocks_eq hspb (hg.fits hin) hal.1 hal.2
    rw [pdReadBlocks_eq hkeep _ _ _ hD.sectors]
    have hrange : (List.range' 0 (treq.secs / (h.blockSize / 512))).map (fun k => u64 (treq.sec / (h.blockSize / 512) + k)) =
        alignedBlocks (h.blockSize / 512) treq := by
      rw [alignedBlocks, List.range_eq_range']
    have hcount : (treq.blocks (h.blockSize / 512)).length * h.blockSize = treq.secs * 512 := by
      rw [← hlist, alignedBlocks, List.length_map, List.length_range]
      calc treq.secs / (h.blockSize / 512) * h.blockSize
          = treq.secs / (h.blockSize / 512) * (512 * (h.blockSize / 512)) := congrArg _ hg.size_eq
        _ = treq.secs / (h.blockSize / 512) * (h.blockSize / 512) * 512 := by ring
        _ = treq.secs * 512 := by rw [Nat.div_mul_cancel (Nat.dvd_of_mod_eq_zero hal.2)]
    rw [hrange, hlist, ← hcount]
    exact wp_safeAligned hread hblocks hD hs
  · have hcover := coverBlocks_eq hspb (hg.fits hin) fun b hb => Nat.lt_of_lt_of_le (hblocks b hb) hg.int
    rw [pdReadCover_eq hkeep hD.sectors hcover]
    have htouched := hg.touched hin h8
    refine wp_seq (wp_safeCovered hread hg.size_eq hblocks (by rw [length_zeros, Nat.zero_add]; exact htouched) hD hs) ?_
    rintro ⟨r, buf, d1⟩ s1 ⟨rfl, hlen, hD1, hs1⟩
    have hmod : treq.sec % (h.blockSize / 512) < h.blockSize / 512 := Nat.mod_lt _ hspb
    have hfit : treq.sec % (h.blockSize / 512) * defaultSectorSize + treq.secs * defaultSectorSize ≤ buf.length := by
      have := hg.spb_bounds
      rw [hlen, length_zeros]
      simp only [defaultSectorSize, defaultBlockSize]
      omega
    simp only
    rw [if_neg (by decide), copyFrom, if_pos hfit]
    exact ⟨rfl, length_slice_of_le hfit, hD1, hs1⟩

theorem wp_safeReadAll {J : Junk} {reads : List TdRequest} (hreads : ∀ treq ∈ reads, treq.secs ≤ 8 ∧
    treq.sec + treq.secs ≤ h.blocks * (h.blockSize / 512)) : ∀ {d : PreservationDisk} {s : Os Event},
    SafeDisk file h ts d → s.file = file →
    wp (Logic.plain Event) (readAll J fuel d reads) (fun r _ => List.Forall₂ Reply.Answers r.1 reads) s := by
  induction reads with
  | nil => exact fun _ _ => .nil
  | cons treq reads ih =>
    intro d s hD hs
    obtain ⟨h8, hin⟩ := hreads treq List.mem_cons_self
    refine wp_seq (wp_safeRead hfile hg hfuel hD hs h8 hin) ?_
    rintro ⟨r, bytes, d1⟩ s1 ⟨hr, hlen, hD1, hs1⟩
    refine wp_seq (ih (fun t ht => hreads t (List.mem_cons_of_mem _ ht)) hD1 hs1) ?_
    rintro ⟨replies, d2⟩ s2 hall
    exact .cons (.inl ⟨hr, hlen⟩) hall

end

/-! ## Sessions -/

/-- What `open_disk` decodes is the header of the file, as soon as the file has it. -/
theorem headerRead_file {file : Mem} (h24 : 24 ≤ file.length) (J : Junk) :
    (headerRead J (slice file 0 512)).diskSize = (DataHeader.ofBytes file).diskSize ∧
    (headerRead J (slice file 0 512)).blockSize = (DataHeader.ofBytes file).blockSize ∧
    (headerRead J (slice file 0 512)).nextOffset = (DataHeader.ofBytes file).nextOffset := by
  have hgot : (slice file 0 512).length = min 512 file.length := length_slice ..
  have hlen : (store (tabulate J.header roundUppedDataHeaderSize) 0 (slice file 0 512)).length = 512 := by
    rw [length_store_of_le (by rw [length_tabulate, hgot, roundUppedDataHeaderSize]; omega), length_tabulate]
  have hfield : ∀ pos, pos + 8 ≤ 24 → unle (slice (store (tabulate J.header roundUppedDataHeaderSize) 0 (slice file 0 512))
      pos 8) = unle (slice file pos 8) := fun pos hpos => by
    refine congrArg unle (ext_byteAt ?_ fun i hi => ?_)
    · rw [length_slice_of_le (by omega), length_slice_of_le (by omega)]
    · rw [length_slice_of_le (by omega)] at hi
      rw [byteAt_slice hi, byteAt_slice hi, byteAt_store_inside (by omega) (by omega), byteAt_slice (by omega)]
      exact congrArg (byteAt file) (by omega)
  exact ⟨hfield 0 (by omega), hfield 8 (by omega), hfield 16 (by omega)⟩

section
variable {file : Mem} (hfile : file.length ≤ offMax) (h24 : 24 ≤ file.length)
variable (hg : (DataHeader.ofBytes file).Sound) {ts : TimeSpec} {J : Junk}
include h24 hg

theorem wp_openSafe : wp (Logic.plain Event) (pdInitializeReadOnly J ts) (fun r s' => ∃ d, r = some d ∧
    d.header.diskSize = (DataHeader.ofBytes file).diskSize ∧ SafeDisk file (DataHeader.ofBytes file) ts d ∧
    d.indexCacheEnable = zeros (roundUp (DataHeader.ofBytes file).blocks 8) ∧ s'.file = file) ⟨file, 0, []⟩ := by
  obtain ⟨hdisk, hblock, hnext⟩ := headerRead_file h24 J
  have hint := hg.int
  have hgot : (slice file 0 512).length = min 512 file.length := length_slice ..
  have hcount : (headerRead J (slice file 0 512)).diskSize / (headerRead J (slice file 0 512)).blockSize =
      (DataHeader.ofBytes file).blocks := by rw [hdisk, hblock, DataHeader.blocks]
  have hsize : (headerRead J (slice file 0 512)).indexTableSize = tableBytes (DataHeader.ofBytes file).blocks := by
    rw [DataHeader.indexTableSize, hcount, u64_of_lt (by omega), tableBytes, Nat.mul_comm 8]
    exact roundUp_sector (by omega)
  have hbits : roundUp (DataHeader.ofBytes file).blocks 8 = ((DataHeader.ofBytes file).blocks + 7) / 8 * 8 :=
    roundUp_char (by omega)
  have htable := tableBytes_bounds (DataHeader.ofBytes file).blocks
  have hpos := hg.pos
  unfold pdInitializeReadOnly
  rw [openDisk_eq]
  simp only [Prog.bind_eq, Prog.bind]
  refine wp_opens_alone Logic.plain_alone (wp_read_alone Logic.plain_alone ⟨fun _ => trivial, fun _ => ?_⟩)
  simp only [Os.chunk, Os.afterRead, Option.getD_some]
  unfold openIndex
  rw [if_neg (by omega)]
  simp only [Prog.bind_eq, Prog.sysRead_bind, Prog.mark_bind, Prog.pure_eq, hsize, hcount, if_true, Prog.bind]
  refine wp_read_alone Logic.plain_alone ⟨fun _ => trivial, fun _ => ⟨_, rfl, hdisk, ?_, rfl, rfl⟩⟩
  simp only [Os.chunk, Option.getD_some, Nat.zero_add]
  have hlist := @length_tableRead (DataHeader.ofBytes file).blocks
    (slice file (slice file 0 512).length (tableBytes (DataHeader.ofBytes file).blocks)) (by rw [length_slice]; omega)
  refine ⟨hblock, congrArg (· / 512) hblock, rfl, rfl, ⟨⟨hnext, by simp [bioInit], fun h => by cases h⟩, rfl⟩, ?_, ?_, ?_,
    fun b hb _ => ?_, fun b _ hc => absurd ?_ hc⟩
  · simp only [length_zeros, hbits]
    omega
  · simp only [List.length_replicate]
    exact Nat.le_refl _
  · rw [tableRead] at hlist
    simp only [hlist]
    omega
  · refine getElem?_tableRead hb ?_ (by omega) (by omega)
    by_cases hlong : 512 ≤ file.length
    · exact .inl (by omega)
    · exact .inr fun i h1 _ => byteAt_of_le (by omega)
  · simp only [byteAt_zeros, UInt8.zero_and]

include hfile in
/-- **Sound files are read safely.** -/
theorem safely_read (hE : SearchesEnd file (DataHeader.ofBytes file) ts) : ReadSafely file ts := by
  intro J
  obtain ⟨r, s, hd, ⟨disk, rfl, hsize, hD, -, hs⟩, -⟩ := wp_total trivial id (wp_openSafe h24 hg) trivial
  refine ⟨_, s, hd, fun d hdisk reads hreads => ?_⟩
  cases hdisk
  obtain ⟨bound, hbound⟩ := hE.bound hfile
  refine ⟨bound, fun fuel hf => ?_⟩
  have hinside : ∀ treq ∈ reads, treq.secs ≤ 8 ∧
      treq.sec + treq.secs ≤ (DataHeader.ofBytes file).blocks * ((DataHeader.ofBytes file).blockSize / 512) :=
    fun treq ht => by
      obtain ⟨h8, hin⟩ := hreads treq ht
      rw [pdSetDriverInfo, hsize, hg.advertised] at hin
      exact ⟨h8, hin⟩
  obtain ⟨⟨replies, disk'⟩, s', hd', hall, -⟩ :=
    wp_total trivial id (wp_safeReadAll hfile hg (hbound fuel hf) hinside hD hs) (Assumed.of_forall (fun _ _ => trivial) _)
  exact ⟨replies, disk', s', hd', hall⟩

end

end LogDrive
