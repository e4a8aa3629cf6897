import LogDrive.Driver.Staging
import LogDrive.Driver.Proof.AddressRange
import LogDrive.Driver.Proof.RoundTrip

/-!
# The local buffers are large enough

`staging_fits`: for every block size up to `DEFAULT_BLOCK_SIZE` and every request of at most 8 sectors the
local buffers of `pd_read` and `pd_write` are large enough, but for one kind of request. Where a block has
6 sectors, 8 sectors from the last one of a block on touch three blocks, and `pd_read` fills 9216 bytes of
a buffer of 8192.

`ReadBlock.Fills` is what the loops need of a reader of blocks: it fills one block at the start of its
buffer, with contents that do not depend on the buffer.
-/

set_option autoImplicit false

open Bytes
open Prog (mark)

namespace LogDrive

/-! ## The readers fill a block -/

/-- In a whole run the reader fills the block at the start of the buffer, and nothing else of it. -/
def ReadBlock.Fills (readBlock : ReadBlock) : Prop := ∀ (d d' : PreservationDisk) (buf out : Mem) (block : Nat) (r : Int)
  (s s' : Os Event), Done (readBlock d buf block) s (r, out, d') s' → d'.header = d.header ∧
    d.header.blockSize ≤ buf.length ∧ r = 0 ∧ ∃ content, content.length = d.header.blockSize ∧
    out = store buf 0 content ∧ ∀ buf', d.header.blockSize ≤ buf'.length →
      Done (readBlock d buf' block) s (0, store buf' 0 content, d') s'

theorem readLatestBlock_fills (J : Junk) : ReadBlock.Fills (readLatestBlock J) := by
  intro d d' buf out block r s s' h
  obtain ⟨off, s1, h1, h2⟩ := h.bind_inv
  dsimp only at h2
  split at h2
  · rename_i h0
    obtain ⟨rfl, hbuf, rfl, rfl, rfl⟩ := clear_done h2
    refine ⟨rfl, hbuf, rfl, _, length_zeros _, rfl, fun buf' hbuf' => h1.bind ?_⟩
    dsimp only
    rw [if_pos h0]
    exact done_clear hbuf' ..
  · rename_i h0
    obtain ⟨⟨header, b1⟩, s2, h3, h4⟩ := h2.bind_inv
    dsimp only at h4
    split at h4
    · rename_i hz
      obtain ⟨rfl, hbuf, rfl, rfl, rfl⟩ := clear_done h4
      refine ⟨rfl, hbuf, rfl, _, length_zeros _, rfl, fun buf' hbuf' => h1.bind ?_⟩
      dsimp only
      rw [if_neg h0]
      refine h3.bind ?_
      dsimp only
      rw [if_pos hz]
      exact done_clear hbuf' ..
    · rename_i hz
      obtain ⟨rfl, hfit, hbuf, ⟨-, hheader⟩, bytes, st, hlen, -, rfl, hany⟩ := readPayload_done h4
      dsimp only at hfit hbuf hheader hany
      refine ⟨hheader, hbuf, rfl, _, by rw [List.length_append, length_zeros, hlen]; dsimp only; omega, rfl,
        fun buf' hbuf' => h1.bind ?_⟩
      dsimp only
      rw [if_neg h0]
      refine h3.bind ?_
      dsimp only
      rw [if_neg hz]
      exact hany buf' hbuf'

theorem readCurrentBlock_fills (J : Junk) (fuel : Nat) : ReadBlock.Fills (readCurrentBlock J fuel) := by
  intro d d' buf out block r s s' h
  obtain ⟨off, s1, h1, h2⟩ := h.bind_inv
  split at h2
  · rename_i bits cached hbits hcached
    obtain ⟨⟨o, size, d1⟩, s2, h3, h4⟩ := h2.bind_inv
    have hheader1 : d1.header = d.header := by
      split at h3
      · obtain ⟨⟨o1, size1, b1⟩, s3, h5, h6⟩ := h3.bind_inv
        obtain ⟨heq, -⟩ := h6.note_inv.ret_inv
        simp only [Prod.mk.injEq] at heq
        obtain ⟨-, -, rfl⟩ := heq
        rfl
      · obtain ⟨heq, -⟩ := h3.ret_inv
        simp only [Prod.mk.injEq] at heq
        obtain ⟨-, -, rfl⟩ := heq
        rfl
    have hrest : ∀ (buf' : Mem) (x : Int × Mem × PreservationDisk), Done (if o ≠ 0 ∧ size > 0 then readPayload d1 buf' o size
        else do let buf ← clearFrom buf' 0 d1.header.blockSize; pure (0, buf, d1)) s2 x s' →
        Done (readCurrentBlock J fuel d buf' block) s x s' := fun buf' x hd => by
      refine h1.bind ?_
      simp only [hbits, hcached]
      exact h3.bind hd
    dsimp only at h4
    rw [← hheader1]
    split at h4
    · rename_i hp
      obtain ⟨rfl, hfit, hbuf, ⟨-, hheader⟩, bytes, st, hlen, -, rfl, hany⟩ := readPayload_done h4
      refine ⟨hheader, hbuf, rfl, _, by rw [List.length_append, length_zeros, hlen]; omega, rfl,
        fun buf' hbuf' => hrest buf' _ ?_⟩
      rw [if_pos hp]
      exact hany buf' hbuf'
    · rename_i hp
      obtain ⟨rfl, hbuf, rfl, rfl, rfl⟩ := clear_done h4
      refine ⟨rfl, hbuf, rfl, _, length_zeros _, rfl, fun buf' hbuf' => hrest buf' _ ?_⟩
      rw [if_neg hp]
      exact done_clear hbuf' ..
  · exact h2.undefined_inv.elim

theorem readBlockOf_fills (J : Junk) (fuel : Nat) (d : PreservationDisk) : (readBlockOf J fuel d).Fills := by
  unfold readBlockOf
  split
  · exact readCurrentBlock_fills J fuel
  · exact readLatestBlock_fills J

/-! ## The unaligned path of `pd_read` -/

/-- A copy of bytes that have been filled. -/
theorem copyFrom_filled {content m m' bytes : Mem} {off n : Nat} {s s' : Os Event} (hin : ∀ k < n, off + k < content.length)
    (hm : content.length ≤ m'.length) (hoff : off ≤ m'.length) (h : Done (copyFrom (store m 0 content) off n) s bytes s') :
    Done (copyFrom (store m' 0 content) off n) s bytes s' := by
  have hslice : ∀ m : Mem, slice (store m 0 content) off n = slice content off n := fun m => by
    rcases Nat.eq_zero_or_pos n with rfl | h0
    · rw [slice_zero, slice_zero]
    · have := hin (n - 1) (by omega)
      exact slice_store (by omega)
  have hroom : off + n ≤ (store m' 0 content).length := by
    rw [length_store_of_le (by omega)]
    rcases Nat.eq_zero_or_pos n with rfl | h0
    · exact hoff
    · have := hin (n - 1) (by omega)
      omega
  unfold copyFrom at h ⊢
  rw [if_pos hroom, hslice m']
  split at h
  · rw [hslice m] at h
    exact h
  · exact h.undefined_inv.elim

section
variable {readBlock : ReadBlock} (hfill : readBlock.Fills) {spb : Nat}
include hfill

/-- The blocks fill the buffer one after the other, from the `k`th place on. -/
theorem readCovered_fills {blocks : List Nat} : ∀ {k : Nat} {disk d' : PreservationDisk} {buf out : Mem} {r : Int}
    {s s' : Os Event}, disk.header.blockSize = 512 * spb → k * (512 * spb) ≤ buf.length →
    Done (readCovered readBlock spb blocks disk k buf) s (r, out, d') s' → r = 0 ∧
      (k + blocks.length) * (512 * spb) ≤ buf.length ∧ ∃ content, content.length = blocks.length * (512 * spb) ∧
      out = store buf (k * (512 * spb)) content ∧ ∀ buf', (k + blocks.length) * (512 * spb) ≤ buf'.length →
        Done (readCovered readBlock spb blocks disk k buf') s (0, store buf' (k * (512 * spb)) content, d') s' := by
  induction blocks with
  | nil =>
    intro k disk d' buf out r s s' _ hk h
    obtain ⟨heq, rfl⟩ := h.ret_inv
    simp only [Prod.mk.injEq] at heq
    obtain ⟨rfl, rfl, rfl⟩ := heq
    refine ⟨rfl, hk, [], by simp, (store_nil ..).symm, fun buf' _ => ?_⟩
    rw [store_nil]
    exact .ret ..
  | cons block blocks ih =>
    intro k disk d' buf out r s s' hblock hk h
    simp only [readCovered, defaultSectorSize] at h
    rw [if_pos hk] at h
    obtain ⟨⟨r1, bytes, d1⟩, s1, h1, h2⟩ := h.bind_inv
    obtain ⟨hheader, hbuf, rfl, content, hlen, rfl, hany⟩ := hfill _ _ _ _ _ _ _ _ h1
    rw [hblock] at hlen hbuf hany
    rw [List.length_drop] at hbuf
    have hnext : (k + 1) * (512 * spb) = k * (512 * spb) + content.length := by rw [Nat.add_mul, Nat.one_mul, hlen]
    have hall : (k + (block :: blocks).length) * (512 * spb) = (k + 1 + blocks.length) * (512 * spb) := by
      rw [List.length_cons, Nat.add_assoc, Nat.add_comm 1]
    have hsplit : (k + 1 + blocks.length) * (512 * spb) = k * (512 * spb) + content.length + blocks.length * (512 * spb) := by
      rw [Nat.add_mul, hnext]
    -- the block is stored at its place
    have hplace : ∀ m : Mem, k * (512 * spb) + content.length ≤ m.length →
        m.take (k * (512 * spb)) ++ store (m.drop (k * (512 * spb))) 0 content = store m (k * (512 * spb)) content :=
      fun m hm => take_append_store hm
    have hroom : k * (512 * spb) + content.length ≤ buf.length := by
      rw [hlen]; omega
    dsimp only at h2
    rw [if_neg (by decide), hplace buf hroom] at h2
    obtain ⟨rfl, hfit, rest, hrestLen, rfl, hrest⟩ := ih (hheader ▸ hblock) (by rw [hnext, length_store_of_le hroom]; exact hroom) h2
    rw [length_store_of_le hroom] at hfit
    refine ⟨rfl, by rw [hall]; exact hfit, content ++ rest, ?_, ?_, fun buf' hbuf' => ?_⟩
    · rw [List.length_append, hlen, hrestLen, List.length_cons, Nat.add_mul, Nat.one_mul, Nat.add_comm]
    · rw [hnext, store_store_append (by omega)]
    · rw [hall, hsplit] at hbuf'
      have hroom' : k * (512 * spb) + content.length ≤ buf'.length := by omega
      simp only [readCovered, defaultSectorSize]
      rw [if_pos (by omega)]
      refine (hany (buf'.drop (k * (512 * spb))) (by rw [List.length_drop]; omega)).bind ?_
      dsimp only
      rw [if_neg (by decide), hplace buf' hroom', ← store_store_append (by omega), ← hnext]
      exact hrest _ (by rw [length_store_of_le hroom', hsplit]; exact hbuf')

/-- A whole run of the unaligned path is one with any buffer that holds the blocks. -/
theorem pdReadStaged_run (hkeep : readBlock.Keeps) {q : TdRequest} {blocks : List Nat} {disk : PreservationDisk} {buf buf' : Mem}
    {x : Int × Mem × PreservationDisk} {s s' : Os Event} (hsectors : disk.sectorsPerBlock = spb)
    (hblock : disk.header.blockSize = 512 * spb) (hcover : coverBlocks spb q (q.secs + 1) q.sec = some blocks)
    (hin : ∀ k < q.secs * 512, q.sec % spb * 512 + k < blocks.length * (512 * spb))
    (hbuf : blocks.length * (512 * spb) ≤ buf'.length) (hfirst : q.sec % spb * 512 ≤ buf'.length)
    (h : Done (pdReadStaged readBlock q buf disk) s x s') : Done (pdReadStaged readBlock q buf' disk) s x s' := by
  unfold pdReadStaged at h ⊢
  simp only [hsectors, pdReadCover_eq hkeep hsectors hcover] at h ⊢
  obtain ⟨⟨r, out, d1⟩, s1, h1, h2⟩ := h.bind_inv
  obtain ⟨rfl, hfit, content, hlen, rfl, hany⟩ := readCovered_fills hfill hblock (by omega) h1
  rw [Nat.zero_add] at hfit
  simp only [Nat.zero_mul, Nat.zero_add] at hany h2
  refine (hany buf' hbuf).bind ?_
  dsimp only at h2 ⊢
  rw [if_neg (by decide)] at h2 ⊢
  obtain ⟨bytes, s2, h3, h4⟩ := h2.bind_inv
  exact (copyFrom_filled (by rw [hlen]; exact hin) (by rw [hlen]; exact hbuf) hfirst h3).bind h4

end

/-! ## `pd_write` -/

/-- What one turn of `pd_write` does with a block that has been changed, with the offset of the version
before. The local buffer has no part in it. -/
def logBlock (q : WriteRequest) (disk : PreservationDisk) (block : Nat) (data : Mem) :
    Prog Event (Nat × PreservationDisk) := do
  let next ← indexAt disk block
  if getActualDataSize disk data = 0 ∧ next = 0 then pure (next, disk)
  else
    let (offset, bio) ← bioWrite disk.bio (trimmedEntry disk data 0 q.ts next (tabulate q.pad 6)).bytes
    mark (.indexed block offset)
    pure (next, { disk with bio := bio, indexTable := disk.indexTable.set block offset })

theorem logBlock_header (q : WriteRequest) (disk : PreservationDisk) (block : Nat) (data : Mem) :
    (logBlock q disk block data).Returns fun r => r.2.header = disk.header := by
  refine .bind_any fun next => ?_
  dsimp only
  split
  · rfl
  · exact .bind_any fun r => rfl

section
variable {q : WriteRequest} {disk : PreservationDisk} {block : Nat}

/-- The size of what has been stored over a buffer. -/
theorem getActualDataSize_store {m data : Mem} (h : disk.header.blockSize ≤ data.length) :
    getActualDataSize disk (store m 0 data) = getActualDataSize disk data :=
  actualDataSize_congr fun p hp => by rw [byteAt_store_inside (by omega) (by omega), Nat.sub_zero]

/-- The entry that is appended lies in the local buffer. -/
theorem copyFrom_entry {m data : Mem} {next : Nat} (hblock : disk.header.blockSize % 512 = 0)
    (hdata : disk.header.blockSize ≤ data.length) (hm : data.length ≤ m.length) :
    copyFrom (EntryHeader.toBytes ⟨q.ts, next, getActualDataSize disk data % 2 ^ 16, tabulate q.pad 6⟩ ++ store m 0 data) 0
      (entryHeaderSize + getActualDataSize disk data) =
        .ret (trimmedEntry disk data 0 q.ts next (tabulate q.pad 6)).bytes := by
  have hle := @getActualDataSize_le disk data hblock
  have hstore : (store m 0 data).length = m.length := length_store_of_le (by omega)
  have hpart : (store m 0 data).take (getActualDataSize disk data) = data.take (getActualDataSize disk data) :=
    @slice_store m data 0 _ (by omega)
  rw [EntryHeader.copyFrom_toBytes (length_tabulate _ _) (by omega), hpart]
  rfl

/-- **One turn** of `pd_write`, once the reader has put `content` in the buffer: the part is stored in it
and the block is logged. -/
theorem pdWriteBlock_tail {start size done : Nat} {m content : Mem} (hblock : disk.header.blockSize % 512 = 0)
    (hlen : content.length = disk.header.blockSize) (hm : content.length ≤ m.length) (hpart : start + size ≤ content.length) :
    (if start + size ≤ (store m 0 content).length then do
      let data := store (store m 0 content) start (q.source done size)
      let dataSize := getActualDataSize disk data
      let next ← indexAt disk block
      let header : EntryHeader := ⟨q.ts, next, dataSize % 2 ^ 16, tabulate q.pad 6⟩
      let buf := header.toBytes ++ data
      if dataSize = 0 ∧ next = 0 then pure ((0 : Int), disk, buf)
      else
        let bytes ← copyFrom buf 0 (entryHeaderSize + dataSize)
        let (offset, bio) ← bioWrite disk.bio bytes
        mark (.indexed block offset)
        pure (0, { disk with bio := bio, indexTable := disk.indexTable.set block offset }, buf)
    else .undefined) = (logBlock q disk block (store content start (q.source done size))).bind fun r =>
      .ret (0, r.2, EntryHeader.toBytes ⟨q.ts, r.1,
        getActualDataSize disk (store content start (q.source done size)) % 2 ^ 16, tabulate q.pad 6⟩ ++
          store m 0 (store content start (q.source done size))) := by
  have hsource : (q.source done size).length = size := length_tabulate _ _
  have hP : (store content start (q.source done size)).length = content.length := length_store_of_le (by omega)
  rw [if_pos (by rw [length_store_of_le (by omega)]; omega), store_store_inside (by omega) hm]
  generalize store content start (q.source done size) = data at hP ⊢
  simp only [getActualDataSize_store (m := m) (show disk.header.blockSize ≤ data.length by omega), logBlock, Prog.bind_eq,
    Prog.bind_assoc]
  congr 1
  funext next
  split
  · rfl
  · rw [copyFrom_entry hblock (by omega) (by omega)]
    simp only [Prog.bind_assoc, Prog.pure_eq, Prog.mark_bind, Prog.bind]

/-- A whole turn is one with any buffer that holds a header and a block. -/
theorem pdWriteBlock_run {J : Junk} {d' : PreservationDisk} {start size done : Nat} {buf buf' out : Mem} {r : Int}
    {s s' : Os Event} (hblock : disk.header.blockSize % 512 = 0) (hpart : start + size ≤ disk.header.blockSize)
    (hbuf : entryHeaderSize + disk.header.blockSize ≤ buf'.length)
    (h : Done (pdWriteBlock J q disk block start size done buf) s (r, d', out) s') : r = 0 ∧ d'.header = disk.header ∧
      ∃ out', out'.length = buf'.length ∧ Done (pdWriteBlock J q disk block start size done buf') s (0, d', out') s' := by
  obtain ⟨⟨r1, data, d1⟩, s1, h1, h2⟩ := h.bind_inv
  obtain ⟨hheader, hroom, rfl, content, hlen, rfl, hany⟩ := readLatestBlock_fills J _ _ _ _ _ _ _ _ h1
  have hblock1 : d1.header.blockSize % 512 = 0 := by rw [hheader]; exact hblock
  have hlen1 : content.length = d1.header.blockSize := by rw [hheader]; exact hlen
  have hroom' : disk.header.blockSize ≤ (buf'.drop entryHeaderSize).length := by rw [List.length_drop]; omega
  dsimp only at h2
  rw [if_neg (by decide), pdWriteBlock_tail hblock1 hlen1 (by omega) (by omega)] at h2
  obtain ⟨⟨next, d2⟩, s2, h3, h4⟩ := h2.bind_inv
  obtain ⟨heq, rfl⟩ := h4.ret_inv
  simp only [Prod.mk.injEq] at heq
  obtain ⟨rfl, rfl, -⟩ := heq
  have hkept : d2.header = d1.header := h3.elim fun _ hr => (logBlock_header q d1 block _).of_run hr
  have hP : (store content start (q.source done size)).length = content.length :=
    length_store_of_le (by rw [TdRequest.source, length_tabulate]; omega)
  refine ⟨rfl, hkept.trans hheader, EntryHeader.toBytes ⟨q.ts, next,
    getActualDataSize d1 (store content start (q.source done size)) % 2 ^ 16, tabulate q.pad 6⟩ ++
      store (buf'.drop entryHeaderSize) 0 (store content start (q.source done size)), ?_, (hany _ hroom').bind ?_⟩
  · rw [List.length_append, EntryHeader.length_padded (length_tabulate _ _), length_store_of_le (by omega), List.length_drop]
    omega
  · dsimp only
    rw [if_neg (by decide), pdWriteBlock_tail hblock1 hlen1 (by omega) (by omega)]
    exact h3.bind (.ret ..)

/-- A whole run over the pieces is one with any such buffer. -/
theorem writeEach_run {J : Junk} {spb : Nat} {pieces : List Piece} : ∀ {disk : PreservationDisk} {buf buf' : Mem}
    {x : Int × PreservationDisk} {s s' : Os Event}, (∀ p ∈ pieces, p.start + p.size ≤ 512 * spb) →
    disk.header.blockSize = 512 * spb → entryHeaderSize + 512 * spb ≤ buf'.length →
    Done (writeEach J q pieces disk buf) s x s' → Done (writeEach J q pieces disk buf') s x s' := by
  induction pieces with
  | nil => exact fun _ _ _ h => h
  | cons p ps ih =>
    intro disk buf buf' x s s' hparts hblock hbuf h
    obtain ⟨⟨r, d1, out⟩, s1, h1, h2⟩ := h.bind_inv
    obtain ⟨rfl, hheader, out', hlen, hrun⟩ := pdWriteBlock_run (by omega)
      (by rw [hblock]; exact hparts p List.mem_cons_self) (by rw [hblock]; exact hbuf) h1
    dsimp only at h2
    rw [if_neg (by decide)] at h2
    refine hrun.bind ?_
    dsimp only
    rw [if_neg (by decide)]
    exact ih (fun p' hp' => hparts p' (List.mem_cons_of_mem _ hp')) (hheader ▸ hblock) (by rw [hlen]; exact hbuf) h2

end

/-! ## The blocks and pieces of a request -/

theorem coverBlocks_unique {spb : Nat} {q : TdRequest} {fuel fuel' s : Nat} {blocks blocks' : List Nat}
    (h : coverBlocks spb q fuel s = some blocks) (h' : coverBlocks spb q fuel' s = some blocks') : blocks = blocks' := by
  induction fuel generalizing fuel' s blocks blocks' with
  | zero => cases h
  | succ fuel ih =>
    cases fuel' with
    | zero => cases h'
    | succ fuel' =>
      rw [coverBlocks] at h h'
      split at h
      · rename_i hs
        rw [if_pos hs] at h'
        obtain ⟨rest, hrest, rfl⟩ := Option.map_eq_some_iff.1 h
        obtain ⟨rest', hrest', rfl⟩ := Option.map_eq_some_iff.1 h'
        rw [ih hrest hrest']
      · rename_i hs
        rw [if_neg hs] at h'
        cases h
        cases h'
        rfl

/-- The loop of `pd_write` goes through the blocks that the one of `pd_read` goes through. -/
theorem coverBlocks_of_writePieces {spb : Nat} {q : TdRequest} {fuel s remain : Nat} {pieces : List Piece}
    (h : writePieces spb q fuel s remain = some pieces) : coverBlocks spb q fuel s = some (pieces.map Piece.block) := by
  induction fuel generalizing s remain pieces with
  | zero => cases h
  | succ fuel ih =>
    rw [writePieces] at h
    rw [coverBlocks]
    split at h
    · rename_i hs
      obtain ⟨rest, hrest, rfl⟩ := Option.map_eq_some_iff.1 h
      rw [if_pos hs, ih hrest, Option.map_some, List.map_cons]
    · rename_i hs
      cases h
      rw [if_neg hs]
      rfl

/-- A loop to a sector past the blocks with an `int` for a number ends only after a negative number. -/
theorem exists_negative_block {spb : Nat} {q : TdRequest} (hwrap : q.sec + q.secs < 2 ^ 64) (hfar : 2 ^ 31 * spb < q.sec + q.secs)
    {fuel s : Nat} {blocks : List Nat} (h : coverBlocks spb q fuel s = some blocks) (hs : s < q.sec + q.secs) :
    ∃ b ∈ blocks, 2 ^ 64 - 2 ^ 31 ≤ b := by
  induction fuel generalizing s blocks with
  | zero => cases h
  | succ fuel ih =>
    rw [coverBlocks, u64_of_lt hwrap, if_pos hs] at h
    obtain ⟨rest, hrest, rfl⟩ := Option.map_eq_some_iff.1 h
    rcases blockOf_range spb s with hb | hb
    · have hnext : (blockOf spb s + 1) * spb ≤ 2 ^ 31 * spb := Nat.mul_le_mul_right _ hb
      rw [u64_of_lt (by omega)] at hrest
      obtain ⟨b, hm, hb'⟩ := ih hrest (by omega)
      exact ⟨b, List.mem_cons_of_mem _ hm, hb'⟩
    · exact ⟨_, List.mem_cons_self, hb⟩

theorem range'_join {a b m n k : Nat} (hb : b = a + m) (hk : m + n = k) :
    List.range' a m ++ List.range' b n = List.range' a k := by
  rw [hb, List.range'_append_1, hk]

section
variable {spb : Nat} (hspb : 0 < spb) {q : TdRequest}
include hspb

/-- A piece lies in its block. -/
theorem piece_inside {b : Nat} (hb : b ∈ q.blocks spb) : (q.piece spb b).start + (q.piece spb b).size ≤ 512 * spb := by
  obtain ⟨-, hfirst, -⟩ := mem_blocksFrom.1 hb
  have hlt : q.sec < (b + 1) * spb := (Nat.div_lt_iff_lt_mul hspb).1 (by omega)
  rw [Nat.add_mul, Nat.one_mul] at hlt
  simp only [TdRequest.piece, Nat.add_mul, Nat.one_mul]
  omega

/-- The pieces from a sector on take the caller's bytes from there on. -/
theorem taken_from (hsecs : q.secs ≤ 8) {fuel s : Nat} (hfuel : q.sec + q.secs - s < fuel)
    (hs : s = q.sec ∨ q.sec ≤ s ∧ s % spb = 0) :
    ((blocksFrom spb s (q.sec + q.secs)).map (q.piece spb)).flatMap Piece.taken =
      (List.range' ((s - q.sec) * 512) ((q.sec + q.secs - s) * 512)).map fun k : Nat => (k : Int) := by
  induction fuel generalizing s with
  | zero => omega
  | succ fuel ih =>
    by_cases h : s < q.sec + q.secs
    · obtain ⟨hlo, hhi⟩ := sector_bounds hspb s
      have hsum : (s / spb + 1) * spb = s / spb * spb + spb := by rw [Nat.add_mul, Nat.one_mul]
      have hmod : s % spb = s - s / spb * spb := by
        have := Nat.div_add_mod s spb
        rw [Nat.mul_comm] at this
        omega
      have hfirst : max q.sec (s / spb * spb) = s := by omega
      have hpiece : (q.piece spb (s / spb)).taken =
          (List.range' ((s - q.sec) * 512) ((min (q.sec + q.secs) ((s / spb + 1) * spb) - s) * 512)).map
            fun k : Nat => (k : Int) := by
        have hdone : ((s - q.sec : Nat) : Int) * (defaultSectorSize : Nat) = (((s - q.sec) * 512 : Nat) : Int) := by push_cast; rfl
        simp only [Piece.taken, TdRequest.piece, hfirst, hdone]
        rw [toInt_of_lt (by omega), List.range'_eq_map_range, List.map_map]
        refine List.map_congr_left fun k _ => ?_
        simp only [Function.comp_apply]
        push_cast
        rfl
      rw [blocksFrom_cons hspb h, List.map_cons, List.flatMap_cons, hpiece,
        ih (by omega) (.inr ⟨by omega, Nat.mul_mod_left _ _⟩), ← List.map_append]
      refine congrArg (List.map _) ?_
      by_cases hn : (s / spb + 1) * spb ≤ q.sec + q.secs
      · exact range'_join (by omega) (by omega)
      · have hlast : min (q.sec + q.secs) ((s / spb + 1) * spb) = q.sec + q.secs := by omega
        have hrest : q.sec + q.secs - (s / spb + 1) * spb = 0 := by omega
        rw [hrest, hlast, Nat.zero_mul, List.range'_zero, List.append_nil]
    · rw [blocksFrom, if_neg h, show q.sec + q.secs - s = 0 by omega]
      rfl

end

/-! ## The bound -/

/-- The blocks of a request fill the buffer no further than it goes, and as far as is copied. -/
theorem blocks_staged {spb : Nat} (hpos : 0 < spb) (h8 : spb ≤ 8) {q : TdRequest} (hsecs : q.secs ≤ 8)
    (hsix : q.secs = 0 ∨ ¬(spb = 6 ∧ q.sec % 6 = 5 ∧ q.secs = 8)) :
    (q.blocks spb).length * (512 * spb) ≤ defaultBlockSize * 2 ∧
    ∀ k < q.secs * 512, q.sec % spb * 512 + k < (q.blocks spb).length * (512 * spb) := by
  rw [TdRequest.blocks, blocksFrom]
  split
  · obtain ⟨hfit, hin⟩ := @blocks_fit spb q.sec q.secs hpos h8 (by omega) hsecs (by omega)
    rw [List.length_range']
    exact ⟨hfit, fun k hk => by omega⟩
  · rw [List.length_nil, Nat.zero_mul]
    exact ⟨Nat.zero_le _, fun k hk => by omega⟩

/-- **The local buffers are large enough** exactly for the requests below block `2 ^ 31` that do not touch
three blocks of 6 sectors. -/
theorem staging_fits {spb diskSize : Nat} (hpos : 0 < spb) (h8 : spb ≤ 8) (hsize : diskSize < 2 ^ 64) {q : TdRequest}
    (hin : q.sec + q.secs ≤ diskSize / 512) (hsecs : q.secs ≤ 8) : StagingFits spb q ↔
      q.secs = 0 ∨ q.sec + q.secs ≤ 2 ^ 31 * spb ∧ ¬(spb = 6 ∧ q.sec % 6 = 5 ∧ q.secs = 8) := by
  have hwrap : q.sec + q.secs + spb < 2 ^ 64 := by omega
  constructor
  · intro h
    rcases Nat.eq_zero_or_pos q.secs with h0 | h0
    · exact .inl h0
    have hint : q.sec + q.secs ≤ 2 ^ 31 * spb := by
      by_contra hfar
      obtain ⟨fuel, pieces, hp, hinside, -⟩ := h.write
      obtain ⟨b, hb, hneg⟩ := exists_negative_block (by omega) (by omega) (coverBlocks_of_writePieces hp) (by omega)
      obtain ⟨p, hp', rfl⟩ := List.mem_map.1 hb
      obtain ⟨-, -, hle⟩ := mem_blocksFrom.1 (hinside p hp').1
      have := Nat.div_le_self (q.sec + q.secs - 1) spb
      omega
    refine .inr ⟨hint, ?_⟩
    rintro ⟨rfl, hsec, h8'⟩
    obtain ⟨fuel, blocks, hc, -, hfit, -⟩ := h.read (by omega)
    obtain rfl := coverBlocks_unique hc (coverBlocks_eq hpos hwrap ((blocks_bound hpos).2 (.inr hint)))
    rw [TdRequest.blocks, blocksFrom, if_pos (by omega), List.length_range'] at hfit
    simp only [defaultBlockSize] at hfit
    omega
  · intro h
    have hint := (blocks_bound hpos).2 (h.imp_right And.left)
    have hcover := coverBlocks_eq hpos hwrap hint
    have hwrite := writePieces_eq hpos hwrap hint
    obtain ⟨hfit, hcopied⟩ := blocks_staged hpos h8 hsecs (h.imp_right And.right)
    have hpieces : ∀ p ∈ q.pieces spb, p.block ∈ q.blocks spb ∧ p.start + p.size ≤ 512 * spb := fun p hp => by
      obtain ⟨b, hb, rfl⟩ := List.mem_map.1 hp
      exact ⟨hb, piece_inside hpos hb⟩
    refine ⟨fun _ => ⟨_, _, hcover, fun b hb => hb, hfit, hcopied⟩, ⟨_, _, hwrite, hpieces, ?_⟩, ?_, ?_, ?_⟩
    · have := taken_from hpos hsecs (Nat.lt_succ_self (q.sec + q.secs - q.sec)) (.inl rfl)
      rw [Nat.sub_self, Nat.zero_mul, Nat.add_sub_cancel_left, ← List.range_eq_range'] at this
      exact this
    · intro disk data hblock
      have := @getActualDataSize_le disk data (by omega)
      simp only [defaultBlockSize]
      omega
    · intro J fuel d disk buf r s s' hsectors hblock hbuf
      have hmod := Nat.mod_lt q.sec hpos
      simp only [defaultBlockSize] at hbuf hfit
      have hrun : ∀ a b : Mem, 8192 ≤ b.length → Done (pdReadStaged (readBlockOf J fuel d) q a disk) s r s' →
          Done (pdReadStaged (readBlockOf J fuel d) q b disk) s r s' := fun a b hb =>
        pdReadStaged_run (readBlockOf_fills J fuel d) (readBlockOf_keeps J fuel d) hsectors hblock hcover hcopied
          (by omega) (by omega)
      exact ⟨hrun _ _ hbuf, hrun _ (zeros 8192) (length_zeros _).ge⟩
    · intro J ts pad disk buf r s s' hsectors hblock hbuf
      simp only [entryHeaderSize, defaultBlockSize] at hbuf
      have hrun : ∀ a b : Mem, 4128 ≤ b.length → Done (writeEach J ⟨q, ts, pad⟩ (q.pieces spb) disk a) s r s' →
          Done (writeEach J ⟨q, ts, pad⟩ (q.pieces spb) disk b) s r s' := fun a b hb =>
        writeEach_run (fun p hp => (hpieces p hp).2) hblock (by simp only [entryHeaderSize]; omega)
      rw [pdWrite, pdWriteLoop_eq (q := ⟨q, ts, pad⟩) (by omega) hsectors hwrite,
        pdWriteLoop_eq (q := ⟨q, ts, pad⟩) (by omega) hsectors hwrite]
      exact ⟨hrun _ _ hbuf, hrun _ _ (length_zeros _).ge⟩

/-- A page on a disk with blocks of 3072 bytes. -/
theorem staging_fits_page : StagingFits 6 ⟨4, 8, fun _ => 0⟩ :=
  (@staging_fits 6 9216 (by decide) (by decide) (by decide) ⟨4, 8, fun _ => 0⟩ (by decide) (by decide)).2
    (.inr ⟨by decide, by decide⟩)

/-! ## Three blocks of 6 sectors -/

/-- A disk of three blocks of 3072 bytes, none of which has been written. -/
def sixDisk : PreservationDisk :=
  ⟨⟨9216, 3072, 1024, []⟩, bioInit zeroJunk false 1024, false, ⟨0, 0⟩, 6, List.replicate 64 0, [], []⟩

/-- A block that has not been written is cleared. -/
theorem readCovered_blank {J : Junk} {spb block k : Nat} {blocks : List Nat} {disk : PreservationDisk} {buf : Mem}
    (hindex : disk.indexTable[block]? = some 0) (hblock : disk.header.blockSize = 512 * spb) :
    readCovered (readLatestBlock J) spb (block :: blocks) disk k buf =
      if k * (512 * spb) + 512 * spb ≤ buf.length then
        readCovered (readLatestBlock J) spb blocks disk (k + 1) (store buf (k * (512 * spb)) (zeros (512 * spb)))
      else .undefined := by
  simp only [readCovered, defaultSectorSize, readLatestBlock, indexAt, hindex, clearFrom, hblock, List.length_drop,
    Nat.zero_add, Prog.pure_eq, Prog.bind_eq, Prog.ret_bind, if_true]
  by_cases hstart : k * (512 * spb) ≤ buf.length
  · rw [if_pos hstart]
    by_cases hroom : k * (512 * spb) + 512 * spb ≤ buf.length
    · rw [if_pos hroom, if_pos (show 512 * spb ≤ buf.length - k * (512 * spb) by omega)]
      simp only [Prog.ret_bind]
      rw [if_neg (by decide), take_append_store (by rw [length_zeros]; exact hroom)]
    · rw [if_neg hroom, if_neg (show ¬512 * spb ≤ buf.length - k * (512 * spb) by omega)]
      rfl
  · rw [if_neg hstart, if_neg (by omega)]

/-- 8 sectors from the last one of the first block on. -/
theorem staging_overflows : ¬(∀ spb diskSize (q : TdRequest), 0 < spb → spb ≤ 8 → diskSize < 2 ^ 64 →
    q.sec + q.secs ≤ diskSize / 512 → q.secs ≤ 8 → StagingFits spb q) ∧
    pdRead zeroJunk 0 sixDisk ⟨5, 8, fun _ => 0⟩ = .undefined := by
  have hcover : coverBlocks 6 ⟨5, 8, fun _ => 0⟩ 9 5 = some [0, 1, 2] := by decide
  refine ⟨fun h => ?_, ?_⟩
  · obtain ⟨fuel, blocks, hc, -, hfit, -⟩ := (h 6 9216 ⟨5, 8, fun _ => 0⟩ (by decide) (by decide) (by decide) (by decide)
      (by decide)).read (by decide)
    obtain rfl := coverBlocks_unique hc hcover
    exact absurd hfit (by decide)
  · have hindex : ∀ b < 3, sixDisk.indexTable[b]? = some 0 := by decide
    have hfirst : (store (zeros 8192) (0 * (512 * 6)) (zeros (512 * 6))).length = 8192 := by
      rw [length_store_of_le (by rw [length_zeros, length_zeros]; decide), length_zeros]
    have hsecond : (store (store (zeros 8192) (0 * (512 * 6)) (zeros (512 * 6))) ((0 + 1) * (512 * 6))
        (zeros (512 * 6))).length = 8192 := by
      rw [length_store_of_le (by rw [hfirst, length_zeros]; decide), hfirst]
    have hread : pdReadCover (readLatestBlock zeroJunk) ⟨5, 8, fun _ => 0⟩ (8 + 1) sixDisk 5 0
        (zeros (defaultBlockSize * 2)) = .undefined := by
      rw [show defaultBlockSize * 2 = 8192 from rfl, pdReadCover_eq (readLatestBlock_keeps zeroJunk) (show sixDisk.sectorsPerBlock = 6 from rfl) hcover]
      rw [readCovered_blank (hindex 0 (by decide)) rfl, if_pos (by rw [length_zeros]; decide)]
      rw [readCovered_blank (hindex 1 (by decide)) rfl, if_pos (by rw [hfirst]; decide)]
      rw [readCovered_blank (hindex 2 (by decide)) rfl, if_neg (by rw [hsecond]; decide)]
    have hpath : pdRead zeroJunk 0 sixDisk ⟨5, 8, fun _ => 0⟩ =
        pdReadUnaligned (readLatestBlock zeroJunk) ⟨5, 8, fun _ => 0⟩ sixDisk := by
      unfold pdRead
      rw [if_neg (by decide), if_neg (by decide)]
      rfl
    simp only [hpath, pdReadUnaligned, Prog.bind_eq, hread, Prog.undefined_bind]

end LogDrive
