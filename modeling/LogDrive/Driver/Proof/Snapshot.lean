import LogDrive.Driver.Proof.Read
import LogDrive.Driver.Proof.Sessions

/-!
# Reading a log that is never written: `read_current_block`

A read-only session reads the records that the file held when it was opened (`Snapshot`), whatever
others do to the rest of the file. Its read buffer holds their bytes (`ReadBuffer`), its index,
bitmap and size cache hold for each block the newest version or, once the block has been read, the
version that was searched for (`Travelling`). `snapshotReader` is what the requests need.
-/

set_option autoImplicit false

open Bytes

namespace LogDrive

/-- The newest version before `ts`. -/
def asOfVersion (ts : TimeSpec) (vs : List Version) : Option Version := vs.find? fun v => v.head.ts.before ts

/-- The bytes of a block as of `ts`. -/
def asOfByte (ts : TimeSpec) (recs : List Rec) (b : Nat) : Nat → UInt8 :=
  contentOf (asOfVersion ts (chainOf recs b)).toList

/-- An event of a session that reads the records. -/
def Right (recs : List Rec) : Event → Prop
  | .fetched pos bytes stale => stale = false ∧
    ∀ e ∈ entries recs, e.Covers pos bytes.length → bytes = e.part pos bytes.length
  | .logged _ _ => False
  | _ => True

/-- While the system is as `K` says, the file holds the records, all below `N`. -/
structure Snapshot (L : Logic Event) (n N : Nat) (recs : List Rec) (K : Os Event → Prop) : Prop where
  wf : LogWF n recs
  below : ∀ r ∈ recs, r.ver.stop ≤ N
  bound : N ≤ offMax
  inFile : ∀ s, K s → ∀ r ∈ recs, r.ver.stop ≤ s.file.length
  holds : ∀ s, K s → ∀ r ∈ recs, Holds (byteAt s.file) r.ver.off r.ver.bytes
  rely : ∀ s f pos, K s → L.rely s.notes s.file f → K ⟨f, pos, s.notes⟩
  note : ∀ s e, K s → Right recs e → K { s with notes := e :: s.notes }
  sure : L.total → ∀ s e, K s → Right recs e → L.assume s.notes e

/-! ## `bio_read` -/

structure ReadBuffer (N : Nat) (recs : List Rec) (b : BufferedIo) : Prop where
  readOnly : b.readOnly = true
  next : b.nextOffset = N
  winLen : b.readBuffer.length = readBufferSize
  filled : b.readBufferEnable = true → b.filledAt = N
  window : b.readBufferEnable = true → ∀ r ∈ recs, ∀ i, r.ver.off ≤ i → i < r.ver.stop →
    b.readBufferPos ≤ i → i < b.readBufferPos + readBufferSize →
    byteAt b.readBuffer (i - b.readBufferPos) = byteAt r.ver.bytes (i - r.ver.off)

theorem bioInit_readBuffer (J : Junk) (N : Nat) (recs : List Rec) : ReadBuffer N recs (bioInit J true N) where
  readOnly := rfl
  next := rfl
  winLen := by simp [bioInit]
  filled h := by cases h
  window h := by cases h

section
variable {n N : Nat} {recs : List Rec} {b : BufferedIo}

/-- What the read buffer gives of a version. -/
theorem ReadBuffer.part (hB : ReadBuffer N recs b) (hwf : LogWF n recs) (hen : b.readBufferEnable = true)
    {pos size : Nat} (hlo : b.readBufferPos ≤ pos) (hhi : pos - b.readBufferPos + size ≤ readBufferSize)
    {e : Entry} (he : e ∈ entries recs) (hc : e.Covers pos size) :
    slice b.readBuffer (pos - b.readBufferPos) size = e.part pos size := by
  obtain ⟨r, hr, rfl⟩ := mem_entries.1 he
  obtain ⟨h1, h2⟩ := hc
  rw [Version.stop_entry _ (hwf.mem hr).2.2] at h2
  have hoff : r.ver.entry.off = r.ver.off := rfl
  have hin : pos - b.readBufferPos + size ≤ b.readBuffer.length := by rw [hB.winLen]; exact hhi
  have hl := length_slice_of_le hin
  have hl' : (r.ver.entry.part pos size).length = size := Entry.length_part ⟨h1, by
    rw [Version.stop_entry _ (hwf.mem hr).2.2]; exact h2⟩
  refine ext_byteAt (by rw [hl, hl']) fun i hi => ?_
  rw [hl] at hi
  have hwin := hB.window hen r hr (pos + i) (by omega) (by omega) (by omega) (by omega)
  rw [byteAt_slice hi, Entry.byteAt_part hi]
  rw [show pos - b.readBufferPos + i = pos + i - b.readBufferPos by omega, hwin]
  exact congrArg (byteAt r.ver.bytes) (by omega)

theorem ReadBuffer.loaded {L : Logic Event} {K : Os Event → Prop} (hS : Snapshot L n N recs K)
    (hB : ReadBuffer N recs b) {s : Os Event} (hK : K s) (p : Nat) :
    ReadBuffer N recs (b.loaded p (slice s.file p readBufferSize)) := by
  have hlen : (slice s.file p readBufferSize).length = min readBufferSize (s.file.length - p) := length_slice ..
  refine ⟨hB.readOnly, hB.next, ?_, fun _ => hB.next, fun _ r hr i h1 h2 h3 h4 => ?_⟩
  · simp only [BufferedIo.loaded, BufferedIo.aimed]
    rw [length_store_of_le (by rw [hB.winLen]; omega), hB.winLen]
  · simp only [BufferedIo.loaded, BufferedIo.aimed] at h3 h4 ⊢
    have hin := hS.inFile s hK r hr
    have hstop : r.ver.stop = r.ver.off + r.ver.bytes.length := by
      rw [Version.length_bytes _ (hS.wf.mem hr).2.2, Version.stop, entryHeaderSize, Nat.add_assoc]
    rw [byteAt_store_inside (Nat.zero_le _) (by omega), Nat.sub_zero, byteAt_slice (by omega),
      ← hS.holds s hK r hr (i - r.ver.off) (by omega)]
    exact congrArg (byteAt s.file) (by omega)

end

section
variable {L : Logic Event} {n N : Nat} {recs : List Rec} {K : Os Event → Prop} (hS : Snapshot L n N recs K)
variable {b : BufferedIo} {s : Os Event}
include hS

theorem Snapshot.entry_stop {e : Entry} (he : e ∈ entries recs) : e.stop ≤ N := by
  obtain ⟨r, hr, rfl⟩ := mem_entries.1 he
  rw [Version.stop_entry _ (hS.wf.mem hr).2.2]
  exact hS.below r hr

/-- Reading inside a version gives its bytes. -/
theorem wp_snapshotRead (hB : ReadBuffer N recs b) (hK : K s) {pos size : Nat} {e : Entry}
    (he : e ∈ entries recs) (hc : e.Covers pos size) (h0 : 0 < size) (hsize : size ≤ 4096) :
    wp L (bioRead b pos size) (fun o s' => o.1 = some (e.part pos size) ∧ ReadBuffer N recs o.2 ∧
      K s') s := by
  have hN := hS.bound
  have hstop := hS.entry_stop he
  have hpos : pos < N := by have := hc.2; omega
  simp only [offMax] at hN
  -- the event and the end of the read, from a read buffer that covers the range
  have hgot : ∀ (b' : BufferedIo) (s' : Os Event), ReadBuffer N recs b' → b'.readBufferEnable = true →
      b'.readBufferPos ≤ pos → pos - b'.readBufferPos + size ≤ readBufferSize → K s' →
      wp L (.note (.fetched pos (slice b'.readBuffer (pos - b'.readBufferPos) size) false)
        (.ret (some (slice b'.readBuffer (pos - b'.readBufferPos) size), b')))
        (fun o s' => o.1 = some (e.part pos size) ∧ ReadBuffer N recs o.2 ∧ K s') s' := by
    intro b' s' hB' hen hlo hhi hK'
    have hin : pos - b'.readBufferPos + size ≤ b'.readBuffer.length := by rw [hB'.winLen]; exact hhi
    have hright : Right recs (.fetched pos (slice b'.readBuffer (pos - b'.readBufferPos) size) false) := by
      refine ⟨rfl, fun e' he' hc' => ?_⟩
      rw [length_slice_of_le hin] at hc' ⊢
      exact hB'.part hS.wf hen hlo hhi he' hc'
    refine ⟨fun h => hS.sure h _ _ hK' hright, fun _ => ⟨?_, hB', hS.note _ _ hK' hright⟩⟩
    rw [hB'.part hS.wf hen hlo hhi he hc]
  cases hh : b.windowHit pos size with
  | true =>
    have hwin := hh
    simp only [BufferedIo.windowHit, Bool.and_eq_true, decide_eq_true_eq] at hwin
    obtain ⟨hen, hlo, hhi⟩ := hwin
    rw [u64_of_lt (by omega)] at hhi
    have hnot : decide (b.filledAt ≤ pos) = false := decide_eq_false (by rw [hB.filled hen]; omega)
    rw [bioRead_hit b pos size (by rw [hB.next]; exact hpos) hh (by rw [hB.winLen]; omega), hnot]
    exact hgot b s hB hen hlo (by omega) hK
  | false =>
    have hp : roundDown pos defaultSectorSize = pos / 512 * 512 := roundDown_sector (by omega)
    rw [bioRead_miss b pos size (by rw [hB.next]; exact hpos) hh, hp]
    intro f0 hf0
    refine ⟨fun _ => by simp only [offMax]; omega, fun _ f hf => ?_⟩
    have hK' := hS.rely _ f (pos / 512 * 512) (hS.rely s f0 (pos / 512 * 512) hK hf0) hf
    have hB' := hB.loaded hS hK' (pos / 512 * 512)
    have hnot : decide (b.nextOffset ≤ pos) = false := decide_eq_false (by rw [hB.next]; omega)
    have hfit : pos - pos / 512 * 512 + size ≤ readBufferSize := by rw [readBufferSize_eq]; omega
    have hwin : pos - pos / 512 * 512 + size ≤
        (store b.readBuffer 0 (slice f (pos / 512 * 512) readBufferSize)).length := by
      rw [show (store b.readBuffer 0 _).length = readBufferSize from hB'.winLen]; exact hfit
    show wp L ((copyFrom (store b.readBuffer 0 (slice f (pos / 512 * 512) readBufferSize))
      (pos - pos / 512 * 512) size).bind fun bytes => .note (.fetched pos bytes (decide (b.nextOffset ≤ pos)))
        (.ret (some bytes, b.loaded (pos / 512 * 512) (slice f (pos / 512 * 512) readBufferSize)))) _ _
    rw [copyFrom, if_pos hwin, hnot]
    exact hgot _ _ hB' rfl (by simp only [BufferedIo.loaded, BufferedIo.aimed]; omega) hfit (hS.rely _ f _ hK' (L.rely_refl _ _))

theorem wp_snapshotInto (hB : ReadBuffer N recs b) (hK : K s) {pos size : Nat} {buf : Mem}
    {e : Entry} (he : e ∈ entries recs) (hc : e.Covers pos size) (h0 : 0 < size) (hsize : size ≤ 4096)
    (hbuf : size ≤ buf.length) :
    wp L (bioReadInto b pos buf size) (fun o s' => o.1 = store buf 0 (e.part pos size) ∧
      ReadBuffer N recs o.2 ∧ K s') s := by
  refine wp_seq (wp_snapshotRead hS hB hK he hc h0 hsize) ?_
  rintro ⟨got, b'⟩ s' ⟨rfl, hB', hK'⟩
  simp only
  rw [if_pos (by rw [Entry.length_part hc]; exact hbuf)]
  exact ⟨rfl, hB', hK'⟩

/-! ## The search -/

omit hS in
/-- Each version names the one before it. -/
def Linked : List Version → Prop
  | [] => True
  | v :: vs => v.head.next = headOff vs ∧ Linked vs

omit hS in
theorem LogWF.linked {recs : List Rec} (h : LogWF n recs) (b : Nat) : Linked (chainOf recs b) := by
  induction recs with
  | nil => trivial
  | cons r rs ih =>
    simp only [chainOf]
    split
    · rename_i hb
      exact ⟨by rw [h.1.next, hb], ih h.2⟩
    · exact ih h.2

/-- **The search** stops at the newest version before `ts`, or at 0. -/
theorem wp_searchVersion {ts : TimeSpec} {fuel : Nat} {vs : List Version} (hvs : ∀ v ∈ vs, ∃ r ∈ recs, r.ver = v)
    (hl : Linked vs) (hfuel : vs.length < fuel) {header : Mem} (hh : header.length = 32) {size : Nat}
    (hB : ReadBuffer N recs b) (hK : K s) :
    wp L (searchVersion ts fuel b (headOff vs) header size) (fun o s' =>
      o.1 = headOff (asOfVersion ts vs).toList ∧
      (∀ v, asOfVersion ts vs = some v → o.2.1 = v.data.length) ∧ ReadBuffer N recs o.2.2 ∧
      K s') s := by
  induction fuel generalizing vs b s header size with
  | zero => omega
  | succ fuel ih =>
    cases vs with
    | nil => exact ⟨rfl, nofun, hB, hK⟩
    | cons v vs =>
      obtain ⟨r, hr, rfl⟩ := hvs v List.mem_cons_self
      obtain ⟨-, hstart, hwf⟩ := hS.wf.mem hr
      have hlow := logStart_bounds n
      have hstop := Version.stop_entry _ hwf
      simp only [Version.stop, entryHeaderSize] at hstop
      rw [searchVersion, if_neg (by simp only [headOff]; omega)]
      have hcov : r.ver.entry.Covers r.ver.off 32 := ⟨Nat.le_refl _, by omega⟩
      have hfit : 32 ≤ header.length := by omega
      have hread := wp_snapshotInto hS hB hK (mem_entries.2 ⟨r, hr, rfl⟩) hcov (by decide) (by decide) hfit
      refine wp_seq hread ?_
      rintro ⟨got, b'⟩ s' ⟨rfl, hB', hK'⟩
      have hpart := Version.part_head hwf
      have hhead : EntryHeader.ofBytes (store header 0 r.ver.head.toBytes) = r.ver.head := by
        rw [store_all (by rw [EntryHeader.length_padded hwf.pad, hh]), Version.ofBytes_head hwf]
      simp only [hpart, hhead]
      by_cases hb : r.ver.head.ts.before ts = true
      · have hfind : asOfVersion ts (r.ver :: vs) = some r.ver := List.find?_cons_of_pos hb
        rw [if_pos hb, hfind]
        refine ⟨rfl, fun v hv => ?_, hB', hK'⟩
        cases hv
        exact hwf.size
      · have hfind : asOfVersion ts (r.ver :: vs) = asOfVersion ts vs := List.find?_cons_of_neg hb
        have hlen : (store header 0 r.ver.head.toBytes).length = 32 := by
          rw [length_store_of_le (by rw [EntryHeader.length_padded hwf.pad, hh]; decide), hh]
        rw [if_neg hb, hfind, hl.1]
        exact ih (fun v hv => hvs v (List.mem_cons_of_mem _ hv)) hl.2 (by simpa using hfuel) hlen hB' hK'

end

/-! ## The bitmap -/

theorem cacheBit_or_self (bits : UInt8) (b : Nat) : (bits ||| cacheBit b) &&& cacheBit b ≠ 0 := by
  have hone : ∀ k < 8, (1 <<< UInt8.ofNat k : UInt8) ≠ 0 := by decide
  have habs : (bits ||| cacheBit b) &&& cacheBit b = cacheBit b := UInt8.toBitVec_inj.1 (by
    rw [UInt8.toBitVec_and, UInt8.toBitVec_or]
    exact BitVec.eq_of_getElem_eq fun i hi => by
      simp only [BitVec.getElem_and, BitVec.getElem_or]
      cases (cacheBit b).toBitVec[i] <;> simp)
  rw [habs]
  exact hone (b % 8) (Nat.mod_lt _ (by decide))

theorem cacheBit_or_other (bits : UInt8) {b b' : Nat} (h : b % 8 ≠ b' % 8) :
    (bits ||| cacheBit b) &&& cacheBit b' = bits &&& cacheBit b' := by
  have hapart : ∀ k < 8, ∀ k' < 8, k ≠ k' →
      (1 <<< UInt8.ofNat k : UInt8) &&& (1 <<< UInt8.ofNat k') = 0 := by decide
  have hzero : cacheBit b &&& cacheBit b' = 0 :=
    hapart _ (Nat.mod_lt _ (by decide)) _ (Nat.mod_lt _ (by decide)) h
  have hdist : (bits ||| cacheBit b) &&& cacheBit b' = bits &&& cacheBit b' ||| cacheBit b &&& cacheBit b' :=
    UInt8.toBitVec_inj.1 (by simp only [UInt8.toBitVec_and, UInt8.toBitVec_or, BitVec.and_or_distrib_right])
  rw [hdist, hzero, UInt8.or_zero]

/-- The bits after that of `b` has been set. -/
theorem cacheBit_set {m : Mem} {b : Nat} {bits : UInt8} (h : m[b / 8]? = some bits) (b' : Nat) :
    byteAt (m.set (b / 8) (bits ||| cacheBit b)) (b' / 8) &&& cacheBit b' ≠ 0 ↔
      b' = b ∨ byteAt m (b' / 8) &&& cacheBit b' ≠ 0 := by
  have hlen : b / 8 < m.length := (List.getElem?_eq_some_iff.1 h).1
  have hbyte : byteAt m (b / 8) = bits := by
    simp [byteAt, List.getD_eq_getElem?_getD, h]
  have hself : byteAt (m.set (b / 8) (bits ||| cacheBit b)) (b / 8) = bits ||| cacheBit b := by
    simp [byteAt, List.getD_eq_getElem?_getD, List.getElem?_set_self hlen]
  by_cases heq : b' = b
  · rw [heq, hself]
    exact ⟨fun _ => .inl rfl, fun _ => cacheBit_or_self bits b⟩
  · -- the bits of the other blocks stay
    have hkeep : byteAt (m.set (b / 8) (bits ||| cacheBit b)) (b' / 8) &&& cacheBit b' =
        byteAt m (b' / 8) &&& cacheBit b' := by
      by_cases hd : b' / 8 = b / 8
      · rw [hd, hself, hbyte, cacheBit_or_other bits (by omega)]
      · simp only [byteAt, List.getD_eq_getElem?_getD, List.getElem?_set_ne (Ne.symm hd)]
    rw [hkeep]
    exact ⟨.inr, fun h => h.resolve_left heq⟩

/-! ## `read_current_block` -/

/-- `read_current_block` has looked for the block's version. -/
def PreservationDisk.Cached (d : PreservationDisk) (b : Nat) : Prop :=
  byteAt d.indexCacheEnable (b / 8) &&& cacheBit b ≠ 0

structure Travelling (n N : Nat) (recs : List Rec) (ts : TimeSpec) (d : PreservationDisk) : Prop where
  header : d.header.Of n N
  sectors : d.sectorsPerBlock = 8
  readOnly : d.readOnly = true
  time : d.ts = ts
  bio : ReadBuffer N recs d.bio
  bitsLen : n ≤ d.indexCacheEnable.length
  sizesLen : d.cachedDataSize.length = n
  tableLen : n ≤ d.indexTable.length
  fresh : ∀ b < n, ¬d.Cached b → d.indexTable[b]? = some (headOff (chainOf recs b))
  found : ∀ b < n, d.Cached b → d.indexTable[b]? = some (headOff (asOfVersion ts (chainOf recs b)).toList) ∧
    ∀ v, asOfVersion ts (chainOf recs b) = some v → d.cachedDataSize[b]? = some v.data.length

theorem asOfVersion_mem {ts : TimeSpec} {vs : List Version} {v : Version} (h : asOfVersion ts vs = some v) :
    v ∈ vs := List.mem_of_find?_eq_some h

namespace Travelling

variable {n N : Nat} {recs : List Rec} {ts : TimeSpec} {d : PreservationDisk}

theorem withBio (h : Travelling n N recs ts d) {bio : BufferedIo} (hB : ReadBuffer N recs bio) :
    Travelling n N recs ts { d with bio := bio } := { h with bio := hB }

/-- The search has found the version of `b`. -/
theorem search (h : Travelling n N recs ts d) {b : Nat} (hb : b < n) {bits : UInt8}
    (hbits : d.indexCacheEnable[b / 8]? = some bits) {offset size : Nat}
    (hoff : offset = headOff (asOfVersion ts (chainOf recs b)).toList)
    (hsize : ∀ v, asOfVersion ts (chainOf recs b) = some v → size = v.data.length) :
    Travelling n N recs ts { d with
      indexTable := d.indexTable.set b offset
      indexCacheEnable := d.indexCacheEnable.set (b / 8) (bits ||| cacheBit b)
      cachedDataSize := d.cachedDataSize.set b size } := by
  have hset := cacheBit_set hbits
  have htable := h.tableLen
  have hsizes := h.sizesLen
  exact { h with
    bitsLen := by rw [List.length_set]; exact h.bitsLen
    sizesLen := by rw [List.length_set]; exact h.sizesLen
    tableLen := by rw [List.length_set]; exact h.tableLen
    fresh := fun b' hb' hc => by
      obtain ⟨heq, hc⟩ := not_or.1 (mt (hset b').2 hc)
      simp only [List.getElem?_set_ne (Ne.symm heq)]
      exact h.fresh b' hb' hc
    found := fun b' hb' hc => by
      by_cases heq : b' = b
      · subst heq
        simp only [List.getElem?_set_self (show b' < d.indexTable.length by omega),
          List.getElem?_set_self (show b' < d.cachedDataSize.length by omega), hoff]
        exact ⟨trivial, fun v hv => by rw [hsize v hv]⟩
      · have hc := ((hset b').1 hc).resolve_left heq
        simp only [List.getElem?_set_ne (Ne.symm heq)]
        exact h.found b' hb' hc }

end Travelling

section
variable {L : Logic Event} {n N : Nat} {recs : List Rec} {K : Os Event → Prop} (hS : Snapshot L n N recs K)
variable {ts : TimeSpec} {d : PreservationDisk} {s : Os Event}
include hS

/-- The payload of the version that was searched for. -/
theorem wp_asOfPayload (hT : Travelling n N recs ts d) (hK : K s) {b : Nat} {buf : Mem}
    (hbuf : 4096 ≤ buf.length) {offset size : Nat}
    (hoff : offset = headOff (asOfVersion ts (chainOf recs b)).toList)
    (hsize : ∀ v, asOfVersion ts (chainOf recs b) = some v → size = v.data.length) :
    wp L (if offset ≠ 0 ∧ size > 0 then readPayload d buf offset size
      else do let buf ← clearFrom buf 0 d.header.blockSize; pure (0, buf, d))
      (fun r s' => BlockRead True (asOfVersion ts (chainOf recs b)).toList buf r.1 r.2.1 ∧
        Travelling n N recs ts r.2.2 ∧ K s') s := by
  have hblock := hT.header.blockSize
  have hlow := logStart_bounds n
  have hN := hS.bound
  simp only [offMax] at hN
  cases hv : asOfVersion ts (chainOf recs b) with
  | none =>
    rw [hv] at hoff
    rw [if_neg (fun h => h.1 hoff)]
    have hzero : ∀ p < 4096, byteAt [] p = contentOf [] p := fun p _ => byteAt_nil p
    exact wp_clearBlock hblock hbuf ⟨.of_filled (Nat.zero_le _) hbuf fun _ => hzero, hT, hK⟩
  | some v =>
    rw [hv] at hoff
    obtain ⟨r, hr, -, rfl⟩ := mem_chainOf.1 (asOfVersion_mem hv)
    obtain ⟨-, hstart, hwf⟩ := hS.wf.mem hr
    have hshort := hwf.short
    have hstop := Version.stop_entry _ hwf
    have hbelow := hS.below r hr
    rw [hsize _ hv]
    simp only [Version.stop, entryHeaderSize] at hstop hbelow
    simp only [Option.toList_some, headOff] at hoff
    by_cases h0 : r.ver.data.length = 0
    · rw [if_neg (by omega)]
      have hzero : ∀ p < 4096, byteAt [] p = contentOf [r.ver] p := fun p _ => by
        rw [contentOf, byteAt_nil, byteAt_of_le (by omega)]
      exact wp_clearBlock hblock hbuf ⟨.of_filled (Nat.zero_le _) hbuf fun _ => hzero, hT, hK⟩
    · rw [if_pos (by omega)]
      refine wp_readPayload hblock hbuf ?_
      have hcov : r.ver.entry.Covers (r.ver.off + 32) r.ver.data.length :=
        ⟨Nat.le_add_right _ _, Nat.le_of_eq hstop.symm⟩
      rw [hoff, u64_of_lt (by simp only [entryHeaderSize]; omega)]
      refine wp_mono (wp_snapshotInto hS hT.bio hK (mem_entries.2 ⟨r, hr, rfl⟩) hcov (by omega) hshort
        (by omega)) ?_
      rintro ⟨out, bio⟩ s' ⟨rfl, hB, hK'⟩
      refine ⟨_, rfl, Entry.length_part hcov, .inr hshort, fun _ => ⟨?_, hT.withBio hB, hK'⟩⟩
      rw [Version.part_data hwf]
      exact .of_filled hshort hbuf fun _ p _ => rfl

/-- **`read_current_block`** gives the newest version before the session's time. -/
theorem wp_readCurrentBlock (hT : Travelling n N recs ts d) (hK : K s) {b : Nat} (hb : b < n)
    {fuel : Nat} (hfuel : (chainOf recs b).length < fuel) {J : Junk} {buf : Mem} (hbuf : 4096 ≤ buf.length) :
    wp L (readCurrentBlock J fuel d buf b) (fun r s' =>
      BlockRead True (asOfVersion ts (chainOf recs b)).toList buf r.1 r.2.1 ∧
      Travelling n N recs ts r.2.2 ∧ K s') s := by
  have hbl := hT.bitsLen
  have hsl := hT.sizesLen
  obtain ⟨bits, hbits⟩ : ∃ bits, d.indexCacheEnable[b / 8]? = some bits :=
    ⟨_, List.getElem?_eq_getElem (by omega)⟩
  obtain ⟨cached, hcached⟩ : ∃ cached, d.cachedDataSize[b]? = some cached :=
    ⟨_, List.getElem?_eq_getElem (by omega)⟩
  have hbyte : byteAt d.indexCacheEnable (b / 8) = bits := by
    simp [byteAt, List.getD_eq_getElem?_getD, hbits]
  obtain rfl := hT.time
  unfold readCurrentBlock
  by_cases hbit : bits &&& cacheBit b = 0
  · have hidx := hT.fresh b hb (by rw [PreservationDisk.Cached, hbyte]; exact fun h => h hbit)
    simp only [indexAt, hidx, hbits, hcached, Prog.bind_eq, Prog.pure_eq, Prog.ret_bind]
    rw [if_pos hbit, Prog.bind_assoc]
    refine wp_seq (wp_searchVersion hS (fun v hv => ?_) (hS.wf.linked b) hfuel (length_tabulate _ _) hT.bio hK) ?_
    · obtain ⟨r, hr, -, hrv⟩ := mem_chainOf.1 hv
      exact ⟨r, hr, hrv⟩
    rintro ⟨offset, size, bio⟩ s' ⟨hoff, hsize, hB, hK'⟩
    simp only [Prog.mark_bind, Prog.bind]
    refine ⟨fun h => hS.sure h _ _ hK' trivial, fun _ => ?_⟩
    have hmod : ∀ v, asOfVersion d.ts (chainOf recs b) = some v → size = v.data.length ∧ size % 2 ^ 16 = size := by
      intro v hv
      have hshort := (hS.wf.mem_chain (asOfVersion_mem hv)).2.2.short
      have := hsize v hv
      simp only at this
      exact ⟨this, by omega⟩
    have hfound : ∀ v, asOfVersion d.ts (chainOf recs b) = some v → size % 2 ^ 16 = v.data.length := fun v hv => by
      rw [(hmod v hv).2]; exact (hmod v hv).1
    have hT' := (hT.withBio hB).search hb hbits hoff hfound
    exact wp_asOfPayload hS hT' (hS.note _ (.cached b offset (size % 2 ^ 16)) hK' trivial) hbuf hoff fun v hv =>
      (hmod v hv).1
  · obtain ⟨hidx, hsize⟩ := hT.found b hb (by rw [PreservationDisk.Cached, hbyte]; exact hbit)
    simp only [indexAt, hidx, hbits, hcached, Prog.bind_eq, Prog.pure_eq, Prog.ret_bind]
    rw [if_neg hbit]
    refine wp_asOfPayload hS hT hK hbuf rfl fun v hv => ?_
    have := hsize v hv
    rw [hcached] at this
    exact Option.some.inj this

/-- The reader of a read-only session. -/
theorem snapshotReader {J : Junk} {fuel : Nat} (hfuel : ∀ b, (chainOf recs b).length < fuel) :
    BlockReader L True n (fun d s => Travelling n N recs ts d ∧ K s) (asOfByte ts recs)
      (readCurrentBlock J fuel) where
  geometry d s h := ⟨h.1.header.blockSize, h.1.sectors⟩
  reads d s b buf h hb hbuf := by
    refine wp_mono (wp_readCurrentBlock hS h.1 h.2 hb (hfuel b) hbuf) ?_
    rintro ⟨r, out, d'⟩ s' ⟨hR, hT, hK⟩
    exact ⟨hR.code, hR.length, hR.rest, fun _ => hR.content trivial, hT, hK⟩
/-! ## Sessions -/

omit hS in
/-- A session that has just opened the file. -/
theorem Opened.travelling {J : Junk} {f : Mem} (h : Opened J true n N f d) (hf : FileInv n N recs f)
    (hn : n < 2 ^ 31) (ts : TimeSpec) : Travelling n N recs ts { d with ts := ts } := by
  have hbits : d.indexCacheEnable = zeros (roundUp n 8) := by rw [h.disk]; rfl
  have hno : ∀ b, ¬({ d with ts := ts } : PreservationDisk).Cached b := fun b hc => hc (by
    simp only [hbits, byteAt_zeros, UInt8.zero_and])
  have htb := tableBytes_bounds n
  exact {
    header := h.header
    sectors := by rw [h.disk]; rfl
    readOnly := by rw [h.disk]; rfl
    time := rfl
    bio := by
      have hbio : d.bio = bioInit J true N := by rw [h.disk]; simp only [openedDisk, h.header.nextOffset]
      rw [hbio]
      exact bioInit_readBuffer J N recs
    bitsLen := by rw [hbits, length_zeros, roundUp_char (by omega)]; omega
    sizesLen := by
      have hsizes : d.cachedDataSize = List.replicate n 0 := by rw [h.disk]; rfl
      rw [hsizes, List.length_replicate]
    tableLen := by rw [h.tableLen]; omega
    fresh := fun b hb _ => by rw [h.table b hb, fileIndex, hf.index b hb]
    found := fun b _ hc => absurd hc (hno b) }

/-- What a read of the disk as of `ts` gives. -/
def asOfReply (ts : TimeSpec) (recs : List Rec) (treq : TdRequest) : Reply :=
  .got 0 (tabulate (fun k => diskByte (asOfByte ts recs) (treq.sec * 512 + k)) (treq.secs * 512))

theorem wp_readAll (hn : n < 2 ^ 31) {reads : List TdRequest} (hreads : ∀ treq ∈ reads, treq.Readable n)
    {J : Junk} {fuel : Nat} (hfuel : ∀ b, (chainOf recs b).length < fuel) (hT : Travelling n N recs ts d)
    (hK : K s) :
    wp L (readAll J fuel d reads) (fun r s' => r.1 = reads.map (asOfReply ts recs) ∧
      Travelling n N recs ts r.2 ∧ K s') s := by
  induction reads generalizing d s with
  | nil => exact ⟨rfl, hT, hK⟩
  | cons treq rest ih =>
    have hrb : readBlockOf J fuel d = readCurrentBlock J fuel := if_pos hT.readOnly
    have hR : BlockReader L True n (fun d s => Travelling n N recs ts d ∧ K s) (asOfByte ts recs)
        (readCurrentBlock J fuel) := snapshotReader hS hfuel
    refine wp_seq (wp_pdRead hR hn (hreads treq List.mem_cons_self) hrb ⟨hT, hK⟩) ?_
    rintro ⟨r, bytes, d1⟩ s1 ⟨rfl, hlen, hcont, hT1, hK1⟩
    refine wp_seq (ih (fun t ht => hreads t (List.mem_cons_of_mem _ ht)) hT1 hK1) ?_
    rintro ⟨replies, d2⟩ s2 ⟨rfl, hT2, hK2⟩
    simp only at hlen hcont
    have hbytes : bytes = tabulate (fun k => diskByte (asOfByte ts recs) (treq.sec * 512 + k))
        (treq.secs * 512) := ext_byteAt (by rw [hlen, length_tabulate]) fun k hk => by
      rw [hlen] at hk
      rw [hcont trivial k hk, byteAt_tabulate hk]
    exact ⟨by rw [hbytes]; rfl, hT2, hK2⟩

end

end LogDrive
