import LogDrive.Driver.Proof.Unlogged
import LogDrive.Driver.Proof.Trim
import Mathlib.Data.Finset.Card

/-!
# `pd_write`

`wp_pdWriteBlock` is one turn of the loop: the block gets one more version, or none where it has no
version and stays zero. `wp_pdWrite` is the whole request (`WriteStep`).

In a total mode a request needs room in the write buffer: `Room` counts the blocks that may get a
version.
-/

set_option autoImplicit false

open Bytes

namespace LogDrive

/-! ## The bytes of a block -/

/-- The request's part of block `b`: where it starts, its size, and the sectors of the request before
it, as the loop computes them when it is at `sector`. -/
structure At (q : TdRequest) (sector b : Nat) : Prop where
  inside : sector < q.sec + q.secs
  block : b = sector / 8
  place : sector = q.sec ∨ sector % 8 = 0 ∧ q.sec < sector

variable {q : WriteRequest} {sector b : Nat}

/-- The copy of the request's sectors into the block is the request's patch. -/
theorem byteAt_patched (h : At q.toTdRequest sector b) {data : Mem}
    {current : Nat} (hc : current = min (8 - sector % 8) (q.sec + q.secs - sector)) {p : Nat}
    (hp : p < 4096) :
    byteAt (store data (sector % 8 * 512) (q.source (sector - q.sec) (current * 512))) p =
      q.patch b (byteAt data) p := by
  obtain ⟨hin, rfl, hplace⟩ := h
  have hcov : q.Covers (8 * (sector / 8) + p / 512) ↔
      sector % 8 * 512 ≤ p ∧ p < sector % 8 * 512 + current * 512 := by
    unfold TdRequest.Covers; omega
  rw [byteAt_store, TdRequest.source, length_tabulate, TdRequest.patch]
  by_cases hb : sector % 8 * 512 ≤ p ∧ p < sector % 8 * 512 + current * 512
  · rw [if_pos hb, if_pos (hcov.2 hb), byteAt_tabulate (by omega), TdRequest.sectorsBefore]
    have h1 : sector - q.sec = 8 * (sector / 8) - q.sec := by omega
    have h2 : p - sector % 8 * 512 = p - (q.sec - 8 * (sector / 8)) * 512 := by omega
    rw [h1, h2]
    push_cast
    rfl
  · rw [if_neg hb, if_neg (hcov.not.2 hb)]

theorem patch_congr {old old' : Nat → UInt8} {p : Nat} (h : old p = old' p) :
    q.patch b old p = q.patch b old' p := by
  simp only [TdRequest.patch, h]

/-- A block without versions that stays zero under the request. -/
def Skips (q : WriteRequest) (recs : List Rec) (b : Nat) : Prop :=
  chainOf recs b = [] ∧ ∀ p < 4096, q.patch b (contentOf []) p = 0

/-- What is logged of a block: `out` with the request's bytes over it is `data`, and its first `size`
bytes are kept. -/
structure Merged (q : WriteRequest) (b : Nat) (out data : Mem) (size : Nat) : Prop where
  length : data.length = 4096
  size_le : size ≤ 4096
  zero : size = 0 ↔ ∀ p < 4096, q.patch b (byteAt out) p = 0
  kept : ∀ p < 4096, byteAt (data.take size) p = q.patch b (byteAt out) p

theorem merged (hat : At q.toTdRequest sector b) {out : Mem} (hlen : out.length = 4096) {current : Nat}
    (hc : current = min (8 - sector % 8) (q.sec + q.secs - sector)) {data : Mem}
    (hdata : store out (sector % 8 * 512) (q.source (sector - q.sec) (current * 512)) = data) :
    Merged q b out data (actualDataSize data 4096) := by
  have hpatch : ∀ p < 4096, byteAt data p = q.patch b (byteAt out) p := fun p hp => by
    rw [← hdata]
    exact byteAt_patched hat hc hp
  have hsrc : (q.source (sector - q.sec) (current * 512)).length = current * 512 := by
    simp [TdRequest.source]
  have hdl : data.length = 4096 := by
    rw [← hdata, length_store_of_le (by rw [hsrc, hlen]; omega), hlen]
  have hsize : actualDataSize data 4096 ≤ 4096 := actualDataSize_le_size (by decide)
  refine ⟨hdl, hsize, ?_, fun p hp => ?_⟩
  · rw [actualDataSize_eq_zero]
    exact forall₂_congr fun p hp => by rw [hpatch p hp]
  · rw [← hpatch p hp]
    by_cases hps : p < actualDataSize data 4096
    · exact byteAt_take hps
    · rw [byteAt_of_le (by simp only [List.length_take]; omega), byteAt_actualDataSize (by omega) hp]

section
variable {out data : Mem} {size : Nat} (h : Merged q b out data size)
include h

theorem Merged.skips {recs : List Rec} (hnil : chainOf recs b = [] → ∀ p < 4096, byteAt out p = contentOf [] p) :
    Skips q recs b ↔ size = 0 ∧ chainOf recs b = [] := by
  rw [h.zero, Skips, and_comm]
  refine and_congr_left fun hvs => forall₂_congr fun p hp => ?_
  rw [patch_congr (hnil hvs p hp)]

/-- The version that `pd_write` logs is the next one of the block. -/
theorem Merged.step {T : Prop} {v : Version} {vs : List Version}
    (hcontent : T ∨ vs = [] → ∀ p < 4096, byteAt out p = contentOf vs p) (hskip : ¬(size = 0 ∧ vs = []))
    (hts : v.head.ts = q.ts) (hnext : v.head.next = headOff vs) (hdata : v.data = data.take size) :
    BlockStep T q b vs (v :: vs) := by
  refine .push (byteAt out) (fun hT => hcontent (.inl hT)) (fun hnil => ⟨fun p hp => ?_, ?_⟩) hts hnext
    fun p hp => ?_
  · rw [hcontent (.inr hnil) p hp, hnil]
    rfl
  · by_contra hall
    push Not at hall
    exact hskip ⟨h.zero.2 hall, hnil⟩
  · rw [hdata]
    exact h.kept p hp

end

/-! ## One more version -/

theorem FileInv.wrote {n N : Nat} {old : List Rec} {b b' : BufferedIo} {f f' : Mem} {size : Nat}
    (h : FileInv n N old f) (hN : N ≤ b.nextOffset) (hW : Wrote b f size b' f') :
    FileInv n N old f' := by
  refine h.extend hW.grow ?_ fun i hi => hW.below i (by omega)
  have := hW.next
  exact hW.long.imp_right fun hl => by omega

/-- The session after `pd_write` has logged `v` for block `b`. -/
theorem LogInv.push {n N : Nat} {old recs : List Rec} {d : PreservationDisk} {s s' : Os Event}
    (hI : LogInv n N old d s recs) {v : Version} (hv : v.WF) (hb : b < n)
    (hnext : v.head.next = headOff (chainOf recs b)) {bio : BufferedIo} {size : Nat}
    (hbio : BioInv bio s'.file (v.entry :: entries recs))
    (hnotes : s'.notes = .logged v.off v.bytes :: s.notes)
    (hoff : d.bio.nextOffset + d.bio.bufferPos ≤ v.off) (hW : Wrote d.bio s.file size bio s'.file) :
    LogInv n N old { d with bio := bio, indexTable := d.indexTable.set b v.off }
      { s' with notes := .indexed b v.off :: s'.notes } (⟨b, v⟩ :: recs) where
  header := hI.header
  sectors := hI.sectors
  writable := hI.writable
  tableLen := by rw [List.length_set]; exact hI.tableLen
  table := fun b' hb' => by
    have hlen : b < d.indexTable.length := (List.getElem?_eq_some_iff.1 (hI.table b hb)).1
    simp only [chainOf]
    by_cases h : b = b'
    · subst h
      rw [if_pos rfl, List.getElem?_set_self hlen]
      rfl
    · rw [if_neg h, List.getElem?_set_ne h, hI.table b' hb']
  wf := by
    refine ⟨⟨hb, ?_, hv, hnext, fun r hr => ?_⟩, hI.wf⟩
    · have := hI.file.start
      have := hI.start
      simp only
      omega
    · have := hI.stop_le hr
      simp only
      omega
  bio := hbio
  start := Nat.le_trans hI.start hW.next
  bound := by
    by_cases h : bio.nextOffset = d.bio.nextOffset
    · simp only [h]; exact hI.bound
    · exact hW.moved h
  live := fun r hr hlo => by
    refine Logged.of_other ?_ fun _ _ h => by cases h
    rw [hnotes]
    rcases List.mem_cons.1 hr with rfl | hr
    · exact .inl rfl
    · refine .inr ⟨hI.live r hr hlo, .inl ?_⟩
      rw [Version.stop_entry _ (hI.wf.mem hr).2.2]
      have := hI.stop_le hr
      omega
  filled := by simp only [hW.filledAt]; exact hI.filled
  file := hI.file.wrote hI.start hW
  new := by
    obtain ⟨new, rfl, hnew⟩ := hI.new
    refine ⟨⟨b, v⟩ :: new, rfl, fun r hr => ?_⟩
    rcases List.mem_cons.1 hr with rfl | hr
    · have := hI.start
      simp only
      omega
    · exact hnew r hr

/-- What a request does to the room in the write buffer: at most `k` bytes are taken and nothing is
flushed. -/
structure Takes (k : Nat) (d d' : PreservationDisk) : Prop where
  next : d'.bio.nextOffset = d.bio.nextOffset
  pos : d'.bio.bufferPos ≤ d.bio.bufferPos + k

section
variable {L : Logic Event} {T : Prop} (hM : Mode L T)
variable {n N : Nat} {old recs : List Rec} {d : PreservationDisk} {s : Os Event}
include hM

/-- **One block of a request.** -/
theorem wp_pdWriteBlock (hI : LogInv n N old d s recs)
    (hA : ∀ f, FileInv n N old f → AllowsFrom L f N) (hat : At q.toTdRequest sector b) (hb : b < n)
    {J : Junk} {buf : Mem} (hbuf : buf.length = 4128) {current : Nat}
    (hc : current = min (8 - sector % 8) (q.sec + q.secs - sector))
    (ht : L.total → Calm d s recs ∧ (Skips q recs b ∨ d.bio.bufferPos + 4128 ≤ bufferSize)) :
    wp L (pdWriteBlock J q d b (sector % 8 * 512) (current * 512) (sector - q.sec) buf)
      (fun r s' => r.1 = 0 ∧ r.2.2.length = 4128 ∧ ∃ new, LogInv n N old r.2.1 s' (new ++ recs) ∧
        BlockStep T q b (chainOf recs b) (chainOf (new ++ recs) b) ∧
        (∀ b' ≠ b, chainOf (new ++ recs) b' = chainOf recs b') ∧ (Full s recs → Full s' (new ++ recs)) ∧
        ∀ k, (Skips q recs b ∨ k = 4128 ∧ d.bio.bufferPos + 4128 ≤ bufferSize) → Calm d s recs →
          Calm r.2.1 s' (new ++ recs) ∧ Takes k d r.2.1) s := by
  unfold pdWriteBlock
  have hdest : (buf.drop entryHeaderSize).length = 4096 := by
    simp only [List.length_drop, hbuf, entryHeaderSize]
  refine wp_seq (wp_unlogged (readLatestBlock_unlogged ..)
    (wp_readLatestBlock hM hI hb (Nat.le_of_eq hdest.symm) fun h => (ht h).1)) ?_
  rintro ⟨r, out, d1⟩ s1 ⟨⟨hR, hI1, hS⟩, hfull⟩
  obtain ⟨rfl, hlen, -, hcontent⟩ := hR
  simp only at hlen hcontent hI1 hS ⊢
  have hol : out.length = 4096 := hlen.trans hdest
  have hsrc : (q.source (sector - q.sec) (current * 512)).length = current * 512 := by
    simp [TdRequest.source]
  rw [if_neg (by decide), if_pos (by rw [hol]; omega)]
  generalize hdata : store out (sector % 8 * 512) (q.source (sector - q.sec) (current * 512)) = data
  have hm := merged hat hol hc hdata
  rw [Prog.bind_eq, hI1.indexAt hb, getActualDataSize, hI1.header.blockSize]
  generalize actualDataSize data 4096 = size at hm
  have hdl := hm.length
  have hsize := hm.size_le
  have hskips : Skips q recs b ↔ size = 0 ∧ chainOf recs b = [] := hm.skips fun h p hp => by
    rw [hcontent (.inr h) p hp, h]
  have hhead := hI.wf.headOff_eq_zero b
  have hnext : headOff (chainOf recs b) < 2 ^ 64 := chainOf_head_lt (by decide) fun r hr => by
    have := hI.stop_le hr
    have := hI.bio.small
    omega
  -- the version that the block gets, wherever `bio_write` puts it
  generalize hhd : (⟨q.ts, headOff (chainOf recs b), size % 2 ^ 16, tabulate q.pad 6⟩ : EntryHeader) = head
  have hwf : ∀ off, (⟨off, head, data.take size⟩ : Version).WF := fun off => by
    subst hhd
    exact ⟨hnext, by simp only [List.length_take, hdl]; omega, by simp only [List.length_take]; omega,
      length_tabulate ..⟩
  have hpad : head.pad.length = 6 := by rw [← hhd, length_tabulate]
  have hheadLen : head.toBytes.length = 32 := EntryHeader.length_padded hpad
  by_cases hskip : size = 0 ∧ headOff (chainOf recs b) = 0
  · rw [if_pos hskip]
    have hch := hhead.1 hskip.2
    have hSk := (hskips.2 ⟨hskip.1, hch⟩).2
    refine ⟨rfl, by rw [List.length_append, hheadLen, hdl], [], hI1, ?_, fun _ _ => rfl, hfull _, fun k _ hcalm => ?_⟩
    · rw [List.nil_append, hch]
      exact .skip hSk
    · exact ⟨hS.calm hcalm, by rw [hS.log.nextOffset], by rw [hS.log.bufferPos]; omega⟩
  · rw [if_neg hskip, EntryHeader.copyFrom_toBytes hpad (by rw [hdl]; exact hsize)]
    simp only [Prog.pure_eq, Prog.bind_eq, Prog.ret_bind]
    have hvl : (head.toBytes ++ data.take size).length = 32 + size := by
      rw [List.length_append, hheadLen, List.length_take, hdl]; omega
    have hnoskip : ¬Skips q recs b := fun h => hskip ⟨(hskips.1 h).1, hhead.2 (hskips.1 h).2⟩
    refine wp_seq (wp_bioWrite hM.alone hI1.bio ?_ ?_ ?_ ?_ ?_) ?_
    · rw [hvl]; omega
    · rw [hvl, bufferSize_eq]; omega
    · have := hI1.bound
      have := hI1.bio.posLe
      rw [hvl]
      rw [bufferSize_eq] at this
      simp only [offMax] at *
      omega
    · exact fun t bs htf hlo => hA _ hI1.file t bs htf (Nat.le_trans hI1.start hlo)
    · intro h
      obtain ⟨-, hroom⟩ := ht h
      refine ⟨?_, fun off => hM.plain trivial h⟩
      have := hroom.resolve_left hnoskip
      rw [hS.log.bufferPos, hvl]
      omega
    rintro ⟨off, bio⟩ s2 ⟨hbio, hnotes, hoff, hW⟩
    simp only [Prog.mark_bind]
    have hinv := hI1.push (v := ⟨off, head, data.take size⟩) (hwf off) hb (by rw [← hhd]) hbio hnotes
      hoff hW
    refine ⟨hM.plain trivial, fun _ => ?_⟩
    have hpush : Full s1 recs → Full s2 (⟨b, ⟨off, head, data.take size⟩⟩ :: recs) := fun h => h.push hnotes
    refine ⟨rfl, by rw [List.length_append, hheadLen, hdl], [_], hinv, ?_, ?_, fun h => hpush (hfull _ h), ?_⟩
    · rw [List.singleton_append, chainOf, if_pos rfl]
      refine hm.step hcontent ?_ (by rw [← hhd]) (by rw [← hhd]) rfl
      rwa [← hhead]
    · intro b' hb'
      rw [List.singleton_append, chainOf_cons_ne (by exact fun h => hb' h.symm)]
    · intro k hk hcalm
      obtain ⟨rfl, hroom⟩ := hk.resolve_left hnoskip
      obtain ⟨hfresh, hfull1⟩ := hS.calm hcalm
      have hpos := hS.log.bufferPos
      obtain ⟨hfile, hno, hbp, hfr⟩ := hW.calm (by rw [hpos, hvl]; omega)
      exact ⟨⟨hfr hfresh, hpush hfull1⟩, by rw [hno, hS.log.nextOffset], by rw [hbp, hpos, hvl]; omega⟩

/-! ## The whole request -/

/-- What a write request does to the versions of all blocks. -/
structure WriteStep (T : Prop) (q : WriteRequest) (recs recs' : List Rec) : Prop where
  touched : ∀ b, q.Touches b → BlockStep T q b (chainOf recs b) (chainOf recs' b)
  others : ∀ b, ¬q.Touches b → chainOf recs' b = chainOf recs b

/-- The blocks whose end is not past `sector` have been done. -/
structure WrittenTo (T : Prop) (q : WriteRequest) (sector : Nat) (recs recs' : List Rec) : Prop where
  done : ∀ b, q.Touches b → 8 * (b + 1) ≤ sector → BlockStep T q b (chainOf recs b) (chainOf recs' b)
  others : ∀ b, ¬(q.Touches b ∧ 8 * (b + 1) ≤ sector) → chainOf recs' b = chainOf recs b

/-- The blocks from `sector` on that may get a version are in `S`, and there is room for them. -/
structure Room (q : WriteRequest) (recs : List Rec) (d : PreservationDisk) (sector : Nat)
    (S : Finset Nat) : Prop where
  skips : ∀ b, q.Touches b → sector < 8 * (b + 1) → b ∉ S → Skips q recs b
  fits : d.bio.bufferPos + 4128 * S.card ≤ bufferSize

omit hM in
/-- One more block is done. -/
theorem WrittenTo.next {recs0 recs' : List Rec} (h : WrittenTo T q sector recs0 recs)
    (hat : At q.toTdRequest sector b) (hstep : BlockStep T q b (chainOf recs b) (chainOf recs' b))
    (hne : ∀ b' ≠ b, chainOf recs' b' = chainOf recs b') :
    WrittenTo T q (8 * (b + 1)) recs0 recs' := by
  obtain ⟨hin, hblock, hplace⟩ := hat
  have hold : chainOf recs b = chainOf recs0 b := h.others b (by omega)
  refine ⟨fun b' ht hb' => ?_, fun b' hb' => ?_⟩
  · by_cases heq : b' = b
    · subst heq
      rw [← hold]
      exact hstep
    · rw [hne b' heq]
      exact h.done b' ht (by omega)
  · by_cases heq : b' = b
    · subst heq
      refine absurd ⟨⟨?_, ?_, ?_⟩, Nat.le_refl _⟩ hb' <;> omega
    · rw [hne b' heq]
      exact h.others b' fun hc => hb' ⟨hc.1, by omega⟩

omit hM in
theorem WrittenTo.whole {recs0 : List Rec} (h : WrittenTo T q sector recs0 recs)
    (hend : q.sec + q.secs ≤ sector) (hplace : sector = q.sec ∨ sector % 8 = 0 ∧ q.sec < sector) :
    WriteStep T q recs0 recs where
  touched b ht := h.done b ht (by obtain ⟨h1, h2, h3⟩ := ht; omega)
  others b ht := h.others b fun hc => ht hc.1

omit hM in
/-- The room that is left for the blocks after that of a sector. -/
theorem Room.next {recs' : List Rec} {d' : PreservationDisk} {S : Finset Nat} (hS : Room q recs d sector S)
    (htouch : q.Touches (sector / 8)) (hne : ∀ b' ≠ sector / 8, chainOf recs' b' = chainOf recs b')
    (htake : ∀ k, (Skips q recs (sector / 8) ∨ k = 4128 ∧ d.bio.bufferPos + 4128 ≤ bufferSize) → Takes k d d') :
    ∃ S' k, (Skips q recs (sector / 8) ∨ k = 4128 ∧ d.bio.bufferPos + 4128 ≤ bufferSize) ∧
      k + 4128 * S'.card ≤ 4128 * S.card ∧ Room q recs' d' (8 * (sector / 8 + 1)) S' := by
  have hkeep : ∀ b', b' ≠ sector / 8 → Skips q recs b' → Skips q recs' b' :=
    fun b' hb' h => ⟨(hne b' hb').trans h.1, h.2⟩
  have hfits := hS.fits
  by_cases hmem : sector / 8 ∈ S
  · have hcard := Finset.card_erase_of_mem hmem
    have hpos := Finset.card_pos.2 ⟨_, hmem⟩
    have hk : 4128 = 4128 ∧ d.bio.bufferPos + 4128 ≤ bufferSize := ⟨rfl, by omega⟩
    have htaken := (htake 4128 (.inr hk)).pos
    refine ⟨S.erase (sector / 8), 4128, .inr hk, by omega, fun b' ht' hb' hn' => ?_, by omega⟩
    have hb'' : b' ≠ sector / 8 := by omega
    exact hkeep b' hb'' (hS.skips b' ht' (by omega) fun hm => hn' (Finset.mem_erase.2 ⟨hb'', hm⟩))
  · have hskip := hS.skips _ htouch (by omega) hmem
    have htaken := (htake 0 (.inl hskip)).pos
    refine ⟨S, 0, .inl hskip, by omega, fun b' ht' hb' hn' => ?_, by omega⟩
    exact hkeep b' (by omega) (hS.skips b' ht' (by omega) hn')

theorem wp_pdWriteLoop (hq : q.sec + q.secs ≤ 8 * n) (hn : n < 2 ^ 31)
    (hA : ∀ f, FileInv n N old f → AllowsFrom L f N) {J : Junk} {recs0 : List Rec} {fuel remain : Nat}
    {buf : Mem} (hfuel : q.sec + q.secs - sector < fuel) (hremain : remain = q.sec + q.secs - sector)
    (hplace : sector = q.sec ∨ sector % 8 = 0 ∧ q.sec < sector) (hbuf : buf.length = 4128)
    (hI : LogInv n N old d s recs) (hP : WrittenTo T q sector recs0 recs)
    (ht : L.total → Calm d s recs ∧ ∃ S, Room q recs d sector S) :
    wp L (pdWriteLoop J q fuel d sector remain buf) (fun r s' => r.1 = 0 ∧
      ∃ new, LogInv n N old r.2 s' (new ++ recs) ∧ WriteStep T q recs0 (new ++ recs) ∧
        (Full s recs → Full s' (new ++ recs)) ∧ ∀ S, Room q recs d sector S → Calm d s recs →
          Calm r.2 s' (new ++ recs) ∧ Takes (4128 * S.card) d r.2) s := by
  induction fuel generalizing sector remain buf d s recs with
  | zero => omega
  | succ fuel ih =>
    rw [pdWriteLoop, u64_of_lt (by omega)]
    simp only [hI.sectors]
    by_cases hend : sector < q.sec + q.secs
    · have hat : At q.toTdRequest sector (sector / 8) := ⟨hend, rfl, hplace⟩
      have hblock : toU64 (toInt ((sector / 8 : Nat) : Int)) = sector / 8 := by
        rw [toInt_of_lt (by omega), toU64_natCast (by omega)]
      have htouch : q.Touches (sector / 8) := ⟨by omega, by omega, by omega⟩
      have hcur : (if 8 - sector % 8 < remain then 8 - sector % 8 else remain) =
          min (8 - sector % 8) (q.sec + q.secs - sector) := by split <;> omega
      generalize hc : min (8 - sector % 8) (q.sec + q.secs - sector) = current at hcur
      rw [if_pos hend, if_neg (by decide)]
      have hcast : toU64 (toInt (((sector : Int) / (8 : Nat)))) = sector / 8 := hblock
      rw [hcur, show q.secs - (remain - current) - current = sector - q.sec by omega]
      simp only [defaultSectorSize]
      rw [hcast]
      refine wp_seq (wp_pdWriteBlock hM hI hA hat (by omega) hbuf hc.symm ?_) ?_
      · intro h
        obtain ⟨hcalm, S, hS⟩ := ht h
        refine ⟨hcalm, ?_⟩
        by_cases hmem : sector / 8 ∈ S
        · have := Finset.card_pos.2 ⟨_, hmem⟩
          have := hS.fits
          exact .inr (by omega)
        · exact .inl (hS.skips _ htouch (by omega) hmem)
      · rintro ⟨r, d1, buf1⟩ s1 ⟨rfl, hbuf1, new, hI1, hstep, hne, hfull1, hroom⟩
        simp only at hbuf1 hI1 hroom ⊢
        rw [if_neg (by decide), u64_of_lt (by omega), show (sector / 8 + 1) * 8 = 8 * (sector / 8 + 1) by omega]
        -- the room that is left after this block
        have hleft : ∀ S, Room q recs d sector S → Calm d s recs → ∃ S', ∃ k, k + 4128 * S'.card ≤ 4128 * S.card ∧
            Calm d1 s1 (new ++ recs) ∧ Takes k d d1 ∧ Room q (new ++ recs) d1 (8 * (sector / 8 + 1)) S' := by
          intro S hS hcalm
          obtain ⟨S', k, hk, hcard, hnext⟩ := hS.next htouch hne fun k hk => (hroom k hk hcalm).2
          obtain ⟨hc1, ht1⟩ := hroom k hk hcalm
          exact ⟨S', k, hcard, hc1, ht1, hnext⟩
        refine wp_mono (ih (by omega) (by omega) (.inr ⟨by omega, by omega⟩) hbuf1 hI1
          (hP.next hat hstep hne) ?_) ?_
        · intro h
          obtain ⟨hcalm, S, hS⟩ := ht h
          obtain ⟨S', k, -, hc, -, hr⟩ := hleft S hS hcalm
          exact ⟨hc, S', hr⟩
        · rintro ⟨r, d2⟩ s2 ⟨h0, new', hI2, hW, hfull2, hfin⟩
          refine ⟨h0, new' ++ new, by rw [List.append_assoc]; exact hI2, by rw [List.append_assoc]; exact hW,
            fun h => by rw [List.append_assoc]; exact hfull2 (hfull1 h), fun S hS hcalm => ?_⟩
          obtain ⟨S', k, hk, hc, htk, hr⟩ := hleft S hS hcalm
          obtain ⟨hc2, ht2⟩ := hfin S' hr hc
          rw [List.append_assoc]
          exact ⟨hc2, ht2.next.trans htk.next, by have := ht2.pos; have := htk.pos; omega⟩
    · rw [if_neg hend]
      exact ⟨rfl, [], hI, hP.whole (by omega) hplace, id, fun S hS hcalm => ⟨hcalm, rfl, Nat.le_add_right _ _⟩⟩

/-- **`pd_write`.** Each block that the request touches gets one version with the request's bytes, or
none where it has no version and stays zero; the other blocks keep their versions. -/
theorem wp_pdWrite (hq : q.sec + q.secs ≤ 8 * n) (hn : n < 2 ^ 31)
    (hA : ∀ f, FileInv n N old f → AllowsFrom L f N) {J : Junk} (hI : LogInv n N old d s recs)
    (ht : L.total → Calm d s recs ∧ ∃ S, Room q recs d q.sec S) :
    wp L (pdWrite J d q) (fun r s' => r.1 = 0 ∧
      ∃ new, LogInv n N old r.2 s' (new ++ recs) ∧ WriteStep T q recs (new ++ recs) ∧
        (Full s recs → Full s' (new ++ recs)) ∧ ∀ S, Room q recs d q.sec S → Calm d s recs →
          Calm r.2 s' (new ++ recs) ∧ Takes (4128 * S.card) d r.2) s := by
  refine wp_pdWriteLoop hM hq hn hA (by omega) (by omega) (.inl rfl) (length_zeros _) hI
    ⟨fun b h1 h2 => ?_, fun b _ => rfl⟩ ht
  obtain ⟨-, h3, -⟩ := h1
  omega

end

end LogDrive
