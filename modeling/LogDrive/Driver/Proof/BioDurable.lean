import LogDrive.Driver.Proof.BioCoherent

/-!
# The log keeps what is written to it

A run of `bio_write` and `bio_flush` calls on one writable `buffered_io` (`LogRun`). An offset that
`bio_write` returns is a promise about a flush to come, and a flush writes padding behind the last
entry. `log_durable`: the ranges returned follow one another from the initial `next_offset` on, nothing
below it is written, and after `bio_finalize` the file holds in each range what was given for it.

`WriteSide` is the invariant. It holds for every initial `next_offset`, also one past the largest file
offset: there no flush of pending bytes succeeds, and the 64-bit sum of `next_offset` and `buffer_pos`
may wrap.
-/

set_option autoImplicit false

open Bytes

namespace LogDrive

/-- The runs from `bio_init` over `file` in which every call succeeds, with the ranges that the
`bio_write` calls returned, newest first. -/
inductive LogRun (J : Junk) (N : Nat) (file : Mem) : List Entry → BufferedIo → Os Event → Prop
  | init {s : Os Event} : s.file = file → LogRun J N file [] (bioInit J false N) s
  | write {es : List Entry} {b b' : BufferedIo} {s s' : Os Event} {offset : Nat} (bytes : Mem) :
      LogRun J N file es b s → 1 ≤ bytes.length → bytes.length ≤ bufferSize →
      Done (bioWrite b bytes) s (offset, b') s' → LogRun J N file (⟨offset, bytes⟩ :: es) b' s'
  | flush {es : List Entry} {b b' : BufferedIo} {s s' : Os Event} :
      LogRun J N file es b s → Done (bioFlush b) s b' s' → LogRun J N file es b' s'

/-- However far the program gets with calls that succeed, it has stayed inside its memory, and a write
that it is about to make starts at or past `lo`. -/
def WritesFrom {α : Type} (lo : Nat) (p : Prog Event α) (s : Os Event) : Prop :=
  ∀ n q s', runOk n (p, s) = some (q, s') → q ≠ .undefined ∧ q ≠ .spin ∧ ∀ bs k, q = .write bs k → lo ≤ s'.pos

/-- The ranges lie at or past `N`, each behind the older ones. -/
def Ascending (N : Nat) (es : List Entry) : Prop :=
  (∀ e ∈ es, N ≤ e.off) ∧ es.Pairwise fun newer older => older.off < older.stop ∧ older.stop ≤ newer.off

/-- **The write side is durable**, after a run from `N` that returned the ranges `es`. `ranges` is before
`bio_finalize`: it needs that `N` is an offset of a file, or that the pending bytes end below 2^64. -/
structure LogDurable (N : Nat) (file : Mem) (es : List Entry) (b : BufferedIo) (s : Os Event) : Prop where
  room : b.bufferPos ≤ bufferSize
  buffer : b.buffer.length = bufferSize
  /-- What the next flush copies. -/
  rounded : roundUp b.bufferPos defaultSectorSize ≤ bufferSize
  aligned : b.nextOffset % 512 = 0
  kept : ∀ i < N, byteAt s.file i = byteAt file i
  write : ∀ bytes : Mem, 1 ≤ bytes.length → bytes.length ≤ bufferSize → WritesFrom N (bioWrite b bytes) s
  flush : WritesFrom N (bioFlush b) s
  ranges : N ≤ offMax ∨ b.nextOffset + b.bufferPos < 2 ^ 64 → Ascending N es
  /-- `bio_finalize` returns where what is pending fits below the largest offset. -/
  returns : b.nextOffset + roundUp b.bufferPos defaultSectorSize ≤ offMax → ∃ next b' s', Done (bioFinalize b) s (next, b') s'
  finalized : ∀ next b' s', Done (bioFinalize b) s (next, b') s' → Ascending N es ∧ next % 512 = 0 ∧
    (∀ i < N, byteAt s'.file i = byteAt file i) ∧
    ∀ e ∈ es, e.stop ≤ next ∧ slice s'.file e.off e.bytes.length = e.bytes

/-! ## The invariant -/

structure WriteSide (N : Nat) (file : Mem) (es : List Entry) (b : BufferedIo) (s : Os Event) : Prop where
  writable : b.readOnly = false
  bufLen : b.buffer.length = bufferSize
  posLe : b.bufferPos ≤ bufferSize
  aligned : b.nextOffset % 512 = 0
  above : N ≤ b.nextOffset
  kept : ∀ i < N, byteAt s.file i = byteAt file i
  /-- Before the first flush every entry is pending. -/
  reached : b.nextOffset ≤ offMax ∨ b.nextOffset = N ∧ (es = [] ∨ b.bufferPos ≠ 0)
  inv : b.nextOffset + b.bufferPos < 2 ^ 64 → BioInv b s.file es ∧ ∀ e ∈ es, N ≤ e.off ∧ 1 ≤ e.bytes.length

/-- Nothing is assumed of the calls but that they succeed, and writes start at or past `lo`. -/
def writesLogic (lo : Nat) : Logic Event where
  rely _ f f' := f' = f
  rely_refl _ _ := rfl
  assume _ _ := True
  allow t _ := lo ≤ t.pos
  ub := False
  total := False

theorem writesLogic_alone (lo : Nat) : (writesLogic lo).Alone := fun _ _ _ h => h

theorem writesLogic_assumed (lo : Nat) (past : List Event) : Assumed (writesLogic lo).assume past :=
  .of_forall (fun _ _ => trivial) past

theorem writesFrom_of_wp {α : Type} {lo : Nat} {p : Prog Event α} {Q : α → Os Event → Prop} {s : Os Event}
    (h : wp (writesLogic lo) p Q s) : WritesFrom lo p s := by
  intro n q s' hr
  obtain ⟨hu, hspin⟩ := wp_runOk_safe (L := writesLogic lo) id h hr (writesLogic_assumed lo _)
  refine ⟨hu, hspin, ?_⟩
  rintro bs k rfl
  exact (wp_runOk h hr (writesLogic_assumed lo _) s'.file rfl).2.1

namespace WriteSide

variable {N : Nat} {file : Mem} {es : List Entry} {b : BufferedIo} {s : Os Event}

theorem no_wrap (h : WriteSide N file es b s) (hoff : b.nextOffset ≤ offMax) :
    b.nextOffset + b.bufferPos < 2 ^ 64 := by
  have := h.posLe
  rw [bufferSize_eq] at this
  simp only [offMax] at hoff
  omega

theorem init (J : Junk) (hN : N % 512 = 0) (hs : N < 2 ^ 64) (hf : s.file = file) :
    WriteSide N file [] (bioInit J false N) s where
  writable := rfl
  bufLen := by simp [bioInit]
  posLe := Nat.zero_le _
  aligned := hN
  above := Nat.le_refl _
  kept := fun i _ => by rw [hf]
  reached := .inr ⟨rfl, .inl rfl⟩
  inv := fun _ => ⟨bioInit_inv hN hs .nil (fun _ h => absurd h List.not_mem_nil) (fun _ h => absurd h List.not_mem_nil)
    fun _ h => absurd h List.not_mem_nil, fun _ h => absurd h List.not_mem_nil⟩

/-- An entry copied into the write buffer. -/
theorem push (h : WriteSide N file es b s) {bytes : Mem} (hne : 1 ≤ bytes.length)
    (hroom : b.bufferPos + bytes.length ≤ bufferSize) (notes : List Event) :
    WriteSide N file (⟨u64 (b.nextOffset + b.bufferPos), bytes⟩ :: es)
      { b with buffer := store b.buffer b.bufferPos bytes, bufferPos := b.bufferPos + bytes.length }
      { s with notes := notes } where
  writable := h.writable
  bufLen := by
    have := h.bufLen
    rw [length_store_of_le (by omega), this]
  posLe := hroom
  aligned := h.aligned
  above := h.above
  kept := h.kept
  reached := h.reached.imp_right fun hN => ⟨hN.1, .inr (by simp only; omega)⟩
  inv := fun hsmall => by
    simp only at hsmall
    obtain ⟨hI, hes⟩ := h.inv (by omega)
    rw [u64_of_lt (by omega)]
    refine ⟨hI.push (by omega) hroom (by omega), fun e he => ?_⟩
    rcases List.mem_cons.1 he with rfl | he
    · have := h.above
      exact ⟨by simp only; omega, hne⟩
    · exact hes e he

theorem wp_flush (h : WriteSide N file es b s) : wp (writesLogic N) (bioFlush b) (fun b' s' =>
    WriteSide N file es b' s' ∧ b'.bufferPos = 0 ∧ (es ≠ [] → b'.nextOffset ≤ offMax)) s := by
  have hL := writesLogic_alone N
  by_cases hoff : b.nextOffset ≤ offMax
  · obtain ⟨hI, hes⟩ := h.inv (h.no_wrap hoff)
    refine wp_mono (wp_bioFlush hL hI (fun t bs _ hlo => Nat.le_trans h.above hlo) fun h => h.elim) ?_
    rintro b' s' ⟨hI', -, hpos, hF⟩
    have hnext : b'.nextOffset ≤ offMax := by
      by_cases hm : b'.nextOffset = b.nextOffset
      · rw [hm]; exact hoff
      · exact hF.moved hm
    refine ⟨⟨hI'.writable, hI'.bufLen, hI'.posLe, hI'.aligned, Nat.le_trans h.above hF.next, fun i hi => ?_,
      .inl hnext, fun _ => ⟨hI', hes⟩⟩, hpos, fun _ => hnext⟩
    rw [hF.below i (Nat.lt_of_lt_of_le hi h.above), h.kept i hi]
  · by_cases hpos : b.bufferPos = 0
    · -- nothing is pending
      have hidle : bioFlush b = .ret b := by
        unfold bioFlush
        rw [if_neg (by simp [h.writable]), if_neg (by simp [hpos])]
        rfl
      rw [hidle]
      refine ⟨h, hpos, fun hne => ?_⟩
      rcases h.reached with hr | ⟨-, hr | hr⟩
      · exact absurd hr hoff
      · exact absurd hr hne
      · exact absurd hpos hr
    · -- the seek does not succeed
      have hround := roundUp_bufferPos h.posLe
      have hle := h.posLe
      rw [bioFlush_pending b h.writable hpos (by rw [hround, h.bufLen]; rw [bufferSize_eq] at *; omega)]
      exact wp_lseek_alone hL (fun h => h.elim) fun hl => absurd hl hoff

theorem finalize_returns (h : WriteSide N file es b s)
    (hfit : b.nextOffset + roundUp b.bufferPos defaultSectorSize ≤ offMax) :
    ∃ next b' s', Done (bioFinalize b) s (next, b') s' := by
  suffices hflush : ∃ b' s', Done (bioFlush b) s b' s' by
    obtain ⟨b', s', hd⟩ := hflush
    exact ⟨_, _, _, hd.bind (.ret _ _)⟩
  by_cases hpos : b.bufferPos = 0
  · refine ⟨b, s, ?_⟩
    unfold bioFlush
    rw [if_neg (by simp [h.writable]), if_neg (by simp [hpos])]
    exact .ret _ _
  · have hround := roundUp_bufferPos h.posLe
    have hle := h.posLe
    have hroom : roundUp b.bufferPos defaultSectorSize ≤ b.buffer.length := by
      rw [hround, h.bufLen, bufferSize_eq]
      rw [bufferSize_eq] at hle
      omega
    exact ⟨_, _, bioFlush_returns h.writable hpos rfl hroom hfit s⟩

theorem wp_write (h : WriteSide N file es b s) {bytes : Mem} (hne : 1 ≤ bytes.length) (hsize : bytes.length ≤ bufferSize) :
    wp (writesLogic N) (bioWrite b bytes) (fun r s' => WriteSide N file (⟨r.1, bytes⟩ :: es) r.2 s') s := by
  unfold bioWrite
  rw [if_neg (by simp [h.writable])]
  have hfirst : wp (writesLogic N) (if b.bufferPos + bytes.length > bufferSize then bioFlush b else pure b)
      (fun b1 s1 => WriteSide N file es b1 s1 ∧ b1.bufferPos + bytes.length ≤ bufferSize) s := by
    split
    · refine wp_mono h.wp_flush ?_
      rintro b1 s1 ⟨h1, hpos, -⟩
      exact ⟨h1, by omega⟩
    · exact ⟨h, by omega⟩
  refine wp_seq hfirst ?_
  rintro b1 s1 ⟨h1, hroom⟩
  rw [if_pos (by rw [h1.bufLen]; exact hroom)]
  exact ⟨fun _ => trivial, fun _ => h1.push hne hroom _⟩

theorem ascending (h : WriteSide N file es b s) (hsmall : b.nextOffset + b.bufferPos < 2 ^ 64) : Ascending N es := by
  obtain ⟨hI, hes⟩ := h.inv hsmall
  refine ⟨fun e he => (hes e he).1, ?_⟩
  refine hI.sorted.imp_of_mem fun {newer older} _ ho hle => ⟨?_, hle⟩
  have := (hes older ho).2
  rw [Entry.stop]
  omega

/-- After a flush every entry lies in the file. -/
theorem landed (h : WriteSide N file es b s) (hpos : b.bufferPos = 0) (hoff : b.nextOffset ≤ offMax) {e : Entry} (he : e ∈ es) :
    e.stop ≤ b.nextOffset ∧ slice s.file e.off e.bytes.length = e.bytes := by
  obtain ⟨hI, -⟩ := h.inv (h.no_wrap hoff)
  have htop := hI.top e he
  rw [hpos, Nat.add_zero] at htop
  refine ⟨htop, slice_eq_of_holds (hI.inFile e he htop) ((hI.holds e he).congr fun i _ hi => ?_)⟩
  exact (if_pos (show i < b.nextOffset by rw [Entry.stop] at htop; omega)).symm

end WriteSide

/-! ## Runs -/

section
variable {J : Junk} {N : Nat} {file : Mem} {es : List Entry} {b : BufferedIo} {s : Os Event}
  (hN : N % 512 = 0) (hs : N < 2 ^ 64)
include hN hs

theorem LogRun.writeSide (h : LogRun J N file es b s) : WriteSide N file es b s := by
  induction h with
  | init hf => exact .init J hN hs hf
  | write bytes _ hne hsize hd ih =>
    have hW := wp_done (ih.wp_write hne hsize) hd (writesLogic_assumed N _)
    exact hW
  | flush _ hd ih =>
    obtain ⟨hW, -, -⟩ := wp_done ih.wp_flush hd (writesLogic_assumed N _)
    exact hW

/-- **Durability.** Every run of writes and flushes is durable: each further call and `bio_finalize` stay inside
the buffer and above `N`, `bio_finalize` returns where its flush fits into a file, and then the ranges ascend
from `N` on and the file holds them. -/
theorem log_durable (h : LogRun J N file es b s) : LogDurable N file es b s := by
  have hW := h.writeSide hN hs
  have hround := roundUp_bufferPos hW.posLe
  refine ⟨hW.posLe, hW.bufLen, ?_, hW.aligned, hW.kept, fun bytes hne hsize => writesFrom_of_wp (hW.wp_write hne hsize),
    writesFrom_of_wp hW.wp_flush, fun hsmall => ?_, hW.finalize_returns, fun next b' s' hd => ?_⟩
  · have := hW.posLe
    rw [hround, bufferSize_eq] at *
    omega
  · refine hW.ascending ?_
    rcases hsmall with hoff | hsmall
    · refine hW.no_wrap ?_
      rcases hW.reached with hr | ⟨hr, -⟩
      · exact hr
      · rw [hr]; exact hoff
    · exact hsmall
  · obtain ⟨b1, s1, h1, h2⟩ := hd.bind_inv
    obtain ⟨heq, rfl⟩ := h2.ret_inv
    simp only [Prod.mk.injEq] at heq
    obtain ⟨rfl, rfl⟩ := heq
    obtain ⟨hW', hpos, hoff⟩ := wp_done hW.wp_flush h1 (writesLogic_assumed N _)
    refine ⟨?_, hW'.aligned, hW'.kept, fun e he => hW'.landed hpos (hoff (List.ne_nil_of_mem he)) he⟩
    rcases List.eq_nil_or_concat es with rfl | ⟨es', e, rfl⟩
    · exact ⟨fun e he => absurd he List.not_mem_nil, .nil⟩
    · exact hW'.ascending (hW'.no_wrap (hoff (by simp)))

end

/-- A byte, a flush, two writes behind each other, and `bio_finalize`. -/
theorem log_durable_small : ∃ b s next b' s', LogDurable 512 [] [⟨1026, [4]⟩, ⟨1024, [2, 3]⟩, ⟨512, [1]⟩] b s ∧
    Done (bioFinalize b) s (next, b') s' ∧ 1027 ≤ next ∧ slice s'.file 512 1 = [1] ∧ slice s'.file 1024 2 = [2, 3] ∧
    slice s'.file 1026 1 = [4] := by
  obtain ⟨s2, hflush⟩ := demo_empty ⟨[], 0, [.logged 512 [1]]⟩
  have hbyte := bioWrite_room demoOpen [1] rfl (by rw [bufferSize_eq]; decide) (by simp [demoOpen, bioInit])
  have hlast := bioWrite_room demoMore [4] rfl (by rw [bufferSize_eq]; decide) demo_more_buffer
  have h0 := LogRun.init (J := zeroJunk) (N := 512) (s := ⟨[], 0, []⟩) rfl
  have h1 := h0.write [1] (by decide) (by rw [bufferSize_eq]; decide)
    (show Done (bioWrite demoOpen [1]) _ (512, demoPending) _ by rw [hbyte]; exact .of_step rfl (.ret ..))
  have h2 := h1.flush hflush
  have h3 := h2.write [2, 3] (by decide) (by rw [bufferSize_eq]; decide) (demo_more s2)
  have h4 := h3.write [4] (by decide) (by rw [bufferSize_eq]; decide)
    (show Done (bioWrite demoMore [4]) _ (1026, _) _ by rw [hlast]; exact .of_step rfl (.ret ..))
  have hD := log_durable (by decide) (by decide) h4
  obtain ⟨next, b', s', hd⟩ := hD.returns (by decide)
  obtain ⟨-, -, -, hes⟩ := hD.finalized next b' s' hd
  obtain ⟨htop, hfour⟩ := hes _ (List.mem_cons_self ..)
  obtain ⟨-, htwo⟩ := hes ⟨1024, [2, 3]⟩ (by simp)
  obtain ⟨-, hone⟩ := hes ⟨512, [1]⟩ (by simp)
  exact ⟨_, _, next, b', s', hD, hd, htop, hone, htwo, hfour⟩

end LogDrive
