import LogDrive.Driver.Proof.BioInv

/-!
# Coherence of the buffered log

A run of calls on one writable `buffered_io` (`BioRun`) should read back what it wrote
(`ReadsBack`). It does not: the read buffer may be filled across the end of the log and stay enabled
while a flush moves `next_offset` over it, so that a later `bio_read` is served the bytes that lay
there before (`stale_run`). It does in every run whose reads inside entries are not stale
(`bio_coherent`).
-/

set_option autoImplicit false

open Bytes

namespace LogDrive

inductive BioOp where
  | write (bytes : Mem)
  | flush
  | read (pos size : Nat)

inductive BioReply where
  | wrote (offset : Nat)
  | flushed
  | got (bytes : Option Mem)

def BioOp.serve (b : BufferedIo) : BioOp → Prog Event (BioReply × BufferedIo)
  | .write bytes => do
    let (offset, b) ← bioWrite b bytes
    pure (.wrote offset, b)
  | .flush => do
    let b ← bioFlush b
    pure (.flushed, b)
  | .read pos size => do
    let (bytes, b) ← bioRead b pos size
    pure (.got bytes, b)

section
variable {b b' : BufferedIo} {s s' : Os Event}

theorem serve_write {bytes : Mem} {offset : Nat} (h : Done (bioWrite b bytes) s (offset, b') s') :
    Done (BioOp.serve b (.write bytes)) s (.wrote offset, b') s' := h.bind (.ret _ _)

theorem serve_flush (h : Done (bioFlush b) s b' s') : Done (BioOp.serve b .flush) s (.flushed, b') s' :=
  h.bind (.ret _ _)

theorem serve_read {pos size : Nat} {got : Option Mem} (h : Done (bioRead b pos size) s (got, b') s') :
    Done (BioOp.serve b (.read pos size)) s (.got got, b') s' := h.bind (.ret _ _)

end

/-- The calls of a run and what they returned, in order. -/
abbrev BioTrace := List (BioOp × BioReply)

/-- The entries that the calls of a trace returned an offset for. -/
def logged (tr : BioTrace) : List Entry :=
  tr.filterMap fun
    | (.write bytes, .wrote offset) => some ⟨offset, bytes⟩
    | _ => none

/-- An entry header plus at most one block. -/
def BioOp.Sized : BioOp → Prop
  | .write bytes => 1 ≤ bytes.length ∧ bytes.length ≤ entryHeaderSize + defaultBlockSize
  | _ => True

/-- The runs from `bio_init` over `file` in which every system call succeeds and every call, made
after the trace `tr` in the state `b`, meets `C tr b`. -/
inductive BioRun (C : BioTrace → BufferedIo → BioOp → Prop) (J : Junk) (N : Nat) (file : Mem) :
    BioTrace → BufferedIo → Os Event → Prop
  | init {s : Os Event} : s.file = file → BioRun C J N file [] (bioInit J false N) s
  | call {tr : BioTrace} {b b' : BufferedIo} {s s' : Os Event} {r : BioReply} (op : BioOp) :
      BioRun C J N file tr b s → op.Sized → C tr b op → Done (op.serve b) s (r, b') s' →
      BioRun C J N file (tr ++ [(op, r)]) b' s'

/-- Every read inside an entry returned before copies that entry's bytes. -/
def ReadsBack (tr : BioTrace) : Prop :=
  ∀ pre post pos size r, tr = pre ++ (.read pos size, .got r) :: post →
    ∀ e ∈ logged pre, e.Covers pos size → r = some (e.part pos size)

/-- A write does not wrap the 64-bit offset, and a read inside an entry is not stale. -/
def NotStale (tr : BioTrace) (b : BufferedIo) : BioOp → Prop
  | .write bytes => b.nextOffset + b.bufferPos + bytes.length < 2 ^ 64
  | .flush => True
  | .read pos size => (∃ e ∈ logged tr, e.Covers pos size) → ¬b.stale pos size

/-! ## Runs keep the invariant -/

/-- Nothing is assumed of the calls but that they succeed. -/
def bioLogic : Logic Event where
  rely _ f f' := f' = f
  rely_refl _ _ := rfl
  assume _ _ := True
  allow _ _ := True
  ub := True
  total := False

theorem bio_done {α : Type} {p : Prog Event α} {Q : α → Os Event → Prop} {s s' : Os Event} {a : α}
    (h : wp bioLogic p Q s) (hd : Done p s a s') : Q a s' :=
  wp_done h hd (.of_forall (fun _ _ => trivial) _)

theorem logged_snoc (tr : BioTrace) (op : BioOp) (r : BioReply) :
    logged (tr ++ [(op, r)]) = logged tr ++ logged [(op, r)] := List.filterMap_append ..

theorem ReadsBack.snoc {tr : BioTrace} {op : BioOp} {r : BioReply} (h : ReadsBack tr)
    (hlast : ∀ pos size bytes, op = .read pos size → r = .got bytes →
      ∀ e ∈ logged tr, e.Covers pos size → bytes = some (e.part pos size)) :
    ReadsBack (tr ++ [(op, r)]) := by
  intro pre post pos size bytes heq e he hc
  rcases List.eq_nil_or_concat post with rfl | ⟨post', x, rfl⟩
  · obtain ⟨rfl, hx⟩ := List.append_inj' heq rfl
    simp only [List.cons.injEq, Prod.mk.injEq, and_true] at hx
    exact hlast pos size bytes hx.1 hx.2 e he hc
  · rw [List.concat_eq_append, ← List.cons_append, ← List.append_assoc] at heq
    exact h pre post' pos size bytes (List.append_inj' heq rfl).1 e he hc

/-- One call keeps the invariant, and a read inside an entry that is not stale reads it back. -/
theorem bio_call {tr : BioTrace} {b b' : BufferedIo} {s s' : Os Event} {op : BioOp} {r : BioReply}
    (hI : BioInv b s.file (logged tr).reverse) (hsz : op.Sized) (hC : NotStale tr b op)
    (hd : Done (op.serve b) s (r, b') s') :
    BioInv b' s'.file (logged (tr ++ [(op, r)])).reverse ∧
      ∀ pos size bytes, op = .read pos size → r = .got bytes →
        ∀ e ∈ logged tr, e.Covers pos size → bytes = some (e.part pos size) := by
  have hL : bioLogic.Alone := fun _ _ _ h => h
  have hA : AllowsFrom bioLogic s.file b.nextOffset := fun _ _ _ _ => trivial
  cases op with
  | write bytes =>
    obtain ⟨⟨off, b1⟩, s1, h1, h2⟩ := hd.bind_inv
    have hlen : bytes.length ≤ 4128 := hsz.2
    obtain ⟨hI1, -, -, -⟩ := bio_done (wp_bioWrite hL hI hsz.1 (by rw [bufferSize_eq]; omega) hC hA
      fun h => h.elim) h1
    obtain ⟨hr, rfl⟩ := h2.ret_inv
    simp only [Prod.mk.injEq] at hr
    obtain ⟨rfl, rfl⟩ := hr
    refine ⟨?_, fun pos size bytes h => by cases h⟩
    rw [logged_snoc, List.reverse_append]
    exact hI1
  | flush =>
    obtain ⟨b1, s1, h1, h2⟩ := hd.bind_inv
    obtain ⟨hI1, -, -, -⟩ := bio_done (wp_bioFlush hL hI hA fun h => h.elim) h1
    obtain ⟨hr, rfl⟩ := h2.ret_inv
    simp only [Prod.mk.injEq] at hr
    obtain ⟨rfl, rfl⟩ := hr
    refine ⟨?_, fun pos size bytes h => by cases h⟩
    rw [logged_snoc, List.reverse_append]
    exact hI1
  | read pos size =>
    obtain ⟨⟨bs, b1⟩, s1, h1, h2⟩ := hd.bind_inv
    obtain ⟨bytes, st, hbs, -, hF⟩ := bio_done (wp_bioRead hL hI (.inl trivial) fun h => h.elim) h1
    obtain ⟨hr, rfl⟩ := h2.ret_inv
    simp only [Prod.mk.injEq] at hr
    obtain ⟨rfl, rfl⟩ := hr
    refine ⟨by rw [logged_snoc, List.reverse_append]; exact hF.inv, ?_⟩
    intro pos' size' bytes' h h' e he hc
    cases h
    cases h'
    simp only at hbs
    subst hbs
    have hst : st = false := by
      cases st with
      | false => rfl
      | true => exact absurd (hF.isStale rfl) (hC ⟨e, he, hc⟩)
    rw [hF.right hst e (List.mem_reverse.2 he) hc]

theorem BioRun.inv {J : Junk} {N : Nat} {file : Mem} (hN : N % 512 = 0) (hs : N < 2 ^ 64)
    {tr : BioTrace} {b : BufferedIo} {s : Os Event} (h : BioRun NotStale J N file tr b s) :
    BioInv b s.file (logged tr).reverse ∧ ReadsBack tr := by
  induction h with
  | init hf =>
    refine ⟨bioInit_inv hN hs .nil ?_ ?_ ?_, ?_⟩
    · intro e he; simp [logged] at he
    · intro e he; simp [logged] at he
    · intro e he; simp [logged] at he
    · intro pre post pos size r h; simp at h
  | call op _ hsz hC hd ih =>
    obtain ⟨hI', hlast⟩ := bio_call ih.1 hsz hC hd
    exact ⟨hI', ih.2.snoc hlast⟩

/-! ## A small file -/

/-- A file opened at 512, with one byte in the write buffer, then with the read buffer loaded from
the empty file, and then flushed. -/
def demoOpen : BufferedIo := bioInit zeroJunk false 512
def demoPending : BufferedIo :=
  { demoOpen with buffer := store demoOpen.buffer 0 [1], bufferPos := 1 }
def demoLoaded : BufferedIo := demoPending.loaded 0 []
def demoFlushed : BufferedIo := { demoLoaded with nextOffset := 1024, bufferPos := 0 }

theorem demo_buffer : demoPending.buffer.length = bufferSize := by
  have h : demoOpen.buffer.length = bufferSize := by simp [demoOpen, bioInit]
  simp only [demoPending]
  rw [length_store_of_le (by rw [h, bufferSize_eq]; decide), h]

theorem demo_readBuffer : demoLoaded.readBuffer = tabulate (fun _ => 0) readBufferSize := by
  simp [demoLoaded, demoPending, demoOpen, BufferedIo.loaded, BufferedIo.aimed, bioInit, zeroJunk]

theorem demo_slice {pos : Nat} (h : pos < readBufferSize) :
    slice demoLoaded.readBuffer pos 1 = [0] := by
  have hl : (slice demoLoaded.readBuffer pos 1).length = 1 :=
    length_slice_of_le (by rw [demo_readBuffer, length_tabulate]; omega)
  refine ext_byteAt hl fun i hi => ?_
  obtain rfl : i = 0 := by omega
  rw [byteAt_slice (by omega), demo_readBuffer, byteAt_tabulate (by omega)]
  rfl

theorem demo_write (s : Os Event) : Done (BioOp.serve demoOpen (.write [1])) s
    (.wrote 512, demoPending) { s with notes := .logged 512 [1] :: s.notes } := by
  have h := bioWrite_room demoOpen [1] rfl (by rw [bufferSize_eq]; decide)
    (by simp [demoOpen, bioInit])
  simp only [BioOp.serve, h]
  exact .of_step rfl (.ret ..)

theorem demo_fill (notes : List Event) : Done (BioOp.serve demoPending (.read 0 1)) ⟨[], 0, notes⟩
    (.got (some [0]), demoLoaded) ⟨[], 0, .fetched 0 [0] false :: notes⟩ := by
  have hm := bioRead_miss demoPending 0 1 (by decide) rfl
  rw [show roundDown 0 defaultSectorSize = 0 by decide] at hm
  have hr : demoPending.readBuffer = demoLoaded.readBuffer := by
    simp [demoLoaded, BufferedIo.loaded, BufferedIo.aimed]
  have hc : copyFrom (store demoPending.readBuffer 0 []) (0 - 0) 1 = .ret [0] := by
    rw [store_nil, hr, copyFrom,
      if_pos (by rw [demo_readBuffer, length_tabulate, readBufferSize_eq]; decide),
      demo_slice (by rw [readBufferSize_eq]; decide)]
    rfl
  have hchunk : (⟨[], 0, notes⟩ : Os Event).chunk readBufferSize = [] := by simp [Os.chunk, slice]
  simp only [BioOp.serve, hm]
  refine .of_step rfl (.of_step rfl ?_)
  simp only [hchunk, hc, Os.afterRead]
  exact .of_step rfl (.ret ..)

theorem demo_flush (notes : List Event) : ∃ file, Done (BioOp.serve demoLoaded .flush)
    ⟨[], 0, notes⟩ (.flushed, demoFlushed) ⟨file, 1024, notes⟩ := by
  have hl : 512 ≤ demoLoaded.buffer.length := by
    rw [show demoLoaded.buffer = demoPending.buffer from rfl, demo_buffer, bufferSize_eq]
    decide
  exact ⟨_, serve_flush (@bioFlush_returns demoLoaded 512 rfl (by decide) (by decide) hl (by decide) ⟨[], 0, notes⟩)⟩

theorem demo_stale (s : Os Event) : Done (BioOp.serve demoFlushed (.read 512 1)) s
    (.got (some [0]), demoFlushed) { s with notes := .fetched 512 [0] true :: s.notes } := by
  have hr : demoFlushed.readBuffer = demoLoaded.readBuffer := by simp [demoFlushed]
  have h := bioRead_hit demoFlushed 512 1 (by decide) (by decide)
    (by rw [hr, demo_readBuffer, length_tabulate, readBufferSize_eq]; decide)
  rw [hr, show (512 - demoFlushed.readBufferPos) = 512 by decide,
    demo_slice (by rw [readBufferSize_eq]; decide)] at h
  simp only [BioOp.serve, h]
  exact .of_step rfl (.ret ..)

/-- After the flush two more bytes are written; then the read buffer is loaded from the file. -/
def demoEmptied : BufferedIo := { demoPending with nextOffset := 1024, bufferPos := 0 }
def demoMore : BufferedIo :=
  { demoEmptied with buffer := store demoEmptied.buffer 0 [2, 3], bufferPos := 2 }

theorem demo_empty (s : Os Event) : ∃ s', Done (bioFlush demoPending) s demoEmptied s' := by
  have hl : 512 ≤ demoPending.buffer.length := by
    rw [demo_buffer, bufferSize_eq]
    decide
  exact ⟨_, @bioFlush_returns demoPending 512 rfl (by decide) (by decide) hl (by decide) s⟩

theorem demo_more (s : Os Event) :
    Done (bioWrite demoEmptied [2, 3]) s (1024, demoMore) { s with notes := .logged 1024 [2, 3] :: s.notes } := by
  rw [bioWrite_room demoEmptied [2, 3] rfl (by rw [bufferSize_eq]; decide) demo_buffer]
  exact .of_step rfl (.ret _ _)

theorem demo_more_buffer : demoMore.buffer.length = bufferSize := by
  have h : demoEmptied.buffer.length = bufferSize := demo_buffer
  simp only [demoMore]
  rw [length_store_of_le (by rw [h, bufferSize_eq]; decide), h]

theorem demo_load (s : Os Event) : ∃ bytes r s', Done (bioRead demoMore 512 1) s (some r, demoMore.loaded 512 bytes) s' := by
  have hl : demoMore.readBuffer.length = readBufferSize := by
    simp [demoMore, demoEmptied, demoPending, demoOpen, bioInit]
  obtain ⟨now, notes, h⟩ := @bioRead_loads demoMore 512 1 512 s (by decide) (by decide) (by decide) (by decide)
    (by rw [hl, readBufferSize_eq]; decide)
  exact ⟨_, _, _, h⟩

theorem demo_window (bytes : Mem) (s : Os Event) :
    ∃ r s', Done (bioRead (demoMore.loaded 512 bytes) 512 1) s (some r, demoMore.loaded 512 bytes) s' := by
  have hl : demoMore.readBuffer.length = readBufferSize := by
    simp [demoMore, demoEmptied, demoPending, demoOpen, bioInit]
  have hin : 512 - 512 + 1 ≤ (store demoMore.readBuffer 0 bytes).length :=
    Nat.le_trans (by rw [hl, readBufferSize_eq]; decide) (le_length_store _ _ _)
  have hhit : (true && (decide (512 ≤ 512) && decide (u64 (512 - 512 + 1) < readBufferSize))) = true := by decide
  rw [bioRead_hit (demoMore.loaded 512 bytes) 512 1 (show 512 < 1024 by decide) hhit hin]
  exact ⟨_, _, .of_step rfl (.ret _ _)⟩

theorem demo_behind (bytes : Mem) (s : Os Event) :
    ∃ r s', Done (bioRead (demoMore.loaded 512 bytes) 1025 1) s (some r, demoMore.loaded 512 bytes) s' := by
  have h := bioRead_buffer (demoMore.loaded 512 bytes) 1025 1 (show 1024 ≤ 1025 by decide)
    (by rw [show (demoMore.loaded 512 bytes).buffer = demoMore.buffer from rfl, demo_more_buffer, bufferSize_eq]
        exact show 1025 - 1024 + 1 ≤ 528384 by decide)
  rw [h]
  exact ⟨_, _, .of_step rfl (.ret _ _)⟩

/-! ## Coherence -/

/-- **Coherence.** In every run whose reads inside entries are not stale, every read inside an entry
copies that entry's bytes. -/
theorem bio_coherent {J : Junk} {N : Nat} {file : Mem} {tr : BioTrace} {b : BufferedIo}
    {s : Os Event} (hN : N % 512 = 0) (hs : N < 2 ^ 64) (h : BioRun NotStale J N file tr b s) :
    ReadsBack tr := (h.inv hN hs).2

/-- Three bytes are read back: one from the file, again from the read buffer, and one from the write buffer. -/
theorem bio_coherent_small : ∃ r r' r'', r = some [1] ∧ r' = some [1] ∧ r'' = some [3] ∧
    ReadsBack [(.write [1], .wrote 512), (.flush, .flushed), (.write [2, 3], .wrote 1024), (.read 512 1, .got r),
      (.read 512 1, .got r'), (.read 1025 1, .got r'')] := by
  obtain ⟨s2, hflush⟩ := demo_empty ⟨[], 0, [.logged 512 [1]]⟩
  obtain ⟨bytes, r, s4, hload⟩ := demo_load { s2 with notes := .logged 1024 [2, 3] :: s2.notes }
  obtain ⟨r', s5, hwindow⟩ := demo_window bytes s4
  obtain ⟨r'', s6, hbehind⟩ := demo_behind bytes s5
  have h0 := BioRun.init (C := NotStale) (J := zeroJunk) (N := 512) (s := ⟨[], 0, []⟩) rfl
  have h1 := h0.call (.write [1]) ⟨by decide, by decide⟩ (show 512 + 0 + 1 < 2 ^ 64 by decide) (demo_write _)
  have h2 := h1.call .flush trivial trivial (serve_flush hflush)
  have h3 := h2.call (.write [2, 3]) ⟨by decide, by decide⟩ (show 1024 + 0 + 2 < 2 ^ 64 by decide)
    (serve_write (demo_more s2))
  have h4 := h3.call (.read 512 1) trivial (fun _ h => absurd h.2.1 (by decide)) (serve_read hload)
  have h5 := h4.call (.read 512 1) trivial (fun _ h => absurd h.2.2 (show ¬1024 ≤ 512 by decide)) (serve_read hwindow)
  have h6 := h5.call (.read 1025 1) trivial (fun _ h => absurd h.1 (show ¬1025 < 1024 by decide)) (serve_read hbehind)
  have hback := bio_coherent (by decide) (by decide) h6
  refine ⟨some r, some r', some r'', ?_, ?_, ?_, hback⟩
  · exact hback [(.write [1], .wrote 512), (.flush, .flushed), (.write [2, 3], .wrote 1024)] _ 512 1 _ rfl
      ⟨512, [1]⟩ (by simp [logged]) ⟨by decide, by decide⟩
  · exact hback [(.write [1], .wrote 512), (.flush, .flushed), (.write [2, 3], .wrote 1024), (.read 512 1, .got (some r))]
      _ 512 1 _ rfl ⟨512, [1]⟩ (by simp [logged]) ⟨by decide, by decide⟩
  · exact hback [(.write [1], .wrote 512), (.flush, .flushed), (.write [2, 3], .wrote 1024), (.read 512 1, .got (some r)),
      (.read 512 1, .got (some r'))] [] 1025 1 _ rfl ⟨1024, [2, 3]⟩ (by simp [logged]) ⟨by decide, by decide⟩

/-- One byte is logged at 512. A read at 0 fills the read buffer across 512, where the file ends.
After the flush the byte is read from the read buffer. -/
theorem stale_run : ∃ b s, BioRun (fun _ _ _ => True) zeroJunk 512 []
    [(.write [1], .wrote 512), (.read 0 1, .got (some [0])), (.flush, .flushed),
      (.read 512 1, .got (some [0]))] b s := by
  obtain ⟨file, hf⟩ := demo_flush [.fetched 0 [0] false, .logged 512 [1]]
  have h0 := BioRun.init (C := fun _ _ _ => True) (J := zeroJunk) (N := 512) (s := ⟨[], 0, []⟩) rfl
  have h1 := h0.call (.write [1]) ⟨by decide, by decide⟩ trivial (demo_write _)
  have h2 := h1.call (.read 0 1) trivial trivial (demo_fill _)
  have h3 := h2.call .flush trivial trivial hf
  exact ⟨_, _, h3.call (.read 512 1) trivial trivial (demo_stale _)⟩

/-- The calls of `bio_write`, `bio_flush` and `bio_read` alone do not read back what was written. -/
theorem bio_not_coherent : ¬∀ J N file tr b s, N % 512 = 0 → N < 2 ^ 64 →
    BioRun (fun _ _ _ => True) J N file tr b s → ReadsBack tr := by
  intro h
  obtain ⟨b, s, hr⟩ := stale_run
  have := h zeroJunk 512 [] _ b s (by decide) (by decide) hr
    [(.write [1], .wrote 512), (.read 0 1, .got (some [0])), (.flush, .flushed)] [] 512 1 _ rfl
    ⟨512, [1]⟩ (by simp [logged]) ⟨by decide, by decide⟩
  simp [Entry.part, slice] at this

end LogDrive
