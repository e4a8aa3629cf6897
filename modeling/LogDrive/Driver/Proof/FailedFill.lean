import LogDrive.Lib.Faults
import LogDrive.Driver.Utils

/-!
# Reads whose fill of the read buffer fails

A run of `bio_read` calls over a file that does not change (`FillRun`), where `read` may fail. A call
whose fill failed returns `-1`, but leaves the read buffer enabled at the new place with what it held
before, so a later call there is served that (`failed_fill_served`). In every run in which no call is
served from a read buffer whose fill failed, every call copies the file's bytes or returns `-1`
(`failed_fill`).
-/

set_option autoImplicit false

open Bytes

namespace LogDrive

/-- A call of `bio_read` and what it copied, `none` for the result `-1`. -/
structure ReadCall where
  pos : Nat
  size : Nat
  got : Option Mem

/-- A call below `next_offset` and inside the file, of at most a header and a block. -/
structure ReadCall.Admitted (c : ReadCall) (N : Nat) (file : Mem) : Prop where
  below : c.pos < N
  size : c.size ≤ entryHeaderSize + defaultBlockSize
  inside : c.pos + c.size ≤ file.length

/-- The call copied the file's bytes, or it returned `-1`. -/
def ReadCall.Right (c : ReadCall) (file : Mem) : Prop := c.got = none ∨ c.got = some (slice file c.pos c.size)

/-- The runs from `bio_init` over `file`, in which some reads fail and every call, made in the state
`b`, meets `C`. The flag says whether the last fill of the read buffer failed. -/
inductive FillRun (C : Bool → BufferedIo → ReadCall → Prop) (J : Junk) (readOnly : Bool) (N : Nat) (file : Mem) :
    List ReadCall → Bool → BufferedIo → Os Event → Prop
  | init {s : Os Event} : s.file = file → FillRun C J readOnly N file [] false (bioInit J readOnly N) s
  | call {calls : List ReadCall} {failed : Bool} {b b' : BufferedIo} {s s' : Os Event} (c : ReadCall) :
      FillRun C J readOnly N file calls failed b s → c.Admitted N file → C failed b c →
      Faulty (bioRead b c.pos c.size) s (c.got, b') s' →
      FillRun C J readOnly N file (calls ++ [c]) (if b.windowHit c.pos c.size then failed else c.got.isNone) b' s'

/-- The call is not served from a read buffer whose fill failed. -/
def NotPoisoned (failed : Bool) (b : BufferedIo) (c : ReadCall) : Prop :=
  failed = true → b.windowHit c.pos c.size = false

/-! ## One call -/

/-- The read buffer holds the file, unless its last fill failed. -/
structure FillInv (N : Nat) (file : Mem) (failed : Bool) (b : BufferedIo) : Prop where
  next : b.nextOffset = N
  winLen : b.readBuffer.length = readBufferSize
  window : b.readBufferEnable = true → failed = false → ∀ i, b.readBufferPos ≤ i →
    i < b.readBufferPos + readBufferSize → i < file.length → byteAt b.readBuffer (i - b.readBufferPos) = byteAt file i

/-- A fill that succeeds. -/
theorem FillInv.loaded {N : Nat} {file : Mem} {failed : Bool} {b : BufferedIo} (h : FillInv N file failed b) (p : Nat) :
    FillInv N file false (b.loaded p (slice file p readBufferSize)) := by
  have hlen : (slice file p readBufferSize).length = min readBufferSize (file.length - p) := length_slice ..
  refine ⟨h.next, ?_, fun _ _ i h1 h2 h3 => ?_⟩
  · simp only [BufferedIo.loaded]
    rw [length_store_of_le (by rw [h.winLen, hlen]; omega), h.winLen]
  · simp only [BufferedIo.loaded, BufferedIo.aimed] at h1 h2 ⊢
    rw [byteAt_store_inside (by omega) (by rw [hlen]; omega), byteAt_slice (by omega)]
    congr 1
    omega

/-- What the read buffer gives. -/
theorem FillInv.slice {N : Nat} {file : Mem} {b : BufferedIo} (h : FillInv N file false b)
    (hen : b.readBufferEnable = true) {pos size : Nat} (hlo : b.readBufferPos ≤ pos)
    (hhi : pos - b.readBufferPos + size ≤ readBufferSize) (hin : pos + size ≤ file.length) :
    Bytes.slice b.readBuffer (pos - b.readBufferPos) size = Bytes.slice file pos size := by
  have hl : (Bytes.slice b.readBuffer (pos - b.readBufferPos) size).length = size :=
    length_slice_of_le (by rw [h.winLen]; omega)
  refine ext_byteAt (by rw [hl, length_slice_of_le hin]) fun i hi => ?_
  rw [hl] at hi
  rw [byteAt_slice hi, byteAt_slice hi, ← h.window hen rfl (pos + i) (by omega) (by omega) (by omega)]
  congr 1
  omega

theorem windowHit_iff {b : BufferedIo} {pos size : Nat} (h : pos + size < 2 ^ 64) :
    b.windowHit pos size = true ↔
      b.readBufferEnable = true ∧ b.readBufferPos ≤ pos ∧ pos - b.readBufferPos + size < readBufferSize := by
  have hu : u64 (pos - b.readBufferPos + size) = pos - b.readBufferPos + size := u64_of_lt (by omega)
  simp only [BufferedIo.windowHit, Bool.and_eq_true, decide_eq_true_eq, hu]

section
variable {N : Nat} {file : Mem} (hfile : file.length ≤ offMax) {failed : Bool} {b b' : BufferedIo} {s s' : Os Event}
variable {c : ReadCall}
include hfile

/-- **One call** keeps the invariant. It copies the file's bytes or returns `-1`, unless it is served
from a read buffer whose fill failed. -/
theorem bioRead_fill (hI : FillInv N file failed b) (hs : s.file = file) (hc : c.Admitted N file)
    (hC : NotPoisoned failed b c) (hr : Faulty (bioRead b c.pos c.size) s (c.got, b') s') :
    s'.file = file ∧ c.Right file ∧
      FillInv N file (if b.windowHit c.pos c.size then failed else c.got.isNone) b' := by
  have hsize := hc.size
  have hin := hc.inside
  have hpos : c.pos < b.nextOffset := by rw [hI.next]; exact hc.below
  simp only [offMax, entryHeaderSize, defaultBlockSize] at hfile hsize
  have hiff := @windowHit_iff b c.pos c.size (by omega)
  cases hh : b.windowHit c.pos c.size with
  | true =>
    obtain ⟨hen, hlo, hhi⟩ := hiff.1 hh
    have hfailed : failed = false := by
      cases hf : failed with
      | false => rfl
      | true => rw [hC hf] at hh; cases hh
    subst hfailed
    rw [bioRead_hit b _ _ hpos hh (by rw [hI.winLen]; omega)] at hr
    obtain ⟨heq, rfl⟩ := hr.note_inv.ret_inv
    simp only [Prod.mk.injEq] at heq
    rw [hI.slice hen hlo (by omega) hin] at heq
    refine ⟨hs, .inr heq.1, ?_⟩
    rw [if_pos rfl, heq.2]
    exact hI
  | false =>
    have hround : roundDown c.pos defaultSectorSize = c.pos / 512 * 512 := roundDown_sector (by omega)
    rw [bioRead_miss b _ _ hpos hh, hround] at hr
    obtain ⟨-, hr⟩ := hr.lseek_inv
    rw [if_neg (by simp)]
    rcases hr.read_inv with hr | hr
    · -- the fill succeeds
      have hchunk : ({ s with pos := c.pos / 512 * 512 } : Os Event).chunk readBufferSize =
          slice file (c.pos / 512 * 512) readBufferSize := by rw [← hs]; rfl
      have hL := hI.loaded (c.pos / 512 * 512)
      have hwin : (store b.readBuffer 0 (slice file (c.pos / 512 * 512) readBufferSize)).length = readBufferSize :=
        hL.winLen
      simp only [hchunk] at hr
      rw [copyFrom, if_pos (by rw [hwin, readBufferSize_eq]; omega)] at hr
      obtain ⟨heq, rfl⟩ := hr.note_inv.ret_inv
      simp only [Prod.mk.injEq] at heq
      have hslice := hL.slice rfl
        (by simp only [BufferedIo.loaded, BufferedIo.aimed]; omega)
        (by simp only [BufferedIo.loaded, BufferedIo.aimed, readBufferSize_eq]; omega) hin
      refine ⟨hs, .inr (heq.1.trans (congrArg some hslice)), ?_⟩
      rw [heq.1, heq.2]
      exact hL
    · -- the fill fails
      obtain ⟨heq, rfl⟩ := hr.ret_inv
      simp only [Prod.mk.injEq] at heq
      refine ⟨hs, .inl heq.1, ?_⟩
      rw [heq.1, heq.2]
      exact ⟨hI.next, hI.winLen, fun _ h => by cases h⟩

/-! ## Runs -/

theorem FillRun.inv {J : Junk} {readOnly : Bool} {calls : List ReadCall}
    (h : FillRun NotPoisoned J readOnly N file calls failed b s) :
    s.file = file ∧ FillInv N file failed b ∧ ∀ c ∈ calls, c.Right file := by
  induction h with
  | init hs => exact ⟨hs, ⟨rfl, by simp [bioInit], fun h => by cases h⟩, nofun⟩
  | call c _ hc hC hr ih =>
    obtain ⟨hs, hI, hall⟩ := ih
    obtain ⟨hs', hright, hI'⟩ := bioRead_fill hfile hI hs hc hC hr
    refine ⟨hs', hI', fun c' hc' => ?_⟩
    rcases List.mem_append.1 hc' with h1 | h1
    · exact hall c' h1
    · rw [List.mem_singleton.1 h1]
      exact hright

/-- **A failed fill.** In every run in which no call is served from a read buffer whose fill failed,
every call copies the file's bytes or returns `-1`. -/
theorem failed_fill {J : Junk} {readOnly : Bool} {calls : List ReadCall}
    (h : FillRun NotPoisoned J readOnly N file calls failed b s) : ∀ c ∈ calls, c.Right file :=
  (h.inv hfile).2.2

end

/-! ## A first fill that fails -/

def failedCall : ReadCall := ⟨0, 1, none⟩

def poisoned (N : Nat) : BufferedIo := (bioInit zeroJunk true N).aimed 0

theorem first_fill_fails {N : Nat} {file : Mem} (hc : failedCall.Admitted N file)
    {C : Bool → BufferedIo → ReadCall → Prop} (hC : C false (bioInit zeroJunk true N) failedCall) :
    FillRun C zeroJunk true N file [failedCall] true (poisoned N) ⟨file, 0, []⟩ := by
  have hmiss := bioRead_miss (bioInit zeroJunk true N) 0 1 hc.below rfl
  rw [show roundDown 0 defaultSectorSize = 0 by decide] at hmiss
  have hrun : Faulty (bioRead (bioInit zeroJunk true N) 0 1) ⟨file, 0, []⟩ (none, poisoned N) ⟨file, 0, []⟩ := by
    rw [hmiss]
    exact .lseek (by decide) (.read_fails (.ret _ _))
  have hinit : FillRun C zeroJunk true N file [] false (bioInit zeroJunk true N) ⟨file, 0, []⟩ := .init rfl
  exact hinit.call failedCall hc hC hrun

def twentySectors : Mem := List.replicate 10240 1

theorem length_twentySectors : twentySectors.length = 10240 := List.length_replicate

theorem loaded_serves (bytes : Mem) (s : Os Event) : ∃ got s', Faulty (bioRead ((poisoned 10240).loaded 8704 bytes) 9001 2) s
    (some got, (poisoned 10240).loaded 8704 bytes) s' := by
  have hnext : ((poisoned 10240).loaded 8704 bytes).nextOffset = 10240 := rfl
  have hpos : ((poisoned 10240).loaded 8704 bytes).readBufferPos = 8704 := rfl
  have hhit : ((poisoned 10240).loaded 8704 bytes).windowHit 9001 2 = true :=
    (windowHit_iff (by decide)).2 ⟨rfl, by rw [hpos]; decide, by rw [hpos]; decide⟩
  have hl : (poisoned 10240).readBuffer.length = 8192 := by simp [poisoned, BufferedIo.aimed, bioInit, readBufferSize_eq]
  have hwin : 9001 - 8704 + 2 ≤ ((poisoned 10240).loaded 8704 bytes).readBuffer.length :=
    Nat.le_trans (by rw [hl]; decide) (le_length_store _ _ _)
  rw [bioRead_hit _ 9001 2 (by rw [hnext]; decide) hhit (by rw [hpos]; exact hwin)]
  exact ⟨_, _, .note (.ret _ _)⟩

/-- The first fill fails; a read further on loads the read buffer, and one behind it is served from there. -/
theorem failed_fill_small : ∃ got got', got = slice twentySectors 9000 1 ∧ got' = slice twentySectors 9001 2 ∧
    ∀ c ∈ [failedCall, ⟨9000, 1, some got⟩, ⟨9001, 2, some got'⟩], c.Right twentySectors := by
  have hfile : twentySectors.length ≤ offMax := by
    rw [length_twentySectors]
    decide
  have hin : ∀ pos size got, pos + size ≤ 10240 → 1 ≤ size → size ≤ 2 →
      (⟨pos, size, got⟩ : ReadCall).Admitted 10240 twentySectors := fun pos size got h1 h2 h3 =>
    ⟨show pos < 10240 by omega, Nat.le_trans h3 (by decide), by rw [length_twentySectors]; exact h1⟩
  have hl : (poisoned 10240).readBuffer.length = 8192 := by simp [poisoned, BufferedIo.aimed, bioInit, readBufferSize_eq]
  have hmiss : (poisoned 10240).windowHit 9000 1 = false := by decide
  obtain ⟨now, notes, hload⟩ := @bioRead_loads (poisoned 10240) 9000 1 8704 ⟨twentySectors, 0, []⟩
    (show 9000 < 10240 by decide) hmiss (by decide) (by decide) (by rw [hl]; decide)
  have h1 := first_fill_fails (C := NotPoisoned) (hin 0 1 none (by decide) (by decide) (by decide)) fun h => by cases h
  have h2 := h1.call ⟨9000, 1, some _⟩ (hin 9000 1 _ (by decide) (by decide) (by decide)) (fun _ => hmiss) (.of_done hload)
  obtain ⟨got', s3, hserve⟩ := loaded_serves (slice twentySectors 8704 readBufferSize) ⟨twentySectors, now, notes⟩
  have h3 := h2.call ⟨9001, 2, some got'⟩ (hin 9001 2 _ (by decide) (by decide) (by decide))
    (fun h => by rw [hmiss] at h; cases h) hserve
  have hall := failed_fill hfile h3
  refine ⟨_, _, ?_, ?_, hall⟩
  · exact Option.some.inj ((hall ⟨9000, 1, some _⟩ (by simp)).resolve_left (by simp))
  · exact Option.some.inj ((hall ⟨9001, 2, some _⟩ (by simp)).resolve_left (by simp))

/-! ## A file of one sector -/

def oneSector : Mem := List.replicate 512 1

theorem length_oneSector : oneSector.length = 512 := List.length_replicate

theorem oneSector_bound : oneSector.length ≤ offMax := by rw [length_oneSector]; decide

/-- The first byte. -/
theorem firstByte_admitted (got : Option Mem) : (⟨0, 1, got⟩ : ReadCall).Admitted 512 oneSector :=
  ⟨show 0 < 512 by decide, show 1 ≤ 4128 by decide, by rw [length_oneSector]; show 1 ≤ 512; decide⟩

/-- After a fill that failed the same call is served what the read buffer held before. -/
theorem failed_fill_served : ¬∀ J readOnly N file calls failed b s, file.length ≤ offMax →
    FillRun (fun _ _ _ => True) J readOnly N file calls failed b s → ∀ c ∈ calls, c.Right file := by
  intro h
  have hslice : slice (poisoned 512).readBuffer 0 1 = [0] := by
    have hl : (slice (poisoned 512).readBuffer 0 1).length = 1 := length_slice_of_le (by
      simp only [poisoned, BufferedIo.aimed, bioInit, length_tabulate]; decide)
    refine ext_byteAt hl fun i hi => ?_
    obtain rfl : i = 0 := by omega
    rw [byteAt_slice (by omega)]
    simp only [poisoned, BufferedIo.aimed, bioInit]
    rw [byteAt_tabulate (by decide)]
    rfl
  have hhit := bioRead_hit (poisoned 512) 0 1 (by decide) (by decide)
    (by simp only [poisoned, BufferedIo.aimed, bioInit, length_tabulate]; decide)
  rw [show 0 - (poisoned 512).readBufferPos = 0 by decide, hslice] at hhit
  have hrun : Faulty (bioRead (poisoned 512) 0 1) ⟨oneSector, 0, []⟩ (some [0], poisoned 512)
      ⟨oneSector, 0, [.fetched 0 [0] (decide ((poisoned 512).filledAt ≤ 0))]⟩ := by
    rw [hhit]
    exact .note (.ret _ _)
  have hall := h zeroJunk true 512 oneSector _ _ _ _ oneSector_bound
    ((first_fill_fails (C := fun _ _ _ => True) (firstByte_admitted none) trivial).call ⟨0, 1, some [0]⟩
      (firstByte_admitted _) trivial hrun)
    ⟨0, 1, some [0]⟩ (by simp)
  have hone : slice oneSector 0 1 = [1] := rfl
  simp only [ReadCall.Right, hone] at hall
  exact absurd hall (by decide)

end LogDrive
