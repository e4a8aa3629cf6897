import LogDrive.Lib.Interleave

/-!
# One writer and any number of readers

`Crowd` is `Duo` with a family of readers, each of which works on the file through a descriptor of its own
and takes its turns in any order with the others. A reader that has not opened the file yet is one that
starts later.

Readers that may write nothing do not disturb the writer, whose part of the run is a run alone
(`CrowdRun.writer_alone`). What the readers rely on is what the writer guarantees, and besides that the file
is always one that the run has passed through (`Logic.seeing`), so `Crowd.Fit.run` lets a postcondition of a
reader speak of such a file.
-/

set_option autoImplicit false

open Bytes

variable {ι ε α β : Type}

structure Crowd (ι ε α β : Type) where
  writer : Conf ε α
  readers : ι → Conf ε β

/-- Reader `i` takes a turn; the others see the file that it leaves. -/
def Crowd.after [DecidableEq ι] (C : Crowd ι ε α β) (i : ι) (r : Conf ε β) : Crowd ι ε α β where
  writer := (C.writer.1, C.writer.2.put r.2.file)
  readers j := if j = i then r else ((C.readers j).1, (C.readers j).2.put r.2.file)

@[simp] theorem Crowd.after_self [DecidableEq ι] (C : Crowd ι ε α β) (i : ι) (r : Conf ε β) : (C.after i r).readers i = r :=
  if_pos rfl

/-- The writer takes a turn. -/
def Crowd.write (C : Crowd ι ε α β) (w : Conf ε α) : Crowd ι ε α β where
  writer := w
  readers j := ((C.readers j).1, (C.readers j).2.put w.2.file)

/-- The runs in which the writer takes its turns only where `P` holds of its history and of that of every
reader. -/
inductive CrowdRun [DecidableEq ι] (P : List ε → List ε → Prop) : Crowd ι ε α β → Crowd ι ε α β → Prop
  | refl (C : Crowd ι ε α β) : CrowdRun P C C
  | writer {C C' : Crowd ι ε α β} {w : Conf ε α} : CrowdRun P C C' →
      (∀ i, P C'.writer.2.notes (C'.readers i).2.notes) → turn C'.writer = some w → CrowdRun P C (C'.write w)
  | reader {C C' : Crowd ι ε α β} {i : ι} {r : Conf ε β} : CrowdRun P C C' → turn (C'.readers i) = some r →
      CrowdRun P C (C'.after i r)

section
variable [DecidableEq ι]

theorem CrowdRun.trans {P : List ε → List ε → Prop} {C C' C'' : Crowd ι ε α β} (h : CrowdRun P C C')
    (h' : CrowdRun P C' C'') : CrowdRun P C C'' := by
  induction h' with
  | refl => exact h
  | writer _ hP ht ih => exact .writer ih hP ht
  | reader _ ht ih => exact .reader ih ht

end

/-- A file that a run from `C0` to `C'` passes through. -/
def Passed [DecidableEq ι] (P : List ε → List ε → Prop) (C0 C' : Crowd ι ε α β) (f : Mem) : Prop :=
  ∃ C, CrowdRun P C0 C ∧ CrowdRun P C C' ∧ C.writer.2.file = f

/-! ## Turns as steps -/

theorem settle_run (p : Prog ε α) (s : Os ε) : ∃ k, runOk k (p, s) = some (settle p s) := by
  induction p generalizing s with
  | note e p ih =>
    obtain ⟨k, hk⟩ := ih { s with notes := e :: s.notes }
    exact ⟨k + 1, by rw [runOk_succ]; exact hk⟩
  | _ => exact ⟨0, rfl⟩

theorem turn_run {c c' : Conf ε α} (h : turn c = some c') : ∃ k, runOk k c = some c' := by
  obtain ⟨⟨q, s⟩, hs, rfl⟩ := Option.map_eq_some_iff.1 h
  obtain ⟨k, hk⟩ := settle_run q s
  exact ⟨k + 1, by rw [runOk_succ, hs]; exact hk⟩

/-- A process that may write nothing leaves the file as it is. -/
theorem turn_quiet {L : Logic ε} (hL : ∀ s bs, ¬L.allow s bs) {Q : α → Os ε → Prop} {c c' : Conf ε α}
    (h : wp L c.1 Q c.2) (ht : turn c = some c') : c'.2.file = c.2.file := by
  obtain ⟨p, s⟩ := c
  obtain ⟨⟨q, s1⟩, hs, rfl⟩ := Option.map_eq_some_iff.1 ht
  rw [settle_file]
  obtain ⟨_, -, -, rfl⟩ | ⟨_, _, -, -, -, rfl⟩ | ⟨_, _, -, -, rfl⟩ | ⟨bs, k, rfl, -, -, rfl⟩ |
    ⟨_, _, -, -, rfl⟩ := step_ok_cases hs
  · rfl
  · rfl
  · rfl
  · exact absurd (h s.file (L.rely_refl _ _)).2.1 (hL _ _)
  · rfl

/-! ## Runs of one process -/

section
variable [DecidableEq ι] {P : List ε → List ε → Prop} {n : Nat} {C : Crowd ι ε α β}

/-- While the writer runs the readers may wait. -/
theorem CrowdRun.writes {p q : Prog ε α} {s s' : Os ε} (hw : C.writer = settle p s)
    (hf : ∀ i, (C.readers i).2.file = s.file) (hP : ∀ past i, P past (C.readers i).2.notes)
    (hn : runOk n (p, s) = some (q, s')) : CrowdRun P C (C.write (settle q s')) := by
  induction n generalizing C p s with
  | zero =>
    simp only [runOk, List.replicate, run, Option.some.injEq, Prod.mk.injEq] at hn
    obtain ⟨rfl, rfl⟩ := hn
    have heq : C.write (settle p s) = C := by
      obtain ⟨w, rs⟩ := C
      simp only [Crowd.write, settle_file, Crowd.mk.injEq]
      exact ⟨hw.symm, funext fun i => by rw [← hf i]⟩
    rw [heq]
    exact .refl C
  | succ n ih =>
    rw [runOk_succ] at hn
    obtain ⟨⟨q1, s1⟩, hs, hr⟩ := Option.bind_eq_some_iff.1 hn
    by_cases hp : p.Settled
    · have ht : turn C.writer = some (settle q1 s1) := by
        rw [hw, settle_of_settled hp, turn, hs]
        rfl
      have hone : CrowdRun P C (C.write (settle q1 s1)) := .writer (.refl C) (hP _) ht
      exact hone.trans (ih (C := C.write (settle q1 s1)) rfl (fun i => settle_file q1 s1) hP hr)
    · cases p with
      | note e k =>
        cases hs
        exact ih (p := q1) (s := { s with notes := e :: s.notes }) hw hf hP hr
      | _ => exact absurd trivial hp

/-- While a reader runs the others may wait. -/
theorem CrowdRun.reads {i : ι} {p q : Prog ε β} {s s' : Os ε} (hi : C.readers i = settle p s)
    (hfile : C.writer.2.file = s.file) (hf : ∀ j, (C.readers j).2.file = s.file)
    (hn : runOk n (p, s) = some (q, s')) : CrowdRun P C (C.after i (settle q s')) := by
  induction n generalizing C p s with
  | zero =>
    simp only [runOk, List.replicate, run, Option.some.injEq, Prod.mk.injEq] at hn
    obtain ⟨rfl, rfl⟩ := hn
    have heq : C.after i (settle p s) = C := by
      obtain ⟨w, rs⟩ := C
      simp only [Crowd.after, settle_file, Crowd.mk.injEq]
      refine ⟨by rw [← hfile], funext fun j => ?_⟩
      split
      · rename_i hj
        rw [hj]
        exact hi.symm
      · rw [← hf j]
    rw [heq]
    exact .refl C
  | succ n ih =>
    rw [runOk_succ] at hn
    obtain ⟨⟨q1, s1⟩, hs, hr⟩ := Option.bind_eq_some_iff.1 hn
    by_cases hp : p.Settled
    · have ht : turn (C.readers i) = some (settle q1 s1) := by
        rw [hi, settle_of_settled hp, turn, hs]
        rfl
      have hone : CrowdRun P C (C.after i (settle q1 s1)) := .reader (.refl C) ht
      have hothers : ∀ j, ((C.after i (settle q1 s1)).readers j).2.file = s1.file := fun j => by
        simp only [Crowd.after]
        split
        · exact settle_file q1 s1
        · exact settle_file q1 s1
      have hrest := ih (C.after_self i _) (settle_file q1 s1) hothers hr
      have heq : (C.after i (settle q1 s1)).after i (settle q s') = C.after i (settle q s') := by
        simp only [Crowd.after, Crowd.mk.injEq, true_and]
        funext j
        split
        · rfl
        · rfl
      rw [heq] at hrest
      exact hone.trans hrest
    · cases p with
      | note e k =>
        cases hs
        exact ih (p := q1) (s := { s with notes := e :: s.notes }) hi hfile hf hr
      | _ => exact absurd trivial hp

end

/-! ## Pre- and postconditions -/

/-- Others leave a file that has been seen. -/
def Logic.seeing (L : Logic ε) (Seen : Mem → Prop) : Logic ε where
  rely past f f' := L.rely past f f' ∧ (Seen f → Seen f')
  rely_refl past f := ⟨L.rely_refl past f, id⟩
  assume := L.assume
  allow := L.allow
  ub := L.ub
  total := L.total

/-- The writer and every reader are as their modes say. -/
structure Crowd.Fit (Lw Lr : Logic ε) (Qw : α → Os ε → Prop) (Qr : ι → β → Os ε → Prop) (C : Crowd ι ε α β) : Prop where
  file : ∀ i, (C.readers i).2.file = C.writer.2.file
  settled : ∀ i, (C.readers i).1.Settled
  writer : wp Lw C.writer.1 Qw C.writer.2
  reader : ∀ i, wp Lr (C.readers i).1 (Qr i) (C.readers i).2

namespace Crowd.Fit

variable {Lw Lr : Logic ε} {P : List ε → List ε → Prop} {Qw : α → Os ε → Prop} {Qr : ι → β → Os ε → Prop}
variable {Seen : Mem → Prop} {C : Crowd ι ε α β}

/-- Each reader with the writer. -/
theorem duo (h : C.Fit Lw Lr Qw Qr) (i : ι) : (⟨C.writer, C.readers i⟩ : Duo ε α β).Fit Lw Lr Qw (Qr i) :=
  ⟨h.file i, h.settled i, h.writer, h.reader i⟩

/-- A turn of the writer. -/
theorem write (hC : Compatible Lw Lr P) (hQr : ∀ i b s f, Qr i b s → Lr.rely s.notes s.file f → Qr i b (s.put f))
    (h : C.Fit Lw (Lr.seeing Seen) Qw Qr) (hP : ∀ i, P C.writer.2.notes (C.readers i).2.notes) {w : Conf ε α}
    (ht : turn C.writer = some w) (ha : Assumed Lw.assume w.2.notes) (hseen : Seen w.2.file) :
    (C.write w).Fit Lw (Lr.seeing Seen) Qw Qr where
  file _ := rfl
  settled := h.settled
  writer := wp_turn h.writer ht ha
  reader i := by
    have hrely : Lr.rely (C.readers i).2.notes (C.readers i).2.file w.2.file := by
      have := Duo.Fit.gives hC h.writer ht (hP i)
      rwa [← h.file i] at this
    exact wp_put (h.settled i) (fun past f f' f'' h1 h2 => ⟨hC.trans past f f' f'' h1.1 h2.1, h2.2 ∘ h1.2⟩)
      (fun b s f hq hr => hQr i b s f hq hr.1) ⟨hrely, fun _ => hseen⟩ (h.reader i)

/-- A turn of a reader. -/
theorem after [DecidableEq ι] (hC : Compatible Lw Lr P) (hfree : ∀ past e, Lr.assume past e)
    (h : C.Fit Lw (Lr.seeing Seen) Qw Qr) {i : ι} {r : Conf ε β} (ht : turn (C.readers i) = some r) :
    (C.after i r).Fit Lw (Lr.seeing Seen) Qw Qr := by
  have hfile : r.2.file = C.writer.2.file := (turn_quiet (L := Lr.seeing Seen) hC.quiet (h.reader i) ht).trans (h.file i)
  have hput : ∀ j, ((C.readers j).1, (C.readers j).2.put r.2.file) = C.readers j := fun j => by
    rw [hfile, ← h.file j]
  have hreader : ∀ j, (C.after i r).readers j = if j = i then r else C.readers j := fun j => by
    rw [← hput j]
    rfl
  refine ⟨fun j => ?_, fun j => ?_, ?_, fun j => ?_⟩
  · rw [hreader j]
    split
    · rfl
    · rw [h.file j, ← hfile]
      rfl
  · rw [hreader j]
    split
    · obtain ⟨c, -, rfl⟩ := Option.map_eq_some_iff.1 ht
      exact settle_settled _ _
    · exact h.settled j
  · have hw : (C.after i r).writer = C.writer := by
      rw [Crowd.after, hfile]
    rw [hw]
    exact h.writer
  · rw [hreader j]
    split
    · rename_i hj
      subst hj
      exact wp_turn (h.reader j) ht (.of_forall hfree _)
    · exact h.reader j

/-- **Any interleaving** of the writer and the readers keeps all of them as their modes say, where every file
that the run passes through counts as seen. -/
theorem run [DecidableEq ι] (hC : Compatible Lw Lr P) (hfree : ∀ past e, Lr.assume past e)
    (hQr : ∀ i b s f, Qr i b s → Lr.rely s.notes s.file f → Qr i b (s.put f)) {C0 C' : Crowd ι ε α β}
    (h0 : C0.Fit Lw (Lr.seeing Seen) Qw Qr) (h : CrowdRun P C0 C) (h' : CrowdRun P C C')
    (hseen : ∀ f, Passed P C0 C' f → Seen f) (ha : Assumed Lw.assume C.writer.2.notes) :
    C.Fit Lw (Lr.seeing Seen) Qw Qr := by
  induction h with
  | refl => exact h0
  | @writer C1 w hr hP ht ih =>
    have hstep : CrowdRun P C1 (C1.write w) := .writer (.refl C1) hP ht
    obtain ⟨new, hn⟩ := turn_notes ht
    have ha1 : Assumed Lw.assume C1.writer.2.notes := by
      simp only [Crowd.write, hn] at ha
      exact ha.of_append
    exact (ih (hstep.trans h') ha1).write hC hQr hP ht ha (hseen _ ⟨C1.write w, hr.trans hstep, h', rfl⟩)
  | @reader C1 i r hr ht ih =>
    have hstep : CrowdRun P C1 (C1.after i r) := .reader (.refl C1) ht
    exact (ih (hstep.trans h') ha).after hC hfree ht

/-- The writer's part of a run is a run alone. -/
theorem writer_alone [DecidableEq ι] (hC : Compatible Lw Lr P) (hfree : ∀ past e, Lr.assume past e)
    (hQr : ∀ i b s f, Qr i b s → Lr.rely s.notes s.file f → Qr i b (s.put f)) {C0 : Crowd ι ε α β}
    (h0 : C0.Fit Lw (Lr.seeing fun _ => True) Qw Qr) (h : CrowdRun P C0 C) (ha : Assumed Lw.assume C.writer.2.notes) :
    ∃ k, runOk k C0.writer = some C.writer := by
  induction h with
  | refl => exact ⟨0, rfl⟩
  | @writer C1 w hr hP ht ih =>
    obtain ⟨new, hn⟩ := turn_notes ht
    have ha1 : Assumed Lw.assume C1.writer.2.notes := by
      simp only [Crowd.write, hn] at ha
      exact ha.of_append
    obtain ⟨k, hk⟩ := ih ha1
    obtain ⟨m, hm⟩ := turn_run ht
    exact ⟨k + m, by rw [runOk_add, hk]; exact hm⟩
  | @reader C1 i r hr ht ih =>
    obtain ⟨k, hk⟩ := ih ha
    have hF := Crowd.Fit.run hC hfree hQr h0 hr (.refl C1) (fun _ _ => trivial) ha
    have hfile : r.2.file = C1.writer.2.file :=
      (turn_quiet (L := Lr.seeing fun _ => True) hC.quiet (hF.reader i) ht).trans (hF.file i)
    refine ⟨k, ?_⟩
    rw [hk, Crowd.after, hfile]

end Crowd.Fit
