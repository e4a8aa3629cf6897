import LogDrive.Lib.Prog

/-!
# Runs in which calls fail

`Faulty p s a s'`: `p` returns `a` in a whole run in which every call succeeds but some of the
reads, which return `-1` and leave everything as it is. Its rules take a run apart command by
command.

`Prog.Returns P p`: whatever the system answers, `p` returns only values for which `P` holds
(`Prog.Returns.of_run`). `ReadFails` says of a run that some read in it failed.

`Unwritten` is `Faulty` for writes, which fail or write less than they are asked to; a run in which
none does so is a run in which all calls succeed (`Done.of_written`).
-/

set_option autoImplicit false

open Bytes

variable {ε α β : Type}

def Prog.AtRead : Prog ε α → Prop
  | .read _ _ => True
  | _ => False

/-- Only reads fail. -/
def OnlyReadsFail : List Outcome → Conf ε α → Prop
  | [], _ => True
  | o :: os, c => (o = .ok ∨ c.1.AtRead) ∧ ∀ c', step o c = some c' → OnlyReadsFail os c'

def Faulty (p : Prog ε α) (s : Os ε) (a : α) (s' : Os ε) : Prop :=
  ∃ os, run os (p, s) = some (.ret a, s') ∧ OnlyReadsFail os (p, s)

/-- The first command of a run, and the rest. -/
theorem run_cons {os : List Outcome} {p q : Prog ε α} {s s' : Os ε} (h : run os (p, s) = some (q, s'))
    (hne : p ≠ q) : ∃ o os' c, os = o :: os' ∧ step o (p, s) = some c ∧ run os' c = some (q, s') := by
  cases os with
  | nil =>
    simp only [run, Option.some.injEq, Prod.mk.injEq] at h
    exact absurd h.1 hne
  | cons o os =>
    simp only [run] at h
    obtain ⟨c, hs, hr⟩ := Option.bind_eq_some_iff.1 h
    exact ⟨o, os, c, rfl, hs, hr⟩

namespace Faulty

variable {s s' : Os ε} {a b : α}

theorem ret (a : α) (s : Os ε) : Faulty (.ret a) s a s := ⟨[], rfl, trivial⟩

/-- A run without failures. -/
theorem of_done {p : Prog ε α} (h : Done p s a s') : Faulty p s a s' := by
  obtain ⟨n, hn⟩ := h
  refine ⟨List.replicate n .ok, hn, ?_⟩
  clear hn
  induction n generalizing p s with
  | zero => trivial
  | succ n ih => exact ⟨.inl rfl, fun c _ => @ih c.2 c.1⟩

theorem ret_inv (h : Faulty (.ret a) s b s') : b = a ∧ s' = s := by
  obtain ⟨os, hr, -⟩ := h
  cases os with
  | nil =>
    simp only [run, Option.some.injEq, Prod.mk.injEq, Prog.ret.injEq] at hr
    exact ⟨hr.1.symm, hr.2.symm⟩
  | cons o os => cases o <;> cases hr

theorem lseek_inv {pos : Nat} {k : Prog ε α} (h : Faulty (.lseek pos k) s b s') :
    pos ≤ offMax ∧ Faulty k { s with pos := pos } b s' := by
  obtain ⟨os, hr, hf⟩ := h
  obtain ⟨o, os', c, rfl, hs, hr⟩ := run_cons hr nofun
  obtain ⟨rfl | hat, hf⟩ := hf
  · have hrest := hf c hs
    simp only [step] at hs
    split at hs
    · rename_i hp
      cases hs
      exact ⟨hp, os', hr, hrest⟩
    · cases hs
  · exact hat.elim

/-- A read delivers what there is, or fails. -/
theorem read_inv {n : Nat} {k : Option Mem → Prog ε α} (h : Faulty (.read n k) s b s') :
    Faulty (k (some (s.chunk n))) (s.afterRead n) b s' ∨ Faulty (k none) s b s' := by
  obtain ⟨os, hr, hf⟩ := h
  obtain ⟨o, os', c, rfl, hs, hr⟩ := run_cons hr nofun
  have hrest := hf.2 c hs
  cases o with
  | ok =>
    cases hs
    exact .inl ⟨os', hr, hrest⟩
  | err =>
    cases hs
    exact .inr ⟨os', hr, hrest⟩
  | short m => cases hs

theorem note_inv {e : ε} {k : Prog ε α} (h : Faulty (.note e k) s b s') :
    Faulty k { s with notes := e :: s.notes } b s' := by
  obtain ⟨os, hr, hf⟩ := h
  obtain ⟨o, os', c, rfl, hs, hr⟩ := run_cons hr nofun
  obtain ⟨rfl | hat, hf⟩ := hf
  · have hrest := hf c hs
    cases hs
    exact ⟨os', hr, hrest⟩
  · exact hat.elim

theorem lseek {pos : Nat} {k : Prog ε α} (hp : pos ≤ offMax) (h : Faulty k { s with pos := pos } b s') :
    Faulty (.lseek pos k) s b s' := by
  obtain ⟨os, hr, hf⟩ := h
  have hs : step .ok (.lseek pos k, s) = some (k, { s with pos := pos }) := by simp only [step]; rw [if_pos hp]
  refine ⟨.ok :: os, by rw [run, hs]; exact hr, .inl rfl, fun c hc => ?_⟩
  rw [hs] at hc
  cases hc
  exact hf

theorem read_fails {n : Nat} {k : Option Mem → Prog ε α} (h : Faulty (k none) s b s') :
    Faulty (.read n k) s b s' := by
  obtain ⟨os, hr, hf⟩ := h
  exact ⟨.err :: os, hr, .inr trivial, fun c hc => by cases hc; exact hf⟩

theorem note {e : ε} {k : Prog ε α} (h : Faulty k { s with notes := e :: s.notes } b s') :
    Faulty (.note e k) s b s' := by
  obtain ⟨os, hr, hf⟩ := h
  exact ⟨.ok :: os, hr, .inl rfl, fun c hc => by cases hc; exact hf⟩

end Faulty

/-! ## What a program returns -/

def Prog.Returns (P : α → Prop) : Prog ε α → Prop
  | .ret a => P a
  | .undefined => True
  | .spin => True
  | .opens k => ∀ r, (k r).Returns P
  | .lseek _ k => k.Returns P
  | .read _ k => ∀ r, (k r).Returns P
  | .write _ k => ∀ r, (k r).Returns P
  | .note _ k => k.Returns P

namespace Prog.Returns

variable {P : α → Prop} {Q : β → Prop}

theorem mono {P' : α → Prop} {p : Prog ε α} (h : p.Returns P) (hP : ∀ a, P a → P' a) : p.Returns P' := by
  induction p with
  | ret a => exact hP a h
  | undefined => trivial
  | spin => trivial
  | opens k ih => exact fun r => ih r (h r)
  | lseek pos k ih => exact ih h
  | read n k ih => exact fun r => ih r (h r)
  | write bs k ih => exact fun r => ih r (h r)
  | note e k ih => exact ih h

theorem any (p : Prog ε α) : p.Returns fun _ => True := by
  induction p with
  | ret a => trivial
  | undefined => trivial
  | spin => trivial
  | opens k ih => exact ih
  | lseek pos k ih => exact ih
  | read n k ih => exact ih
  | write bs k ih => exact ih
  | note e k ih => exact ih

theorem bind {p : Prog ε α} {f : α → Prog ε β} (h : p.Returns P) (hf : ∀ a, P a → (f a).Returns Q) :
    (p.bind f).Returns Q := by
  induction p with
  | ret a => exact hf a h
  | undefined => trivial
  | spin => trivial
  | opens k ih => exact fun r => ih r (h r)
  | lseek pos k ih => exact ih h
  | read n k ih => exact fun r => ih r (h r)
  | write bs k ih => exact fun r => ih r (h r)
  | note e k ih => exact ih h

theorem bind_any {p : Prog ε α} {f : α → Prog ε β} (hf : ∀ a, (f a).Returns Q) : (p.bind f).Returns Q :=
  (any p).bind fun a _ => hf a

/-- Two continuations that agree on what the first part returns. -/
theorem bind_congr {p : Prog ε α} {f g : α → Prog ε β} (h : p.Returns P) (hfg : ∀ a, P a → f a = g a) :
    p.bind f = p.bind g := by
  induction p with
  | ret a => exact hfg a h
  | undefined => rfl
  | spin => rfl
  | opens k ih => simp only [Prog.bind]; congr; funext r; exact ih r (h r)
  | lseek pos k ih => simp only [Prog.bind]; rw [ih h]
  | read n k ih => simp only [Prog.bind]; congr; funext r; exact ih r (h r)
  | write bs k ih => simp only [Prog.bind]; congr; funext r; exact ih r (h r)
  | note e k ih => simp only [Prog.bind]; rw [ih h]

/-- A continuation that gives back what the first part returns. -/
theorem bind_eq_self {p : Prog ε α} {f : α → Prog ε α} (h : p.Returns P) (hf : ∀ a, P a → f a = .ret a) :
    p.bind f = p := by
  rw [h.bind_congr hf, Prog.bind_ret]

/-- Whatever the system answers to a command. -/
theorem of_step {o : Outcome} {p q : Prog ε α} {s s' : Os ε} (h : p.Returns P) (hs : step o (p, s) = some (q, s')) :
    q.Returns P := by
  cases p with
  | ret a => cases o <;> cases hs
  | undefined => cases o <;> cases hs
  | spin => cases o <;> cases hs
  | opens k =>
    cases o <;> cases hs
    · exact h true
    · exact h false
  | lseek pos k =>
    cases o with
    | ok =>
      simp only [step] at hs
      split at hs <;> cases hs
      exact h
    | err => cases hs; exact h
    | short n => cases hs
  | read n k =>
    cases o <;> cases hs
    · exact h _
    · exact h none
  | write bs k =>
    cases o with
    | ok =>
      simp only [step] at hs
      split at hs <;> cases hs
      exact h _
    | err => cases hs; exact h none
    | short n =>
      simp only [step] at hs
      split at hs <;> cases hs
      exact h _
  | note e k => cases o <;> cases hs; exact h

/-- Whatever the system answers. -/
theorem of_run {os : List Outcome} {p q : Prog ε α} {s s' : Os ε} (h : p.Returns P)
    (hr : run os (p, s) = some (q, s')) : q.Returns P := by
  induction os generalizing p s with
  | nil =>
    simp only [run, Option.some.injEq, Prod.mk.injEq] at hr
    rw [← hr.1]
    exact h
  | cons o os ih =>
    simp only [run] at hr
    obtain ⟨⟨p1, s1⟩, hs, hr⟩ := Option.bind_eq_some_iff.1 hr
    exact ih (h.of_step hs) hr

end Prog.Returns

/-- Some read in the run fails. -/
def ReadFails : List Outcome → Conf ε α → Prop
  | [], _ => False
  | o :: os, c => (o = .err ∧ c.1.AtRead) ∨ ∃ c', step o c = some c' ∧ ReadFails os c'

theorem ReadFails.bind {os : List Outcome} {p : Prog ε α} {s : Os ε} (f : α → Prog ε β) (h : ReadFails os (p, s)) :
    ReadFails os (p.bind f, s) := by
  induction os generalizing p s with
  | nil => exact h.elim
  | cons o os ih =>
    rcases h with ⟨ho, hat⟩ | ⟨⟨q, s1⟩, hs, hrest⟩
    · cases p with
      | read n k => exact .inl ⟨ho, trivial⟩
      | _ => exact hat.elim
    · exact .inr ⟨_, step_bind f hs, ih hrest⟩

/-! ## Writes that fail -/

def Prog.AtWrite : Prog ε α → Prop
  | .write _ _ => True
  | _ => False

/-- Only writes fail or write less than they are asked to. -/
def OnlyWritesFail : List Outcome → Conf ε α → Prop
  | [], _ => True
  | o :: os, c => (o = .ok ∨ c.1.AtWrite) ∧ ∀ c', step o c = some c' → OnlyWritesFail os c'

/-- Some write in the run fails or writes less than it is asked to. -/
def WriteFails : List Outcome → Conf ε α → Prop
  | [], _ => False
  | o :: os, c => (o ≠ .ok ∧ c.1.AtWrite) ∨ ∃ c', step o c = some c' ∧ WriteFails os c'

/-- A run in which all writes succeed. -/
theorem Done.of_written {os : List Outcome} {p : Prog ε α} {s s' : Os ε} {a : α}
    (hr : run os (p, s) = some (.ret a, s')) (ho : OnlyWritesFail os (p, s)) (hw : ¬WriteFails os (p, s)) :
    Done p s a s' := by
  induction os generalizing p s with
  | nil => exact ⟨0, hr⟩
  | cons o os ih =>
    obtain ⟨⟨q, s1⟩, hs, hrest⟩ := Option.bind_eq_some_iff.1 hr
    have hok : o = .ok := ho.1.elim id fun hat => by
      by_contra hne
      exact hw (.inl ⟨hne, hat⟩)
    rw [hok] at hs
    exact .of_step hs (ih hrest (ho.2 _ (hok ▸ hs)) fun h => hw (.inr ⟨_, hok ▸ hs, h⟩))

theorem onlyWritesFail_ok (n : Nat) (c : Conf ε α) : OnlyWritesFail (List.replicate n .ok) c := by
  induction n generalizing c with
  | zero => trivial
  | succ n ih => exact ⟨.inl rfl, fun c' _ => ih c'⟩

theorem not_writeFails_ok (n : Nat) (c : Conf ε α) : ¬WriteFails (List.replicate n .ok) c := by
  induction n generalizing c with
  | zero => exact id
  | succ n ih =>
    rintro (⟨ho, -⟩ | ⟨c', -, h⟩)
    · exact ho rfl
    · exact ih c' h

/-- A whole run in which only writes fail. -/
def Unwritten (p : Prog ε α) (s : Os ε) (a : α) (s' : Os ε) : Prop :=
  ∃ os, run os (p, s) = some (.ret a, s') ∧ OnlyWritesFail os (p, s)

namespace Unwritten

variable {s s' : Os ε} {a : α} {b : β}

theorem ret (a : α) (s : Os ε) : Unwritten (.ret a) s a s := ⟨[], rfl, trivial⟩

theorem cons {o : Outcome} {p q : Prog ε α} {s1 : Os ε} (hs : step o (p, s) = some (q, s1))
    (ho : o = .ok ∨ p.AtWrite) (h : Unwritten q s1 a s') : Unwritten p s a s' := by
  obtain ⟨os, hr, hrest⟩ := h
  refine ⟨o :: os, by rw [run, hs]; exact hr, ho, fun c hc => ?_⟩
  rw [hs] at hc
  cases hc
  exact hrest

theorem lseek {pos : Nat} {k : Prog ε α} (hp : pos ≤ offMax) (h : Unwritten k { s with pos := pos } a s') :
    Unwritten (.lseek pos k) s a s' := by
  have hs : step .ok (.lseek pos k, s) = some (k, { s with pos := pos }) := if_pos hp
  exact h.cons hs (.inl rfl)

theorem note {e : ε} {k : Prog ε α} (h : Unwritten k { s with notes := e :: s.notes } a s') :
    Unwritten (.note e k) s a s' := h.cons (o := .ok) rfl (.inl rfl)

theorem write_fails {bs : Mem} {k : Option Nat → Prog ε α} (h : Unwritten (k none) s a s') :
    Unwritten (.write bs k) s a s' := h.cons (o := .err) rfl (.inr trivial)

/-- Two parts in sequence. -/
theorem bind {p : Prog ε α} {f : α → Prog ε β} {s1 : Os ε} (hp : Unwritten p s a s1)
    (h : Unwritten (f a) s1 b s') : Unwritten (p.bind f) s b s' := by
  obtain ⟨os, hr, ho⟩ := hp
  induction os generalizing p s with
  | nil =>
    simp only [run, Option.some.injEq, Prod.mk.injEq] at hr
    obtain ⟨rfl, rfl⟩ := hr
    exact h
  | cons o os ih =>
    obtain ⟨⟨q, s2⟩, hs, hrest⟩ := Option.bind_eq_some_iff.1 hr
    refine (ih hrest (ho.2 _ hs)).cons (step_bind f hs) (ho.1.imp_right fun hat => ?_)
    cases p with
    | write bs k => trivial
    | _ => exact hat.elim

/-- A run in which no call fails. -/
theorem of_done {p : Prog ε α} (h : Done p s a s') : Unwritten p s a s' := by
  obtain ⟨n, hn⟩ := h
  induction n generalizing p s with
  | zero =>
    simp only [runOk, List.replicate, run, Option.some.injEq, Prod.mk.injEq] at hn
    obtain ⟨rfl, rfl⟩ := hn
    exact ret a s
  | succ n ih =>
    obtain ⟨⟨q, s1⟩, hs, hr⟩ := Option.bind_eq_some_iff.1 hn
    exact (ih hr).cons hs (.inl rfl)

end Unwritten

/-! ## Where a program writes -/

/-- Whatever the system answers, each write of the program comes behind an `lseek` to a place that `A` allows for
its bytes, with no other transfer in between, and only values for which `Q` holds are returned. At the start the
descriptor is at `place`, if that is known. -/
def Prog.Places (A : Nat → Mem → Prop) (Q : α → Prop) : Prog ε α → Option Nat → Prop
  | .ret a, _ => Q a
  | .undefined, _ => True
  | .spin, _ => True
  | .opens k, _ => ∀ r, (k r).Places A Q none
  | .lseek pos k, _ => pos ≤ offMax → k.Places A Q (some pos)
  | .read _ k, _ => ∀ r, (k r).Places A Q none
  | .write bs k, place => (∃ pos, place = some pos ∧ A pos bs) ∧ ∀ r, (k r).Places A Q none
  | .note _ k, place => k.Places A Q place

/-- Only reads and writes fail or write less than they are asked to. -/
def OnlyTransfersFail : List Outcome → Conf ε α → Prop
  | [], _ => True
  | o :: os, c => (o = .ok ∨ c.1.AtRead ∨ c.1.AtWrite) ∧ ∀ c', step o c = some c' → OnlyTransfersFail os c'

theorem onlyTransfersFail_of_writes {os : List Outcome} {c : Conf ε α} (h : OnlyWritesFail os c) :
    OnlyTransfersFail os c := by
  induction os generalizing c with
  | nil => trivial
  | cons o os ih => exact ⟨h.1.imp_right .inr, fun c' hc => ih (h.2 c' hc)⟩

namespace Prog.Places

variable {A : Nat → Mem → Prop} {P : α → Prop} {Q : β → Prop}

/-- Where nothing is known of the place. -/
theorem anywhere {p : Prog ε α} (h : p.Places A P none) (place : Option Nat) : p.Places A P place := by
  induction p with
  | write bs k ih =>
    obtain ⟨⟨pos, hpos, -⟩, -⟩ := h
    cases hpos
  | note e k ih => exact ih h
  | _ => exact h

theorem bind {p : Prog ε α} {f : α → Prog ε β} {place : Option Nat} (h : p.Places A P place)
    (hf : ∀ a, P a → (f a).Places A Q none) : (p.bind f).Places A Q place := by
  induction p generalizing place with
  | ret a => exact (hf a h).anywhere place
  | undefined => trivial
  | spin => trivial
  | opens k ih => exact fun r => ih r (h r)
  | lseek pos k ih => exact fun hp => ih (h hp)
  | read n k ih => exact fun r => ih r (h r)
  | write bs k ih => exact ⟨h.1, fun r => ih r (h.2 r)⟩
  | note e k ih => exact ih h

/-- One command, which fails only if it is a transfer. -/
theorem of_step {I : Mem → Prop} (hI : ∀ f pos bs k, A pos bs → I f → I (store f pos (bs.take k))) {o : Outcome}
    {p q : Prog ε α} {s s' : Os ε} {place : Option Nat} (h : p.Places A P place) (hs : ∀ pos, place = some pos → s.pos = pos)
    (ho : o = .ok ∨ p.AtRead ∨ p.AtWrite) (hstep : step o (p, s) = some (q, s')) (h0 : I s.file) :
    I s'.file ∧ ∃ place', q.Places A P place' ∧ ∀ pos, place' = some pos → s'.pos = pos := by
  have hunknown : ∀ pos : Nat, none = some pos → s'.pos = pos := fun pos hp => by cases hp
  cases p with
  | ret a => cases o <;> cases hstep
  | undefined => cases o <;> cases hstep
  | spin => cases o <;> cases hstep
  | opens k =>
    cases o <;> cases hstep
    · exact ⟨h0, none, h true, hunknown⟩
    · exact ⟨h0, none, h false, hunknown⟩
  | lseek pos k =>
    obtain rfl := ho.resolve_right fun hat => hat.elim id id
    simp only [step] at hstep
    split at hstep
    · rename_i hp
      cases hstep
      exact ⟨h0, some pos, h hp, fun pos' hp' => Option.some.inj hp'⟩
    · cases hstep
  | read n k =>
    cases o <;> cases hstep
    · exact ⟨h0, none, h _, hunknown⟩
    · exact ⟨h0, none, h none, hunknown⟩
  | write bs k =>
    obtain ⟨⟨pos, hpos, hA⟩, hk⟩ := h
    have hat := hs pos hpos
    cases o with
    | ok =>
      simp only [step] at hstep
      split at hstep <;> cases hstep
      have hw := hI s.file pos bs bs.length hA h0
      rw [List.take_length, ← hat] at hw
      exact ⟨hw, none, hk _, hunknown⟩
    | err =>
      cases hstep
      exact ⟨h0, none, hk none, hunknown⟩
    | short n =>
      simp only [step] at hstep
      split at hstep <;> cases hstep
      have hw := hI s.file pos bs n hA h0
      rw [← hat] at hw
      exact ⟨hw, none, hk _, hunknown⟩
  | note e k => cases o <;> cases hstep; exact ⟨h0, place, h, hs⟩

/-- **What every allowed write keeps of the file, whole or cut short, holds at every point of a run** in which
only transfers fail. -/
theorem of_run {I : Mem → Prop} (hI : ∀ f pos bs k, A pos bs → I f → I (store f pos (bs.take k))) {os : List Outcome}
    {p q : Prog ε α} {s s' : Os ε} {place : Option Nat} (h : p.Places A P place) (hs : ∀ pos, place = some pos → s.pos = pos)
    (hr : run os (p, s) = some (q, s')) (ho : OnlyTransfersFail os (p, s)) (h0 : I s.file) : I s'.file := by
  induction os generalizing p s place with
  | nil =>
    simp only [run, Option.some.injEq, Prod.mk.injEq] at hr
    rw [← hr.2]
    exact h0
  | cons o os ih =>
    obtain ⟨⟨p1, s1⟩, hstep, hrest⟩ := Option.bind_eq_some_iff.1 hr
    obtain ⟨h1, place', hp1, hs1⟩ := h.of_step hI hs ho.1 hstep h0
    exact ih hp1 hs1 hrest (ho.2 _ hstep) h1

end Prog.Places
