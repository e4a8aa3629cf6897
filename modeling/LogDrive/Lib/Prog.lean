import LogDrive.Lib.Bytes

/-!
# Programs over the system calls on one file

`Prog ε α` is the tree of a C program that works on one file through one descriptor: a node per
system call, with a branch for every answer the call can give. `undefined` is a point where the
behaviour of the C program is undefined (an access out of bounds, a division by zero), `spin` a
loop that has used up its fuel. `note` is no command of the program: it records a history event of
type `ε` that a statement about a run can talk about.

`step` runs one command under an `Outcome` chosen by the system, `run` a list of them. A process
killed between two calls is a run that stops early, a failing call an outcome `err` or `short`.
`Done` is a whole run in which every call succeeds.
-/

set_option autoImplicit false

open Bytes

inductive Prog (ε α : Type) : Type where
  | ret (a : α)
  | undefined
  | spin
  | opens (k : Bool → Prog ε α)
  | lseek (pos : Nat) (k : Prog ε α)
  | read (n : Nat) (k : Option Mem → Prog ε α)
  | write (bs : Mem) (k : Option Nat → Prog ε α)
  | note (e : ε) (k : Prog ε α)

namespace Prog

variable {ε α β γ : Type}

def bind : Prog ε α → (α → Prog ε β) → Prog ε β
  | ret a, f => f a
  | undefined, _ => undefined
  | spin, _ => spin
  | opens k, f => opens fun r => (k r).bind f
  | lseek pos k, f => lseek pos (k.bind f)
  | read n k, f => read n fun r => (k r).bind f
  | write bs k, f => write bs fun r => (k r).bind f
  | note e k, f => note e (k.bind f)

instance : Monad (Prog ε) where
  pure := ret
  bind := bind

/-! ## One command each -/

def sysOpen : Prog ε Bool := opens ret
def sysLseek (pos : Nat) : Prog ε Unit := lseek pos (ret ())
def sysRead (n : Nat) : Prog ε (Option Mem) := read n ret
def sysWrite (bs : Mem) : Prog ε (Option Nat) := write bs ret
def mark (e : ε) : Prog ε Unit := note e (ret ())

@[simp] theorem pure_eq (a : α) : (pure a : Prog ε α) = ret a := rfl
@[simp] theorem bind_eq (p : Prog ε α) (f : α → Prog ε β) : p >>= f = p.bind f := rfl
@[simp] theorem ret_bind (a : α) (f : α → Prog ε β) : (ret a).bind f = f a := rfl
@[simp] theorem undefined_bind (f : α → Prog ε β) : (undefined : Prog ε α).bind f = undefined := rfl
@[simp] theorem spin_bind (f : α → Prog ε β) : (spin : Prog ε α).bind f = spin := rfl
@[simp] theorem sysOpen_bind (f : Bool → Prog ε β) : sysOpen.bind f = opens f := rfl
@[simp] theorem sysLseek_bind (pos : Nat) (f : Unit → Prog ε β) :
    (sysLseek pos).bind f = lseek pos (f ()) := rfl
@[simp] theorem sysRead_bind (n : Nat) (f : Option Mem → Prog ε β) :
    (sysRead n).bind f = read n f := rfl
@[simp] theorem sysWrite_bind (bs : Mem) (f : Option Nat → Prog ε β) :
    (sysWrite bs).bind f = write bs f := rfl
@[simp] theorem mark_bind (e : ε) (f : Unit → Prog ε β) : (mark e).bind f = note e (f ()) := rfl

theorem bind_ret (p : Prog ε α) : p.bind ret = p := by
  induction p with
  | ret a => rfl
  | undefined => rfl
  | spin => rfl
  | opens k ih => simp only [bind]; congr; funext r; exact ih r
  | lseek pos k ih => simp only [bind]; congr
  | read n k ih => simp only [bind]; congr; funext r; exact ih r
  | write bs k ih => simp only [bind]; congr; funext r; exact ih r
  | note e k ih => simp only [bind]; congr

theorem bind_assoc (p : Prog ε α) (f : α → Prog ε β) (g : β → Prog ε γ) :
    (p.bind f).bind g = p.bind fun a => (f a).bind g := by
  induction p with
  | ret a => rfl
  | undefined => rfl
  | spin => rfl
  | opens k ih => simp only [bind]; congr; funext r; exact ih r
  | lseek pos k ih => simp only [bind]; congr
  | read n k ih => simp only [bind]; congr; funext r; exact ih r
  | write bs k ih => simp only [bind]; congr; funext r; exact ih r
  | note e k ih => simp only [bind]; congr

end Prog

/-! ## The system -/

/-- The largest file offset (`off_t` is a signed 64-bit number). -/
def offMax : Nat := 2 ^ 63 - 1

/-- The file, the position of the descriptor and the history, latest event first. -/
structure Os (ε : Type) where
  file : Mem
  pos : Nat
  notes : List ε

/-- How the system answers one command: success, `-1`, or, of a write, only the first `n` bytes. A read of a file stops
short at its end only (`Os.chunk`). -/
inductive Outcome where
  | ok
  | err
  | short (n : Nat)
  deriving DecidableEq

/-- A program and the system it runs on. -/
abbrev Conf (ε α : Type) := Prog ε α × Os ε

variable {ε α β : Type}

namespace Os

/-- What `read` delivers: the bytes from the position on, up to the end of the file. -/
def chunk (s : Os ε) (n : Nat) : Mem := slice s.file s.pos n

def afterRead (s : Os ε) (n : Nat) : Os ε := { s with pos := s.pos + (s.chunk n).length }

def afterWrite (s : Os ε) (bs : Mem) : Os ε :=
  { s with file := store s.file s.pos bs, pos := s.pos + bs.length }

@[simp] theorem afterRead_file (s : Os ε) (n : Nat) : (s.afterRead n).file = s.file := rfl
@[simp] theorem afterRead_notes (s : Os ε) (n : Nat) : (s.afterRead n).notes = s.notes := rfl
@[simp] theorem afterWrite_file (s : Os ε) (bs : Mem) :
    (s.afterWrite bs).file = store s.file s.pos bs := rfl
@[simp] theorem afterWrite_notes (s : Os ε) (bs : Mem) : (s.afterWrite bs).notes = s.notes := rfl

end Os

/-- One command. A position past `offMax` cannot be reached, so there a call does not succeed. -/
def step : Outcome → Conf ε α → Option (Conf ε α)
  | .ok, (.opens k, s) => some (k true, { s with pos := 0 })
  | .err, (.opens k, s) => some (k false, s)
  | .ok, (.lseek pos k, s) => if pos ≤ offMax then some (k, { s with pos := pos }) else none
  | .err, (.lseek _ k, s) => some (k, s)
  | .ok, (.read n k, s) => some (k (some (s.chunk n)), s.afterRead n)
  | .err, (.read _ k, s) => some (k none, s)
  | .ok, (.write bs k, s) =>
    if s.pos + bs.length ≤ offMax then some (k (some bs.length), s.afterWrite bs) else none
  | .err, (.write _ k, s) => some (k none, s)
  | .short n, (.write bs k, s) =>
    if n < bs.length ∧ s.pos + n ≤ offMax then some (k (some n), s.afterWrite (bs.take n)) else none
  | .ok, (.note e k, s) => some (k, { s with notes := e :: s.notes })
  | _, _ => none

def run : List Outcome → Conf ε α → Option (Conf ε α)
  | [], c => some c
  | o :: os, c => (step o c).bind (run os)

/-- `n` commands that all succeed. -/
abbrev runOk (n : Nat) (c : Conf ε α) : Option (Conf ε α) := run (List.replicate n .ok) c

/-- A whole run in which every system call succeeds. -/
def Done (p : Prog ε α) (s : Os ε) (a : α) (s' : Os ε) : Prop :=
  ∃ n, runOk n (p, s) = some (.ret a, s')

theorem run_append (xs ys : List Outcome) (c : Conf ε α) :
    run (xs ++ ys) c = (run xs c).bind (run ys) := by
  induction xs generalizing c with
  | nil => rfl
  | cons o xs ih =>
    simp only [List.cons_append, run]
    cases step o c with
    | none => rfl
    | some c' => exact ih c'

theorem runOk_add (n m : Nat) (c : Conf ε α) : runOk (n + m) c = (runOk n c).bind (runOk m) := by
  rw [runOk, List.replicate_add, run_append]

theorem runOk_succ (n : Nat) (c : Conf ε α) :
    runOk (n + 1) c = (step .ok c).bind (runOk n) := rfl

/-- What a command that succeeds does. -/
theorem step_ok_cases {p q : Prog ε α} {s s' : Os ε} (h : step .ok (p, s) = some (q, s')) :
    (∃ k, p = .opens k ∧ q = k true ∧ s' = { s with pos := 0 }) ∨
    (∃ pos k, p = .lseek pos k ∧ pos ≤ offMax ∧ q = k ∧ s' = { s with pos := pos }) ∨
    (∃ n k, p = .read n k ∧ q = k (some (s.chunk n)) ∧ s' = s.afterRead n) ∨
    (∃ bs k, p = .write bs k ∧ s.pos + bs.length ≤ offMax ∧ q = k (some bs.length) ∧
      s' = s.afterWrite bs) ∨
    (∃ e k, p = .note e k ∧ q = k ∧ s' = { s with notes := e :: s.notes }) := by
  cases p with
  | ret a => simp [step] at h
  | undefined => simp [step] at h
  | spin => simp [step] at h
  | opens k =>
    cases h
    exact .inl ⟨k, rfl, rfl, rfl⟩
  | lseek pos k =>
    simp only [step] at h
    split at h
    · cases h
      exact .inr (.inl ⟨pos, _, rfl, ‹_›, rfl, rfl⟩)
    · cases h
  | read n k =>
    cases h
    exact .inr (.inr (.inl ⟨n, k, rfl, rfl, rfl⟩))
  | write bs k =>
    simp only [step] at h
    split at h
    · cases h
      exact .inr (.inr (.inr (.inl ⟨bs, k, rfl, ‹_›, rfl, rfl⟩)))
    · cases h
  | note e k =>
    cases h
    exact .inr (.inr (.inr (.inr ⟨e, _, rfl, rfl, rfl⟩)))

/-- A command records one event or none. -/
theorem step_notes {o : Outcome} {p q : Prog ε α} {s s' : Os ε}
    (h : step o (p, s) = some (q, s')) : s'.notes = s.notes ∨ ∃ e, s'.notes = e :: s.notes := by
  cases o with
  | ok =>
    obtain ⟨_, -, -, rfl⟩ | ⟨_, _, -, -, -, rfl⟩ | ⟨_, _, -, -, rfl⟩ | ⟨_, _, -, -, -, rfl⟩ |
      ⟨e, _, -, -, rfl⟩ := step_ok_cases h
    · exact .inl rfl
    · exact .inl rfl
    · exact .inl rfl
    · exact .inl rfl
    · exact .inr ⟨e, rfl⟩
  | err => cases p <;> cases h <;> exact .inl rfl
  | short n =>
    cases p <;> simp only [step] at h <;> first | cases h | skip
    split at h <;> cases h
    exact .inl rfl

/-- A step of the first part is a step of the whole. -/
theorem step_bind {o : Outcome} {p q : Prog ε α} {s s' : Os ε} (f : α → Prog ε β)
    (h : step o (p, s) = some (q, s')) : step o (p.bind f, s) = some (q.bind f, s') := by
  cases p <;> cases o <;> simp only [step, Prog.bind] at h ⊢ <;>
    first
    | (simp only [Option.some.injEq, Prod.mk.injEq] at h; obtain ⟨rfl, rfl⟩ := h; rfl)
    | (split at h
       · rename_i hc
         simp only [Option.some.injEq, Prod.mk.injEq] at h; obtain ⟨rfl, rfl⟩ := h
         rw [if_pos hc]
       · cases h)
    | cases h

theorem run_bind {os : List Outcome} {p q : Prog ε α} {s s' : Os ε} (f : α → Prog ε β)
    (h : run os (p, s) = some (q, s')) : run os (p.bind f, s) = some (q.bind f, s') := by
  induction os generalizing p s with
  | nil => simp only [run, Option.some.injEq, Prod.mk.injEq] at h ⊢; obtain ⟨rfl, rfl⟩ := h; simp
  | cons o os ih =>
    simp only [run] at h ⊢
    obtain ⟨⟨q', s1⟩, hs, hr⟩ := Option.bind_eq_some_iff.1 h
    rw [step_bind f hs]
    exact ih hr

/-- A step of a sequence whose first part has not ended is a step of that part. -/
theorem step_bind_eq {o : Outcome} {p : Prog ε α} {s : Os ε} (f : α → Prog ε β) (hp : ∀ a, p ≠ .ret a) :
    step o (p.bind f, s) = (step o (p, s)).map fun c => (c.1.bind f, c.2) := by
  cases p with
  | ret a => exact absurd rfl (hp a)
  | undefined => cases o <;> rfl
  | spin => cases o <;> rfl
  | opens k => cases o <;> rfl
  | lseek pos k => cases o <;> simp only [step, Prog.bind] <;> first | rfl | (split <;> rfl)
  | read n k => cases o <;> rfl
  | write bs k => cases o <;> simp only [step, Prog.bind] <;> first | rfl | (split <;> rfl)
  | note e k => cases o <;> rfl

/-- A run of a sequence is still in its first part or has finished it. -/
theorem runOk_bind_cases {n : Nat} {p : Prog ε α} {f : α → Prog ε β} {q : Prog ε β} {s s' : Os ε}
    (h : runOk n (p.bind f, s) = some (q, s')) :
    (∃ p', runOk n (p, s) = some (p', s') ∧ q = p'.bind f ∧ ∀ a, p' ≠ .ret a) ∨
    ∃ a s1 k m, n = k + m ∧ runOk k (p, s) = some (.ret a, s1) ∧ runOk m (f a, s1) = some (q, s') := by
  induction n generalizing p s with
  | zero =>
    by_cases hp : ∃ a, p = .ret a
    · obtain ⟨a, rfl⟩ := hp
      exact .inr ⟨a, s, 0, 0, rfl, rfl, h⟩
    · simp only [runOk, List.replicate, run, Option.some.injEq, Prod.mk.injEq] at h
      obtain ⟨rfl, rfl⟩ := h
      exact .inl ⟨p, rfl, rfl, fun a ha => hp ⟨a, ha⟩⟩
  | succ n ih =>
    by_cases hp : ∃ a, p = .ret a
    · obtain ⟨a, rfl⟩ := hp
      exact .inr ⟨a, s, 0, n + 1, by omega, rfl, h⟩
    · rw [runOk_succ, step_bind_eq f fun a ha => hp ⟨a, ha⟩, Option.bind_eq_some_iff] at h
      obtain ⟨c, hc, hr⟩ := h
      obtain ⟨⟨p1, s1⟩, hs, rfl⟩ := Option.map_eq_some_iff.1 hc
      rcases ih hr with ⟨p', hp', hq, hne⟩ | ⟨a, s2, k, m, hn, hk, hm⟩
      · exact .inl ⟨p', by rw [runOk_succ, hs]; exact hp', hq, hne⟩
      · exact .inr ⟨a, s2, k + 1, m, by omega, by rw [runOk_succ, hs]; exact hk, hm⟩

/-- A run only adds to the history. -/
theorem run_notes {os : List Outcome} {p q : Prog ε α} {s s' : Os ε}
    (h : run os (p, s) = some (q, s')) : ∃ new, s'.notes = new ++ s.notes := by
  induction os generalizing p s with
  | nil =>
    simp only [run, Option.some.injEq, Prod.mk.injEq] at h
    exact ⟨[], by rw [h.2]; rfl⟩
  | cons o os ih =>
    simp only [run] at h
    obtain ⟨⟨p1, s1⟩, hs, hr⟩ := Option.bind_eq_some_iff.1 h
    obtain ⟨new, hn⟩ := ih hr
    rcases step_notes hs with h1 | ⟨e, h1⟩
    · exact ⟨new, by rw [hn, h1]⟩
    · exact ⟨new ++ [e], by rw [hn, h1, List.append_assoc]; rfl⟩

/-- The same system with an older history. -/
def Os.under (s : Os ε) (past : List ε) : Os ε := { s with notes := s.notes ++ past }

/-- No command looks at the history. -/
theorem step_under (past : List ε) (o : Outcome) (p : Prog ε α) (s : Os ε) :
    step o (p, s.under past) = (step o (p, s)).map fun c => (c.1, c.2.under past) := by
  cases p with
  | ret a => cases o <;> rfl
  | undefined => cases o <;> rfl
  | spin => cases o <;> rfl
  | opens k => cases o <;> rfl
  | lseek pos k => cases o <;> first | rfl | (simp only [step]; split <;> rfl)
  | read n k => cases o <;> rfl
  | write bs k =>
    cases o with
    | ok =>
      by_cases h : s.pos + bs.length ≤ offMax
      · rw [show step .ok (.write bs k, s) = _ from if_pos h]
        exact if_pos h
      · rw [show step .ok (.write bs k, s) = _ from if_neg h]
        exact if_neg h
    | err => rfl
    | short n =>
      by_cases h : n < bs.length ∧ s.pos + n ≤ offMax
      · rw [show step (.short n) (.write bs k, s) = _ from if_pos h]
        exact if_pos h
      · rw [show step (.short n) (.write bs k, s) = _ from if_neg h]
        exact if_neg h
  | note e k => cases o <;> rfl

theorem run_under (past : List ε) (os : List Outcome) (p : Prog ε α) (s : Os ε) :
    run os (p, s.under past) = (run os (p, s)).map fun c => (c.1, c.2.under past) := by
  induction os generalizing p s with
  | nil => rfl
  | cons o os ih =>
    simp only [run]
    rw [step_under]
    cases step o (p, s) with
    | none => rfl
    | some c => exact ih c.1 c.2

namespace Done

theorem ret (a : α) (s : Os ε) : Done (.ret a) s a s := ⟨0, rfl⟩

theorem ret_inv {a b : α} {s s' : Os ε} (h : Done (.ret a) s b s') : a = b ∧ s = s' := by
  obtain ⟨n, hn⟩ := h
  cases n with
  | zero => simpa [runOk, run] using hn
  | succ n => simp [runOk_succ, step] at hn

theorem undefined_inv {a : α} {s s' : Os ε} (h : Done .undefined s a s') : False := by
  obtain ⟨n, hn⟩ := h
  cases n with
  | zero => simp [runOk, run] at hn
  | succ n => simp [runOk_succ, step] at hn

theorem spin_inv {a : α} {s s' : Os ε} (h : Done .spin s a s') : False := by
  obtain ⟨n, hn⟩ := h
  cases n with
  | zero => simp [runOk, run] at hn
  | succ n => simp [runOk_succ, step] at hn

theorem note_inv {e : ε} {k : Prog ε α} {a : α} {s s' : Os ε} (h : Done (.note e k) s a s') :
    Done k { s with notes := e :: s.notes } a s' := by
  obtain ⟨n, hn⟩ := h
  cases n with
  | zero => simp [runOk, run] at hn
  | succ n => exact ⟨n, hn⟩

theorem of_step {p q : Prog ε α} {s s1 s' : Os ε} {a : α} (h : step .ok (p, s) = some (q, s1))
    (hd : Done q s1 a s') : Done p s a s' := by
  obtain ⟨n, hn⟩ := hd
  exact ⟨n + 1, by rw [runOk_succ, h]; exact hn⟩

/-- Two parts in sequence. -/
theorem bind {p : Prog ε α} {f : α → Prog ε β} {s s1 s' : Os ε} {a : α} {b : β}
    (h1 : Done p s a s1) (h2 : Done (f a) s1 b s') : Done (p.bind f) s b s' := by
  obtain ⟨n, hn⟩ := h1
  obtain ⟨m, hm⟩ := h2
  refine ⟨n + m, ?_⟩
  rw [runOk_add, show runOk n (p.bind f, s) = _ from run_bind f hn]
  exact hm

/-- A whole run of a sequence is a whole run of its first part and then of the rest. -/
theorem bind_inv {p : Prog ε α} {f : α → Prog ε β} {s s' : Os ε} {b : β}
    (h : Done (p.bind f) s b s') : ∃ a s1, Done p s a s1 ∧ Done (f a) s1 b s' := by
  obtain ⟨n, hn⟩ := h
  rcases runOk_bind_cases hn with ⟨p', -, hq, hne⟩ | ⟨a, s1, k, m, -, hk, hm⟩
  · cases p' with
    | ret a => exact absurd rfl (hne a)
    | _ => cases hq
  · exact ⟨a, s1, ⟨k, hk⟩, ⟨m, hm⟩⟩

/-- There is only one. -/
theorem unique {p : Prog ε α} {s s1 s2 : Os ε} {a b : α} (h : Done p s a s1) (h' : Done p s b s2) :
    a = b ∧ s1 = s2 := by
  obtain ⟨n, hn⟩ := h
  induction n generalizing p s with
  | zero =>
    simp only [runOk, List.replicate, run, Option.some.injEq, Prod.mk.injEq] at hn
    obtain ⟨rfl, rfl⟩ := hn
    exact h'.ret_inv
  | succ n ih =>
    obtain ⟨⟨q, s3⟩, hs, hr⟩ := Option.bind_eq_some_iff.1 hn
    obtain ⟨m, hm⟩ := h'
    cases m with
    | zero =>
      simp only [runOk, List.replicate, run, Option.some.injEq, Prod.mk.injEq] at hm
      obtain ⟨rfl, rfl⟩ := hm
      cases hs
    | succ m =>
      obtain ⟨c, hs', hr'⟩ := Option.bind_eq_some_iff.1 hm
      rw [hs] at hs'
      cases hs'
      exact ih ⟨m, hr'⟩ hr

end Done
