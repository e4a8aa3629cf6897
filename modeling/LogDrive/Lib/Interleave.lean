import LogDrive.Lib.Logic

/-!
# Two processes on one file

`Duo` is a writer and a reader that work on one file, each through a descriptor of its own. They take
turns in any order; a turn is one system call, so whatever the other process sees lies between two
calls. The events that a program records are no calls: those behind a call belong to its turn
(`settle`).

`Compatible` says that what the writer guarantees at each write is what the reader relies on. Then
the pre- and postconditions of both survive every interleaving (`Duo.Fit.run`), and a reader that is
total is never stuck (`Duo.Fit.reader_moves`).
-/

set_option autoImplicit false

open Bytes

variable {ε α β : Type}

/-- Records the events at the head of a program. -/
def settle : Prog ε α → Os ε → Conf ε α
  | .note e k, s => settle k { s with notes := e :: s.notes }
  | p, s => (p, s)

/-- One system call that succeeds. -/
def turn (c : Conf ε α) : Option (Conf ε α) := (step .ok c).map fun c => settle c.1 c.2

structure Duo (ε α β : Type) where
  writer : Conf ε α
  reader : Conf ε β

/-- The runs in which the writer takes its turns only where `P` holds of its history and of the
reader's. -/
inductive DuoRun (P : List ε → List ε → Prop) : Duo ε α β → Duo ε α β → Prop
  | refl (D : Duo ε α β) : DuoRun P D D
  | writer {D : Duo ε α β} {w w' : Conf ε α} {r : Conf ε β} : DuoRun P D ⟨w, r⟩ →
      P w.2.notes r.2.notes → turn w = some w' → DuoRun P D ⟨w', (r.1, r.2.put w'.2.file)⟩
  | reader {D : Duo ε α β} {w : Conf ε α} {r r' : Conf ε β} : DuoRun P D ⟨w, r⟩ →
      turn r = some r' → DuoRun P D ⟨(w.1, w.2.put r'.2.file), r'⟩

theorem DuoRun.trans {P : List ε → List ε → Prop} {D D' D'' : Duo ε α β} (h : DuoRun P D D')
    (h' : DuoRun P D' D'') : DuoRun P D D'' := by
  induction h' with
  | refl => exact h
  | writer _ hP ht ih => exact .writer ih hP ht
  | reader _ ht ih => exact .reader ih ht

/-! ## Turns -/

/-- The program is at a system call or at its end. -/
def Prog.Settled : Prog ε α → Prop
  | .note _ _ => False
  | _ => True

/-- The program is at a system call. -/
def Prog.Calls : Prog ε α → Prop
  | .opens _ => True
  | .lseek _ _ => True
  | .read _ _ => True
  | .write _ _ => True
  | _ => False

theorem Prog.Calls.settled {p : Prog ε α} (h : p.Calls) : p.Settled := by
  cases p <;> first | exact h.elim | trivial

theorem Prog.Calls.bind {p : Prog ε α} (h : p.Calls) (f : α → Prog ε β) : (p.bind f).Calls := by
  cases p <;> first | exact h.elim | trivial

theorem settle_of_settled {p : Prog ε α} (h : p.Settled) (s : Os ε) : settle p s = (p, s) := by
  cases p with
  | note e k => exact h.elim
  | _ => rfl

theorem settle_settled (p : Prog ε α) (s : Os ε) : (settle p s).1.Settled := by
  induction p generalizing s with
  | note e k ih => exact ih _
  | _ => trivial

/-- Recording events changes the history only. -/
theorem settle_os (p : Prog ε α) (s : Os ε) :
    ∃ new, (settle p s).2 = { s with notes := new ++ s.notes } := by
  induction p generalizing s with
  | note e k ih =>
    obtain ⟨new, h⟩ := ih { s with notes := e :: s.notes }
    exact ⟨new ++ [e], by rw [settle, h, List.append_assoc]; rfl⟩
  | _ => exact ⟨[], rfl⟩

theorem settle_file (p : Prog ε α) (s : Os ε) : (settle p s).2.file = s.file := by
  obtain ⟨new, h⟩ := settle_os p s
  rw [h]

/-- A turn only adds to the history. -/
theorem turn_notes {c c' : Conf ε α} (h : turn c = some c') : ∃ new, c'.2.notes = new ++ c.2.notes := by
  obtain ⟨⟨q, s1⟩, hs, rfl⟩ := Option.map_eq_some_iff.1 h
  obtain ⟨new, hn⟩ := settle_os q s1
  rcases step_notes (p := c.1) (s := c.2) hs with h1 | ⟨e, h1⟩
  · exact ⟨new, by simp only [hn, h1]⟩
  · exact ⟨new ++ [e], by simp only [hn, h1, List.append_assoc, List.cons_append, List.nil_append]⟩

/-- An interleaving only adds to the history of the writer. -/
theorem DuoRun.assumed {P : List ε → List ε → Prop} {A : List ε → ε → Prop} {D D' : Duo ε α β}
    (h : DuoRun P D D') (ha : Assumed A D'.writer.2.notes) : Assumed A D.writer.2.notes := by
  induction h with
  | refl => exact ha
  | writer _ _ ht ih =>
    obtain ⟨new, hn⟩ := turn_notes ht
    simp only [hn] at ha
    exact ih ha.of_append
  | reader _ _ ih => exact ih ha

/-! ## Runs of one process -/

/-- While the reader runs the writer may wait. -/
theorem DuoRun.reads {P : List ε → List ε → Prop} {n : Nat} {w : Conf ε α} {p q : Prog ε β} {s s' : Os ε}
    (hf : w.2.file = s.file) (hn : runOk n (p, s) = some (q, s')) :
    DuoRun P ⟨w, settle p s⟩ ⟨(w.1, w.2.put s'.file), settle q s'⟩ := by
  induction n generalizing w p s with
  | zero =>
    simp only [runOk, List.replicate, run, Option.some.injEq, Prod.mk.injEq] at hn
    obtain ⟨rfl, rfl⟩ := hn
    rw [← hf]
    exact .refl _
  | succ n ih =>
    rw [runOk_succ] at hn
    obtain ⟨⟨q1, s1⟩, hs, hr⟩ := Option.bind_eq_some_iff.1 hn
    by_cases hp : p.Settled
    · have ht : turn (p, s) = some (settle q1 s1) := by rw [turn, hs]; rfl
      have hone := DuoRun.reader (P := P) (.refl (⟨w, (p, s)⟩ : Duo ε α β)) ht
      rw [settle_of_settled hp]
      exact hone.trans (ih (settle_file q1 s1) hr)
    · cases p with
      | note e k =>
        cases hs
        exact ih (p := q1) (s := { s with notes := e :: s.notes }) hf hr
      | _ => exact absurd trivial hp

/-- While the writer runs the reader may wait. -/
theorem DuoRun.writes {P : List ε → List ε → Prop} {n : Nat} {r : Conf ε β} {p q : Prog ε α} {s s' : Os ε}
    (hf : r.2.file = s.file) (hP : ∀ past, P past r.2.notes) (hn : runOk n (p, s) = some (q, s')) :
    DuoRun P ⟨settle p s, r⟩ ⟨settle q s', (r.1, r.2.put s'.file)⟩ := by
  induction n generalizing r p s with
  | zero =>
    simp only [runOk, List.replicate, run, Option.some.injEq, Prod.mk.injEq] at hn
    obtain ⟨rfl, rfl⟩ := hn
    rw [← hf]
    exact .refl _
  | succ n ih =>
    rw [runOk_succ] at hn
    obtain ⟨⟨q1, s1⟩, hs, hr⟩ := Option.bind_eq_some_iff.1 hn
    by_cases hp : p.Settled
    · have ht : turn (p, s) = some (settle q1 s1) := by rw [turn, hs]; rfl
      have hone := DuoRun.writer (P := P) (.refl (⟨(p, s), r⟩ : Duo ε α β)) (hP _) ht
      rw [settle_of_settled hp]
      exact hone.trans (ih (settle_file q1 s1) hP hr)
    · cases p with
      | note e k =>
        cases hs
        exact ih (p := q1) (s := { s with notes := e :: s.notes }) hf hP hr
      | _ => exact absurd trivial hp

/-! ## Pre- and postconditions -/

section
variable {L : Logic ε} {Q : α → Os ε → Prop}

theorem wp_settle {p : Prog ε α} {s : Os ε} (h : wp L p Q s) (ha : Assumed L.assume (settle p s).2.notes) :
    wp L (settle p s).1 Q (settle p s).2 := by
  induction p generalizing s with
  | note e k ih =>
    refine ih (h.2 ?_) ha
    obtain ⟨new, hn⟩ := settle_os k { s with notes := e :: s.notes }
    rw [settle, hn] at ha
    exact ha.of_append.1
  | _ => exact h

/-- A turn keeps `wp`. -/
theorem wp_turn {c c' : Conf ε α} (h : wp L c.1 Q c.2) (ht : turn c = some c')
    (ha : Assumed L.assume c'.2.notes) : wp L c'.1 Q c'.2 := by
  obtain ⟨⟨q, s1⟩, hs, rfl⟩ := Option.map_eq_some_iff.1 ht
  obtain ⟨new, hn⟩ := settle_os q s1
  have ha1 : Assumed L.assume s1.notes := by
    simp only [hn] at ha
    exact ha.of_append
  exact wp_settle (wp_step (p := c.1) (s := c.2) h hs ha1) ha

/-- Between its calls a program does not see what others do, as long as this is relied on. -/
theorem wp_put {p : Prog ε α} (hp : p.Settled) {s : Os ε} {f : Mem}
    (htrans : ∀ past f f' f'', L.rely past f f' → L.rely past f' f'' → L.rely past f f'')
    (hQ : ∀ a s f, Q a s → L.rely s.notes s.file f → Q a (s.put f)) (hr : L.rely s.notes s.file f)
    (h : wp L p Q s) : wp L p Q (s.put f) := by
  cases p with
  | ret a => exact hQ a s f h hr
  | undefined => exact h
  | spin => exact h
  | note e k => exact hp.elim
  | _ => exact fun f' hf' => h f' (htrans _ _ _ _ hr hf')

end

/-- What the writer guarantees at a write is what the reader relies on; the reader writes nothing. -/
structure Compatible (Lw Lr : Logic ε) (P : List ε → List ε → Prop) : Prop where
  alone : Lw.Alone
  quiet : ∀ s bs, ¬Lr.allow s bs
  trans : ∀ past f f' f'', Lr.rely past f f' → Lr.rely past f' f'' → Lr.rely past f f''
  gives : ∀ s bs past, Lw.allow s bs → P s.notes past → Lr.rely past s.file (s.afterWrite bs).file

/-- Both processes are as their modes say. -/
structure Duo.Fit (Lw Lr : Logic ε) (Qw : α → Os ε → Prop) (Qr : β → Os ε → Prop) (D : Duo ε α β) : Prop where
  file : D.reader.2.file = D.writer.2.file
  settled : D.reader.1.Settled
  writer : wp Lw D.writer.1 Qw D.writer.2
  reader : wp Lr D.reader.1 Qr D.reader.2

namespace Duo.Fit

variable {Lw Lr : Logic ε} {P : List ε → List ε → Prop} {Qw : α → Os ε → Prop} {Qr : β → Os ε → Prop}

/-- The file after a turn of the writer. -/
theorem gives (hC : Compatible Lw Lr P) {c c' : Conf ε α} (h : wp Lw c.1 Qw c.2) (ht : turn c = some c')
    {past : List ε} (hP : P c.2.notes past) : Lr.rely past c.2.file c'.2.file := by
  obtain ⟨p, s⟩ := c
  obtain ⟨⟨q, s1⟩, hs, rfl⟩ := Option.map_eq_some_iff.1 ht
  rw [settle_file]
  obtain ⟨_, -, -, rfl⟩ | ⟨_, _, -, -, -, rfl⟩ | ⟨_, _, -, -, rfl⟩ | ⟨bs, k, rfl, -, -, rfl⟩ |
    ⟨_, _, -, -, rfl⟩ := step_ok_cases hs
  · exact Lr.rely_refl _ _
  · exact Lr.rely_refl _ _
  · exact Lr.rely_refl _ _
  · exact hC.gives s bs past (h s.file (Lw.rely_refl _ _)).2.1 hP
  · exact Lr.rely_refl _ _

/-- A turn of the reader leaves the file as it is. -/
theorem reader_file (hC : Compatible Lw Lr P) {c c' : Conf ε β} (h : wp Lr c.1 Qr c.2)
    (ht : turn c = some c') : c'.2.file = c.2.file := by
  obtain ⟨p, s⟩ := c
  obtain ⟨⟨q, s1⟩, hs, rfl⟩ := Option.map_eq_some_iff.1 ht
  rw [settle_file]
  obtain ⟨_, -, -, rfl⟩ | ⟨_, _, -, -, -, rfl⟩ | ⟨_, _, -, -, rfl⟩ | ⟨bs, k, rfl, -, -, rfl⟩ |
    ⟨_, _, -, -, rfl⟩ := step_ok_cases hs
  · rfl
  · rfl
  · rfl
  · exact absurd (h s.file (Lr.rely_refl _ _)).2.1 (hC.quiet _ _)
  · rfl

/-- **Any interleaving** keeps both processes as their modes say. -/
theorem run (hC : Compatible Lw Lr P) (hQr : ∀ b s f, Qr b s → Lr.rely s.notes s.file f → Qr b (s.put f))
    {D D' : Duo ε α β} (hD : D.Fit Lw Lr Qw Qr) (hr : DuoRun P D D')
    (haw : Assumed Lw.assume D'.writer.2.notes) (har : Assumed Lr.assume D'.reader.2.notes) :
    D'.Fit Lw Lr Qw Qr := by
  induction hr with
  | refl => exact hD
  | @writer w w' r _ hP ht ih =>
    obtain ⟨new, hn⟩ := turn_notes ht
    have hF := ih (by simp only [hn] at haw; exact haw.of_append) har
    have hrely : Lr.rely r.2.notes r.2.file w'.2.file := by
      have := gives hC hF.writer ht hP
      rwa [← hF.file] at this
    exact ⟨rfl, hF.settled, wp_turn hF.writer ht haw, wp_put hF.settled hC.trans hQr hrely hF.reader⟩
  | @reader w r r' _ ht ih =>
    obtain ⟨new, hn⟩ := turn_notes ht
    have hF := ih haw (by simp only [hn] at har; exact har.of_append)
    have hfile : r'.2.file = w.2.file := (reader_file hC hF.reader ht).trans hF.file
    have hsettled : r'.1.Settled := by
      obtain ⟨c, -, rfl⟩ := Option.map_eq_some_iff.1 ht
      exact settle_settled _ _
    refine ⟨rfl, hsettled, ?_, wp_turn hF.reader ht har⟩
    rw [hfile]
    exact hF.writer

/-- A total reader has returned, or it can take its turn. -/
theorem reader_moves {D : Duo ε α β} (hD : D.Fit Lw Lr Qw Qr) (ht : Lr.total) (hub : ¬Lr.ub) :
    (∃ b, D.reader.1 = .ret b ∧ Qr b D.reader.2) ∨ ∃ c, turn D.reader = some c := by
  obtain ⟨w, p, s⟩ := D
  have hs := hD.settled
  have h := hD.reader
  cases p with
  | ret b => exact .inl ⟨b, rfl, h⟩
  | undefined => exact absurd h hub
  | spin => exact h.elim
  | note e k => exact hs.elim
  | opens k => exact .inr ⟨_, rfl⟩
  | read n k => exact .inr ⟨_, rfl⟩
  | lseek pos k =>
    have hb := (h s.file (Lr.rely_refl _ _)).1 ht
    exact .inr ⟨settle k { s with pos := pos }, by simp only [turn, step]; rw [if_pos hb]; rfl⟩
  | write bs k =>
    have hb := (h s.file (Lr.rely_refl _ _)).1 ht
    exact .inr ⟨settle (k (some bs.length)) (s.afterWrite bs), by simp only [turn, step]; rw [if_pos hb]; rfl⟩

end Duo.Fit
