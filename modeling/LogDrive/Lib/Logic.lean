import LogDrive.Lib.Prog

/-!
# Pre- and postconditions of file programs

`wp L p Q s`: started in `s`, whatever the system answers within the mode `L`, the program `p` meets
no undefined behaviour, its loops end, every `write` it issues is allowed, and when it returns `a`
in `s'` then `Q a s'`. A mode fixes what a proof may rely on:

* `rely`: what other processes may do to the file before a call, given the history,
* `assume`: what is taken for granted of a history event when it is recorded,
* `allow`: what has to hold when a `write` is issued (the guarantee to the other processes, and
  what a process killed at that point leaves behind),
* `ub`: whether undefined behaviour is let through,
* `total`: in a total mode nothing is taken for granted, positions stay below `offMax` and every
  event is shown to be as assumed, so that `wp` gives a whole run (`wp_total`).

`wp_bind` and `wp_mono` compose programs; `wp_runOk` and `wp_done` take `wp` to runs.
-/

set_option autoImplicit false

open Bytes

structure Logic (ε : Type) where
  rely : List ε → Mem → Mem → Prop
  rely_refl : ∀ past f, rely past f f
  assume : List ε → ε → Prop
  allow : Os ε → Mem → Prop
  ub : Prop
  total : Prop

variable {ε α β : Type}

/-- The state of a process after others have changed the file to `f`. -/
abbrev Os.put (s : Os ε) (f : Mem) : Os ε := { s with file := f }

def wp (L : Logic ε) : Prog ε α → (α → Os ε → Prop) → Os ε → Prop
  | .ret a, Q, s => Q a s
  | .undefined, _, _ => L.ub
  | .spin, _, _ => False
  | .opens k, Q, s => ∀ f, L.rely s.notes s.file f → wp L (k true) Q { s.put f with pos := 0 }
  | .lseek pos k, Q, s =>
    ∀ f, L.rely s.notes s.file f → (L.total → pos ≤ offMax) ∧
      (pos ≤ offMax → wp L k Q { s.put f with pos := pos })
  | .read n k, Q, s =>
    ∀ f, L.rely s.notes s.file f → wp L (k (some ((s.put f).chunk n))) Q ((s.put f).afterRead n)
  | .write bs k, Q, s =>
    ∀ f, L.rely s.notes s.file f → (L.total → s.pos + bs.length ≤ offMax) ∧ L.allow (s.put f) bs ∧
      (s.pos + bs.length ≤ offMax → wp L (k (some bs.length)) Q ((s.put f).afterWrite bs))
  | .note e k, Q, s =>
    (L.total → L.assume s.notes e) ∧
      (L.assume s.notes e → wp L k Q { s with notes := e :: s.notes })

/-- Every event of the history was as assumed when it was recorded. -/
def Assumed (A : List ε → ε → Prop) : List ε → Prop
  | [] => True
  | e :: past => A past e ∧ Assumed A past

theorem Assumed.of_append {A : List ε → ε → Prop} : ∀ {new old : List ε},
    Assumed A (new ++ old) → Assumed A old
  | [], _, h => h
  | _ :: _, _, h => Assumed.of_append h.2

theorem Assumed.mono {A B : List ε → ε → Prop} (h : ∀ past e, A past e → B past e) :
    ∀ {past : List ε}, Assumed A past → Assumed B past
  | [], _ => trivial
  | _ :: _, ha => ⟨h _ _ ha.1, ha.2.mono h⟩

theorem Assumed.of_forall {A : List ε → ε → Prop} (h : ∀ past e, A past e) : ∀ past, Assumed A past
  | [] => trivial
  | e :: past => ⟨h past e, Assumed.of_forall h past⟩

/-! ## Composition -/

section
variable {L : Logic ε}

@[simp] theorem wp_ret {a : α} {Q : α → Os ε → Prop} {s : Os ε} : wp L (.ret a) Q s ↔ Q a s := Iff.rfl

theorem wp_note {e : ε} {k : Prog ε α} {Q : α → Os ε → Prop} {s : Os ε} :
    wp L (.note e k) Q s ↔ (L.total → L.assume s.notes e) ∧
      (L.assume s.notes e → wp L k Q { s with notes := e :: s.notes }) := Iff.rfl

theorem wp_mono {p : Prog ε α} {Q Q' : α → Os ε → Prop} {s : Os ε} (h : wp L p Q s)
    (hq : ∀ a s, Q a s → Q' a s) : wp L p Q' s := by
  induction p generalizing s with
  | ret a => exact hq _ _ h
  | undefined => exact h
  | spin => exact h
  | opens k ih => exact fun f hf => ih _ (h f hf)
  | lseek pos k ih => exact fun f hf => ⟨(h f hf).1, fun hp => ih ((h f hf).2 hp)⟩
  | read n k ih => exact fun f hf => ih _ (h f hf)
  | write bs k ih => exact fun f hf => ⟨(h f hf).1, (h f hf).2.1, fun hp => ih _ ((h f hf).2.2 hp)⟩
  | note e k ih => exact ⟨h.1, fun ha => ih (h.2 ha)⟩

theorem wp_bind {p : Prog ε α} {f : α → Prog ε β} {Q : β → Os ε → Prop} {s : Os ε} :
    wp L (p.bind f) Q s ↔ wp L p (fun a s' => wp L (f a) Q s') s := by
  induction p generalizing s with
  | ret a => exact Iff.rfl
  | undefined => exact Iff.rfl
  | spin => exact Iff.rfl
  | opens k ih => simp only [Prog.bind, wp, ih]
  | lseek pos k ih => simp only [Prog.bind, wp, ih]
  | read n k ih => simp only [Prog.bind, wp, ih]
  | write bs k ih => simp only [Prog.bind, wp, ih]
  | note e k ih => simp only [Prog.bind, wp, ih]

/-- A postcondition that holds of the first part, then the rest. -/
theorem wp_seq {p : Prog ε α} {f : α → Prog ε β} {P : α → Os ε → Prop} {Q : β → Os ε → Prop}
    {s : Os ε} (h : wp L p P s) (hf : ∀ a s', P a s' → wp L (f a) Q s') : wp L (p.bind f) Q s :=
  wp_bind.2 (wp_mono h hf)

end

/-- The mode with another guarantee. -/
def Logic.allowing (L : Logic ε) (A : Os ε → Mem → Prop) : Logic ε := { L with allow := A }

/-- Two guarantees can be shown one by one. -/
theorem wp_both {L : Logic ε} {A B C : Os ε → Mem → Prop} (hC : ∀ s bs, A s bs → B s bs → C s bs) {p : Prog ε α}
    {Q R : α → Os ε → Prop} {s : Os ε} (h : wp (L.allowing A) p Q s) (h' : wp (L.allowing B) p R s) :
    wp (L.allowing C) p (fun a s' => Q a s' ∧ R a s') s := by
  induction p generalizing s with
  | ret a => exact ⟨h, h'⟩
  | undefined => exact h
  | spin => exact h
  | opens k ih => exact fun f hf => ih _ (h f hf) (h' f hf)
  | lseek pos k ih => exact fun f hf => ⟨(h f hf).1, fun hp => ih ((h f hf).2 hp) ((h' f hf).2 hp)⟩
  | read n k ih => exact fun f hf => ih _ (h f hf) (h' f hf)
  | write bs k ih =>
    intro f hf
    obtain ⟨ht, ha, hk⟩ := h f hf
    obtain ⟨-, hb, hk'⟩ := h' f hf
    exact ⟨ht, hC _ _ ha hb, fun hp => ih _ (hk hp) (hk' hp)⟩
  | note e k ih => exact ⟨h.1, fun ha => ih (h.2 ha) (h'.2 ha)⟩

/-! ## A process that is alone with its file -/

/-- No other process changes the file. -/
def Logic.Alone (L : Logic ε) : Prop := ∀ past f f', L.rely past f f' → f' = f

/-- A process that is alone and of which nothing is asked but that it runs to its end. -/
def Logic.plain (ε : Type) : Logic ε where
  rely _ f f' := f' = f
  rely_refl _ _ := rfl
  assume _ _ := True
  allow _ _ := True
  ub := False
  total := True

theorem Logic.plain_alone : (Logic.plain ε).Alone := fun _ _ _ h => h

section
variable {L : Logic ε}

theorem wp_opens_alone (hL : L.Alone) {k : Bool → Prog ε α} {Q : α → Os ε → Prop} {s : Os ε}
    (h : wp L (k true) Q { s with pos := 0 }) : wp L (.opens k) Q s :=
  fun f hf => by rw [hL _ _ _ hf]; exact h

theorem wp_lseek_alone (hL : L.Alone) {pos : Nat} {k : Prog ε α} {Q : α → Os ε → Prop} {s : Os ε}
    (ht : L.total → pos ≤ offMax) (h : pos ≤ offMax → wp L k Q { s with pos := pos }) :
    wp L (.lseek pos k) Q s :=
  fun f hf => by rw [hL _ _ _ hf]; exact ⟨ht, h⟩

theorem wp_read_alone (hL : L.Alone) {n : Nat} {k : Option Mem → Prog ε α} {Q : α → Os ε → Prop}
    {s : Os ε} (h : wp L (k (some (s.chunk n))) Q (s.afterRead n)) : wp L (.read n k) Q s :=
  fun f hf => by rw [hL _ _ _ hf]; exact h

theorem wp_write_alone (hL : L.Alone) {bs : Mem} {k : Option Nat → Prog ε α} {Q : α → Os ε → Prop}
    {s : Os ε} (ht : L.total → s.pos + bs.length ≤ offMax) (ha : L.allow s bs)
    (h : s.pos + bs.length ≤ offMax → wp L (k (some bs.length)) Q (s.afterWrite bs)) :
    wp L (.write bs k) Q s :=
  fun f hf => by rw [hL _ _ _ hf]; exact ⟨ht, ha, h⟩

end

/-! ## From `wp` to runs -/

section
variable {L : Logic ε}

/-- One successful command keeps `wp`, given that an event it records is as assumed. -/
theorem wp_step {p q : Prog ε α} {Q : α → Os ε → Prop} {s s' : Os ε} (h : wp L p Q s)
    (hs : step .ok (p, s) = some (q, s')) (ha : Assumed L.assume s'.notes) : wp L q Q s' := by
  obtain ⟨k, rfl, rfl, rfl⟩ | ⟨pos, k, rfl, hp, rfl, rfl⟩ | ⟨n, k, rfl, rfl, rfl⟩ |
    ⟨bs, k, rfl, hp, rfl, rfl⟩ | ⟨e, k, rfl, rfl, rfl⟩ := step_ok_cases hs
  · exact h s.file (L.rely_refl _ _)
  · exact (h s.file (L.rely_refl _ _)).2 hp
  · exact h s.file (L.rely_refl _ _)
  · exact (h s.file (L.rely_refl _ _)).2.2 hp
  · exact h.2 ha.1

theorem wp_runOk {n : Nat} {p q : Prog ε α} {Q : α → Os ε → Prop} {s s' : Os ε} (h : wp L p Q s)
    (hr : runOk n (p, s) = some (q, s')) (ha : Assumed L.assume s'.notes) : wp L q Q s' := by
  induction n generalizing p s with
  | zero =>
    simp only [runOk, List.replicate, run, Option.some.injEq, Prod.mk.injEq] at hr
    obtain ⟨rfl, rfl⟩ := hr
    exact h
  | succ n ih =>
    obtain ⟨⟨p1, s1⟩, hs, hr⟩ := Option.bind_eq_some_iff.1 hr
    obtain ⟨new, hn⟩ := run_notes hr
    exact ih (wp_step h hs (by rw [hn] at ha; exact ha.of_append)) hr

/-- In a total mode every event of a run is as assumed. -/
theorem wp_runOk_total {n : Nat} {p q : Prog ε α} {Q : α → Os ε → Prop} {s s' : Os ε} (ht : L.total) (h : wp L p Q s)
    (ha : Assumed L.assume s.notes) (hr : runOk n (p, s) = some (q, s')) : Assumed L.assume s'.notes := by
  induction n generalizing p s with
  | zero =>
    simp only [runOk, List.replicate, run, Option.some.injEq, Prod.mk.injEq] at hr
    obtain ⟨rfl, rfl⟩ := hr
    exact ha
  | succ n ih =>
    obtain ⟨⟨p1, s1⟩, hs, hr⟩ := Option.bind_eq_some_iff.1 hr
    have ha1 : Assumed L.assume s1.notes := by
      obtain ⟨k, rfl, rfl, rfl⟩ | ⟨pos, k, rfl, hp, rfl, rfl⟩ | ⟨n, k, rfl, rfl, rfl⟩ |
        ⟨bs, k, rfl, hp, rfl, rfl⟩ | ⟨e, k, rfl, rfl, rfl⟩ := step_ok_cases hs
      · exact ha
      · exact ha
      · exact ha
      · exact ha
      · exact ⟨h.1 ht, ha⟩
    exact ih (wp_step h hs ha1) ha1 hr

theorem wp_done {p : Prog ε α} {Q : α → Os ε → Prop} {s s' : Os ε} {a : α} (h : wp L p Q s)
    (hd : Done p s a s') (ha : Assumed L.assume s'.notes) : Q a s' := by
  obtain ⟨n, hn⟩ := hd
  exact wp_runOk h hn ha

/-- Where undefined behaviour is not let through, none is met and no loop runs on. -/
theorem wp_runOk_safe {n : Nat} {p q : Prog ε α} {Q : α → Os ε → Prop} {s s' : Os ε}
    (hub : ¬L.ub) (h : wp L p Q s) (hr : runOk n (p, s) = some (q, s'))
    (ha : Assumed L.assume s'.notes) : q ≠ .undefined ∧ q ≠ .spin := by
  have hw := wp_runOk h hr ha
  constructor <;> rintro rfl
  · exact hub hw
  · exact hw

/-- What every allowed write keeps of the file holds after every command, up to the first write at
which `P` holds. -/
theorem wp_runOk_until {I : Mem → Prop} {P : Os ε → Prop} {n : Nat} {p q : Prog ε α} {Q : α → Os ε → Prop}
    {s s' : Os ε} (hI : ∀ (s : Os ε) bs, ¬P s → I s.file → L.allow s bs → I (s.afterWrite bs).file)
    (h : wp L p Q s) (hr : runOk n (p, s) = some (q, s')) (ha : Assumed L.assume s'.notes)
    (hP : ∀ j < n, ∀ bs k s1, runOk j (p, s) = some (.write bs k, s1) → ¬P s1) (h0 : I s.file) : I s'.file := by
  induction n generalizing p s with
  | zero =>
    simp only [runOk, List.replicate, run, Option.some.injEq, Prod.mk.injEq] at hr
    obtain ⟨rfl, rfl⟩ := hr
    exact h0
  | succ n ih =>
    obtain ⟨⟨p1, s1⟩, hs, hr⟩ := Option.bind_eq_some_iff.1 hr
    obtain ⟨new, hn⟩ := run_notes hr
    have ha1 : Assumed L.assume s1.notes := by rw [hn] at ha; exact ha.of_append
    refine ih (wp_step h hs ha1) hr (fun j hj bs k s2 h2 => ?_) ?_
    · exact hP (j + 1) (by omega) bs k s2 (by rw [runOk_succ, hs]; exact h2)
    obtain ⟨k, rfl, rfl, rfl⟩ | ⟨pos, k, rfl, hp, rfl, rfl⟩ | ⟨n, k, rfl, rfl, rfl⟩ |
      ⟨bs, k, rfl, hp, rfl, rfl⟩ | ⟨e, k, rfl, rfl, rfl⟩ := step_ok_cases hs
    · exact h0
    · exact h0
    · exact h0
    · exact hI s bs (hP 0 (by omega) bs k s rfl) h0 (h s.file (L.rely_refl _ _)).2.1
    · exact h0

theorem wp_runOk_file {I : Mem → Prop} {n : Nat} {p q : Prog ε α} {Q : α → Os ε → Prop} {s s' : Os ε}
    (hI : ∀ (s : Os ε) bs, I s.file → L.allow s bs → I (s.afterWrite bs).file) (h : wp L p Q s)
    (hr : runOk n (p, s) = some (q, s')) (ha : Assumed L.assume s'.notes) (h0 : I s.file) : I s'.file :=
  wp_runOk_until (P := fun _ => False) (fun s bs _ => hI s bs) h hr ha (fun _ _ _ _ _ _ h => h) h0

/-- In a total mode there is a whole run, and it records no event that is not as assumed. -/
theorem wp_total {p : Prog ε α} {Q : α → Os ε → Prop} {s : Os ε} (ht : L.total) (hub : ¬L.ub)
    (h : wp L p Q s) (ha : Assumed L.assume s.notes) :
    ∃ a s', Done p s a s' ∧ Q a s' ∧ Assumed L.assume s'.notes := by
  induction p generalizing s with
  | ret a => exact ⟨a, s, .ret a s, h, ha⟩
  | undefined => exact absurd h hub
  | spin => exact h.elim
  | opens k ih =>
    obtain ⟨a, s', hd, hq⟩ := ih true (h s.file (L.rely_refl _ _)) ha
    exact ⟨a, s', hd.of_step rfl, hq⟩
  | lseek pos k ih =>
    obtain ⟨hb, hw⟩ := h s.file (L.rely_refl _ _)
    obtain ⟨a, s', hd, hq⟩ := ih (hw (hb ht)) ha
    exact ⟨a, s', hd.of_step (by simp only [step]; rw [if_pos (hb ht)]), hq⟩
  | read n k ih =>
    obtain ⟨a, s', hd, hq⟩ := ih _ (h s.file (L.rely_refl _ _)) ha
    exact ⟨a, s', hd.of_step rfl, hq⟩
  | write bs k ih =>
    obtain ⟨hb, -, hw⟩ := h s.file (L.rely_refl _ _)
    obtain ⟨a, s', hd, hq⟩ := ih _ (hw (hb ht)) ha
    exact ⟨a, s', hd.of_step (by simp only [step]; rw [if_pos (hb ht)]), hq⟩
  | note e k ih =>
    obtain ⟨a, s', hd, hq⟩ := ih (h.2 (h.1 ht)) ⟨h.1 ht, ha⟩
    exact ⟨a, s', hd.of_step rfl, hq⟩

end

/-! ## What a program records -/

/-- Every event that the program can record is one of `A`. -/
def Prog.Records (A : ε → Prop) : Prog ε α → Prop
  | .ret _ => True
  | .undefined => True
  | .spin => True
  | .opens k => ∀ r, (k r).Records A
  | .lseek _ k => k.Records A
  | .read _ k => ∀ r, (k r).Records A
  | .write _ k => ∀ r, (k r).Records A
  | .note e k => A e ∧ k.Records A

theorem Prog.Records.bind {A : ε → Prop} {p : Prog ε α} {f : α → Prog ε β} (h : p.Records A)
    (hf : ∀ a, (f a).Records A) : (p.bind f).Records A := by
  induction p with
  | ret a => exact hf a
  | undefined => trivial
  | spin => trivial
  | opens k ih => exact fun r => ih r (h r)
  | lseek pos k ih => exact ih h
  | read n k ih => exact fun r => ih r (h r)
  | write bs k ih => exact fun r => ih r (h r)
  | note e k ih => exact ⟨h.1, ih h.2⟩

/-- A property of the history that every event of `A` keeps. -/
theorem wp_records {L : Logic ε} {A : ε → Prop} {K : List ε → Prop} (hK : ∀ past e, A e → K past → K (e :: past))
    {p : Prog ε α} {Q : α → Os ε → Prop} {s : Os ε} (hp : p.Records A) (h : wp L p Q s) :
    wp L p (fun a s' => Q a s' ∧ (K s.notes → K s'.notes)) s := by
  suffices hall : ∀ (past : List ε) (s : Os ε), (K past → K s.notes) → wp L p Q s →
      wp L p (fun a s' => Q a s' ∧ (K past → K s'.notes)) s from hall _ s id h
  clear h
  intro past s hs h
  induction p generalizing s with
  | ret a => exact ⟨h, hs⟩
  | undefined => exact h
  | spin => exact h
  | opens k ih => exact fun f hf => ih _ (hp _) _ hs (h f hf)
  | lseek pos k ih => exact fun f hf => ⟨(h f hf).1, fun hpos => ih hp _ hs ((h f hf).2 hpos)⟩
  | read n k ih => exact fun f hf => ih _ (hp _) _ hs (h f hf)
  | write bs k ih => exact fun f hf => ⟨(h f hf).1, (h f hf).2.1, fun hpos => ih _ (hp _) _ hs ((h f hf).2.2 hpos)⟩
  | note e k ih => exact ⟨h.1, fun ha => ih hp.2 _ (fun hpast => hK _ _ hp.1 (hs hpast)) (h.2 ha)⟩
