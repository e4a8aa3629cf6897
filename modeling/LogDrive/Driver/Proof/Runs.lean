import LogDrive.Driver.Proof.Sessions
import LogDrive.Driver.Proof.BioCoherent

/-!
# From the levels to runs

`driverLogic n` is the mode for runs in which every `bio_read` inside a logged entry returned the
entry's bytes (`Assumed Coherent`): it meets no undefined behaviour and every write keeps the
guarantee. `totalLogic` gives runs (`exists_history`): where no request makes `bio_write` flush,
there is a run in which all calls succeed, no read is stale and every read is coherent. `quietLogic` is
for a process that only reads.
-/

set_option autoImplicit false

open Bytes

namespace LogDrive

/-- No `bio_read` is served stale bytes. -/
def NoStale : Event → Prop
  | .fetched _ _ stale => stale = false
  | _ => True

def driverLogic (n : Nat) : Logic Event where
  rely _ f f' := f' = f
  rely_refl _ _ := rfl
  assume := Coherent
  allow := Guarantee n
  ub := False
  total := False

def totalLogic : Logic Event where
  rely _ f f' := f' = f
  rely_refl _ _ := rfl
  assume past e := Coherent past e ∧ NoStale e
  allow _ _ := True
  ub := False
  total := True

theorem driver_mode (n : Nat) : Mode (driverLogic n) True where
  alone _ _ _ h := h
  safe := .inr trivial
  trusts _ _ _ _ h := h
  sure h := h.elim

theorem total_mode : Mode totalLogic True where
  alone _ _ _ h := h
  safe := .inr trivial
  trusts _ _ _ _ h := h.1
  sure _ past e h hne := ⟨h, by
    cases e with
    | fetched pos bytes stale =>
      cases stale with
      | false => rfl
      | true => exact absurd rfl (hne pos bytes)
    | _ => trivial⟩

theorem bio_mode : Mode bioLogic False where
  alone _ _ _ h := h
  safe := .inl trivial
  trusts h := h.elim
  sure h := h.elim

/-- What a run of `p` in which reads are coherent ends in. -/
theorem driver_done {n : Nat} {α : Type} {p : Prog Event α} {Q : α → Os Event → Prop} {s s' : Os Event}
    {a : α} (h : wp (driverLogic n) p Q s) (hd : Done p s a s') (hc : Assumed Coherent s'.notes) : Q a s' :=
  wp_done h hd hc

theorem assumed_of_total {notes : List Event} (h : Assumed totalLogic.assume notes) :
    Assumed Coherent notes ∧ Assumed (fun _ => NoStale) notes :=
  ⟨h.mono fun _ _ ha => ha.1, h.mono fun _ _ ha => ha.2⟩

/-- A program that is total from `s` on has a run. -/
theorem exists_done {α : Type} {p : Prog Event α} {Q : α → Os Event → Prop} {s : Os Event}
    (h : wp totalLogic p Q s) (ha : Assumed totalLogic.assume s.notes) :
    ∃ a s', Done p s a s' ∧ Q a s' ∧ Assumed totalLogic.assume s'.notes :=
  wp_total trivial id h ha

/-- The mode for a process that only reads: nothing is taken for granted and nothing may be written. -/
def quietLogic : Logic Event where
  rely _ f f' := f' = f
  rely_refl _ _ := rfl
  assume _ _ := True
  allow _ _ := False
  ub := False
  total := True

theorem quiet_alone : quietLogic.Alone := fun _ _ _ h => h

theorem quiet_assumed : ∀ notes : List Event, Assumed quietLogic.assume notes
  | [] => trivial
  | _ :: past => ⟨trivial, quiet_assumed past⟩

theorem quiet_exists {α : Type} {p : Prog Event α} {Q : α → Os Event → Prop} {s : Os Event}
    (h : wp quietLogic p Q s) : ∃ a s', Done p s a s' ∧ Q a s' := by
  obtain ⟨a, s', hd, hq, -⟩ := wp_total trivial id h (quiet_assumed _)
  exact ⟨a, s', hd, hq⟩

section
variable {n : Nat} (hn : n < 2 ^ 31) {past : List Session} {S : Session}
variable (hpast : ∀ S' ∈ past, ∀ req ∈ S'.requests, req.Inside n)
variable (hreqs : ∀ req ∈ S.requests, req.Inside n)
include hn hpast hreqs

/-- The state of a session on a database laid out by `mkimage.rb`, after any requests and any earlier
sessions. -/
theorem history_inv {replies : List Reply} {d : PreservationDisk} {s : Os Event}
    (hd : Done (history past S) (newDatabase n) (some (replies, d)) s) (hc : Assumed Coherent s.notes) :
    ∃ N new old earlier, LogInv n N old d s (new ++ old) ∧
      ServeRun True [] (past.flatMap Session.requests) earlier old ∧
      ServeRun True old S.requests replies (new ++ old) := by
  have h := wp_history (driver_mode n) hn (fun _ _ h => h) (newDatabase_inv hn) hpast hreqs
    [] fun h => h.elim
  obtain ⟨replies', d', N, new, old, earlier, heq, hI, h1, h2, -⟩ := driver_done h hd hc
  simp only [Option.some.injEq, Prod.mk.injEq] at heq
  obtain ⟨rfl, rfl⟩ := heq
  exact ⟨N, new, old, earlier, hI, h1, h2⟩

/-- Such a state is reached where the requests fit into the write buffers. -/
theorem exists_history (more : List Request)
    (haff : AffordableAll True [] (past ++ [⟨S.junk, S.requests ++ more⟩])) (hlen : past.length < 2 ^ 32) :
    ∃ replies d s N new old, Done (history past S) (newDatabase n) (some (replies, d)) s ∧
      LogInv n N old d s (new ++ old) ∧ Calm d s (new ++ old) ∧
      Affordable True d.bio.bufferPos (new ++ old) more ∧
      d.bio.nextOffset ≤ 2 ^ 35 + past.length * 2 ^ 20 ∧ Assumed totalLogic.assume s.notes := by
  have hl := logStart_bounds n
  have h := wp_history total_mode hn (fun _ _ _ => trivial) (newDatabase_inv hn) hpast hreqs
    more fun _ => ⟨nofun, haff, by simp only [offMax]; omega⟩
  obtain ⟨_, s, hd, ⟨replies, d, N, new, old, earlier, rfl, hI, -, -, -, hcalm⟩, ha⟩ := exists_done h trivial
  obtain ⟨hc, hmore, hnext, hN⟩ := hcalm trivial
  exact ⟨replies, d, s, N, new, old, hd, hI, hc, hmore, by omega, ha⟩

end

/-! ## Histories that fit -/

/-- A write within one block needs room for one version. -/
theorem affordable_write {pos k : Nat} {recs : List Rec} {q : WriteRequest} {reqs : List Request}
    (hq : ∀ b, q.Touches b → b = k) (hpos : pos + 4128 ≤ bufferSize)
    (hrest : ∀ recs', Affordable True (pos + 4128) recs' reqs) :
    Affordable True pos recs (.write q :: reqs) :=
  ⟨{k}, by rw [Finset.card_singleton]; omega, fun b ht hn => absurd (Finset.mem_singleton.2 (hq b ht)) hn,
    fun recs' _ => by rw [Finset.card_singleton]; exact hrest recs'⟩

/-- One sector of ones, written to the first sector at second 1. -/
def smallWrite : WriteRequest where
  sec := 0
  secs := 1
  buf _ := 1
  ts := ⟨1, 0⟩
  pad _ := 0

def smallSession : Session := ⟨zeroJunk, [.write smallWrite]⟩

theorem smallWrite_inside : smallWrite.toTdRequest.Inside 1 := ⟨by decide, by decide⟩

theorem smallWrite_touches {b : Nat} (h : smallWrite.Touches b) : b = 0 := by
  have := h.2.2
  simp only [smallWrite] at this
  omega

theorem smallSession_inside : ∀ req ∈ smallSession.requests, req.Inside 1 := fun req hr => by
  rcases List.mem_singleton.1 hr with rfl
  exact smallWrite_inside

theorem small_affordable (recs : List Rec) : Affordable True 0 recs smallSession.requests :=
  affordable_write (fun _ => smallWrite_touches) (by rw [bufferSize_eq]; decide) fun _ => trivial

/-- The small request at second `t`. -/
def smallWriteAt (t : Int64) : WriteRequest := { smallWrite with ts := ⟨t, 0⟩ }

def smallSessionAt (t : Int64) : Session := ⟨zeroJunk, [.write (smallWriteAt t)]⟩

theorem smallSessionAt_inside (t : Int64) : ∀ req ∈ (smallSessionAt t).requests, req.Inside 1 := fun req hr => by
  rcases List.mem_singleton.1 hr with rfl
  exact smallWrite_inside

theorem smallAt_affordable (t : Int64) (recs : List Rec) : Affordable True 0 recs (smallSessionAt t).requests :=
  affordable_write (fun _ => smallWrite_touches) (by rw [bufferSize_eq]; decide) fun _ => trivial

/-- A write that sets a byte of a block puts a version in front. -/
theorem WriteStep.pushes {q : WriteRequest} {recs recs' : List Rec} {b p : Nat} (h : WriteStep True q recs recs')
    (ht : q.Touches b) (hp : p < 4096) (hset : ∀ old, q.patch b old p ≠ 0) :
    (chainOf recs' b).length = (chainOf recs b).length + 1 := by
  have hstep := h.touched b ht
  generalize chainOf recs b = vs at hstep
  generalize chainOf recs' b = vs' at hstep
  cases hstep with
  | skip hz => exact absurd (hz p hp) (hset _)
  | push => rfl

theorem small_pushes {t : Int64} {recs recs' : List Rec} (h : WriteStep True (smallWriteAt t) recs recs') :
    (chainOf recs' 0).length = (chainOf recs 0).length + 1 := by
  refine h.pushes (p := 0) ⟨Nat.zero_lt_one, Nat.zero_lt_succ _, Nat.zero_lt_one⟩ (by decide) fun old => ?_
  rw [TdRequest.patch, if_pos ⟨Nat.le_refl _, Nat.zero_lt_one⟩]
  exact show (1 : UInt8) ≠ 0 by decide

/-- A small session on a database runs to its end and logs one version. -/
theorem small_session (t : Int64) {N : Nat} {recs : List Rec} {s : Os Event} (hf : FileInv 1 N recs s.file)
    (hfull : Full s recs) (ha : Assumed totalLogic.assume s.notes) (hN : N + 2 ^ 20 ≤ offMax) :
    ∃ m r s' N' recs', runOk m ((smallSessionAt t).run, s) = some (.ret r, s') ∧ FileInv 1 N' recs' s'.file ∧
      Full s' recs' ∧ Assumed totalLogic.assume s'.notes ∧ N' ≤ N + 2 ^ 20 ∧
      (chainOf recs' 0).length = (chainOf recs 0).length + 1 := by
  have h := wp_session total_mode (by decide) (fun _ _ _ => trivial) hf (smallSessionAt_inside t) fun _ =>
    ⟨hfull, smallAt_affordable t recs, hN⟩
  obtain ⟨r, s', ⟨m, hr⟩, ⟨replies, N', new, -, hf', hR, -, htotal⟩, ha'⟩ := exists_done h ha
  refine ⟨m, _, s', N', _, hr, hf', (htotal trivial).1, ha', (htotal trivial).2, ?_⟩
  cases hR with
  | cons hs hrest =>
    cases hrest
    cases hs with
    | write hw => exact small_pushes hw

end LogDrive
