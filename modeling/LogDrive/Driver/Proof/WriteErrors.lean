import LogDrive.Driver.Proof.Refinement
import LogDrive.Driver.Proof.ReadErrors

/-!
# Errors of `write`

`bio_flush` and `pd_finalize` do not look at the result of `write`: where it fails `next_offset` moves all the
same (`bioFlush_failed`), and every `pd_write` and the close return 0 (`Session.run_silent`). So a write that
was acknowledged can be lost (`acknowledged_lost`). Where every `write` succeeds nothing is lost
(`acknowledged_kept`).
-/

set_option autoImplicit false

open Bytes

namespace LogDrive

open SectorArray

/-- The sessions in sequence, with what each of them returned. -/
def lifetime : List Session → Prog Event (List (Option (List Reply × Int)))
  | [] => pure []
  | S :: rest => do
    let out ← S.run
    let outs ← lifetime rest
    pure (out :: outs)

/-- Every `pd_write` and every close has returned 0. -/
def Acknowledged (outs : List (Option (List Reply × Int))) : Prop :=
  ∀ out ∈ outs, ∃ replies, out = some (replies, 0) ∧ ∀ r, .wrote r ∈ replies → r = 0

/-- A session that opens the file reads the sectors of `A`. -/
def ReopensAs (n : Nat) (file : Mem) (A : SectorArray) : Prop :=
  ∀ (J : Junk) (reads : List TdRequest), (∀ treq ∈ reads, treq.Readable n) →
    ∃ d s, Done (Session.work ⟨J, reads.map .read⟩) ⟨file, 0, []⟩
      (some (reads.map fun treq => .got 0 (A.read treq), d)) s

/-- What has been logged below `next` is in the file. -/
def LogInFile (next : Nat) (s : Os Event) : Prop :=
  ∀ e, Logged s.notes e → e.off < next → e.stop ≤ s.file.length ∧ Holds (byteAt s.file) e.off e.bytes

/-- No `bio_read` inside a logged entry is stale. -/
def NoneStale (past : List Event) : Event → Prop
  | .fetched pos bytes true => ∀ e, Logged past e → ¬e.Covers pos bytes.length
  | _ => True

/-- No write of the sessions is lost silently. -/
structure NothingLost (n : Nat) (Ss : List Session) (outs : List (Option (List Reply × Int))) (s : Os Event) :
    Prop where
  kept : Acknowledged outs → ReopensAs n s.file (after (writes [] (Ss.flatMap Session.requests)))
  reached : LogInFile (fileNext s.file) s

theorem runSessions_eq (Ss : List Session) : runSessions Ss =
    (lifetime Ss).bind fun outs => .ret (outs.flatMap fun out => (out.map Prod.fst).getD []) := by
  induction Ss with
  | nil => rfl
  | cons S rest ih =>
    simp only [runSessions, lifetime, Prog.bind_eq, Prog.pure_eq, Prog.bind_assoc, Prog.ret_bind, ih,
      List.flatMap_cons]

/-! ## Opening the file again -/

theorem affordable_reads {T : Prop} {pos : Nat} {recs : List Rec} (reads : List TdRequest) :
    Affordable T pos recs (reads.map .read ++ []) := by
  induction reads with
  | nil => trivial
  | cons treq reads ih => exact ih

theorem FileInv.reopensAs {n N : Nat} {recs : List Rec} {f : Mem} (hn : n < 2 ^ 31) (hf : FileInv n N recs f)
    {ws : List WriteRequest} (hm : Models ws recs) : ReopensAs n f (after ws) := by
  intro J reads hreads
  have hreq : ∀ req ∈ reads.map Request.read, req.Inside n ∧ req.Fits := fun req hreq => by
    obtain ⟨treq, ht, rfl⟩ := List.mem_map.1 hreq
    exact ⟨hreads treq ht, trivial⟩
  have h := wp_work total_mode hn (fun _ _ _ _ _ _ => trivial) (s := ⟨f, 0, []⟩) hf
    (S := ⟨J, reads.map .read⟩) (fun req hr => (hreq req hr).1) [] fun _ => ⟨nofun, affordable_reads reads⟩
  obtain ⟨_, s, hd, ⟨rs, d, new, rfl, -, hR, -⟩, -⟩ := exists_done h trivial
  have hrs : rs = reads.map fun treq => .got 0 ((after ws).read treq) := by
    rw [hR.replies_eq hm fun req hr => (hreq req hr).2]
    exact replies_reads ws reads
  exact ⟨d, s, hrs ▸ hd⟩

/-! ## The log in the file -/

theorem LogInv.logInFile {n N : Nat} {old recs : List Rec} {d : PreservationDisk} {s : Os Event}
    (hI : LogInv n N old d s recs) (hfull : Full s recs) : LogInFile d.bio.nextOffset s := by
  intro e he hlt
  have hm := hfull e he
  have hstop : e.stop ≤ d.bio.nextOffset := (hI.bio.side e hm).resolve_right (by omega)
  refine ⟨hI.bio.inFile e hm hstop, (hI.bio.holds e hm).congr fun i _ hi => ?_⟩
  rw [Entry.stop] at hstop
  exact (if_pos (show i < d.bio.nextOffset by omega)).symm

theorem FileInv.logInFile {n N : Nat} {recs : List Rec} {s : Os Event} (hf : FileInv n N recs s.file)
    (hfull : Full s recs) : LogInFile (fileNext s.file) s :=
  fun e he _ => (hf.entryStop (hfull e he)).2

/-! ## Where every write succeeds -/

/-- The mode for runs in which no read inside an entry is stale. -/
def freshLogic (n : Nat) : Logic Event := { driverLogic n with assume := NoneStale }

theorem fresh_mode (n : Nat) : Mode (freshLogic n) True where
  alone _ _ _ h := h
  safe := .inr trivial
  trusts _ _ _ _ h := fun e he hcov => absurd hcov (h e he)
  sure h := h.elim

theorem noneStale_of_total {notes : List Event} (h : Assumed totalLogic.assume notes) : Assumed NoneStale notes :=
  h.mono fun past e ha => by
    cases e with
    | fetched pos bytes stale =>
      cases stale with
      | false => trivial
      | true => cases show true = false from ha.2
    | _ => trivial

/-- **No acknowledged write is lost silently** in a run in which every `write` succeeds: of whole sessions, and
of a session that is still open. -/
theorem acknowledged_kept {n : Nat} (hn : n < 2 ^ 31) {Ss : List Session}
    (hSs : ∀ S ∈ Ss, ∀ req ∈ S.requests, req.Inside n ∧ req.Fits) :
    (∀ os outs s, run os (lifetime Ss, newDatabase n) = some (.ret outs, s) →
      OnlyWritesFail os (lifetime Ss, newDatabase n) → ¬WriteFails os (lifetime Ss, newDatabase n) →
      Assumed NoneStale s.notes → NothingLost n Ss outs s) ∧
    (∀ (S : Session) os replies d s, (∀ req ∈ S.requests, req.Inside n) →
      run os (history Ss S, newDatabase n) = some (.ret (some (replies, d)), s) →
      OnlyWritesFail os (history Ss S, newDatabase n) → ¬WriteFails os (history Ss S, newDatabase n) →
      Assumed NoneStale s.notes → LogInFile d.bio.nextOffset s) := by
  have hin : ∀ S ∈ Ss, ∀ req ∈ S.requests, req.Inside n := fun S hS req hreq => (hSs S hS req hreq).1
  have hfits := requests_fit hSs
  refine ⟨fun os outs s hr ho hw hc => ?_, fun S os replies d s hS hr ho hw hc => ?_⟩
  · have hd := (Done.of_written hr ho hw).bind
      (f := fun outs => .ret (outs.flatMap fun out => (out.map Prod.fst).getD [])) (.ret _ s)
    rw [← runSessions_eq] at hd
    have h := wp_runSessions (fresh_mode n) hn (fun _ _ h => h) (newDatabase_inv hn) hin [] fun h => h.elim
    obtain ⟨N, new, hf, hR, hfull, -⟩ := wp_done h hd hc
    exact ⟨fun _ => hf.reopensAs hn (hR.models models_nil hfits), hf.logInFile (hfull nofun)⟩
  · have h := wp_history (fresh_mode n) hn (fun _ _ h => h) (newDatabase_inv hn) hin hS [] fun h => h.elim
    obtain ⟨_, _, N, new, old, _, heq, hI, -, -, hfull, -⟩ := wp_done h (Done.of_written hr ho hw) hc
    simp only [Option.some.injEq, Prod.mk.injEq] at heq
    obtain ⟨rfl, rfl⟩ := heq
    exact hI.logInFile (hfull nofun)

/-- One write, with all calls succeeding; and a second session of one write. -/
theorem acknowledged_kept_small : (∃ os outs s, run os (lifetime [smallSession], newDatabase 1) = some (.ret outs, s) ∧
      NothingLost 1 [smallSession] outs s) ∧
    ∃ os replies d s, run os (history [smallSession] smallSession, newDatabase 1) = some (.ret (some (replies, d)), s) ∧
      LogInFile d.bio.nextOffset s := by
  obtain ⟨hclosed, hopen⟩ := acknowledged_kept (by decide) smallSession_fits
  constructor
  · have h : wp totalLogic (lifetime [smallSession]) (fun _ _ => True) (newDatabase 1) :=
      wp_seq (wp_session total_mode (by decide) (fun _ _ _ => trivial) (newDatabase_inv (n := 1) (by decide))
        smallSession_inside fun _ => ⟨nofun, small_affordable _, by decide⟩) fun _ _ _ => trivial
    obtain ⟨outs, s, ⟨k, hk⟩, -, ha⟩ := exists_done h trivial
    exact ⟨_, outs, s, hk, hclosed _ outs s hk (onlyWritesFail_ok k _) (not_writeFails_ok k _) (noneStale_of_total ha)⟩
  · obtain ⟨replies, d, s, -, -, -, ⟨k, hk⟩, -, -, -, -, ha⟩ := exists_history (by decide)
      (fun S' hS' req hreq => (smallSession_fits S' hS' req hreq).1) smallSession_inside []
      ⟨small_affordable _, fun _ recs _ => ⟨by rw [List.append_nil]; exact small_affordable _, fun _ _ _ => trivial⟩⟩
      (by decide)
    exact ⟨_, replies, d, s, hk, hopen smallSession _ replies d s smallSession_inside hk (onlyWritesFail_ok k _)
      (not_writeFails_ok k _) (noneStale_of_total ha)⟩

/-! ## What the driver reports -/

theorem Request.serve_silent (J : Junk) (d : PreservationDisk) (req : Request) :
    (req.serve J d).Returns fun out => ∀ r, out.1 = .wrote r → r = 0 := by
  cases req with
  | write q =>
    refine Prog.Returns.bind (pdWriteLoop_returns ..) fun a ha => fun r hr => ?_
    cases hr
    exact ha
  | read treq => exact .bind_any fun a r hr => by cases hr

theorem serveAll_silent (J : Junk) (reqs : List Request) :
    ∀ d, (serveAll J d reqs).Returns fun out => ∀ r, .wrote r ∈ out.1 → r = 0 := by
  induction reqs with
  | nil => exact fun d => nofun
  | cons req reqs ih =>
    intro d
    refine Prog.Returns.bind (req.serve_silent J d) fun a ha => (ih a.2).bind fun b hb r hr => ?_
    rcases List.mem_cons.1 hr with heq | hm
    · exact ha r heq.symm
    · exact hb r hm

theorem Session.run_silent (S : Session) :
    S.run.Returns fun out => ∀ replies r, out = some (replies, r) → r = 0 ∧ ∀ r', .wrote r' ∈ replies → r' = 0 := by
  have hwork : S.work.Returns fun out => ∀ replies d, out = some (replies, d) → ∀ r, .wrote r ∈ replies → r = 0 := by
    refine .bind_any fun disk => ?_
    cases disk with
    | none => exact nofun
    | some d => exact (serveAll_silent S.junk S.requests d).bind fun a ha => fun _ _ heq => by cases heq; exact ha
  refine hwork.bind fun out hout => ?_
  cases out with
  | none => exact nofun
  | some out =>
    have hclose : (tdClose out.2).Returns fun r => r = 0 := .bind_any fun _ => rfl
    refine hclose.bind fun r hr => ?_
    rintro _ _ ⟨rfl, rfl⟩
    exact ⟨hr, hout _ _ rfl⟩

/-- **No write is refused**: whatever the system answers, a session that could open the file is acknowledged. -/
theorem lifetime_silent (Ss : List Session) :
    (lifetime Ss).Returns fun outs => (∀ out ∈ outs, out ≠ none) → Acknowledged outs := by
  induction Ss with
  | nil => exact fun _ => nofun
  | cons S rest ih =>
    refine S.run_silent.bind fun out hout => ih.bind fun outs houts hall => ?_
    intro o ho
    rcases List.mem_cons.1 ho with rfl | hm
    · obtain ⟨⟨replies, r⟩, rfl⟩ := Option.ne_none_iff_exists'.1 (hall o List.mem_cons_self)
      obtain ⟨rfl, hw⟩ := hout replies r rfl
      exact ⟨replies, rfl, hw⟩
    · exact houts (fun o' ho' => hall o' (List.mem_cons_of_mem _ ho')) o hm

/-! ## Where writes fail -/

/-- **A flush that fails** leaves the file as it was and moves `next_offset` past the buffer. -/
theorem bioFlush_failed {b : BufferedIo} {s : Os Event} {es : List Entry} (hI : BioInv b s.file es)
    (hb : b.nextOffset ≤ offMax) : ∃ b' s', Unwritten (bioFlush b) s b' s' ∧ s'.file = s.file ∧
      s'.notes = s.notes ∧ b'.bufferPos = 0 ∧ b.nextOffset + b.bufferPos ≤ b'.nextOffset := by
  have hpos := hI.posLe
  by_cases h0 : b.bufferPos = 0
  · have hnone : bioFlush b = .ret b := by
      unfold bioFlush
      rw [if_neg (by simp [hI.writable]), if_neg (by simp [h0])]
      rfl
    rw [hnone]
    exact ⟨b, s, .ret b s, rfl, rfl, h0, by omega⟩
  · have hr : roundUp b.bufferPos defaultSectorSize = (b.bufferPos + 511) / 512 * 512 := roundUp_bufferPos hpos
    rw [bufferSize_eq] at hpos
    have hnext : u64 (b.nextOffset + roundUp b.bufferPos defaultSectorSize) =
        b.nextOffset + roundUp b.bufferPos defaultSectorSize :=
      u64_of_lt (by rw [hr]; simp only [offMax] at hb; omega)
    rw [bioFlush_pending b hI.writable h0 (by rw [hr, hI.bufLen, bufferSize_eq]; omega)]
    refine ⟨_, _, .lseek hb (.write_fails (.ret _ _)), rfl, rfl, rfl, ?_⟩
    show _ ≤ u64 _
    omega

section
variable {n N : Nat} {old recs : List Rec} {d : PreservationDisk} {s : Os Event}

/-- Closing while every `write` fails leaves the file as it was. -/
theorem tdClose_failed (hn : n < 2 ^ 31) (hI : LogInv n N old d s recs) : ∃ s', Unwritten (tdClose d) s 0 s' ∧
    s'.file = s.file ∧ s'.notes = .closed :: .indexing d.indexTable :: .finalizing :: s.notes := by
  obtain ⟨bio, s2, hflush, hfile, hnotes, -⟩ :=
    bioFlush_failed (s := { s with notes := .finalizing :: s.notes }) hI.bio hI.bound
  have htb := tableBytes_bounds n
  have hlen : (encodeIndex d.indexTable).length = tableBytes n := by
    rw [length_encodeIndex, hI.tableLen]; omega
  refine ⟨{ s2 with pos := 512, notes := .closed :: .indexing d.indexTable :: s2.notes }, ?_, hfile,
    congrArg (fun notes => .closed :: .indexing d.indexTable :: notes) hnotes⟩
  simp only [tdClose, pdFinalize, bioFinalize, Prog.bind_eq, Prog.pure_eq, Prog.mark_bind, Prog.bind_assoc,
    Prog.bind]
  refine .note (hflush.bind ?_)
  rw [if_neg (by simp [hI.writable]), if_neg (by rw [hI.header.blockSize]; decide)]
  simp only [Prog.sysLseek_bind, Prog.sysWrite_bind, Prog.bind]
  refine .lseek (Nat.zero_le _) (.write_fails (.lseek (by decide) (.note ?_)))
  rw [hI.header.indexTableSize hn, copyFrom, if_pos (by omega)]
  exact .write_fails (.note (.ret 0 _))

end

/-- **A write that is lost**: it is acknowledged, and so is the close, but no `write` succeeds and the file is
still empty. -/
theorem acknowledged_lost : (∀ req ∈ smallSession.requests, req.Inside 1 ∧ req.Fits) ∧ ∃ os outs s,
    run os (lifetime [smallSession], newDatabase 1) = some (.ret outs, s) ∧
    OnlyWritesFail os (lifetime [smallSession], newDatabase 1) ∧ Assumed NoneStale s.notes ∧ Acknowledged outs ∧
    ¬NothingLost 1 [smallSession] outs s := by
  have hinv := newDatabase_inv (n := 1) (by decide)
  obtain ⟨_, s, hd, ⟨replies, d, new, rfl, hI, -, -, -⟩, ha⟩ := exists_done (wp_work total_mode (by decide)
    (fun _ _ _ _ _ _ => trivial) hinv smallSession_inside [] fun _ => ⟨nofun, small_affordable _⟩) trivial
  obtain ⟨s', hclose, hfile, hnotes⟩ := tdClose_failed (by decide) hI
  have hrun : Unwritten (lifetime [smallSession]) (newDatabase 1) [some (replies, 0)] s' := by
    have hwork := Unwritten.of_done hd
    have hsession : Unwritten smallSession.run (newDatabase 1) (some (replies, 0)) s' :=
      hwork.bind (hclose.bind (.ret _ _))
    exact hsession.bind (.ret _ _)
  obtain ⟨os, hr, ho⟩ := hrun
  have hack : Acknowledged [some (replies, 0)] := (lifetime_silent _).of_run hr (by simp)
  refine ⟨smallSession_fits _ (List.mem_singleton_self _), os, _, s', hr, ho, ?_, hack, fun hkept => ?_⟩
  · rw [hnotes]
    exact ⟨trivial, trivial, trivial, noneStale_of_total ha⟩
  · -- the file still gives zeros
    have hreads : ∀ treq ∈ [smallWrite.toTdRequest], treq.Readable 1 := fun treq ht => by
      rcases List.mem_singleton.1 ht with rfl
      exact ⟨smallWrite_inside, .inr (by decide)⟩
    have hold : ReopensAs 1 s'.file (after []) := by
      rw [hfile]
      exact hI.file.reopensAs (by decide) models_nil
    obtain ⟨d1, r1, h1⟩ := hold zeroJunk _ hreads
    obtain ⟨d2, r2, h2⟩ := hkept.kept hack zeroJunk _ hreads
    have heq := (h1.unique h2).1
    simp only [Option.some.injEq, Prod.mk.injEq, List.map_cons, List.cons.injEq, Reply.got.injEq] at heq
    have hbyte := congrArg (byteAt · 0) heq.1.1.2
    simp only [SectorArray.read] at hbyte
    rw [byteAt_tabulate (by decide), byteAt_tabulate (by decide)] at hbyte
    exact absurd hbyte (by decide)

end LogDrive
