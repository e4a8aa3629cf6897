import LogDrive.Lib.Crowd
import LogDrive.Driver.Proof.Past

/-!
# Any number of time-travel sessions beside the writer

Sessions that log and any family of whole time-travel sessions, each with a time of its own, work on one
file; each of them opens the file when it likes. Every journey that has ended returned what it returns alone
on a file that the run has passed through, none is ever stuck, and the sessions that log end as they do
alone (`crowd_isolated`). As for one reader, no session is in `pd_finalize` while a journey is between its
reads of header and index (`Apart`).
-/

set_option autoImplicit false

open Bytes

namespace LogDrive

variable {n N : Nat} {recs : List Rec}

/-- The mode of the sessions that log: each write keeps the guarantee, and nothing is taken for granted of reads. -/
abbrev loggingLogic (n : Nat) : Logic Event := bioLogic.allowing (Guarantee n)

theorem logging_reader (n : Nat) : Compatible (loggingLogic n) (readerLogic n) Apart :=
  guarantee_reader (bio_mode.allowing (Guarantee n)).alone fun _ _ h => h

/-- What a journey returned: it has read the records of a database that was seen. -/
def ShowsSeen (n : Nat) (Seen : Mem → Prop) (V : Travel) (out : Option (List Reply × Int)) : Prop :=
  ∃ N recs f, FileInv n N recs f ∧ Seen f ∧ out = some (V.reads.map (asOfReply V.ts recs), 0)

theorem Kept.seeing {f : Mem} (h : Kept n N recs f) (Seen : Mem → Prop) :
    Snapshot ((readerLogic n).seeing Seen) n N recs (fun s => Kept n N recs s.file) :=
  h.snapshot (fun _ _ _ hK hr => hK.logging (hr.1 hK.database)) fun _ _ => trivial

/-- **A whole time-travel session** while others log. -/
theorem wp_journeySeeing (hn : n < 2 ^ 31) {Seen : Mem → Prop} {s : Os Event} (hf : FileInv n N recs s.file)
    (hseen : Seen s.file) {V : Travel} (hreads : ∀ treq ∈ V.reads, treq.Readable n) (hfuel : offMax ≤ V.fuel) :
    wp ((readerLogic n).seeing Seen) V.run (fun out _ => ShowsSeen n Seen V out) s := by
  unfold Travel.run pdInitializeReadOnly
  simp only [Prog.bind_eq, Prog.bind_assoc]
  refine wp_seq (wp_openShared (D := fun N recs f => FileInv n N recs f ∧ Seen f) hn (fun _ _ _ h => h.1) ?_ ?_
    (fun _ _ => ⟨trivial, trivial⟩) ⟨hf, hseen⟩) ?_
  · rintro N recs f f' ⟨h, hs⟩ ⟨hr, hs'⟩
    obtain ⟨N', recs', h'⟩ := (hr ⟨N, recs, h⟩).database
    exact ⟨N', recs', h', hs' hs⟩
  · rintro N recs f f' ⟨h, hs⟩ ⟨hr, hs'⟩
    obtain ⟨h1, h2⟩ := h.between (show Between (.headerRead :: s.notes) from trivial) hr
    exact ⟨⟨h1, hs' hs⟩, h2⟩
  rintro _ s1 ⟨-, N1, recs1, ⟨hf1, hseen1⟩, d, rfl, ho⟩
  simp only [Prog.pure_eq, Prog.ret_bind, Option.map_some]
  have hK := hf1.kept
  have hbound := hf1.bound
  refine wp_seq (wp_readAll (hK.seeing Seen) hn hreads (fun b => by have := hK.chain_fuel b; omega)
    (ho.travelling hf1 hn V.ts) hK) ?_
  rintro ⟨replies, d'⟩ s2 ⟨rfl, hT, hK2⟩
  simp only [tdClose_readOnly hT.readOnly hT.bio.readOnly, Prog.bind]
  exact ⟨fun _ => trivial, fun _ => ⟨fun _ => trivial, fun _ => ⟨N1, recs1, s1.file, hf1, hseen1, rfl⟩⟩⟩

section
variable {ι : Type} [DecidableEq ι] (hn : n < 2 ^ 31) {Ss : List Session} {V : ι → Travel}

/-- The start: nobody has opened the file. -/
def crowdStart (n : Nat) (Ss : List Session) (V : ι → Travel) : Crowd ι Event (List Reply) (Option (List Reply × Int)) where
  writer := settle (runSessions Ss) (newDatabase n)
  readers i := settle (V i).run (newDatabase n)

variable (hreqs : ∀ S ∈ Ss, ∀ req ∈ S.requests, req.Inside n)
variable (hreads : ∀ i, ∀ treq ∈ (V i).reads, treq.Readable n) (hfuel : ∀ i, offMax ≤ (V i).fuel)
include hn hreqs hreads hfuel

omit [DecidableEq ι] in
theorem crowdStart_fit {Seen : Mem → Prop} (hseen : Seen (newDatabase n).file) :
    (crowdStart n Ss V).Fit (loggingLogic n) ((readerLogic n).seeing Seen) (fun _ _ => True)
      (fun i out _ => ShowsSeen n Seen (V i) out) where
  file i := by rw [crowdStart, settle_file, settle_file]
  settled i := settle_settled _ _
  writer := wp_settle (wp_mono (wp_runSessions (bio_mode.allowing (Guarantee n)) hn (fun _ _ h => h) (newDatabase_inv hn)
    hreqs [] fun h => h.elim) fun _ _ _ => trivial) (bio_assumed _ _)
  reader i := wp_settle (wp_journeySeeing hn (newDatabase_inv hn) hseen (hreads i) (hfuel i))
    (.of_forall (fun _ _ => trivial) _)

/-- **Any number of journeys beside the writer.** -/
theorem crowd_isolated {C : Crowd ι Event (List Reply) (Option (List Reply × Int))}
    (hr : CrowdRun Apart (crowdStart n Ss V) C) :
    (∀ i, (∃ out, (C.readers i).1 = .ret out ∧ ∃ C1, CrowdRun Apart (crowdStart n Ss V) C1 ∧ CrowdRun Apart C1 C ∧
        ∃ s', Done (V i).run ((newDatabase n).put C1.writer.2.file) out s') ∨
      ∃ c, turn (C.readers i) = some c) ∧
    ∀ replies, C.writer.1 = .ret replies → Done (runSessions Ss) (newDatabase n) replies C.writer.2 := by
  have hfree : ∀ past e, (readerLogic n).assume past e := fun _ _ => trivial
  have hc := bio_assumed (Guarantee n) C.writer.2.notes
  refine ⟨fun i => ?_, fun replies hret => ?_⟩
  · -- a file counts as seen when the run passes through it
    have h0 : (crowdStart n Ss V).Fit (loggingLogic n) ((readerLogic n).seeing (Passed Apart (crowdStart n Ss V) C))
        (fun _ _ => True) (fun i out _ => ShowsSeen n (Passed Apart (crowdStart n Ss V) C) (V i) out) :=
      crowdStart_fit hn hreqs hreads hfuel ⟨_, .refl _, hr, settle_file _ _⟩
    have hF := h0.run (logging_reader n) hfree (fun _ _ _ _ h _ => h) hr (.refl C) (fun _ h => h) hc
    rcases (hF.duo i).reader_moves trivial id with ⟨out, hret, N, recs, f, hf, ⟨C1, h1, h2, rfl⟩, rfl⟩ | hmoves
    · obtain ⟨s', hd, -⟩ := FileInv.journey hn (s := (newDatabase n).put C1.writer.2.file) hf (hreads i) (hfuel i)
      exact .inl ⟨_, hret, C1, h1, h2, s', hd⟩
    · exact .inr hmoves
  · have h0 : (crowdStart n Ss V).Fit (loggingLogic n) ((readerLogic n).seeing fun _ => True) (fun _ _ => True)
        (fun i out _ => ShowsSeen n (fun _ => True) (V i) out) := crowdStart_fit hn hreqs hreads hfuel trivial
    obtain ⟨k, hk⟩ := h0.writer_alone (logging_reader n) hfree (fun _ _ _ _ h _ => h) hr hc
    obtain ⟨m, hm⟩ := settle_run (runSessions Ss) (newDatabase n)
    refine ⟨m + k, ?_⟩
    have hwriter : C.writer = (.ret replies, C.writer.2) := by rw [← hret]
    rw [runOk_add, hm, ← hwriter]
    exact hk

end

/-- Two journeys beside the small session, of which one is made after it. -/
theorem crowd_isolated_small : ∃ (V : Bool → Travel) (C : Crowd Bool Event (List Reply) (Option (List Reply × Int)))
    (replies : List Reply) (out : Option (List Reply × Int)), CrowdRun Apart (crowdStart 1 [smallSession] V) C ∧
    C.writer.1 = .ret replies ∧ (C.readers true).1 = .ret out ∧
    ∃ C1, CrowdRun Apart (crowdStart 1 [smallSession] V) C1 ∧ CrowdRun Apart C1 C ∧
      ∃ s', Done (V true).run ((newDatabase 1).put C1.writer.2.file) out s' := by
  have hreqs : ∀ S ∈ [smallSession], ∀ req ∈ S.requests, req.Inside 1 := fun S hS => by
    rcases List.mem_singleton.1 hS with rfl
    exact smallSession_inside
  have hreads : ∀ treq ∈ [smallWrite.toTdRequest], treq.Readable 1 := fun treq ht => by
    rcases List.mem_singleton.1 ht with rfl
    exact ⟨smallWrite_inside, .inr (by decide)⟩
  have h := wp_runSessions total_mode (by decide) (fun _ _ _ => trivial) (newDatabase_inv (n := 1) (by decide)) hreqs []
    fun _ => ⟨nofun, ⟨small_affordable _, fun _ _ _ => trivial⟩, by decide⟩
  obtain ⟨replies, s, ⟨k, hk⟩, ⟨N, new, hf, -⟩, -⟩ := exists_done h trivial
  generalize hV : (⟨zeroJunk, ⟨2, 0⟩, offMax, [smallWrite.toTdRequest]⟩ : Travel) = V
  have hVreads : ∀ treq ∈ V.reads, treq.Readable 1 := by rw [← hV]; exact hreads
  have hVfuel : offMax ≤ V.fuel := by rw [← hV]
  have hset : V.run.Settled := by rw [← hV]; trivial
  -- the session, then one of the journeys
  have hwrites : CrowdRun Apart (crowdStart 1 [smallSession] fun _ : Bool => V)
      ((crowdStart 1 [smallSession] fun _ : Bool => V).write (settle (.ret replies) s)) := by
    refine .writes rfl (fun i => settle_file _ _) (fun past i => ?_) hk
    simp only [crowdStart, settle_of_settled hset]
    exact fun _ hb => hb
  obtain ⟨s2, ⟨m, hm⟩, hfile2⟩ := FileInv.journey (by decide) (s := (newDatabase 1).put s.file) hf hVreads hVfuel
  have hreader : ((crowdStart 1 [smallSession] fun _ : Bool => V).write (settle (.ret replies) s)).readers true =
      settle V.run ((newDatabase 1).put s.file) := by
    simp only [Crowd.write, crowdStart, settle_of_settled hset]
    rfl
  have hall := hwrites.trans (.reads hreader rfl (fun _ => rfl) hm)
  have hwriter : (((crowdStart 1 [smallSession] fun _ : Bool => V).write (settle (.ret replies) s)).after true
      (settle (.ret (some (V.reads.map (asOfReply V.ts (new ++ [])), 0))) s2)).writer = (.ret replies, s) := by
    simp only [Crowd.after, Crowd.write, settle, hfile2]
  obtain ⟨hend, -⟩ := crowd_isolated (by decide) hreqs (V := fun _ : Bool => V) (fun _ => hVreads) (fun _ => hVfuel) hall
  rcases hend true with ⟨out, hret, hrest⟩ | ⟨c, hmove⟩
  · exact ⟨fun _ => V, _, replies, out, hall, by rw [hwriter], hret, hrest⟩
  · rw [Crowd.after_self] at hmove
    cases hmove

end LogDrive
