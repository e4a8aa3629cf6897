import LogDrive.Driver.Proof.Refinement
import LogDrive.Driver.Proof.Snapshot

/-!
# A time-travel session restores the past

`Traces ws recs`: for every time the chains of the records give the array as of that time. Write
requests keep it (`Traces.write`), and a read-only session reads the chains (`wp_travel`), so it shows
the array as of its time and leaves the file as it is (`restores_past`).
-/

set_option autoImplicit false

open Bytes

namespace LogDrive

open SectorArray

/-! ## Chains and times -/

structure Traces (ws : List WriteRequest) (recs : List Rec) : Prop where
  models : Models ws recs
  asOf : ∀ ts b, ∀ p < 4096, asOfByte ts recs b p = asOf ts ws (8 * b + p / 512) (Fin.ofNat 512 p)
  length : ∀ b, (chainOf recs b).length ≤ ws.length

theorem traces_nil : Traces [] [] := ⟨models_nil, fun _ _ _ _ => rfl, fun _ => Nat.le_refl _⟩

/-- What a write request does to the versions as of `ts`. -/
theorem BlockStep.asOf {q : WriteRequest} {b : Nat} {vs vs' : List Version} (h : BlockStep True q b vs vs')
    (ts : TimeSpec) (p : Nat) : contentOf (asOfVersion ts vs').toList p =
      if q.ts.before ts = true then contentOf vs' p else contentOf (asOfVersion ts vs).toList p := by
  cases h with
  | skip _ => simp [asOfVersion]
  | push old _ _ hts _ _ =>
    rw [asOfVersion]
    by_cases hb : q.ts.before ts = true
    · rw [if_pos hb, List.find?_cons_of_pos (by rw [hts]; exact hb)]
      rfl
    · rw [if_neg hb, List.find?_cons_of_neg (by rw [hts]; exact hb)]
      rfl

/-- A request logs at most one version of a block. -/
theorem WriteStep.length_le {T : Prop} {q : WriteRequest} {recs recs' : List Rec} (h : WriteStep T q recs recs')
    (b : Nat) : (chainOf recs' b).length ≤ (chainOf recs b).length + 1 := by
  by_cases ht : q.Touches b
  · have hstep := h.touched b ht
    generalize chainOf recs b = vs at hstep
    generalize chainOf recs' b = vs' at hstep
    cases hstep with
    | skip _ => exact Nat.zero_le _
    | push _ _ _ _ _ _ => exact Nat.le_refl _
  · rw [h.others b ht]
    exact Nat.le_succ _

theorem Traces.write {ws : List WriteRequest} {recs recs' : List Rec} {q : WriteRequest}
    (h : Traces ws recs) (hf : q.Fits) (hw : WriteStep True q recs recs') : Traces (q :: ws) recs' := by
  have hmodels := h.models.write hf hw
  refine ⟨hmodels, fun ts b p hp => ?_, fun b => ?_⟩
  · have hb : (8 * b + p / 512) / 8 = b := by omega
    simp only [SectorArray.asOf, hb, asOfByte]
    by_cases ht : q.Touches b
    · rw [(hw.touched b ht).asOf ts p]
      by_cases hts : q.ts.before ts = true
      · rw [if_pos hts, if_pos ⟨ht, hts⟩]
        exact hmodels b p hp
      · rw [if_neg hts, if_neg fun h => hts h.2]
        exact h.asOf ts b p hp
    · rw [hw.others b ht, if_neg fun h => ht h.1]
      exact h.asOf ts b p hp
  · have h1 := h.length b
    have h2 := hw.length_le b
    rw [List.length_cons]
    omega

theorem Traces.reply {ws : List WriteRequest} {recs : List Rec} (h : Traces ws recs) (ts : TimeSpec)
    (treq : TdRequest) : asOfReply ts recs treq = .got 0 ((SectorArray.asOf ts ws).read treq) := by
  have hread : tabulate (fun k => diskByte (asOfByte ts recs) (treq.sec * 512 + k)) (treq.secs * 512) =
      (SectorArray.asOf ts ws).read treq := ext_byteAt (by rw [length_tabulate, length_read]) fun k hk => by
    rw [length_tabulate] at hk
    rw [SectorArray.read, byteAt_tabulate hk, byteAt_tabulate hk, diskByte_sector (h.asOf ts)]
  rw [asOfReply, hread]

/-! ## The session -/

/-- A database that nobody changes. -/
theorem FileInv.snapshot {n N : Nat} {recs : List Rec} {f : Mem} (h : FileInv n N recs f) {L : Logic Event}
    (hL : L.Alone) {G : List Event → Prop} (hG : ∀ past e, G past → Right recs e → G (e :: past))
    (hsure : L.total → ∀ past e, G past → Right recs e → L.assume past e) :
    Snapshot L n N recs (fun s => s.file = f ∧ G s.notes) where
  wf := h.wf
  below := h.below
  bound := h.bound
  inFile s hs := by rw [hs.1]; exact h.inFile
  holds s hs := by rw [hs.1]; exact h.holds
  rely s f' pos hs hr := ⟨(hL _ _ _ hr).trans hs.1, hs.2⟩
  note s e hs hr := ⟨hs.1, hG _ _ hs.2 hr⟩
  sure ht s e hs hr := hsure ht _ _ hs.2 hr

/-- `pd_finalize` writes nothing for a read-only session. -/
theorem tdClose_readOnly {d : PreservationDisk} (hd : d.readOnly = true) (hb : d.bio.readOnly = true) :
    tdClose d = .note .finalizing (.note .closed (.ret 0)) := by
  have hflush : bioFlush d.bio = .ret d.bio := if_pos hb
  simp only [tdClose, pdFinalize, bioFinalize, hflush, Prog.bind_eq, Prog.mark_bind, Prog.pure_eq, Prog.ret_bind]
  rw [if_pos hd]
  rfl

/-- **A time-travel session.** -/
theorem wp_travel {L : Logic Event} (hL : L.Alone) {n N : Nat} {recs : List Rec} {K : Os Event → Prop}
    (hS : Snapshot L n N recs K) (hn : n < 2 ^ 31) {s : Os Event} (hf : FileInv n N recs s.file) (hK : K s)
    (ht : L.total → ∀ past, L.assume past .headerRead ∧ L.assume past .indexRead) {V : Travel}
    (hreads : ∀ treq ∈ V.reads, treq.Readable n) (hfuel : ∀ b, (chainOf recs b).length < V.fuel) :
    wp L V.run (fun out s' => out = some (V.reads.map (asOfReply V.ts recs), 0) ∧ K s') s := by
  unfold Travel.run pdInitializeReadOnly
  simp only [Prog.bind_eq, Prog.bind_assoc]
  refine wp_seq (wp_openDisk hL hn hf ht) ?_
  rintro _ s1 ⟨hfile, hnotes, d, rfl, ho⟩
  have hK1 : K s1 := by
    have h := hS.note _ .indexRead (hS.note _ .headerRead hK trivial) trivial
    have h := hS.rely _ s.file s1.pos h (L.rely_refl _ _)
    obtain ⟨f1, pos1, notes1⟩ := s1
    simp only at hfile hnotes h
    rw [hfile, hnotes]
    exact h
  simp only [Prog.pure_eq, Prog.ret_bind, Option.map_some]
  refine wp_seq (wp_readAll hS hn hreads hfuel (ho.travelling hf hn V.ts) hK1) ?_
  rintro ⟨replies, d'⟩ s2 ⟨rfl, hT, hK2⟩
  simp only [tdClose_readOnly hT.readOnly hT.bio.readOnly, Prog.bind]
  refine ⟨fun h => hS.sure h _ _ hK2 trivial, fun _ => ?_⟩
  have hK3 := hS.note _ .finalizing hK2 trivial
  refine ⟨fun h => hS.sure h _ _ hK3 trivial, fun _ => ?_⟩
  exact ⟨rfl, hS.note _ .closed hK3 trivial⟩

/-! ## Runs -/

section
variable {n : Nat} (hn : n < 2 ^ 31) {past : List Session}
variable (hpast : ∀ S' ∈ past, ∀ req ∈ S'.requests, req.Inside n ∧ req.Fits)
include hn hpast

/-- The database that sessions leave. -/
theorem sessions_traces {rs : List Reply} {s : Os Event} (hd : Done (runSessions past) (newDatabase n) rs s)
    (hc : Assumed Coherent s.notes) :
    ∃ N recs, FileInv n N recs s.file ∧ Traces (writes [] (past.flatMap Session.requests)) recs := by
  have h := wp_runSessions (driver_mode n) hn (fun _ _ h => h) (newDatabase_inv hn)
    (fun S' hS' req hreq => (hpast S' hS' req hreq).1) [] fun h => h.elim
  obtain ⟨N, new, hD, hR, -⟩ := driver_done h hd hc
  refine ⟨N, _, hD, hR.keeps (F := fun q => q.toTdRequest.Fits) (fun _ _ _ _ h hq hw => h.write hq hw)
    traces_nil fun q hq => ?_⟩
  exact requests_fit hpast _ hq

/-- **Time travel restores the past.** Where every write fits, a read-only session on the database that
any sessions have left delivers the disk as of its time and changes nothing. With a clock that never
goes back this is the disk after the requests of the seconds before `T`. -/
theorem restores_past {rs : List Reply} {s : Os Event} (hd : Done (runSessions past) (newDatabase n) rs s)
    (hc : Assumed Coherent s.notes) {V : Travel} (hreads : ∀ treq ∈ V.reads, treq.Readable n)
    (hfuel : (writes [] (past.flatMap Session.requests)).length < V.fuel) :
    (∃ out s', Done V.run s out s') ∧
    (∀ out s', Done V.run s out s' → s'.file = s.file ∧ out = some (V.reads.map (fun treq =>
      .got 0 ((asOf V.ts (writes [] (past.flatMap Session.requests))).read treq)), 0)) ∧
    ∀ ws, ws = writes [] (past.flatMap Session.requests) →
      (ws.Pairwise fun newer older => newer.ts.before older.ts = false) → (∀ q ∈ ws, 0 ≤ q.ts.tvNsec) →
      ∀ T, V.ts = ⟨T, 0⟩ → asOf V.ts ws = after (ws.filter fun q => decide (q.ts.tvSec < T)) := by
  obtain ⟨N, recs, hD, hT⟩ := sessions_traces hn hpast hd hc
  have hS := hD.snapshot quiet_alone (G := fun _ => True) (fun _ _ _ _ => trivial) fun _ _ _ _ _ => trivial
  have h := wp_travel quiet_alone hS hn hD ⟨rfl, trivial⟩ (fun _ _ => ⟨trivial, trivial⟩) hreads
    fun b => Nat.lt_of_le_of_lt (hT.length b) hfuel
  refine ⟨?_, fun out s' hr => ?_, fun ws _ hs hnsec T hts => ?_⟩
  · obtain ⟨out, s', hr, -⟩ := quiet_exists h
    exact ⟨out, s', hr⟩
  · obtain ⟨rfl, hfile, -⟩ := wp_done h hr (quiet_assumed _)
    refine ⟨hfile, ?_⟩
    rw [List.map_congr_left fun treq _ => hT.reply V.ts treq]
  · rw [hts, asOf_sorted hs, List.filter_congr fun q hq => TimeSpec.before_second (hnsec q hq) T]

end

def smallTravel : Travel := ⟨zeroJunk, ⟨2, 0⟩, 2, [smallWrite.toTdRequest]⟩

theorem restores_past_small : ∃ rs s out s', Done (runSessions [smallSession]) (newDatabase 1) rs s ∧
    Done smallTravel.run s out s' ∧ s'.file = s.file ∧
    out = some ([.got 0 ((asOf ⟨2, 0⟩ [smallWrite]).read smallWrite.toTdRequest)], 0) := by
  have h := wp_runSessions total_mode (by decide) (fun _ _ _ => trivial)
    (newDatabase_inv (n := 1) (by decide)) (fun S' hS' req hreq => (smallSession_fits S' hS' req hreq).1) []
    fun _ => ⟨nofun, ⟨small_affordable _, fun _ _ _ => trivial⟩, by decide⟩
  obtain ⟨rs, s, hd, -, ha⟩ := exists_done h trivial
  obtain ⟨⟨out, s', hr⟩, hall, -⟩ := restores_past (by decide) smallSession_fits hd (assumed_of_total ha).1
    (V := smallTravel)
    (fun treq ht => by rcases List.mem_singleton.1 ht with rfl; exact ⟨smallWrite_inside, .inr (by decide)⟩)
    (show 1 < 2 by decide)
  obtain ⟨hfile, hout⟩ := hall out s' hr
  exact ⟨rs, s, out, s', hd, hr, hfile, hout⟩

/-! ## A request that does not fit -/

def bigPast : Session := ⟨zeroJunk, [.write bigWrite]⟩

def bigTravel : Travel := ⟨zeroJunk, ⟨2, 0⟩, 2, [lastRead]⟩

/-- Where nothing but the records has been logged, the session is total. -/
theorem FileInv.total_snapshot {n N : Nat} {recs : List Rec} {s : Os Event} (h : FileInv n N recs s.file) :
    Snapshot totalLogic n N recs (fun s' => s'.file = s.file ∧ ∀ e, Logged s'.notes e → e ∈ entries recs) := by
  refine h.snapshot (G := fun past => ∀ e, Logged past e → e ∈ entries recs) (fun _ _ _ h => h) ?_ ?_
  · intro past e hG hr e' he'
    cases e with
    | logged _ _ => exact hr.elim
    | _ => exact hG e' he'
  · intro _ past e hG hr
    cases e with
    | fetched pos bytes stale => exact ⟨fun e' he' hc => hr.2 e' (hG e' he') hc, hr.1⟩
    | logged _ _ => exact hr.elim
    | _ => exact ⟨trivial, trivial⟩

/-- The restored last block begins with a one. -/
theorem bigPast_served {rs : List Reply} {recs : List Rec} (hR : ServeRun True [] bigPast.requests rs recs) :
    (∀ b, (chainOf recs b).length < 2) ∧ asOfByte ⟨2, 0⟩ recs (2 ^ 19) 0 = 1 := by
  change ServeRun True [] [.write bigWrite] rs recs at hR
  cases hR with
  | cons hs hr =>
    cases hr
    cases hs with
    | write hw =>
      have hstep := hw.touched (2 ^ 19) ⟨by decide, by decide, by decide⟩
      refine ⟨fun b => Nat.lt_succ_of_le (hw.length_le b), ?_⟩
      rw [asOfByte, hstep.asOf, if_pos (by decide), hstep.content (by decide), bigWrite_last]

/-- **After a write of 2 GiB and a block** the restored disk is not the one that was written. -/
theorem not_restored : (∀ req ∈ bigPast.requests, req.Inside (2 ^ 19 + 1)) ∧ lastRead.Readable (2 ^ 19 + 1) ∧
    ∃ rs s out s', Done (runSessions [bigPast]) (newDatabase (2 ^ 19 + 1)) rs s ∧ Done bigTravel.run s out s' ∧
      Assumed Coherent s'.notes ∧
      out ≠ some ([.got 0 ((asOf bigTravel.ts (writes [] bigPast.requests)).read lastRead)], 0) := by
  have hin : ∀ req ∈ bigPast.requests, req.Inside (2 ^ 19 + 1) := fun req hreq => by
    rcases List.mem_singleton.1 hreq with rfl
    exact bigSession_inside _ List.mem_cons_self
  have hread : lastRead.Readable (2 ^ 19 + 1) :=
    bigSession_inside (.read lastRead) (List.mem_cons_of_mem _ List.mem_cons_self)
  have hone : ∀ S' ∈ [bigPast], ∀ req ∈ S'.requests, req.Inside (2 ^ 19 + 1) := fun S' hS' => by
    rcases List.mem_singleton.1 hS' with rfl
    exact hin
  have h := wp_runSessions total_mode (by decide) (fun _ _ _ => trivial)
    (newDatabase_inv (n := 2 ^ 19 + 1) (by decide)) hone []
    fun _ => ⟨nofun, ⟨bigWrite_affordable fun _ _ => trivial, fun _ _ _ => trivial⟩, by decide⟩
  obtain ⟨rs, s, hd, ⟨N, new, hD, hR, hfull, -⟩, ha⟩ := exists_done h trivial
  generalize new ++ [] = recs at hD hR hfull
  obtain ⟨hshort, hone'⟩ := bigPast_served hR
  have ht := wp_travel (fun _ _ _ h => h) hD.total_snapshot (by decide) hD ⟨rfl, hfull nofun⟩
    (fun _ _ => ⟨⟨trivial, trivial⟩, ⟨trivial, trivial⟩⟩) (V := bigTravel)
    (fun treq hm => by rcases List.mem_singleton.1 hm with rfl; exact hread)
    hshort
  obtain ⟨out, s', hr, ⟨rfl, -⟩, ha'⟩ := exists_done ht ha
  refine ⟨hin, hread, rs, s, _, s', hd, hr, (assumed_of_total ha').1, fun heq => ?_⟩
  have hreply : asOfReply ⟨2, 0⟩ recs lastRead = .got 0 ((after [bigWrite]).read lastRead) := by
    have hall : asOf ⟨2, 0⟩ [bigWrite] = after [bigWrite] := asOf_all fun q hq => by
      rcases List.mem_singleton.1 hq with rfl
      decide
    rw [← hall]
    exact (List.cons.inj (Prod.mk.inj (Option.some.inj heq)).1).1
  have hplace : diskByte (asOfByte ⟨2, 0⟩ recs) (lastRead.sec * 512 + 0) = asOfByte ⟨2, 0⟩ recs (2 ^ 19) 0 :=
    diskByte_eq (by decide) (by decide)
  have hzero := bigWrite_read
  rw [← (Reply.got.inj hreply).2, byteAt_tabulate (by decide), hplace, hone'] at hzero
  cases hzero

end LogDrive
