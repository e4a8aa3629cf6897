import LogDrive.Driver.Proof.Crash
import LogDrive.Driver.Proof.Isolation

/-!
# What a journey to a fixed time shows

The past does not change: whatever sessions follow, and wherever they are killed, a journey to `ts` shows
what it showed before, as long as the sessions that reached the write of the index have no write request
of a time before `ts` (`past_immutable`). A session killed before it does not show in any journey.
-/

set_option autoImplicit false

open Bytes

namespace LogDrive

/-- No write request of the session is of a time before `ts`. -/
def Session.NotBefore (S : Session) (ts : TimeSpec) : Prop := ∀ q, .write q ∈ S.requests → q.ts.before ts = false

/-- The states that follow `s`: more sessions, killed or not. Those that begin to write the index have no
write of a time before `ts`. -/
inductive Later (n : Nat) (ts : TimeSpec) (s : Os Event) : Os Event → Prop
  | refl : Later n ts s s
  | session {S : Session} {s' s'' : Os Event} {begun : Bool} : Later n ts s s' → (∀ req ∈ S.requests, req.Inside n) →
      (begun = true → S.NotBefore ts) → Killed S s' begun s'' → Later n ts s s''

/-! ## Versions of a later time -/

theorem BlockStep.asOf_later {trust : Prop} {q : WriteRequest} {b : Nat} {vs vs' : List Version}
    (h : BlockStep trust q b vs vs') {ts : TimeSpec} (hq : q.ts.before ts = false) :
    asOfVersion ts vs' = asOfVersion ts vs := by
  cases h with
  | skip _ => rfl
  | push _ _ _ hts _ _ =>
    rw [asOfVersion, List.find?_cons_of_neg (by rw [hts, hq]; exact Bool.false_ne_true)]
    rfl

theorem WriteStep.asOf_later {T : Prop} {q : WriteRequest} {recs recs' : List Rec} (h : WriteStep T q recs recs')
    {ts : TimeSpec} (hq : q.ts.before ts = false) (b : Nat) :
    asOfVersion ts (chainOf recs' b) = asOfVersion ts (chainOf recs b) := by
  by_cases ht : q.Touches b
  · exact (h.touched b ht).asOf_later hq
  · rw [h.others b ht]

theorem ServeRun.asOf_later {T : Prop} {recs recs' : List Rec} {reqs : List Request} {rs : List Reply}
    (h : ServeRun T recs reqs rs recs') {ts : TimeSpec} (hq : ∀ q, .write q ∈ reqs → q.ts.before ts = false) (b : Nat) :
    asOfVersion ts (chainOf recs' b) = asOfVersion ts (chainOf recs b) :=
  @ServeRun.keeps T (fun _ recs' => asOfVersion ts (chainOf recs' b) = asOfVersion ts (chainOf recs b))
    (fun q => q.ts.before ts = false) (fun _ _ _ _ heq hq hw => (hw.asOf_later hq b).trans heq) recs recs' reqs rs h [] rfl hq

/-! ## Later sessions -/

section
variable {n N : Nat} {recs : List Rec} (hn : n < 2 ^ 31) {s : Os Event}
include hn

/-- The chain that a session has built shows the same. -/
theorem Built.asOf (hf : FileInv n N recs s.file) {S : Session} (hreqs : ∀ req ∈ S.requests, req.Inside n) {ts : TimeSpec}
    (hts : S.NotBefore ts) {b : Nat} (hb : b < n) {vs : List Version} (h : Built S s b vs) :
    asOfVersion ts vs = asOfVersion ts (chainOf recs b) := by
  obtain ⟨replies, d, s1, hd, hvs⟩ := h
  have hw := wp_work bio_mode hn (fun _ _ _ _ _ _ => trivial) hf hreqs [] fun h => h.elim
  obtain ⟨replies', d', new, heq, hI, hR, -⟩ := bio_done hw hd
  obtain ⟨rfl, rfl⟩ := Prod.mk.inj (Option.some.inj heq)
  rw [hI.versions_eq hb hvs]
  exact hR.asOf_later hts b

/-- One more session, killed or not. -/
theorem Killed.asOf (hf : FileInv n N recs s.file) {S : Session} (hreqs : ∀ req ∈ S.requests, req.Inside n) {ts : TimeSpec}
    {begun : Bool} (hts : begun = true → S.NotBefore ts) {s' : Os Event} (hk : Killed S s begun s') :
    ∃ N' recs', FileInv n N' recs' s'.file ∧
      ∀ b < n, asOfVersion ts (chainOf recs' b) = asOfVersion ts (chainOf recs b) := by
  obtain ⟨built, hbuilt, hleft, hbefore⟩ := hk.left hn hf hreqs
  cases begun with
  | false =>
    obtain ⟨⟨N', recs', -, hf', hchain⟩, -⟩ := hbefore rfl
    exact ⟨N', recs', hf', fun b _ => by rw [(hchain b).elim id id]⟩
  | true =>
    obtain ⟨⟨N', recs', -, hf', hchain⟩, -⟩ := hleft
    refine ⟨N', recs', hf', fun b hb => ?_⟩
    rcases hchain b with h | h
    · rw [h]
    · rw [h]
      rcases hbuilt b hb with h1 | h1
      · rw [h1]
      · exact h1.asOf hn hf hreqs (hts rfl) hb

/-- **Any number of later sessions.** -/
theorem Later.asOf (hf : FileInv n N recs s.file) {ts : TimeSpec} {s' : Os Event} (h : Later n ts s s') :
    ∃ N' recs', FileInv n N' recs' s'.file ∧ ∀ b < n, asOfVersion ts (chainOf recs' b) = asOfVersion ts (chainOf recs b) := by
  induction h with
  | refl => exact ⟨N, recs, hf, fun _ _ => rfl⟩
  | session _ hreqs hts hk ih =>
    obtain ⟨N1, recs1, hf1, hsame1⟩ := ih
    obtain ⟨N2, recs2, hf2, hsame2⟩ := hk.asOf hn hf1 hreqs hts
    exact ⟨N2, recs2, hf2, fun b hb => (hsame2 b hb).trans (hsame1 b hb)⟩

/-- A journey on a database that nobody changes. -/
theorem FileInv.journey (hf : FileInv n N recs s.file) {V : Travel} (hreads : ∀ treq ∈ V.reads, treq.Readable n)
    (hfuel : offMax ≤ V.fuel) :
    ∃ s', Done V.run s (some (V.reads.map (asOfReply V.ts recs), 0)) s' ∧ s'.file = s.file := by
  have hlen := hf.wf.length_le hf.start hf.below
  have hbound := hf.bound
  have hstart := logStart_bounds n
  have hS := hf.snapshot quiet_alone (G := fun _ => True) (fun _ _ _ _ => trivial) fun _ _ _ _ _ => trivial
  have h := wp_travel quiet_alone hS hn hf ⟨rfl, trivial⟩ (fun _ _ => ⟨trivial, trivial⟩) hreads
    fun b => by have := length_chainOf recs b; omega
  obtain ⟨_, s', hd, rfl, hfile, -⟩ := quiet_exists h
  exact ⟨s', hd, hfile⟩

omit hn in
/-- What a read gives depends on the versions as of its time. -/
theorem asOfReply_congr {recs' : List Rec} {ts : TimeSpec}
    (h : ∀ b < n, asOfVersion ts (chainOf recs' b) = asOfVersion ts (chainOf recs b)) {treq : TdRequest}
    (hreq : treq.Inside n) : asOfReply ts recs' treq = asOfReply ts recs treq := by
  have hinside := hreq.inside
  have hbytes : tabulate (fun k => diskByte (asOfByte ts recs') (treq.sec * 512 + k)) (treq.secs * 512) =
      tabulate (fun k => diskByte (asOfByte ts recs) (treq.sec * 512 + k)) (treq.secs * 512) := by
    refine ext_byteAt (by rw [length_tabulate, length_tabulate]) fun k hk => ?_
    rw [length_tabulate] at hk
    rw [byteAt_tabulate hk, byteAt_tabulate hk, diskByte, diskByte, asOfByte, asOfByte, h _ (by omega)]
  rw [asOfReply, asOfReply, hbytes]

/-- **The past does not change.** In any state that sessions, killed or not, have reached, a journey and the
same journey after any later sessions return the same. -/
theorem past_immutable (hs : Reached n s) {V : Travel} (hreads : ∀ treq ∈ V.reads, treq.Readable n)
    (hfuel : offMax ≤ V.fuel) {s' : Os Event} (hl : Later n V.ts s s') :
    ∃ out s1 s2, Done V.run s out s1 ∧ Done V.run s' out s2 ∧ s1.file = s.file ∧ s2.file = s'.file := by
  obtain ⟨N, recs, hf⟩ := hs.database hn
  obtain ⟨N', recs', hf', hsame⟩ := hl.asOf hn hf
  obtain ⟨s1, h1, hfile1⟩ := hf.journey hn hreads hfuel
  obtain ⟨s2, h2, hfile2⟩ := hf'.journey hn hreads hfuel
  have hout : V.reads.map (asOfReply V.ts recs') = V.reads.map (asOfReply V.ts recs) :=
    List.map_congr_left fun treq ht => asOfReply_congr hsame (hreads treq ht).toInside
  rw [hout] at h2
  exact ⟨_, s1, s2, h1, h2, hfile1, hfile2⟩

end

/-! ## One write -/

/-- A journey to second 2 before and after a session that writes at second 2, on a block written at second 1. -/
theorem past_immutable_small : ∃ s N recs s' out s1 s2, Reached 1 s ∧ FileInv 1 N recs s.file ∧
    (chainOf recs 0).length = 1 ∧ Killed (smallSessionAt 2) s true s' ∧
    Done (Travel.run ⟨zeroJunk, ⟨2, 0⟩, offMax, [smallWrite.toTdRequest]⟩) s out s1 ∧
    Done (Travel.run ⟨zeroJunk, ⟨2, 0⟩, offMax, [smallWrite.toTdRequest]⟩) s' out s2 := by
  have hstart : logStart 1 = 1024 := rfl
  obtain ⟨m, r, s, N, recs, hr, hf, hfull, ha, hN, hlen⟩ := small_session 1 (newDatabase_inv (n := 1) (by decide))
    nofun trivial (by decide)
  obtain ⟨begun, hk⟩ := Killed.of_run hr
  obtain ⟨m', r', s', N', recs', hr', hf', -, -, -, hlen'⟩ := small_session 2 hf hfull ha
    (by simp only [offMax]; omega)
  obtain ⟨j, hj, c, hc, hat⟩ := exists_at_index (by decide) hf (smallSessionAt_inside 2) hr' hf' (b := 0) (by decide)
    (by omega)
  have hk' : Killed (smallSessionAt 2) s true s' := .behind hr' hj hc hat
  have hlater : Later 1 ⟨2, 0⟩ s s' := .session .refl (smallSessionAt_inside 2) (fun _ q hq => by
    obtain rfl : q = smallWriteAt 2 := by simpa [smallSessionAt] using hq
    decide) hk'
  obtain ⟨out, s1, s2, h1, h2, -, -⟩ := past_immutable (by decide) (.session .new (smallSessionAt_inside 1) hk)
    (V := ⟨zeroJunk, ⟨2, 0⟩, offMax, [smallWrite.toTdRequest]⟩)
    (fun treq ht => by rcases List.mem_singleton.1 ht with rfl; exact ⟨smallWrite_inside, .inr (by decide)⟩)
    (Nat.le_refl _) hlater
  exact ⟨s, N, recs, s', out, s1, s2, .session .new (smallSessionAt_inside 1) hk, hf, hlen, hk', h1, h2⟩

end LogDrive
