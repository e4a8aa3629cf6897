import LogDrive.Driver.Proof.Write
import LogDrive.Driver.Proof.Read
import LogDrive.Driver.Proof.Finalize

/-!
# Requests, sessions and histories

Each level adds one more loop to the level below: `wp_serve` for a request, `wp_serveAll` for the
requests of a session, `wp_session` for a session from opening to closing, `wp_runSessions` for any
number of them. `ServeRun` is what they do to the log; sessions leave no trace in it.

`Affordable` is what the total modes need: no request makes `bio_write` flush.
-/

set_option autoImplicit false

open Bytes

namespace LogDrive

/-! ## What requests do to the log -/

/-- The bytes of the disk that the records give. -/
def recsByte (recs : List Rec) : Nat → UInt8 := diskByte fun b => contentOf (chainOf recs b)

inductive ServeStep (T : Prop) : List Rec → Request → Reply → List Rec → Prop
  | write {recs recs' : List Rec} {q : WriteRequest} : WriteStep T q recs recs' →
      ServeStep T recs (.write q) (.wrote 0) recs'
  | read {recs : List Rec} {treq : TdRequest} {bytes : Mem} : bytes.length = treq.secs * 512 →
      (T → ∀ k < treq.secs * 512, byteAt bytes k = recsByte recs (treq.sec * 512 + k)) →
      ServeStep T recs (.read treq) (.got 0 bytes) recs

inductive ServeRun (T : Prop) : List Rec → List Request → List Reply → List Rec → Prop
  | done {recs : List Rec} : ServeRun T recs [] [] recs
  | cons {recs recs' recs'' : List Rec} {req : Request} {reply : Reply} {reqs : List Request}
      {replies : List Reply} : ServeStep T recs req reply recs' → ServeRun T recs' reqs replies recs'' →
      ServeRun T recs (req :: reqs) (reply :: replies) recs''

theorem ServeRun.append {T : Prop} {recs recs' recs'' : List Rec} {reqs reqs' : List Request}
    {replies replies' : List Reply} (h : ServeRun T recs reqs replies recs')
    (h' : ServeRun T recs' reqs' replies' recs'') :
    ServeRun T recs (reqs ++ reqs') (replies ++ replies') recs'' := by
  induction h with
  | done => exact h'
  | cons hs _ ih => exact .cons hs (ih h')

/-! ## Room in the write buffer -/

/-- The requests fit into the write buffer, of which `pos` bytes are in use. -/
def Affordable (T : Prop) : Nat → List Rec → List Request → Prop
  | _, _, [] => True
  | pos, recs, .read _ :: reqs => Affordable T pos recs reqs
  | pos, recs, .write q :: reqs => ∃ S : Finset Nat, pos + 4128 * S.card ≤ bufferSize ∧
      (∀ b, q.Touches b → b ∉ S → Skips q recs b) ∧
      ∀ recs', WriteStep T q recs recs' → Affordable T (pos + 4128 * S.card) recs' reqs

theorem Affordable.mono {T : Prop} {pos pos' : Nat} {recs : List Rec} {reqs : List Request}
    (h : Affordable T pos recs reqs) (hle : pos' ≤ pos) : Affordable T pos' recs reqs := by
  induction reqs generalizing pos pos' recs with
  | nil => trivial
  | cons req reqs ih =>
    cases req with
    | read _ => exact ih h hle
    | write q =>
      obtain ⟨S, hfit, hskip, hrest⟩ := h
      exact ⟨S, by omega, hskip, fun recs' hw => ih (hrest recs' hw) (by omega)⟩

/-- The requests of each session fit into its write buffer. -/
def AffordableAll (T : Prop) : List Rec → List Session → Prop
  | _, [] => True
  | recs, S :: rest => Affordable T 0 recs S.requests ∧
      ∀ replies recs', ServeRun T recs S.requests replies recs' → AffordableAll T recs' rest

/-! ## The levels -/

section
variable {L : Logic Event} {T : Prop} (hM : Mode L T)
variable {n N : Nat} {old recs : List Rec} {d : PreservationDisk} {s : Os Event}
include hM

/-- `read_latest_block` in a session whose log is `recs`. -/
theorem latestReader {J : Junk} {d0 : PreservationDisk} {s0 : Os Event} (hc : L.total → Calm d0 s0 recs) :
    BlockReader L T n (fun d s => LogInv n N old d s recs ∧ SameSession d0 s0 recs d s)
      (fun b => contentOf (chainOf recs b)) (readLatestBlock J) where
  geometry d s h := ⟨h.1.header.blockSize, h.1.sectors⟩
  reads d s b buf h hb hbuf := by
    refine wp_mono (wp_readLatestBlock hM h.1 hb hbuf fun ht => h.2.calm (hc ht)) ?_
    rintro ⟨r, out, d'⟩ s' ⟨hR, hI, hS⟩
    exact ⟨hR.code, hR.length, hR.rest, fun hT => hR.content (.inl hT), hI, h.2.trans hS⟩

theorem wp_serve (hn : n < 2 ^ 31) (hlog : ∀ f, FileInv n N old f → AllowsFrom L f N)
    (hI : LogInv n N old d s recs) {req : Request} {reqs : List Request} (hreq : req.Inside n) {J : Junk}
    (ht : L.total → Calm d s recs ∧ Affordable T d.bio.bufferPos recs (req :: reqs)) :
    wp L (req.serve J d) (fun r s' => ∃ new, LogInv n N old r.2 s' (new ++ recs) ∧
      ServeStep T recs req r.1 (new ++ recs) ∧ (Full s recs → Full s' (new ++ recs)) ∧ (L.total → Calm r.2 s' (new ++ recs) ∧
        Affordable T r.2.bio.bufferPos (new ++ recs) reqs ∧ r.2.bio.nextOffset = d.bio.nextOffset)) s := by
  cases req with
  | write q =>
    have hroom : L.total → Calm d s recs ∧ ∃ S, Room q recs d q.sec S := fun h => by
      obtain ⟨hcalm, S, hfit, hskip, -⟩ := ht h
      exact ⟨hcalm, S, fun b htb _ => hskip b htb, hfit⟩
    refine wp_seq (wp_pdWrite hM hreq.inside hn hlog hI hroom) ?_
    rintro ⟨r, d'⟩ s' ⟨rfl, new, hI', hW, hfull, hcalm'⟩
    refine ⟨new, hI', .write hW, hfull, fun h => ?_⟩
    obtain ⟨hcalm, S, hfit, hskip, hrest⟩ := ht h
    obtain ⟨hc, htake⟩ := hcalm' S ⟨fun b htb _ => hskip b htb, hfit⟩ hcalm
    exact ⟨hc, (hrest _ hW).mono htake.pos, htake.next⟩
  | read treq =>
    have hR : BlockReader L T n (fun d' s' => LogInv n N old d' s' recs ∧ SameSession d s recs d' s')
        (fun b => contentOf (chainOf recs b)) (readLatestBlock J) := latestReader hM fun h => (ht h).1
    have hrb : readBlockOf J 0 d = readLatestBlock J := if_neg (by simp [hI.writable])
    refine wp_seq (wp_unlogged (pdRead_unlogged ..) (wp_pdRead hR hn hreq hrb ⟨hI, .rfl⟩)) ?_
    rintro ⟨r, bytes, d'⟩ s' ⟨⟨rfl, hlen, hcont, hI', hS⟩, hfull⟩
    refine ⟨[], hI', .read hlen hcont, hfull _, fun h => ?_⟩
    obtain ⟨hcalm, haff⟩ := ht h
    exact ⟨hS.calm hcalm, by rw [hS.log.bufferPos]; exact haff, hS.log.nextOffset⟩

/-- **The requests of a session**, after which there may be `more`. -/
theorem wp_serveAll (hn : n < 2 ^ 31) (hlog : ∀ f, FileInv n N old f → AllowsFrom L f N)
    (hI : LogInv n N old d s recs) {reqs : List Request} (hreqs : ∀ req ∈ reqs, req.Inside n) {J : Junk}
    (more : List Request) (ht : L.total → Calm d s recs ∧ Affordable T d.bio.bufferPos recs (reqs ++ more)) :
    wp L (serveAll J d reqs) (fun r s' => ∃ new, LogInv n N old r.2 s' (new ++ recs) ∧
      ServeRun T recs reqs r.1 (new ++ recs) ∧ (Full s recs → Full s' (new ++ recs)) ∧ (L.total → Calm r.2 s' (new ++ recs) ∧
        Affordable T r.2.bio.bufferPos (new ++ recs) more ∧ r.2.bio.nextOffset = d.bio.nextOffset)) s := by
  induction reqs generalizing d s recs with
  | nil => exact ⟨[], hI, .done, id, fun h => ⟨(ht h).1, (ht h).2, rfl⟩⟩
  | cons req reqs ih =>
    refine wp_seq (wp_serve hM hn hlog hI (hreqs req List.mem_cons_self) ht) ?_
    rintro ⟨reply, d1⟩ s1 ⟨new1, hI1, hS1, hfull1, ht1⟩
    refine wp_seq (ih hI1 (fun r hr => hreqs r (List.mem_cons_of_mem _ hr))
      fun h => ⟨(ht1 h).1, (ht1 h).2.1⟩) ?_
    rintro ⟨replies, d2⟩ s2 ⟨new2, hI2, hR2, hfull2, ht2⟩
    refine ⟨new2 ++ new1, by rw [List.append_assoc]; exact hI2, by rw [List.append_assoc]; exact .cons hS1 hR2,
      fun h => by rw [List.append_assoc]; exact hfull2 (hfull1 h), fun h => ?_⟩
    rw [List.append_assoc]
    exact ⟨(ht2 h).1, (ht2 h).2.1, (ht2 h).2.2.trans (ht1 h).2.2⟩

/-- **A session up to its last request.** -/
theorem wp_work (hn : n < 2 ^ 31) (hlog : ∀ f, FileInv n N recs f → AllowsFrom L f N)
    (hd : FileInv n N recs s.file) {S : Session} (hreqs : ∀ req ∈ S.requests, req.Inside n)
    (more : List Request) (ht : L.total → Full s recs ∧ Affordable T 0 recs (S.requests ++ more)) :
    wp L S.work (fun r s' => ∃ replies d new, r = some (replies, d) ∧
      LogInv n N recs d s' (new ++ recs) ∧ ServeRun T recs S.requests replies (new ++ recs) ∧
      (Full s recs → Full s' (new ++ recs)) ∧ (L.total → Calm d s' (new ++ recs) ∧
        Affordable T d.bio.bufferPos (new ++ recs) more ∧ d.bio.nextOffset = N)) s := by
  unfold Session.work pdInitialize
  refine wp_seq (wp_openDisk hM.alone hn hd fun h past =>
    ⟨hM.plain trivial h, hM.plain trivial h⟩) ?_
  rintro _ s1 ⟨hf, hnotes, d, rfl, ho⟩
  have hI := ho.logInv hd hf
  have hbio : d.bio = bioInit S.junk false N := by
    rw [ho.disk]; simp only [openedDisk, ho.header.nextOffset]
  have hopened : Full s recs → Full s1 recs := fun h e he => by
    rw [hnotes] at he
    exact h e he
  refine wp_seq (wp_serveAll hM hn hlog hI hreqs (J := S.junk) more fun h => ⟨⟨?_, hopened (ht h).1⟩, ?_⟩) ?_
  · rw [hbio]; exact fun h => by cases h
  · rw [hbio]; exact (ht h).2
  rintro ⟨replies, d'⟩ s' ⟨new, hI', hR, hfull, hcalm⟩
  exact ⟨replies, d', new, rfl, hI', hR, fun h => hfull (hopened h), fun h =>
    ⟨(hcalm h).1, (hcalm h).2.1, by rw [(hcalm h).2.2, hbio]; rfl⟩⟩

/-- **A whole session.** -/
theorem wp_session (hn : n < 2 ^ 31) (hA : ∀ s bs, Guarantee n s bs → L.allow s bs)
    (hd : FileInv n N recs s.file) {S : Session} (hreqs : ∀ req ∈ S.requests, req.Inside n)
    (ht : L.total → Full s recs ∧ Affordable T 0 recs S.requests ∧ N + 2 ^ 20 ≤ offMax) :
    wp L S.run (fun r s' => ∃ replies N' new, r = some (replies, 0) ∧ FileInv n N' (new ++ recs) s'.file ∧
      ServeRun T recs S.requests replies (new ++ recs) ∧ (Full s recs → Full s' (new ++ recs)) ∧
      (L.total → Full s' (new ++ recs) ∧ N' ≤ N + 2 ^ 20)) s := by
  have hlog : ∀ f, FileInv n N recs f → AllowsFrom L f N := fun f hf t bs htf hlo =>
    hA _ _ (hf.guarantee_log htf hlo)
  unfold Session.run
  refine wp_seq (wp_work hM hn hlog hd hreqs [] fun h => ⟨(ht h).1, by
    rw [List.append_nil]; exact (ht h).2.1⟩) ?_
  rintro _ s1 ⟨replies, d, new, rfl, hI, hR, hfull, hcalm⟩
  simp only [tdClose, Prog.bind_eq]
  rw [Prog.bind_assoc]
  refine wp_seq (wp_pdFinalize hM hn hlog (fun s bs hin hw => hA _ _ (hw.guarantee hin)) hI fun h => ?_) ?_
  · rw [(hcalm h).2.2]
    have := (ht h).2.2
    rw [bufferSize_eq]
    omega
  rintro _ s' ⟨N', hC⟩
  have hclosed : Full s1 (new ++ recs) → Full s' (new ++ recs) := fun h e he => by
    rw [hC.notes] at he
    exact h e he
  refine ⟨replies, N', new, rfl, hC.database, hR, fun h => hclosed (hfull h), fun h =>
    ⟨hclosed (hcalm h).1.full, ?_⟩⟩
  · have := hC.upper
    have := hI.bio.posLe
    rw [(hcalm h).2.2] at *
    rw [bufferSize_eq] at *
    omega

/-- **Any number of sessions**, after which there may be `more`. -/
theorem wp_runSessions (hn : n < 2 ^ 31) (hA : ∀ s bs, Guarantee n s bs → L.allow s bs)
    (hd : FileInv n N recs s.file) {Ss : List Session} (hreqs : ∀ S ∈ Ss, ∀ req ∈ S.requests, req.Inside n)
    (more : List Session) (ht : L.total → Full s recs ∧ AffordableAll T recs (Ss ++ more) ∧
      N + Ss.length * 2 ^ 20 ≤ offMax) :
    wp L (runSessions Ss) (fun replies s' => ∃ N' new, FileInv n N' (new ++ recs) s'.file ∧
      ServeRun T recs (Ss.flatMap Session.requests) replies (new ++ recs) ∧
      (Full s recs → Full s' (new ++ recs)) ∧ (L.total → Full s' (new ++ recs) ∧ AffordableAll T (new ++ recs) more ∧
        N' ≤ N + Ss.length * 2 ^ 20)) s := by
  induction Ss generalizing N recs s with
  | nil => exact ⟨N, [], hd, .done, id, fun h => ⟨(ht h).1, (ht h).2.1, by omega⟩⟩
  | cons S rest ih =>
    simp only [List.length_cons] at ht ⊢
    refine wp_seq (wp_session hM hn hA hd (hreqs S List.mem_cons_self) fun h =>
      ⟨(ht h).1, (ht h).2.1.1, by have := (ht h).2.2; omega⟩) ?_
    rintro _ s1 ⟨replies, N1, new1, rfl, hd1, hR1, hfull1, ht1⟩
    refine wp_seq (ih hd1 (fun S' hS' => hreqs S' (List.mem_cons_of_mem _ hS')) fun h =>
      ⟨(ht1 h).1, (ht h).2.1.2 _ _ hR1, by have := (ht h).2.2; have := (ht1 h).2; omega⟩) ?_
    rintro more s2 ⟨N2, new2, hd2, hR2, hfull2, ht2⟩
    refine ⟨N2, new2 ++ new1, by rw [List.append_assoc]; exact hd2, ?_,
      fun h => by rw [List.append_assoc]; exact hfull2 (hfull1 h), fun h => ?_⟩
    · rw [List.append_assoc, List.flatMap_cons]
      exact hR1.append hR2
    · rw [List.append_assoc]
      exact ⟨(ht2 h).1, (ht2 h).2.1, by have := (ht1 h).2; have := (ht2 h).2.2; omega⟩

/-- **A session on a database that other sessions have worked on before.** -/
theorem wp_history (hn : n < 2 ^ 31) (hA : ∀ s bs, Guarantee n s bs → L.allow s bs)
    (hd : FileInv n N recs s.file) {past : List Session} {S : Session}
    (hpast : ∀ S' ∈ past, ∀ req ∈ S'.requests, req.Inside n) (hreqs : ∀ req ∈ S.requests, req.Inside n)
    (more : List Request) (ht : L.total → Full s recs ∧
      AffordableAll T recs (past ++ [⟨S.junk, S.requests ++ more⟩]) ∧ N + past.length * 2 ^ 20 ≤ offMax) :
    wp L (history past S) (fun r s' => ∃ replies d N' new old earlier, r = some (replies, d) ∧
      LogInv n N' old d s' (new ++ old) ∧ ServeRun T recs (past.flatMap Session.requests) earlier old ∧
      ServeRun T old S.requests replies (new ++ old) ∧ (Full s recs → Full s' (new ++ old)) ∧
      (L.total → Calm d s' (new ++ old) ∧ Affordable T d.bio.bufferPos (new ++ old) more ∧ d.bio.nextOffset = N' ∧
        N' ≤ N + past.length * 2 ^ 20)) s := by
  unfold history
  refine wp_seq (wp_runSessions hM hn hA hd hpast _ ht) ?_
  rintro earlier s1 ⟨N1, old, hd1, hR1, hfull1, ht1⟩
  refine wp_mono (wp_work hM hn (fun f hf t bs htf hlo => hA _ _ (hf.guarantee_log htf hlo)) hd1 hreqs
    more fun h => ⟨(ht1 h).1, (ht1 h).2.1.1⟩) ?_
  rintro _ s2 ⟨replies, d, new, rfl, hI, hR, hfull, hcalm⟩
  exact ⟨replies, d, N1, new, old ++ recs, earlier, rfl, hI, hR1, hR, fun h => hfull (hfull1 h), fun h =>
    ⟨(hcalm h).1, (hcalm h).2.1, (hcalm h).2.2, (ht1 h).2.2⟩⟩

end

end LogDrive
