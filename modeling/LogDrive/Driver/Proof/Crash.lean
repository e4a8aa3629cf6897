import LogDrive.Driver.Proof.AppendOnly

/-!
# A session that is killed

A session can be killed between two commands, or inside the write of the index after whole entries of
it (`Killed`). What it leaves is a database again, in which each block has the chain that it had when
the session was opened or, once the write of the index has begun, the one that the session built
(`Left`, `run_left`). So every reopening finds whole chains (`crash_consistent`).
-/

set_option autoImplicit false

open Bytes

namespace LogDrive

/-! ## Kills -/

/-- The next command is the write at the place of the index. -/
def AtIndex {α : Type} (c : Conf Event α) : Prop :=
  c.2.pos = roundUppedDataHeaderSize ∧ ∃ bs k, c.1 = .write bs k

/-- The session `S`, started in `s`, ends in `s'`; the flag says whether the write of the index has
begun. A session that is not killed ends behind it. -/
inductive Killed (S : Session) (s : Os Event) : Bool → Os Event → Prop
  | before {m : Nat} {q : Prog Event (Option (List Reply × Int))} {s' : Os Event} :
      runOk m (S.run, s) = some (q, s') →
      (∀ j < m, ∀ c, runOk j (S.run, s) = some c → ¬AtIndex c) → Killed S s false s'
  /-- After `k` entries of the index. -/
  | within {m k : Nat} {c c' : Conf Event (Option (List Reply × Int))} :
      runOk m (S.run, s) = some c → AtIndex c → step (.short (8 * k)) c = some c' → Killed S s true c'.2
  | behind {m j : Nat} {q : Prog Event (Option (List Reply × Int))} {s' : Os Event}
      {c : Conf Event (Option (List Reply × Int))} : runOk m (S.run, s) = some (q, s') → j < m →
      runOk j (S.run, s) = some c → AtIndex c → Killed S s true s'

/-- Every run is killed before, within or behind the write of the index. -/
theorem Killed.of_run {S : Session} {s s' : Os Event} {m : Nat} {q : Prog Event (Option (List Reply × Int))}
    (h : runOk m (S.run, s) = some (q, s')) : ∃ begun, Killed S s begun s' := by
  by_cases hex : ∃ j < m, ∃ c, runOk j (S.run, s) = some c ∧ AtIndex c
  · obtain ⟨j, hj, c, hr, hc⟩ := hex
    exact ⟨true, .behind h hj hr hc⟩
  · exact ⟨false, .before h fun j hj c hr hc => hex ⟨j, hj, c, hr, hc⟩⟩

/-- What any number of sessions, killed or not, can leave of a database. Nothing is taken for granted of what
`bio_read` returns; a session whose behaviour becomes undefined is one that is killed there at the latest. -/
inductive Reached (n : Nat) : Os Event → Prop
  | new : Reached n (newDatabase n)
  | session {S : Session} {s s' : Os Event} {begun : Bool} : Reached n s →
      (∀ req ∈ S.requests, req.Inside n) → Killed S s begun s' → Reached n s'

/-- Opening the file finds the chains `vs`, all below `next_offset`. -/
def Finds (n : Nat) (s : Os Event) (vs : Nat → List Version) : Prop :=
  ∀ J, ∃ d s', Done (pdInitialize J) s (some d) s' ∧
    ∀ b < n, d.Versions s' b (vs b) ∧ ∀ v ∈ vs b, v.stop ≤ d.header.nextOffset

/-- The session, started in `s`, has built the chain `vs` of block `b` when it is about to be closed. -/
def Built (S : Session) (s : Os Event) (b : Nat) (vs : List Version) : Prop :=
  ∃ replies d s1, Done S.work s (some (replies, d)) s1 ∧ d.Versions s1 b vs

/-! ## What opening finds -/

theorem FileInv.finds {n N : Nat} {recs : List Rec} {s : Os Event} (h : FileInv n N recs s.file)
    (hn : n < 2 ^ 31) : Finds n s (chainOf recs) := by
  intro J
  have hw := @wp_openDisk _ quiet_alone J false _ _ _ _ hn h fun _ _ => ⟨trivial, trivial⟩
  obtain ⟨_, s', hd, hfile, -, d, rfl, ho⟩ := quiet_exists hw
  refine ⟨d, s', hd, fun b hb => ⟨⟨fileIndex s.file b, ho.table b hb, ?_⟩, fun v hv => ?_⟩⟩
  · have hnext : d.bio.nextOffset = N := by
      rw [ho.disk]; simp only [openedDisk, bioInit, ho.header.nextOffset]
    refine (h.chain hb).congr fun v hv i _ hi => ?_
    obtain ⟨r, hr, -, rfl⟩ := mem_chainOf.1 hv
    have := h.below r hr
    rw [PreservationDisk.image, hfile]
    exact if_pos (by omega)
  · obtain ⟨r, hr, -, rfl⟩ := mem_chainOf.1 hv
    rw [ho.header.nextOffset]
    exact h.below r hr

/-- It finds no other chains. -/
theorem Finds.unique {n : Nat} {s : Os Event} {vs vs' : Nat → List Version} (h : Finds n s vs) (h' : Finds n s vs') {b : Nat}
    (hb : b < n) : vs b = vs' b := by
  obtain ⟨d, s1, hd, hvs⟩ := h zeroJunk
  obtain ⟨d', s1', hd', hvs'⟩ := h' zeroJunk
  obtain ⟨heq, rfl⟩ := hd.unique hd'
  cases heq
  obtain ⟨off, ho, hc⟩ := (hvs b hb).1
  obtain ⟨off', ho', hc'⟩ := (hvs' b hb).1
  rw [ho] at ho'
  cases ho'
  exact hc.unique hc'

/-! ## What a session leaves -/

variable {n N : Nat} {old recs : List Rec} {f0 f : Mem}

/-- The file `f` that was `f0` when the session was opened on the log `old`: a database in which each
block has its chain of `old` or that of `recs`, and the log below `N` as it was. -/
structure Left (n N : Nat) (old recs : List Rec) (f0 f : Mem) : Prop where
  database : ∃ N' recs', N ≤ N' ∧ FileInv n N' recs' f ∧
    ∀ b, chainOf recs' b = chainOf old b ∨ chainOf recs' b = chainOf recs b
  log : ∀ i, logStart n ≤ i → i < N → byteAt f i = byteAt f0 i

theorem Left.mono (h : Left n N old old f0 f) (recs : List Rec) : Left n N old recs f0 f := by
  obtain ⟨⟨N', recs', hle, hf, hc⟩, hlog⟩ := h
  exact ⟨⟨N', recs', hle, hf, fun b => .inl ((hc b).elim id id)⟩, hlog⟩

/-- The writes of a session that builds `recs` on the log `old`. -/
inductive SessionWrite (n N : Nat) (old recs : List Rec) (s : Os Event) (bs : Mem) : Prop
  | log : FileInv n N old s.file → N ≤ s.pos → SessionWrite n N old recs s bs
  | final : FinalWrite n old recs s bs → SessionWrite n N old recs s bs

/-- A write behind the log. -/
theorem Left.log_write (h : Left n N old recs f0 f) (hf : FileInv n N old f) {pos : Nat} (hp : N ≤ pos)
    (bs : Mem) : Left n N old recs f0 (Bytes.store f pos bs) where
  database := ⟨N, old, Nat.le_refl _, hf.store hp, fun _ => .inl rfl⟩
  log i hi hi' := by rw [byteAt_store_outside (.inl (by omega))]; exact h.log i hi hi'

/-- The index, or a part of it. -/
theorem Left.index_write (h : Left n N old recs f0 f) {new : List Rec} {N' k : Nat} {table : List Nat}
    (hrecs : recs = new ++ old) (hr : IndexReady n N' new old table f) (hk : 8 * k ≤ (encodeIndex table).length) :
    Left n N old recs f0 (Bytes.store f 512 ((encodeIndex table).take (8 * k))) := by
  have ht := tableBytes_bounds n
  rw [length_encodeIndex, hr.length] at hk
  obtain ⟨N1, recs1, hle, hf1, -⟩ := h.database
  have hN : N' = N1 := by rw [← hr.file.next, ← hf1.next]
  obtain ⟨-, hchain⟩ := hr.wf.filter fun b => decide (b < k)
  refine ⟨⟨N', _, by omega, hr.written (by omega), fun b => ?_⟩, fun i hi hi' => ?_⟩
  · rw [hchain b, hrecs]
    split
    · exact .inr rfl
    · exact .inl rfl
  · rw [byteAt_store_outside (.inr ?_)]
    · exact h.log i hi hi'
    · rw [List.length_take, length_encodeIndex, hr.length]
      unfold logStart at hi
      omega

/-- Each write of a session keeps what it leaves. -/
theorem Left.write (h : Left n N old recs f0 f) {s : Os Event} (hs : s.file = f) {bs : Mem}
    (hw : SessionWrite n N old recs s bs) : Left n N old recs f0 (s.afterWrite bs).file := by
  subst hs
  cases hw with
  | log hf hp => exact h.log_write hf hp bs
  | final hw =>
    cases hw with
    | header _ hf hstable =>
      obtain ⟨N1, recs1, hle, hf1, -⟩ := h.database
      have hnext := hstable.next
      rw [hf1.next, hf.next] at hnext
      refine ⟨⟨_, old, by omega, hf, fun _ => .inl rfl⟩, fun i hi hi' => ?_⟩
      rw [hstable.log i hi (by rw [hf1.next]; omega)]
      exact h.log i hi hi'
    | @index _ _ table hrecs hp hb hr =>
      have hall := h.index_write hrecs hr (k := table.length) (Nat.le_of_eq (length_encodeIndex _).symm)
      rw [List.take_of_length_le (Nat.le_of_eq (length_encodeIndex _))] at hall
      rw [Os.afterWrite_file, hp, hb]
      exact hall

/-- Until the index is written each block keeps its chain. -/
theorem Left.write_before (h : Left n N old old f0 f) {s : Os Event} (hs : s.file = f) {bs : Mem}
    (hw : SessionWrite n N old recs s bs) (hp : s.pos ≠ 512) : Left n N old old f0 (s.afterWrite bs).file := by
  refine h.write hs ?_
  cases hw with
  | log hf hp => exact .log hf hp
  | final hw =>
    cases hw with
    | header h0 hf hstable => exact .final (.header h0 hf hstable)
    | index _ h512 _ _ => exact absurd h512 hp

/-- A write at the index that ends after `k` entries. -/
theorem Left.write_within (h : Left n N old recs f0 f) {s : Os Event} (hs : s.file = f) {bs : Mem}
    (hw : SessionWrite n N old recs s bs) (hp : s.pos = 512) {k : Nat} (hk : 8 * k ≤ bs.length) :
    Left n N old recs f0 (s.afterWrite (bs.take (8 * k))).file := by
  subst hs
  cases hw with
  | log hf hp => exact h.log_write hf hp _
  | final hw =>
    cases hw with
    | header h0 _ _ => omega
    | index hrecs _ hb hr =>
      rw [Os.afterWrite_file, hp, hb]
      exact h.index_write hrecs hr (by rw [← hb]; exact hk)

/-! ## The run of a session -/

/-- The mode for kills: a session that builds `recs` on the log `old`. -/
abbrev crashLogic (n N : Nat) (old recs : List Rec) : Logic Event := bioLogic.allowing (SessionWrite n N old recs)

theorem bio_assumed (A : Os Event → Mem → Prop) (notes : List Event) : Assumed (bioLogic.allowing A).assume notes :=
  .of_forall (fun _ _ => trivial) notes

/-- What has become of the session after some commands. `recs` is the log that it builds; before it is
closed this is still the log that it was opened on. -/
structure RunLeft (n N : Nat) (old : List Rec) (S : Session) (s : Os Event) (recs : List Rec)
    (c : Conf Event (Option (List Reply × Int))) : Prop where
  built : ∀ b < n, chainOf recs b = chainOf old b ∨ Built S s b (chainOf recs b)
  left : Left n N old recs s.file c.2.file
  next : ∀ bs k, c.1 = .write bs k → SessionWrite n N old recs c.2 bs

theorem FileInv.left (hf : FileInv n N old f) : Left n N old old f f :=
  ⟨⟨N, old, Nat.le_refl _, hf, fun _ => .inl rfl⟩, fun _ _ _ => rfl⟩

section
variable (hn : n < 2 ^ 31) {s : Os Event} (hf : FileInv n N old s.file) {S : Session}
variable (hreqs : ∀ req ∈ S.requests, req.Inside n)
include hn hf hreqs

/-- **The run of a session** from its start to any command. -/
theorem run_left {m : Nat} {c : Conf Event (Option (List Reply × Int))} (hr : runOk m (S.run, s) = some c) :
    ∃ recs, RunLeft n N old S s recs c ∧
      ((∀ j < m, ∀ c', runOk j (S.run, s) = some c' → ¬AtIndex c') → Left n N old old s.file c.2.file) := by
  obtain ⟨q, s'⟩ := c
  have hlog : ∀ recs f, FileInv n N old f → AllowsFrom (crashLogic n N old recs) f N :=
    fun recs f hf t bs ht hp => .log (by rw [ht]; exact hf) hp
  have hwork := fun recs => wp_work (bio_mode.allowing (SessionWrite n N old recs)) hn (hlog recs) hf hreqs [] fun h => h.elim
  have hall := fun recs => bio_assumed (SessionWrite n N old recs)
  have hstart := hf.left
  rcases runOk_bind_cases hr with ⟨p', hp', rfl, hne⟩ | ⟨a, s1, k, m', rfl, hk, hm⟩
  · -- the session serves its requests
    have hleft := wp_runOk_file (I := Left n N old old s.file) (fun _ _ hI hw => hI.write rfl hw) (hwork old) hp'
      (hall old _) hstart
    refine ⟨old, ⟨fun b _ => .inl rfl, hleft, fun bs k hq => ?_⟩, fun _ => hleft⟩
    cases p' with
    | write bs' k' =>
      cases hq
      exact (wp_runOk (hwork old) hp' (hall old _) s'.file rfl).2.1
    | ret a => exact absurd rfl (hne a)
    | _ => cases hq
  · -- the session is being closed
    obtain ⟨replies, d, new, rfl, hI, -⟩ := wp_runOk (hwork old) hk (hall old _)
    have hleft1 := wp_runOk_file (I := Left n N old old s.file) (fun _ _ hI hw => hI.write rfl hw) (hwork old) hk
      (hall old _) hstart
    generalize hrecs : new ++ old = recs at hI
    have hclose : wp (crashLogic n N old recs) ((tdClose d).bind fun r => .ret (some (replies, r)))
        (fun _ _ => True) s1 := by
      simp only [tdClose, Prog.bind_eq, Prog.bind_assoc]
      refine wp_seq (wp_pdFinalize (bio_mode.allowing _) hn (hlog recs) (fun _ _ _ hw => .final hw) hI
        fun h => h.elim) ?_
      intro _ _ _
      trivial
    refine ⟨recs, ⟨fun b hb => .inr ⟨replies, d, s1, ⟨k, hk⟩, hI.versions hb⟩, ?_, fun bs k hq => ?_⟩, fun hno => ?_⟩
    · exact wp_runOk_file (I := Left n N old recs s.file) (fun _ _ hI hw => hI.write rfl hw) hclose hm (hall recs _)
        (hleft1.mono recs)
    · have hq := wp_runOk hclose hm (hall recs _)
      simp only at *
      subst q
      exact (hq s'.file rfl).2.1
    · refine wp_runOk_until (I := Left n N old old s.file) (P := fun s => s.pos = 512)
        (fun _ _ hp hI hw => hI.write_before rfl hw hp) hclose hm (hall recs _) (fun j hj bs k' s2 h2 hp => ?_) hleft1
      have hrun : runOk (k + j) (S.run, s) = some (.write bs k', s2) := by
        rw [runOk_add, show runOk k (S.run, s) = _ from run_bind _ hk]
        exact h2
      exact hno (k + j) (by omega) _ hrun ⟨hp, bs, k', rfl⟩

/-- **A kill** leaves a database. -/
theorem Killed.left {begun : Bool} {s' : Os Event} (hk : Killed S s begun s') :
    ∃ recs, (∀ b < n, chainOf recs b = chainOf old b ∨ Built S s b (chainOf recs b)) ∧
      Left n N old recs s.file s'.file ∧ (begun = false → Left n N old old s.file s'.file) := by
  cases hk with
  | before hr hno =>
    obtain ⟨recs, hR, hbefore⟩ := run_left hn hf hreqs hr
    exact ⟨recs, hR.built, hR.left, fun _ => hbefore hno⟩
  | behind hr _ _ _ =>
    obtain ⟨recs, hR, -⟩ := run_left hn hf hreqs hr
    exact ⟨recs, hR.built, hR.left, nofun⟩
  | @within m k c c' hr hat hs =>
    obtain ⟨p, s1⟩ := c
    obtain ⟨hp, bs, k', rfl⟩ := hat
    simp only [step] at hs
    split at hs
    · rename_i hshort
      cases hs
      obtain ⟨recs, hR, -⟩ := run_left hn hf hreqs hr
      exact ⟨recs, hR.built, hR.left.write_within rfl (hR.next bs k' rfl) hp (Nat.le_of_lt hshort.1), nofun⟩
    · cases hs

end

/-! ## Runs -/

/-- Whatever sessions have been killed, the file is a database. -/
theorem Reached.database (hn : n < 2 ^ 31) {s : Os Event} (h : Reached n s) :
    ∃ N recs, FileInv n N recs s.file := by
  induction h with
  | new => exact ⟨_, _, newDatabase_inv hn⟩
  | session _ hreqs hk ih =>
    obtain ⟨N, recs, hf⟩ := ih
    obtain ⟨recs', -, ⟨⟨N', recs'', -, hf', -⟩, -⟩, -⟩ := hk.left hn hf hreqs
    exact ⟨N', recs'', hf'⟩

/-- **Crash consistency.** After any sessions, killed or not, one more session that ends or is killed
leaves every block its chain or, once the write of the index has begun, the one that the session
built. It writes over no byte of a chain that it found. -/
theorem crash_consistent (hn : n < 2 ^ 31) {s s' : Os Event} (hs : Reached n s) {S : Session}
    (hreqs : ∀ req ∈ S.requests, req.Inside n) {begun : Bool} (hk : Killed S s begun s') :
    ∃ found after, Finds n s found ∧ Finds n s' after ∧
      (∀ b < n, after b = found b ∨ begun = true ∧ Built S s b (after b)) ∧
      ∀ b < n, ∀ v ∈ found b, ∀ i, v.off ≤ i → i < v.stop → byteAt s'.file i = byteAt s.file i := by
  obtain ⟨N, old, hf⟩ := hs.database hn
  have hlog : ∀ b < n, ∀ v ∈ chainOf old b, ∀ i, v.off ≤ i → i < v.stop → logStart n ≤ i ∧ i < N :=
    fun b _ v hv i h1 h2 => by
      obtain ⟨r, hr, -, rfl⟩ := mem_chainOf.1 hv
      exact ⟨Nat.le_trans (hf.wf.mem hr).2.1 h1, Nat.lt_of_lt_of_le h2 (hf.below r hr)⟩
  obtain ⟨recs, hbuilt, hleft, hbefore⟩ := hk.left hn hf hreqs
  cases begun with
  | false =>
    obtain ⟨⟨N', recs', -, hf', hchain⟩, hsame⟩ := hbefore rfl
    refine ⟨_, _, hf.finds hn, hf'.finds hn, fun b _ => .inl ((hchain b).elim id id), fun b hb v hv i h1 h2 => ?_⟩
    obtain ⟨h3, h4⟩ := hlog b hb v hv i h1 h2
    exact hsame i h3 h4
  | true =>
    obtain ⟨⟨N', recs', -, hf', hchain⟩, hsame⟩ := hleft
    refine ⟨_, _, hf.finds hn, hf'.finds hn, fun b hb => ?_, fun b hb v hv i h1 h2 => ?_⟩
    · rcases hchain b with h | h
      · exact .inl h
      · rw [h]
        exact (hbuilt b hb).imp_right fun hB => ⟨rfl, hB⟩
    · obtain ⟨h3, h4⟩ := hlog b hb v hv i h1 h2
      exact hsame i h3 h4

/-! ## A kill inside the index -/

/-- A session that logs a version comes to the write of the index. -/
theorem exists_at_index (hn : n < 2 ^ 31) {s s' : Os Event} (hf : FileInv n N old s.file) {S : Session}
    (hreqs : ∀ req ∈ S.requests, req.Inside n) {m : Nat} {q : Prog Event (Option (List Reply × Int))}
    (hr : runOk m (S.run, s) = some (q, s')) {N' : Nat} (hf' : FileInv n N' recs s'.file) {b : Nat} (hb : b < n)
    (hlen : (chainOf recs b).length ≠ (chainOf old b).length) : ∃ j < m, ∃ c, runOk j (S.run, s) = some c ∧ AtIndex c := by
  by_contra hno
  have hk : Killed S s false s' := .before hr fun j hlt c hj hat => hno ⟨j, hlt, c, hj, hat⟩
  obtain ⟨-, -, -, hbefore⟩ := hk.left hn hf hreqs
  obtain ⟨N1, recs1, -, hf1, hchain⟩ := (hbefore rfl).database
  refine hlen ?_
  rw [(hf'.chain hb).unique (hf1.chain hb), (hchain b).elim id id]

/-- The index is written as a whole. -/
theorem length_index_write (hn : n < 2 ^ 31) (h0 : 0 < n) {s : Os Event} (hf : FileInv n N old s.file) {S : Session}
    (hreqs : ∀ req ∈ S.requests, req.Inside n) {m : Nat} {s1 : Os Event} {bs : Mem}
    {k : Option Nat → Prog Event (Option (List Reply × Int))} (hr : runOk m (S.run, s) = some (.write bs k, s1))
    (hpos : s1.pos = 512) : bs.length = tableBytes n := by
  have ht := tableBytes_bounds n
  have hl := logStart_bounds n
  have hstart := hf.start
  obtain ⟨recs, hR, -⟩ := run_left hn hf hreqs hr
  cases hR.next bs k rfl with
  | log _ hp =>
    simp only at hp
    omega
  | final hw =>
    cases hw with
    | header hp _ _ =>
      simp only at hp
      omega
    | index _ _ hb hready =>
      rw [hb, length_encodeIndex, hready.length]
      omega

/-- The small session on a database with a version of its block, killed when one entry of the index is written. -/
theorem crash_consistent_small : ∃ s m c c' found after, Reached 1 s ∧ runOk m (smallSession.run, s) = some c ∧
    AtIndex c ∧ step (.short 8) c = some c' ∧ Killed smallSession s true c'.2 ∧ Finds 1 s found ∧ (found 0).length = 1 ∧
    Finds 1 c'.2 after ∧ (∀ b < 1, after b = found b ∨ true = true ∧ Built smallSession s b (after b)) ∧
    ∀ b < 1, ∀ v ∈ found b, ∀ i, v.off ≤ i → i < v.stop → byteAt c'.2.file i = byteAt s.file i := by
  have hstart : logStart 1 = 1024 := rfl
  obtain ⟨m1, r1, s, N, recs, hr1, hf, hfull, ha, hN, hlen⟩ := small_session 1 (newDatabase_inv (n := 1) (by decide))
    nofun trivial (by decide)
  obtain ⟨begun, hk1⟩ := Killed.of_run hr1
  have hs : Reached 1 s := .session .new smallSession_inside hk1
  obtain ⟨m2, r2, s2, N2, recs2, hr2, hf2, -, -, -, hlen2⟩ := small_session 1 hf hfull ha (by simp only [offMax]; omega)
  obtain ⟨m, -, ⟨p, s1⟩, hr, hat⟩ := exists_at_index (by decide) hf smallSession_inside hr2 hf2 (b := 0) (by decide)
    (by omega)
  obtain ⟨hpos, bs, k, hp⟩ := hat
  simp only at hpos hp
  subst hp
  have hbs := length_index_write (by decide) (by decide) hf smallSession_inside hr hpos
  have hstep : step (.short 8) (.write bs k, s1) = some (k (some 8), s1.afterWrite (bs.take 8)) :=
    if_pos ⟨by rw [hbs]; decide, by rw [hpos]; decide⟩
  have hk : Killed smallSession s true (s1.afterWrite (bs.take 8)) := .within (k := 1) hr ⟨hpos, bs, k, rfl⟩ hstep
  obtain ⟨found, after, hfound, hafter, hchain, hkept⟩ := crash_consistent (by decide) hs smallSession_inside hk
  refine ⟨s, m, _, _, found, after, hs, hr, ⟨hpos, bs, k, rfl⟩, hstep, hk, hfound, ?_, hafter, hchain, hkept⟩
  rw [hfound.unique (hf.finds (by decide)) (by decide), hlen]
  rfl

end LogDrive
