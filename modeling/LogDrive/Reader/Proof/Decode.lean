import LogDrive.Reader.Proof.Convert
import LogDrive.Driver.Proof.Runs

/-!
# The Java reader on what the driver wrote

A file that sessions leave is well formed for the reader, with the chains of their log
(`FileInv.wellFormed`). `reader_decodes`: the reader and the converter give exactly that log, as long as no
block has more versions than an `int` can count.
-/

set_option autoImplicit false

open Bytes Java

namespace LogDrive

/-! ## A file of the driver -/

theorem FileInv.wellFormed {n N : Nat} {recs : List Rec} {f : Mem} (h : FileInv n N recs f) (hn : n < 2 ^ 31) :
    WellFormed f 4096 n (chainOf recs) := by
  obtain ⟨h12, -⟩ := holds_append.1 h.header
  obtain ⟨h1, h2⟩ := holds_append.1 h12
  simp only [length_le, Nat.zero_add] at h2
  have hdisk := numAt_of_holds h1 (by omega)
  have hbound := h.bound
  simp only [offMax] at hbound
  refine ⟨numAt_of_holds h2 (by decide), by decide, by decide, ?_, hn, fun b hb => h.chain hb, fun b hb v hv => ?_⟩
  · rw [hdisk, Nat.mul_div_cancel _ (by decide)]
  · obtain ⟨r, hr, -, rfl⟩ := mem_chainOf.1 hv
    have hbelow := h.below r hr
    exact ⟨h.inFile r hr, by omega, (h.wf.mem hr).2.2.short⟩

theorem length_chainOf_le (recs : List Rec) (b : Nat) : (chainOf recs b).length ≤ recs.length := by
  induction recs with
  | nil => exact Nat.le_refl _
  | cons r rs ih =>
    rw [chainOf]
    split <;> simp only [List.length_cons] <;> omega

/-! ## Following the chain by hand -/

/-- The record that `j` steps of `getRecordSequence` from `offset` reach. -/
def PreservationDatabase.follow (db : PreservationDatabase) : Nat → Nat → Exec (Option PreservationRecord)
  | 0, offset => db.getRecordSequence offset
  | j + 1, offset => do
    let found ← db.getRecordSequence offset
    let record ← nonNull found
    db.follow j record.nextOffset

theorem WellFormed.follow_eq {file : Mem} {bs n : Nat} {chains : Nat → List Version} (h : WellFormed file bs n chains)
    {j : Nat} : ∀ {vs : List Version} {off : Nat}, Chain (byteAt file) off vs → (∀ v ∈ vs, v.Readable file bs) →
    ∀ hj : j < vs.length, (PreservationDatabase.ofFile file).follow j off = .ok (some (.ofVersion vs[j])) := by
  induction j with
  | zero =>
    intro vs off hc hv hj
    obtain ⟨v, vs, rfl⟩ := List.exists_cons_of_ne_nil (List.ne_nil_of_length_pos hj)
    obtain ⟨-, rfl, -, -, -⟩ := hc.cases_cons hv
    exact h.getRecordSequence_eq (hv _ List.mem_cons_self)
  | succ j ih =>
    intro vs off hc hv hj
    obtain ⟨v, vs, rfl⟩ := List.exists_cons_of_ne_nil (List.ne_nil_of_length_pos (Nat.lt_of_le_of_lt (Nat.zero_le _) hj))
    obtain ⟨-, rfl, hrest, -, hvs⟩ := hc.cases_cons hv
    rw [List.length_cons] at hj
    rw [PreservationDatabase.follow, h.getRecordSequence_eq (hv _ List.mem_cons_self), ok_bind, nonNull_some, ok_bind]
    exact ih hrest hvs (by omega)

/-! ## The log -/

/-- The reader gives the log `recs` of `n` blocks that ends at `N`, and so does the converter: the fields of
the header and the index, the number of versions of a block, each version by `getRecord` and by following
the chain, and all versions in the sequence file. -/
structure ReaderDecodes (file : Mem) (n N : Nat) (recs : List Rec) : Prop where
  diskSize : (PreservationDatabase.ofFile file).diskSize = (n * 4096 : Nat)
  blockSize : (PreservationDatabase.ofFile file).blockSize = 4096
  nextOffset : (PreservationDatabase.ofFile file).nextOffset = N
  indexTable : ∃ table, (PreservationDatabase.ofFile file).indexTable = some table ∧ table.length = n ∧
    ∀ b < n, table[b]? = some (headOff (chainOf recs b) : Int)
  number : ∀ b < n, ∀ fuel > recs.length,
    (PreservationDatabase.ofFile file).getNumOfRecord fuel b = .ok ((chainOf recs b).length : Int)
  record : ∀ b < n, ∀ j, (hj : j < (chainOf recs b).length) → j < 2 ^ 31 → ∀ fuel > recs.length,
    (PreservationDatabase.ofFile file).getRecord fuel b j = .ok (some (.ofVersion (chainOf recs b)[j])) ∧
    (PreservationDatabase.ofFile file).follow j (headOff (chainOf recs b)) = .ok (some (.ofVersion (chainOf recs b)[j]))
  appended : ∀ fuel > recs.length, ∀ count > n,
    (convertToSequenceFileFromLdLocal fuel count file).1 =
      ((List.range n).flatMap fun b => (chainOf recs b).map (recordPair b)) ∧
    (convertToSequenceFileFromLdLocal fuel count file).2.2 = .ok ()

/-- **The reader decodes the log** exactly when it can count the versions of every block. -/
theorem FileInv.decodes_iff {n N : Nat} {recs : List Rec} {f : Mem} (h : FileInv n N recs f) (hn : n < 2 ^ 28) :
    ReaderDecodes f n N recs ↔ ∀ b < n, (chainOf recs b).length < 2 ^ 31 := by
  have hw := h.wellFormed (by omega)
  have hload := loadedEntries_eq hn
  have hfuel : ∀ b, ∀ fuel > recs.length, (chainOf recs b).length < fuel := fun b fuel hf =>
    Nat.lt_of_le_of_lt (length_chainOf_le recs b) hf
  constructor
  · intro hd b hb
    have hnum := hd.number b hb _ (Nat.lt_succ_self _)
    rw [hw.getNumOfRecord_eq hb (hfuel b _ (Nat.lt_succ_self _)), hload, if_pos hb] at hnum
    have hint := Except.ok.inj hnum
    have hrange := int_range (chainOf recs b).length
    omega
  · intro hlt
    obtain ⟨start, table, hdb, hlen, hget⟩ := ofFile_eq hw.blockSize hw.pos hw.intSize hw.blocks hw.count
    have hchain : ∀ b < n, convertedChain n (chainOf recs) b = chainOf recs b := fun b hb => by
      rw [convertedChain, hload, int_of_lt (hlt b hb)]
      split
      · rfl
      · rename_i hno
        refine (List.length_eq_zero_iff.1 ?_).symm
        by_contra hne
        exact hno ⟨hb, by omega⟩
    have hdisk : numAt (byteAt f) 0 8 = n * 4096 :=
      numAt_of_holds (holds_append.1 (holds_append.1 h.header).1).1 (by omega)
    refine ⟨by rw [hdb, hdisk], by rw [hdb]; rfl, by rw [hdb]; exact h.next, ⟨table, by rw [hdb], hlen, fun b hb => ?_⟩,
      fun b hb fuel hf => ?_, fun b hb j hj hint fuel hf => ⟨?_, ?_⟩, fun fuel hf count hcount => ?_⟩
    · rw [hget b hb, hload, if_pos hb, ← h.index b hb]
      have hoff : storedEntry f b < 2 ^ 63 := by
        rw [← (hw.chain b hb).headOff_eq]
        exact headOff_lt (hw.version b hb)
      exact congrArg some (long_of_lt hoff)
    · rw [hw.getNumOfRecord_eq hb (hfuel b fuel hf), hload, if_pos hb, int_of_lt (hlt b hb)]
    · exact hw.getRecord_eq hb (by omega) hj hint (hfuel b fuel hf)
    · rw [(hw.chain b hb).headOff_eq]
      exact hw.follow_eq (hw.chain b hb) (hw.version b hb) hj
    · rw [hw.convert_eq (fun b _ => hfuel b fuel hf) hcount]
      refine ⟨?_, rfl⟩
      rw [converted, appended_foldl]
      exact List.flatMap_congr fun b hb => by rw [hchain b (List.mem_range.1 hb)]

/-! ## Runs -/

/-- The last session is a history up to its last request, and then the close. -/
theorem last_session {past : List Session} {S : Session} : ∀ {s s' : Os Event} {replies : List Reply},
    Done (runSessions (past ++ [S])) s replies s' → ∃ r s1, Done (history past S) s r s1 ∧
      ∀ served d, r = some (served, d) → ∃ code, Done (tdClose d) s1 code s' := by
  induction past with
  | nil =>
    intro s s' replies h
    obtain ⟨r, s1, hrun, hrest⟩ := Done.bind_inv h
    obtain ⟨rfl, rfl⟩ := Done.ret_inv hrest
    obtain ⟨w, s2, hwork, hclose⟩ := Done.bind_inv hrun
    refine ⟨w, s2, hwork, ?_⟩
    rintro served d rfl
    obtain ⟨code, s3, hdone, hend⟩ := Done.bind_inv hclose
    obtain ⟨-, rfl⟩ := Done.ret_inv hend
    exact ⟨code, hdone⟩
  | cons S' past ih =>
    intro s s' replies h
    obtain ⟨r', s1, hrun, hrest⟩ := Done.bind_inv h
    obtain ⟨more, s2, hmore, hend⟩ := Done.bind_inv hrest
    obtain ⟨-, rfl⟩ := Done.ret_inv hend
    obtain ⟨r, s3, hhist, hclose⟩ := ih hmore
    obtain ⟨earlier, s4, hpast, hwork⟩ := Done.bind_inv hhist
    exact ⟨r, s3, Done.bind (Done.bind hrun (Done.bind hpast (Done.ret _ _))) hwork, hclose⟩

/-- The index table that the last session holds when it closes the file. -/
def LastTable (Ss : List Session) (n : Nat) (s : Os Event) (entry : Nat → Nat) : Prop :=
  ∀ past S, Ss = past ++ [S] → ∃ served d s1 code, Done (history past S) (newDatabase n) (some (served, d)) s1 ∧
    Done (tdClose d) s1 code s ∧ ∀ b < n, d.indexTable[b]? = some (entry b)

/-- What sessions leave in the file. -/
theorem sessions_log {n : Nat} (hn : n < 2 ^ 31) {Ss : List Session}
    (hreqs : ∀ S ∈ Ss, ∀ req ∈ S.requests, req.Inside n) {replies : List Reply} {s : Os Event}
    (hd : Done (runSessions Ss) (newDatabase n) replies s) :
    ∃ N recs earlier, FileInv n N recs s.file ∧ ServeRun False [] (Ss.flatMap Session.requests) earlier recs ∧
      LastTable Ss n s fun b => headOff (chainOf recs b) := by
  rcases List.eq_nil_or_concat Ss with rfl | ⟨past, S, rfl⟩
  · obtain ⟨-, rfl⟩ := Done.ret_inv hd
    exact ⟨logStart n, [], [], newDatabase_inv hn, .done, fun past S h => by simp at h⟩
  · rw [List.concat_eq_append] at *
    obtain ⟨r, s1, hhist, hclose⟩ := last_session hd
    have hpast : ∀ S' ∈ past, ∀ req ∈ S'.requests, req.Inside n := fun S' hS' => hreqs S' (List.mem_append_left _ hS')
    have hlast : ∀ req ∈ S.requests, req.Inside n := hreqs S (List.mem_append_right _ (List.mem_singleton_self S))
    have h := wp_history bio_mode hn (fun _ _ _ => trivial) (newDatabase_inv hn) hpast hlast [] fun h => h.elim
    obtain ⟨served, d, N, new, old, earlier, rfl, hI, h1, h2, -⟩ := bio_done h hhist
    obtain ⟨code, hdone⟩ := hclose served d rfl
    obtain ⟨_, s2, hfin, hend⟩ := Done.bind_inv hdone
    obtain ⟨-, rfl⟩ := Done.ret_inv hend
    obtain ⟨N', hC⟩ := bio_done (wp_pdFinalize bio_mode hn (fun _ _ _ _ _ _ => trivial) (fun _ _ _ _ => trivial) hI
      fun h => h.elim) hfin
    refine ⟨N', new ++ old, earlier ++ served, hC.database, ?_, fun past' S' heq => ?_⟩
    · rw [List.flatMap_append, List.flatMap_singleton]
      exact h1.append h2
    · obtain ⟨rfl, h1⟩ := List.append_inj' heq rfl
      obtain rfl := List.cons.inj h1 |>.1
      exact ⟨served, d, s1, code, hhist, hdone, hI.table⟩

/-- **The Java reader decodes what the driver wrote** in any sessions on a database laid out by
`mkimage.rb`, exactly when no block has `2 ^ 31` versions or more. -/
theorem reader_decodes {n : Nat} (hn : n < 2 ^ 28) {Ss : List Session}
    (hreqs : ∀ S ∈ Ss, ∀ req ∈ S.requests, req.Inside n) {replies : List Reply} {s : Os Event}
    (hd : Done (runSessions Ss) (newDatabase n) replies s) :
    ∃ N recs earlier, FileInv n N recs s.file ∧ ServeRun False [] (Ss.flatMap Session.requests) earlier recs ∧
      LastTable Ss n s (fun b => headOff (chainOf recs b)) ∧
      (ReaderDecodes s.file n N recs ↔ ∀ b < n, (chainOf recs b).length < 2 ^ 31) := by
  obtain ⟨N, recs, earlier, hf, hR, htable⟩ := sessions_log (by omega) hreqs hd
  exact ⟨N, recs, earlier, hf, hR, htable, hf.decodes_iff hn⟩

/-! ## Many sessions -/

/-- Two sectors of ones, the last one of block 0 and the first one of block 1. -/
def spanWrite : WriteRequest where
  sec := 7
  secs := 2
  buf _ := 1
  ts := ⟨1, 0⟩
  pad _ := 0

def spanSession : Session := ⟨zeroJunk, [.write spanWrite]⟩

theorem spanSession_inside : ∀ req ∈ spanSession.requests, req.Inside 2 := fun req hr => by
  rcases List.mem_singleton.1 hr with rfl
  exact ⟨by decide, by decide⟩

theorem span_affordable (recs : List Rec) : Affordable True 0 recs spanSession.requests := by
  refine ⟨Finset.range 2, by rw [Finset.card_range, bufferSize_eq]; decide, fun b ht hb => ?_, fun _ _ => trivial⟩
  have hb2 : 8 * b < 9 := ht.2.2
  exact absurd (Finset.mem_range.2 (by omega)) hb

/-- Each of the two blocks gets a version. -/
theorem span_pushes {recs recs' : List Rec} (h : WriteStep True spanWrite recs recs') {b : Nat} (hb : b < 2) :
    (chainOf recs' b).length = (chainOf recs b).length + 1 := by
  obtain rfl | rfl : b = 0 ∨ b = 1 := by omega
  · refine h.pushes (p := 3584) ⟨by decide, by decide, by decide⟩ (by decide) fun old => ?_
    rw [TdRequest.patch, if_pos ⟨by decide, by decide⟩]
    exact show (1 : UInt8) ≠ 0 by decide
  · refine h.pushes (p := 0) ⟨by decide, by decide, by decide⟩ (by decide) fun old => ?_
    rw [TdRequest.patch, if_pos ⟨by decide, by decide⟩]
    exact show (1 : UInt8) ≠ 0 by decide

theorem span_run {k : Nat} {b : Nat} (hb : b < 2) : ∀ {recs recs' : List Rec} {replies : List Reply},
    ServeRun True recs (List.replicate k (.write spanWrite)) replies recs' →
    (chainOf recs' b).length = (chainOf recs b).length + k := by
  induction k with
  | zero =>
    intro recs recs' replies h
    cases h
    rfl
  | succ k ih =>
    intro recs recs' replies h
    rw [List.replicate_succ] at h
    cases h with
    | cons hs hrest =>
      cases hs with
      | write hw => rw [ih hrest, span_pushes hw hb, Nat.add_assoc, Nat.add_comm 1 k]

theorem span_affordableAll (k : Nat) : ∀ recs, AffordableAll True recs (List.replicate k spanSession) := by
  induction k with
  | zero => exact fun _ => trivial
  | succ k ih => exact fun recs => ⟨span_affordable recs, fun _ recs' _ => ih recs'⟩

theorem span_requests (k : Nat) :
    (List.replicate k spanSession).flatMap Session.requests = List.replicate k (.write spanWrite) := by
  induction k with
  | zero => rfl
  | succ k ih =>
    rw [List.replicate_succ, List.flatMap_cons, ih]
    rfl

/-- `k` sessions of one write each. -/
theorem exists_span_sessions {k : Nat} (hk : k < 2 ^ 32) : ∃ replies s N recs,
    Done (runSessions (List.replicate k spanSession)) (newDatabase 2) replies s ∧ FileInv 2 N recs s.file ∧
    ∀ b < 2, (chainOf recs b).length = k := by
  have hinside : ∀ S ∈ List.replicate k spanSession, ∀ req ∈ S.requests, req.Inside 2 := fun S hS => by
    obtain rfl := List.eq_of_mem_replicate hS
    exact spanSession_inside
  have h := wp_runSessions total_mode (by decide) (fun _ _ _ => trivial) (newDatabase_inv (n := 2) (by decide)) hinside []
    fun _ => ⟨nofun, by rw [List.append_nil]; exact span_affordableAll k [], by
      have hstart : logStart 2 = 1024 := rfl
      rw [List.length_replicate, hstart]
      simp only [offMax]
      omega⟩
  obtain ⟨replies, s, hd, ⟨N, recs, hf, hR, -⟩, -⟩ := exists_done h trivial
  rw [List.append_nil] at hf hR
  rw [span_requests] at hR
  refine ⟨replies, s, N, recs, hd, hf, fun b hb => ?_⟩
  rw [span_run hb hR]
  exact Nat.zero_add k

/-- Three sessions that each put a version in front of two blocks. -/
theorem reader_decodes_three : ∃ replies s N recs,
    Done (runSessions (List.replicate 3 spanSession)) (newDatabase 2) replies s ∧
    ReaderDecodes s.file 2 N recs ∧ ∀ b < 2, (chainOf recs b).length = 3 := by
  obtain ⟨replies, s, N, recs, hd, hf, hlen⟩ := @exists_span_sessions 3 (by decide)
  obtain ⟨N', recs', -, hf', -, -, hiff⟩ := reader_decodes (by decide) (fun S hS req hr => by
    obtain rfl := List.eq_of_mem_replicate hS
    exact spanSession_inside req hr) hd
  have hlen' : ∀ b < 2, (chainOf recs' b).length = 3 := fun b hb => by
    rw [(hf'.chain hb).unique (hf.chain hb), hlen b hb]
  exact ⟨replies, s, N', recs', hd, hiff.2 fun b hb => by rw [hlen' b hb]; decide, hlen'⟩

/-- Blocks with `2 ^ 31` versions, of as many sessions: the reader counts a negative number. -/
theorem reader_miscounts : ¬ ∀ (n : Nat) (Ss : List Session) (replies : List Reply) (s : Os Event), n < 2 ^ 28 →
    (∀ S ∈ Ss, ∀ req ∈ S.requests, req.Inside n) → Done (runSessions Ss) (newDatabase n) replies s →
    ∃ N recs, FileInv n N recs s.file ∧ ReaderDecodes s.file n N recs := by
  intro h
  obtain ⟨replies, s, N, recs, hd, hf, hlen⟩ := @exists_span_sessions (2 ^ 31) (by decide)
  obtain ⟨N', recs', hf', hdecodes⟩ := h 2 _ replies s (by decide) (fun S hS req hr => by
    obtain rfl := List.eq_of_mem_replicate hS
    exact spanSession_inside req hr) hd
  have hlt := (hf'.decodes_iff (by decide)).1 hdecodes 0 (by decide)
  rw [(hf'.chain (by decide)).unique (hf.chain (by decide)), hlen 0 (by decide)] at hlt
  omega

end LogDrive
