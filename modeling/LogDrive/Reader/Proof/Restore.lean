import LogDrive.Reader.Proof.Decode
import LogDrive.Driver.Proof.Crash
import LogDrive.Driver.Proof.Isolation

/-!
# The past from a sequence file

`sequenceRead ts pairs treq` is what a sequence file says that a read at the time `ts` gave: a block is as
its first record before `ts` says, and zero without one. The converter's file says of every past time what
a time-travel session on the database delivers (`sequence_restores`), and so what the writes until then
have left (`sequence_history`).
-/

set_option autoImplicit false

open Bytes Java

namespace LogDrive

open SectorArray

/-! ## Reading a sequence file -/

/-- The number of the block in a key. -/
def keyBlock (key : Mem) : Nat := unle (slice key 16 8)

/-- The timestamp in a key. -/
def keyTime (key : Mem) : TimeSpec := ⟨decodeInt64 (slice key 0 8), decodeInt64 (slice key 8 8)⟩

/-- The bytes of block `b` as of `ts`. -/
def sequenceByte (ts : TimeSpec) (pairs : List (Mem × Mem)) (b p : Nat) : UInt8 :=
  match pairs.find? fun pair => decide (keyBlock pair.1 = b) && (keyTime pair.1).before ts with
  | some pair => byteAt pair.2 p
  | none => 0

/-- The bytes of a request as of `ts`. -/
def sequenceRead (ts : TimeSpec) (pairs : List (Mem × Mem)) (treq : TdRequest) : Mem :=
  tabulate (fun k => diskByte (sequenceByte ts pairs) (treq.sec * 512 + k)) (treq.secs * 512)

/-- The records of the converter's file. -/
def sequenceOf (n : Nat) (recs : List Rec) : List (Mem × Mem) :=
  (List.range n).flatMap fun b => (chainOf recs b).map (recordPair b)

theorem keyBlock_keyBytes (h : EntryHeader) {b : Nat} (hb : b < 2 ^ 64) : keyBlock (keyBytes h b) = b := by
  have hslice : slice (keyBytes h b) 16 8 = le 8 b :=
    slice_mid (encodeInt64 h.ts.tvSec ++ encodeInt64 h.ts.tvNsec) _ (le 2 h.dataSize ++ (slice h.pad 0 1 ++ zeros 5))
      (by simp only [keyBytes, List.append_assoc]) (by simp) (length_le ..)
  rw [keyBlock, hslice, unle_le (by omega)]

theorem keyTime_keyBytes (h : EntryHeader) (b : Nat) : keyTime (keyBytes h b) = h.ts := by
  have hsec : slice (keyBytes h b) 0 8 = encodeInt64 h.ts.tvSec :=
    slice_mid [] _ _ rfl rfl (length_encodeInt64 _)
  have hnsec : slice (keyBytes h b) 8 8 = encodeInt64 h.ts.tvNsec :=
    slice_mid (encodeInt64 h.ts.tvSec) _ _ rfl (length_encodeInt64 _) (length_encodeInt64 _)
  rw [keyTime, hsec, hnsec, decodeInt64_encodeInt64, decodeInt64_encodeInt64]

/-- A search that can succeed for one item only. -/
theorem findSome?_unique {α β : Type} {f : α → Option β} {a : α} : ∀ {as : List α}, a ∈ as →
    (∀ x ∈ as, x ≠ a → f x = none) → as.findSome? f = f a
  | x :: as, hmem, hother => by
    by_cases hx : x = a
    · subst hx
      cases hfx : f x with
      | some y => rw [List.findSome?_cons_of_isSome (by rw [hfx]; rfl), hfx]
      | none =>
        rw [List.findSome?_cons_of_isNone (by rw [hfx]; rfl), List.findSome?_eq_none_iff]
        intro y hy
        by_cases hyx : y = x
        · rw [hyx, hfx]
        · exact hother y (List.mem_cons_of_mem _ hy) hyx
    · rw [List.findSome?_cons_of_isNone (by rw [hother x List.mem_cons_self hx]; rfl)]
      exact findSome?_unique ((List.mem_cons.1 hmem).resolve_left (Ne.symm hx)) fun y hy =>
        hother y (List.mem_cons_of_mem _ hy)

/-- The record that is looked for is that of the version as of `ts`. -/
theorem find_sequenceOf {n : Nat} (hn : n < 2 ^ 64) (recs : List Rec) (ts : TimeSpec) {b : Nat} (hb : b < n) :
    (sequenceOf n recs).find? (fun pair => decide (keyBlock pair.1 = b) && (keyTime pair.1).before ts) =
      (asOfVersion ts (chainOf recs b)).map (recordPair b) := by
  have hblock : ∀ b' < n, ((chainOf recs b').map (recordPair b')).find?
      (fun pair => decide (keyBlock pair.1 = b) && (keyTime pair.1).before ts) =
      ((chainOf recs b').find? fun v => decide (b' = b) && v.head.ts.before ts).map (recordPair b') := by
    intro b' hb'
    have hpair : ((fun pair : Mem × Mem => decide (keyBlock pair.1 = b) && (keyTime pair.1).before ts) ∘ recordPair b') =
        fun v => decide (b' = b) && v.head.ts.before ts := funext fun v => by
      have hkey : keyBlock (keyBytes v.head b') = b' := keyBlock_keyBytes v.head (Nat.lt_trans hb' hn)
      simp only [Function.comp_apply, recordPair, hkey, keyTime_keyBytes]
    rw [List.find?_map, hpair]
  rw [sequenceOf, List.find?_flatMap, findSome?_unique (List.mem_range.2 hb), hblock b hb]
  · simp only [decide_true, Bool.true_and]
    rfl
  · intro b' hb' hne
    rw [hblock b' (List.mem_range.1 hb'), Option.map_eq_none_iff, List.find?_eq_none]
    intro v _
    rw [decide_eq_false hne, Bool.false_and]
    exact Bool.false_ne_true

theorem sequenceByte_eq {n : Nat} (hn : n < 2 ^ 64) (recs : List Rec) (ts : TimeSpec) {b : Nat} (hb : b < n) (p : Nat) :
    sequenceByte ts (sequenceOf n recs) b p = asOfByte ts recs b p := by
  rw [sequenceByte, find_sequenceOf hn recs ts hb, asOfByte]
  cases asOfVersion ts (chainOf recs b) <;> rfl

/-- **A read from the sequence file** is the read of the records as of `ts`. -/
theorem sequenceRead_eq {n : Nat} (hn : n < 2 ^ 64) (recs : List Rec) (ts : TimeSpec) {treq : TdRequest}
    (hreq : treq.Inside n) : Reply.got 0 (sequenceRead ts (sequenceOf n recs) treq) = asOfReply ts recs treq := by
  have hinside := hreq.inside
  have hbytes : sequenceRead ts (sequenceOf n recs) treq =
      tabulate (fun k => diskByte (asOfByte ts recs) (treq.sec * 512 + k)) (treq.secs * 512) := by
    refine ext_byteAt (by rw [sequenceRead, length_tabulate, length_tabulate]) fun k hk => ?_
    rw [sequenceRead, length_tabulate] at hk
    rw [sequenceRead, byteAt_tabulate hk, byteAt_tabulate hk]
    exact sequenceByte_eq hn recs ts (by omega) _
  rw [hbytes, asOfReply]

/-! ## What sessions leave -/

/-- No block of the database has `2 ^ 31` versions. -/
def FewVersions (n : Nat) (f : Mem) : Prop :=
  ∀ b < n, ∀ vs, Chain (byteAt f) (fileIndex f b) vs → vs.length < 2 ^ 31

theorem FileInv.few {n N : Nat} {recs : List Rec} {f : Mem} (h : FileInv n N recs f) (hfew : FewVersions n f) :
    ∀ b < n, (chainOf recs b).length < 2 ^ 31 := fun b hb => hfew b hb _ (h.chain hb)

/-- Fewer writes than that leave no more versions. -/
theorem FileInv.fewVersions {n N : Nat} {recs : List Rec} {f : Mem} (h : FileInv n N recs f)
    (hlen : ∀ b < n, (chainOf recs b).length < 2 ^ 31) : FewVersions n f := fun b hb vs hc => by
  rw [hc.unique (h.chain hb)]
  exact hlen b hb

/-- No block has more versions than there have been writes. -/
theorem ServeRun.length_le {T : Prop} {recs : List Rec} {reqs : List Request} {rs : List Reply}
    (h : ServeRun T [] reqs rs recs) (b : Nat) : (chainOf recs b).length ≤ (writes [] reqs).length := by
  refine h.keeps (P := fun ws recs => (chainOf recs b).length ≤ ws.length) (F := fun _ => True) ?_ (Nat.le_refl _)
    fun _ _ => trivial
  intro ws recs recs' q hle _ hw
  have := hw.length_le b
  rw [List.length_cons]
  omega

/-- The log has fewer records than bytes. -/
theorem FileInv.length_lt {n N : Nat} {recs : List Rec} {f : Mem} (h : FileInv n N recs f) : recs.length < N := by
  have hlen := h.wf.length_le h.start h.below
  have hstart := logStart_bounds n
  omega

/-- The converter on a database of the driver. -/
theorem FileInv.sequence {n N : Nat} {recs : List Rec} {f : Mem} (h : FileInv n N recs f) (hn : n < 2 ^ 28)
    (hlt : ∀ b < n, (chainOf recs b).length < 2 ^ 31) {fuel count : Nat} (hfuel : fileNext f ≤ fuel) (hcount : n < count) :
    ∃ info, convertToSequenceFileFromLdLocal fuel count f = (sequenceOf n recs, info, .ok ()) := by
  have hlen := h.length_lt
  rw [h.next] at hfuel
  obtain ⟨happ, hres⟩ := ((h.decodes_iff hn).2 hlt).appended fuel (by omega) count hcount
  exact ⟨_, Prod.ext happ (Prod.ext rfl hres)⟩

section
variable {n : Nat} (hn : n < 2 ^ 28)
include hn

/-- **The sequence file holds the past.** On a database that any sessions, killed or not, have left, the converter
ends well, and what its file says of any time is what a time-travel session to that time delivers. -/
theorem sequence_restores {s : Os Event} (hs : Reached n s) (hfew : FewVersions n s.file) {V : Travel}
    (hreads : ∀ treq ∈ V.reads, treq.Readable n) (hV : fileNext s.file ≤ V.fuel) {fuel count : Nat}
    (hfuel : fileNext s.file ≤ fuel) (hblocks : n < count) :
    ∃ pairs info, convertToSequenceFileFromLdLocal fuel count s.file = (pairs, info, .ok ()) ∧
      (∃ out s', Done V.run s out s') ∧
      ∀ out s', Done V.run s out s' → s'.file = s.file ∧
        out = some (V.reads.map (fun treq => .got 0 (sequenceRead V.ts pairs treq)), 0) := by
  obtain ⟨N, recs, hf⟩ := hs.database (by omega)
  obtain ⟨info, hconv⟩ := hf.sequence hn (hf.few hfew) hfuel hblocks
  have hlen := hf.length_lt
  rw [hf.next] at hV
  have hS := hf.snapshot quiet_alone (G := fun _ => True) (fun _ _ _ _ => trivial) fun _ _ _ _ _ => trivial
  have h := wp_travel quiet_alone hS (by omega) hf ⟨rfl, trivial⟩ (fun _ _ => ⟨trivial, trivial⟩) hreads
    fun b => by have := length_chainOf recs b; omega
  refine ⟨_, info, hconv, ?_, fun out s' hr => ?_⟩
  · obtain ⟨out, s', hr, -⟩ := quiet_exists h
    exact ⟨out, s', hr⟩
  · obtain ⟨rfl, hfile, -⟩ := wp_done h hr (quiet_assumed _)
    refine ⟨hfile, ?_⟩
    rw [List.map_congr_left fun treq ht => sequenceRead_eq (by omega) recs V.ts (hreads treq ht).toInside]

/-- **The sequence file holds the history of the disk.** Where every write fits, what the file says of a
time is the array as of that time; with a clock that never goes back, what the writes before it have left. -/
theorem sequence_history {Ss : List Session} (hSs : ∀ S ∈ Ss, ∀ req ∈ S.requests, req.Inside n ∧ req.Fits)
    {rs : List Reply} {s : Os Event} (hd : Done (runSessions Ss) (newDatabase n) rs s) (hc : Assumed Coherent s.notes)
    (hfew : FewVersions n s.file) {fuel count : Nat} (hfuel : fileNext s.file ≤ fuel) (hblocks : n < count) :
    ∃ pairs info, convertToSequenceFileFromLdLocal fuel count s.file = (pairs, info, .ok ()) ∧
      ∀ ts treq, treq.Inside n →
        sequenceRead ts pairs treq = (asOf ts (writes [] (Ss.flatMap Session.requests))).read treq ∧
        (((writes [] (Ss.flatMap Session.requests)).Pairwise fun newer older => newer.ts.before older.ts = false) →
          sequenceRead ts pairs treq =
            (after ((writes [] (Ss.flatMap Session.requests)).filter fun q => q.ts.before ts)).read treq) := by
  obtain ⟨N, recs, hf, hT⟩ := sessions_traces (by omega) hSs hd hc
  obtain ⟨info, hconv⟩ := hf.sequence hn (hf.few hfew) hfuel hblocks
  refine ⟨_, info, hconv, fun ts treq hreq => ?_⟩
  have hread : sequenceRead ts (sequenceOf n recs) treq =
      (asOf ts (writes [] (Ss.flatMap Session.requests))).read treq := by
    have h := (sequenceRead_eq (by omega) recs ts hreq).trans (hT.reply ts treq)
    exact (Reply.got.inj h).2
  exact ⟨hread, fun hs => by rw [hread, asOf_sorted hs]⟩

end

/-- A database with two versions, of seconds 1 and 2. -/
theorem sequence_restores_small : ∃ s pairs info out s', Reached 1 s ∧
    convertToSequenceFileFromLdLocal (fileNext s.file) 2 s.file = (pairs, info, .ok ()) ∧
    Done (Travel.run ⟨zeroJunk, ⟨2, 0⟩, fileNext s.file, [smallWrite.toTdRequest]⟩) s out s' ∧
    out = some ([.got 0 (sequenceRead ⟨2, 0⟩ pairs smallWrite.toTdRequest)], 0) := by
  have hstart : logStart 1 = 1024 := rfl
  obtain ⟨m, r, s, N, recs, hr, hf, hfull, ha, hN, hlen⟩ := small_session 1 (newDatabase_inv (n := 1) (by decide))
    nofun trivial (by decide)
  obtain ⟨begun, hk⟩ := Killed.of_run hr
  obtain ⟨m', r', s', N', recs', hr', hf', -, -, -, hlen'⟩ := small_session 2 hf hfull ha
    (by simp only [offMax]; omega)
  obtain ⟨begun', hk'⟩ := Killed.of_run hr'
  have hs : Reached 1 s' := .session (.session .new (smallSessionAt_inside 1) hk) (smallSessionAt_inside 2) hk'
  have hfew : FewVersions 1 s'.file := hf'.fewVersions fun b hb => by
    obtain rfl : b = 0 := by omega
    rw [hlen', hlen]
    decide
  obtain ⟨pairs, info, hconv, ⟨out, s2, hd⟩, hall⟩ := sequence_restores (by decide) hs hfew
    (V := ⟨zeroJunk, ⟨2, 0⟩, fileNext s'.file, [smallWrite.toTdRequest]⟩)
    (fun treq ht => by rcases List.mem_singleton.1 ht with rfl; exact ⟨smallWrite_inside, .inr (by decide)⟩)
    (Nat.le_refl _) (Nat.le_refl _) (show 1 < 2 by decide)
  exact ⟨s', pairs, info, out, s2, hs, hconv, hd, (hall out s2 hd).2⟩

theorem sequence_history_small : ∃ rs s pairs info, Done (runSessions [smallSession]) (newDatabase 1) rs s ∧
    convertToSequenceFileFromLdLocal (fileNext s.file) 2 s.file = (pairs, info, .ok ()) ∧
    sequenceRead ⟨2, 0⟩ pairs smallWrite.toTdRequest =
      (asOf ⟨2, 0⟩ [smallWrite]).read smallWrite.toTdRequest := by
  have h := wp_runSessions total_mode (by decide) (fun _ _ _ => trivial)
    (newDatabase_inv (n := 1) (by decide)) (fun S' hS' req hreq => (smallSession_fits S' hS' req hreq).1) []
    fun _ => ⟨nofun, ⟨small_affordable _, fun _ _ _ => trivial⟩, by decide⟩
  obtain ⟨rs, s, hd, ⟨N, new, hf, hR, -⟩, ha⟩ := exists_done h trivial
  rw [List.append_nil] at hf hR
  obtain ⟨pairs, info, hconv, hall⟩ := sequence_history (n := 1) (by decide) smallSession_fits hd (assumed_of_total ha).1
    (hf.fewVersions fun b _ => Nat.lt_of_le_of_lt (hR.length_le b) (by decide)) (Nat.le_refl _) (show 1 < 2 by decide)
  exact ⟨rs, s, pairs, info, hd, hconv, (hall ⟨2, 0⟩ smallWrite.toTdRequest smallWrite_inside).1⟩

end LogDrive
