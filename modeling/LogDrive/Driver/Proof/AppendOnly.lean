import LogDrive.Driver.Proof.Runs

/-!
# The version history is append-only and well formed

In every state that sessions reach, following the index through the `next` fields gives a finite chain
of versions for every block, inside the log and apart from all others (`SoundLog`). A write request
puts at most one version in front of the chain of each block it touches and changes nothing else
(`AppendsOnly`); closing the database and opening it again keeps all chains (`KeepsVersions`).
-/

set_option autoImplicit false

open Bytes

namespace LogDrive

/-- The bytes of the log of a session: the file up to `next_offset`, then the write buffer. -/
def PreservationDisk.image (d : PreservationDisk) (s : Os Event) : Nat → UInt8 := d.bio.logByte s.file

/-- The versions of block `b` in a session. -/
def PreservationDisk.Versions (d : PreservationDisk) (s : Os Event) (b : Nat) (vs : List Version) : Prop :=
  ∃ off, d.indexTable[b]? = some off ∧ Chain (d.image s) off vs

/-- Where the log ends. -/
def PreservationDisk.logEnd (d : PreservationDisk) : Nat := d.bio.nextOffset + d.bio.bufferPos

structure SoundLog (n : Nat) (d : PreservationDisk) (s : Os Event) : Prop where
  /-- The chain ends, its offsets decrease, its versions are inside the log. -/
  chain : ∀ b < n, ∃ vs, d.Versions s b vs ∧ (vs.Pairwise fun newer older => older.off < newer.off) ∧
    ∀ v ∈ vs, logStart n ≤ v.off ∧ v.stop ≤ d.logEnd ∧ v.data.length ≤ 4096
  /-- Versions of different blocks, and different versions of a block, do not overlap. -/
  apart : ∀ b < n, ∀ b' < n, ∀ vs vs', d.Versions s b vs → d.Versions s b' vs' → ∀ v ∈ vs, ∀ v' ∈ vs',
    (b ≠ b' ∨ v.off ≠ v'.off) → v.stop ≤ v'.off ∨ v'.stop ≤ v.off

/-- The block has no version and is zero after the request too. -/
def StaysZero (q : WriteRequest) (b : Nat) (vs : List Version) : Prop :=
  vs = [] ∧ ∀ p < 4096, q.patch b (fun _ => 0) p = 0

/-- The request `q` takes the session from `d`, `s` to `d'`, `s'` by adding versions only. -/
structure AppendsOnly (n : Nat) (q : WriteRequest) (d : PreservationDisk) (s : Os Event)
    (d' : PreservationDisk) (s' : Os Event) : Prop where
  /-- One version with the request's time is put in front, none where the block has no version and
  stays zero. -/
  touched : ∀ b < n, q.Touches b → ∀ vs vs', d.Versions s b vs → d'.Versions s' b vs' →
    (StaysZero q b vs → vs' = []) ∧ (¬StaysZero q b vs → ∃ v, vs' = v :: vs ∧ v.head.ts = q.ts)
  untouched : ∀ b < n, ¬q.Touches b → ∀ vs, d.Versions s b vs → d'.Versions s' b vs
  older : ∀ b < n, ∀ vs, d.Versions s b vs → ∀ v ∈ vs, ∀ i, v.off ≤ i → i < v.stop →
    d'.image s' i = d.image s i

/-- All versions of `d`, `s` are those of `d'`, `s'`, byte for byte. -/
structure KeepsVersions (n : Nat) (d : PreservationDisk) (s : Os Event) (d' : PreservationDisk) (s' : Os Event) : Prop where
  chain : ∀ b < n, ∀ vs, d.Versions s b vs → d'.Versions s' b vs
  older : ∀ b < n, ∀ vs, d.Versions s b vs → ∀ v ∈ vs, ∀ i, v.off ≤ i → i < v.stop →
    d'.image s' i = d.image s i

/-! ## States -/

theorem LogWF.apart {n : Nat} {recs : List Rec} (h : LogWF n recs) {r r' : Rec} (hr : r ∈ recs)
    (hr' : r' ∈ recs) : r = r' ∨ r.ver.stop ≤ r'.ver.off ∨ r'.ver.stop ≤ r.ver.off := by
  induction recs with
  | nil => cases hr
  | cons x rs ih =>
    rcases List.mem_cons.1 hr with rfl | hm
    · rcases List.mem_cons.1 hr' with rfl | hm'
      · exact .inl rfl
      · exact .inr (.inr (h.1.above r' hm'))
    · rcases List.mem_cons.1 hr' with rfl | hm'
      · exact .inr (.inl (h.1.above r hm))
      · exact ih h.2 hm hm'

section
variable {n N : Nat} {old recs : List Rec} {d : PreservationDisk} {s : Os Event}

theorem LogInv.versions (h : LogInv n N old d s recs) {b : Nat} (hb : b < n) :
    d.Versions s b (chainOf recs b) := ⟨_, h.table b hb, h.chain b⟩

theorem LogInv.versions_eq (h : LogInv n N old d s recs) {b : Nat} (hb : b < n) {vs : List Version}
    (hv : d.Versions s b vs) : vs = chainOf recs b := by
  obtain ⟨off, ho, hc⟩ := hv
  rw [h.table b hb] at ho
  cases ho
  exact hc.unique (h.chain b)

theorem LogInv.sound (h : LogInv n N old d s recs) : SoundLog n d s where
  chain b hb := by
    refine ⟨_, h.versions hb, (h.wf.sortedChain b).imp fun {v v'} hle => ?_, fun v hv => ?_⟩
    · rw [Version.stop, entryHeaderSize] at hle
      omega
    · obtain ⟨hwf, hlow, -, hstop⟩ := h.mem_chain hv
      exact ⟨hlow, hstop, hwf.short⟩
  apart b hb b' hb' vs vs' hv hv' v hm v' hm' hne := by
    rw [h.versions_eq hb hv] at hm
    rw [h.versions_eq hb' hv'] at hm'
    obtain ⟨r, hr, rfl, rfl⟩ := mem_chainOf.1 hm
    obtain ⟨r', hr', rfl, rfl⟩ := mem_chainOf.1 hm'
    rcases h.wf.apart hr hr' with rfl | hap
    · rcases hne with h1 | h1 <;> exact absurd rfl h1
    · exact hap

/-- The bytes of a version are the same in two sessions that have it. -/
theorem LogInv.image_eq {N' : Nat} {old' recs' : List Rec} {d' : PreservationDisk} {s' : Os Event}
    (h : LogInv n N old d s recs) (h' : LogInv n N' old' d' s' recs') {r : Rec} (hr : r ∈ recs)
    (hr' : r ∈ recs') {i : Nat} (h1 : r.ver.off ≤ i) (h2 : i < r.ver.stop) :
    d'.image s' i = d.image s i := by
  have hl := Version.length_bytes _ (h.wf.mem hr).2.2
  have hb := h.bio.holds _ (mem_entries.2 ⟨r, hr, rfl⟩)
  have hb' := h'.bio.holds _ (mem_entries.2 ⟨r, hr', rfl⟩)
  rw [Version.stop, entryHeaderSize] at h2
  have hi : i - r.ver.off < r.ver.entry.bytes.length := by
    have : r.ver.entry.bytes = r.ver.bytes := rfl
    rw [this]
    omega
  have e1 := hb _ hi
  have e2 := hb' _ hi
  have ho : r.ver.entry.off + (i - r.ver.off) = i := by
    have : r.ver.entry.off = r.ver.off := rfl
    omega
  rw [ho] at e1 e2
  exact e2.trans e1.symm

theorem WriteStep.appendsOnly {N' : Nat} {old' new : List Rec} {d' : PreservationDisk} {s' : Os Event}
    {q : WriteRequest} (h : LogInv n N old d s recs) (h' : LogInv n N' old' d' s' (new ++ recs))
    (hw : WriteStep True q recs (new ++ recs)) : AppendsOnly n q d s d' s' where
  touched b hb ht vs vs' hv hv' := by
    rw [h.versions_eq hb hv, h'.versions_eq hb hv']
    have hstep := hw.touched b ht
    generalize chainOf recs b = c at hstep
    generalize chainOf (new ++ recs) b = c' at hstep
    cases hstep with
    | skip hz => exact ⟨fun _ => rfl, fun hn => absurd ⟨rfl, hz⟩ hn⟩
    | @push _ v oldBytes hold hnil hts _ _ =>
      refine ⟨fun hz => ?_, fun _ => ⟨v, rfl, hts⟩⟩
      obtain ⟨h0, p, hp, hne⟩ := hnil hz.1
      exact absurd ((patch_congr (h0 p hp)).trans (hz.2 p hp)) hne
  untouched b hb ht vs hv := by
    rw [h.versions_eq hb hv, ← hw.others b ht]
    exact h'.versions hb
  older b hb vs hv v hm i h1 h2 := by
    rw [h.versions_eq hb hv] at hm
    obtain ⟨r, hr, -, rfl⟩ := mem_chainOf.1 hm
    exact h.image_eq h' hr (List.mem_append_right _ hr) h1 h2

theorem LogInv.keeps {N' : Nat} {old' : List Rec} {d' : PreservationDisk} {s' : Os Event} (h : LogInv n N old d s recs)
    (h' : LogInv n N' old' d' s' recs) : KeepsVersions n d s d' s' where
  chain b hb vs hv := by
    rw [h.versions_eq hb hv]
    exact h'.versions hb
  older b hb vs hv v hm i h1 h2 := by
    rw [h.versions_eq hb hv] at hm
    obtain ⟨r, hr, -, rfl⟩ := mem_chainOf.1 hm
    exact h.image_eq h' hr hr h1 h2

/-- A session that is closed and opened again has the same log. -/
theorem LogInv.reopened (hn : n < 2 ^ 31) (h : LogInv n N old d s recs) {J : Junk} {r : Int} {s1 s' : Os Event}
    {opened : Option PreservationDisk} (hclose : Done (tdClose d) s r s1) (hopen : Done (pdInitialize J) s1 opened s') :
    ∃ d' N', opened = some d' ∧ LogInv n N' recs d' s' recs := by
  obtain ⟨_, s2, hfin, hend⟩ := hclose.bind_inv
  obtain ⟨-, rfl⟩ := hend.ret_inv
  obtain ⟨N', hC⟩ := bio_done (wp_pdFinalize bio_mode hn (fun _ _ _ _ _ _ => trivial) (fun _ _ _ _ => trivial) h
    fun h => h.elim) hfin
  obtain ⟨hfile, -, d', hd', ho⟩ := bio_done (wp_openDisk (fun _ _ _ h => h) hn hC.database fun h => h.elim) hopen
  exact ⟨d', N', hd', ho.logInv hC.database hfile⟩

end

/-! ## Runs -/

/-- **Append-only and well formed.** In every state that any sessions reach on a database laid out by
`mkimage.rb` the log is sound; a further write request only adds versions, and a close and a further opening keep
them all. -/
theorem append_only {n : Nat} (hn : n < 2 ^ 31) {past : List Session} {S : Session}
    (hpast : ∀ S' ∈ past, ∀ req ∈ S'.requests, req.Inside n) (hreqs : ∀ req ∈ S.requests, req.Inside n)
    {replies : List Reply} {d : PreservationDisk} {s : Os Event}
    (hd : Done (history past S) (newDatabase n) (some (replies, d)) s) (hc : Assumed Coherent s.notes) :
    SoundLog n d s ∧ (∀ (q : WriteRequest) r d' s', q.toTdRequest.Inside n →
      Done (pdWrite S.junk d q) s (r, d') s' → Assumed Coherent s'.notes →
        r = 0 ∧ SoundLog n d' s' ∧ AppendsOnly n q d s d' s') ∧
      ∀ J r s1 opened s', Done (tdClose d) s r s1 → Done (pdInitialize J) s1 opened s' →
        ∃ d', opened = some d' ∧ SoundLog n d' s' ∧ KeepsVersions n d s d' s' := by
  obtain ⟨N, new, old, -, hI, -, -⟩ := history_inv hn hpast hreqs hd hc
  refine ⟨hI.sound, fun q r d' s' hq hw hc' => ?_, fun J r s1 opened s' hclose hopen => ?_⟩
  · have h := wp_pdWrite (driver_mode n) (q := q) hq.inside hn
      (fun f hf t bs htf hlo => hf.guarantee_log htf hlo) (J := S.junk) hI fun h => h.elim
    obtain ⟨hr, new', hI', hW, -⟩ := driver_done h hw hc'
    exact ⟨hr, hI'.sound, hW.appendsOnly hI hI'⟩
  · obtain ⟨d', N', rfl, hI'⟩ := hI.reopened hn hclose hopen
    exact ⟨d', rfl, hI'.sound, hI.keeps hI'⟩

/-- Two sessions of one write each; then a further write, or a close and a further opening. -/
theorem append_only_small : ∃ replies d s r d' s' c s1 d2 s2,
    Done (history [smallSession] smallSession) (newDatabase 1) (some (replies, d)) s ∧
    Done (pdWrite zeroJunk d smallWrite) s (r, d') s' ∧ SoundLog 1 d s ∧ AppendsOnly 1 smallWrite d s d' s' ∧
    Done (tdClose d) s c s1 ∧ Done (pdInitialize zeroJunk) s1 (some d2) s2 ∧ KeepsVersions 1 d s d2 s2 := by
  have hone : ∀ S' ∈ [smallSession], ∀ req ∈ S'.requests, req.Inside 1 := fun S' hS' => by
    rcases List.mem_singleton.1 hS' with rfl
    exact smallSession_inside
  have htwo : ∀ recs, Affordable True 0 recs [.write smallWrite, .write smallWrite] := fun recs =>
    affordable_write (fun _ => smallWrite_touches) (by rw [bufferSize_eq]; decide) fun _ =>
      affordable_write (fun _ => smallWrite_touches) (by rw [bufferSize_eq]; decide) fun _ => trivial
  obtain ⟨replies, d, s, N, new, old, hd, hI, hcalm, haff, hlow, ha⟩ := exists_history (by decide) hone
    smallSession_inside [.write smallWrite] ⟨small_affordable _, fun _ recs _ => ⟨htwo recs, fun _ _ _ => trivial⟩⟩
    (by decide)
  obtain ⟨S, hfit, hskip, -⟩ := haff
  have hw := wp_pdWrite total_mode (q := smallWrite) smallWrite_inside.inside (by decide)
    (fun _ _ _ _ _ _ => trivial) (J := zeroJunk) hI fun _ => ⟨hcalm, S, fun b ht _ => hskip b ht, hfit⟩
  obtain ⟨⟨r, d'⟩, s', hdw, -, ha'⟩ := exists_done hw ha
  have hlast : d.bio.nextOffset + bufferSize ≤ offMax := by
    rw [bufferSize_eq]
    simp only [offMax, List.length_singleton] at hlow ⊢
    omega
  obtain ⟨_, s1, hfin, ⟨N', hC⟩, ha1⟩ := exists_done (wp_pdFinalize total_mode (by decide) (fun _ _ _ _ _ _ => trivial)
    (fun _ _ _ _ => trivial) hI fun _ => hlast) ha
  have hclose : Done (tdClose d) s 0 s1 := hfin.bind (.ret _ _)
  obtain ⟨_, s2, hopen, -⟩ := exists_done (@wp_openDisk totalLogic total_mode.alone zeroJunk false _ _ _ _ (by decide)
    hC.database fun ht _ => ⟨total_mode.plain trivial ht, total_mode.plain trivial ht⟩) ha1
  obtain ⟨hsound, hnext, hagain⟩ := append_only (by decide) hone smallSession_inside hd (assumed_of_total ha).1
  obtain ⟨-, -, happ⟩ := hnext smallWrite r d' s' smallWrite_inside hdw (assumed_of_total ha').1
  obtain ⟨d2, rfl, -, hkeep⟩ := hagain zeroJunk 0 s1 _ s2 hclose hopen
  exact ⟨replies, d, s, r, d', s', 0, s1, d2, s2, hd, hdw, hsound, happ, hclose, hopen, hkeep⟩

end LogDrive
