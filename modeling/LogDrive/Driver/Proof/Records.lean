import LogDrive.Driver.Proof.Codec

/-!
# Records and chains

A list of records whose bytes lie in an image gives the chain of every block (`LogWF.chain`). A
chain is determined by the image and its start (`Chain.unique`), and depends on the bytes of its
versions only (`Chain.congr`).
-/

set_option autoImplicit false

open Bytes

namespace LogDrive

/-! ## Chains -/

@[simp] theorem versionAt_off (img : Nat → UInt8) (off : Nat) : (versionAt img off).off = off := rfl

theorem versionAt_stop (img : Nat → UInt8) (off : Nat) :
    (versionAt img off).stop = off + 32 + (versionAt img off).head.dataSize := by
  simp [Version.stop, versionAt]

/-- A version depends on its own bytes. -/
theorem versionAt_congr {img img' : Nat → UInt8} {off : Nat}
    (h : ∀ i, off ≤ i → i < (versionAt img off).stop → img' i = img i) :
    versionAt img' off = versionAt img off := by
  rw [versionAt_stop] at h
  have hhead : tabulate (fun i => img' (off + i)) 32 = tabulate (fun i => img (off + i)) 32 :=
    tabulate_congr fun i h1 h2 => h i h1 (by omega)
  simp only [versionAt] at h ⊢
  rw [hhead]
  have hdata := @tabulate_congr img img' (off + 32)
    (EntryHeader.ofBytes (tabulate (fun i => img (off + i)) 32)).dataSize fun i h1 h2 => h i (by omega) h2
  rw [hdata]

namespace Chain

theorem unique {img : Nat → UInt8} {off : Nat} {vs vs' : List Version} (h : Chain img off vs)
    (h' : Chain img off vs') : vs = vs' := by
  induction h generalizing vs' with
  | done =>
    cases h' with
    | done => rfl
    | link h0 _ => exact absurd rfl h0
  | link h0 _ ih =>
    cases h' with
    | done => exact absurd rfl h0
    | link _ ht => rw [ih ht]

/-- A chain depends on the bytes of its versions. -/
theorem congr {img img' : Nat → UInt8} {off : Nat} {vs : List Version} (h : Chain img off vs)
    (he : ∀ v ∈ vs, ∀ i, v.off ≤ i → i < v.stop → img' i = img i) : Chain img' off vs := by
  induction h with
  | done => exact .done
  | @link off vs h0 _ ih =>
    have hv : versionAt img' off = versionAt img off := versionAt_congr (he _ List.mem_cons_self)
    have ht := ih fun v hv => he v (List.mem_cons_of_mem _ hv)
    rw [← hv] at ht ⊢
    exact .link h0 ht

end Chain

/-! ## Records -/

theorem mem_chainOf {recs : List Rec} {b : Nat} {v : Version} :
    v ∈ chainOf recs b ↔ ∃ r ∈ recs, r.block = b ∧ r.ver = v := by
  induction recs with
  | nil => simp [chainOf]
  | cons r rs ih =>
    simp only [chainOf]
    split
    · rename_i hb
      simp only [List.mem_cons, ih, exists_eq_or_imp, hb, true_and, @eq_comm _ v]
    · rename_i hb
      simp only [ih, List.mem_cons, exists_eq_or_imp, hb, false_and, false_or]

theorem chainOf_cons_ne {r : Rec} {b : Nat} (h : r.block ≠ b) (rs : List Rec) :
    chainOf (r :: rs) b = chainOf rs b := if_neg h

theorem chainOf_append (rs rs' : List Rec) (b : Nat) : chainOf (rs ++ rs') b = chainOf rs b ++ chainOf rs' b := by
  induction rs with
  | nil => rfl
  | cons r rs ih =>
    simp only [List.cons_append, chainOf]
    split
    · rw [ih, List.cons_append]
    · exact ih

/-- The head of a chain lies below a bound of all records. -/
theorem chainOf_head_lt {recs : List Rec} {b m : Nat} (hm : 0 < m) (h : ∀ r ∈ recs, r.ver.stop ≤ m) :
    headOff (chainOf recs b) < m := by
  cases hvs : chainOf recs b with
  | nil => exact hm
  | cons v vs =>
    obtain ⟨r, hr, -, rfl⟩ := mem_chainOf.1 (show v ∈ chainOf recs b by rw [hvs]; exact List.mem_cons_self)
    have := h r hr
    simp only [Version.stop, entryHeaderSize] at this
    rw [headOff]
    omega

namespace LogWF

variable {n : Nat} {recs : List Rec}

theorem mem (h : LogWF n recs) {r : Rec} (hr : r ∈ recs) :
    r.block < n ∧ logStart n ≤ r.ver.off ∧ r.ver.WF := by
  induction recs with
  | nil => cases hr
  | cons r' rs ih =>
    rcases List.mem_cons.1 hr with rfl | hr
    · exact ⟨h.1.block, h.1.start, h.1.wf⟩
    · exact ih h.2 hr

theorem mem_chain (h : LogWF n recs) {b : Nat} {v : Version} (hv : v ∈ chainOf recs b) :
    b < n ∧ logStart n ≤ v.off ∧ v.WF := by
  obtain ⟨r, hr, rfl, rfl⟩ := mem_chainOf.1 hv
  exact h.mem hr

/-- A block has a head exactly where it has a version. -/
theorem headOff_eq_zero (h : LogWF n recs) (b : Nat) : headOff (chainOf recs b) = 0 ↔ chainOf recs b = [] := by
  cases hvs : chainOf recs b with
  | nil => exact ⟨fun _ => rfl, fun _ => rfl⟩
  | cons v vs =>
    obtain ⟨-, hstart, -⟩ := h.mem_chain (show v ∈ chainOf recs b by rw [hvs]; exact List.mem_cons_self)
    refine ⟨fun h0 => ?_, fun h0 => absurd h0 (List.cons_ne_nil v vs)⟩
    simp only [headOff] at h0
    simp only [logStart] at hstart
    omega

/-- Newer records lie above older ones. -/
theorem sorted (h : LogWF n recs) : recs.Pairwise fun newer older => older.ver.stop ≤ newer.ver.off := by
  induction recs with
  | nil => exact .nil
  | cons r rs ih => exact .cons h.1.above (ih h.2)

theorem sortedEntries (h : LogWF n recs) :
    (recs.map fun r => r.ver.entry).Pairwise fun newer older => older.stop ≤ newer.off := by
  rw [List.pairwise_map]
  refine h.sorted.imp_of_mem fun _ hr hle => ?_
  rw [Version.stop_entry _ (h.mem hr).2.2]
  exact hle

theorem sortedChain (h : LogWF n recs) (b : Nat) :
    (chainOf recs b).Pairwise fun newer older => older.stop ≤ newer.off := by
  induction recs with
  | nil => exact .nil
  | cons r rs ih =>
    simp only [chainOf]
    split
    · refine .cons (fun v hv => ?_) (ih h.2)
      obtain ⟨r', hr', -, rfl⟩ := mem_chainOf.1 hv
      exact h.1.above r' hr'
    · exact ih h.2

/-- **The chains of a log.** In an image that holds the records, the index entry that the records
give starts the chain of the block. -/
theorem chain (h : LogWF n recs) {img : Nat → UInt8}
    (hi : ∀ r ∈ recs, Holds img r.ver.off r.ver.bytes) (b : Nat) :
    Chain img (headOff (chainOf recs b)) (chainOf recs b) := by
  induction recs with
  | nil => exact .done
  | cons r rs ih =>
    have ht := ih h.2 fun r' hr' => hi r' (List.mem_cons_of_mem _ hr')
    simp only [chainOf]
    split
    · rename_i hb
      have hv : versionAt img r.ver.off = r.ver := versionAt_eq h.1.wf (hi r List.mem_cons_self)
      have h0 : r.ver.off ≠ 0 := by have := h.1.start; unfold logStart at this; omega
      have hl : Chain img r.ver.off (versionAt img r.ver.off :: chainOf rs b) :=
        .link h0 (by rw [hv, h.1.next, hb]; exact ht)
      rwa [hv] at hl
    · exact ht

/-- Dropping all newer records of some blocks leaves a log. -/
theorem filter {new old : List Rec} (h : LogWF n (new ++ old)) (keep : Nat → Bool) :
    LogWF n (new.filter (fun r => keep r.block) ++ old) ∧
      ∀ b, chainOf (new.filter (fun r => keep r.block) ++ old) b =
        if keep b then chainOf (new ++ old) b else chainOf old b := by
  induction new with
  | nil => exact ⟨h, fun b => by simp⟩
  | cons r rs ih =>
    obtain ⟨hw, hc⟩ := ih h.2
    have hr : r.Follows n (rs ++ old) := h.1
    by_cases hk : keep r.block = true
    · rw [List.filter_cons_of_pos (p := fun r : Rec => keep r.block) hk]
      refine ⟨⟨⟨hr.block, hr.start, hr.wf, ?_, ?_⟩, hw⟩, fun b => ?_⟩
      · rw [hr.next]
        congr 1
        exact ((hc r.block).trans (if_pos hk)).symm
      · intro r' hr'
        refine hr.above r' ?_
        rcases List.mem_append.1 hr' with h1 | h1
        · exact List.mem_append_left _ (List.mem_filter.1 h1).1
        · exact List.mem_append_right _ h1
      · simp only [List.cons_append, chainOf, hc b]
        by_cases hb : r.block = b
        · subst hb; simp [hk]
        · simp [hb]
    · rw [List.filter_cons_of_neg (p := fun r : Rec => keep r.block) hk]
      refine ⟨hw, fun b => ?_⟩
      rw [hc b]
      by_cases hb : r.block = b
      · subst hb; simp [hk]
      · simp only [List.cons_append, chainOf, if_neg hb]

end LogWF

end LogDrive
