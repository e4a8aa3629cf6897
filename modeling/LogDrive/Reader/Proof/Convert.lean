import LogDrive.Reader.Convert
import LogDrive.Reader.Proof.Chains
import LogDrive.Lib.Extremes
import Mathlib.Data.Prod.Lex

/-!
# What the converter writes

`convert_eq`: the blocks that the converter goes through (`WellFormed.converted`) are appended in order,
each version once, and only the newest version of a block reaches the extremes. `time_range` is the exact
condition for them to be those of all versions.
-/

set_option autoImplicit false

open Bytes Java

namespace LogDrive

/-- The key and the value of a version of block `b`. -/
def recordPair (b : Nat) (v : Version) : Mem × Mem := (keyBytes v.head b, v.data)

/-- A version of block `b` as one more pair. -/
def Converter.appendVersion (c : Converter) (b : Nat) (v : Version) : Converter :=
  { c with appended := c.appended ++ [recordPair b v], offset := v.head.next }

/-- The versions of block `b`, newest first. -/
def Converter.appendBlock (c : Converter) (b : Nat) : List Version → Converter
  | [] => c
  | v :: vs => { c.observe v.head.ts.tvSec.toInt v.head.ts.tvNsec.toInt with
      appended := c.appended ++ (v :: vs).map (recordPair b), offset := 0 }

theorem Converter.append_ofVersion (c : Converter) {b : Nat} (hb : b < 2 ^ 31) {v : Version}
    (hs : v.head.dataSize = v.data.length) (hp : v.head.pad.length = 6) :
    c.append b (.ofVersion v) v.data = c.appendVersion b v := by
  have hof : (PreservationRecord.ofVersion v).Of v.head := ⟨rfl, rfl, rfl, rfl, rfl⟩
  have hkey := getHeader_eq hp hof hb
  have hall : slice (keyBytes v.head b) 0 32 = keyBytes v.head b := by
    rw [← length_keyBytes hp b, slice_all]
  have hdata : slice v.data 0 (PreservationRecord.ofVersion v).dataSize.toNat = v.data := by
    rw [show (PreservationRecord.ofVersion v).dataSize = (v.head.dataSize : Int) from rfl, Int.toNat_natCast, hs, slice_all]
  rw [Converter.append, hkey, hall, hdata]
  rfl

theorem Converter.observe_frame (c : Converter) (sec nsec : Int) :
    (c.observe sec nsec).appended = c.appended ∧ (c.observe sec nsec).offset = c.offset := by
  unfold Converter.observe
  split
  · exact ⟨rfl, rfl⟩
  · constructor <;> dsimp only <;> split_ifs <;> rfl

/-- The versions of block `b` that the converter goes through. A block whose index entry the reader has not
loaded, or with a multiple of `2 ^ 32` versions, is passed over. -/
def convertedChain (n : Nat) (chains : Nat → List Version) (b : Nat) : List Version :=
  if b < loadedEntries n ∧ int (chains b).length ≠ 0 then chains b else []

/-- The state after the last block. -/
def converted (n : Nat) (chains : Nat → List Version) : Converter :=
  (List.range n).foldl (fun c b => c.appendBlock b (convertedChain n chains b)) .start

namespace WellFormed

variable {file : Mem} {bs n : Nat} {chains : Nat → List Version} (h : WellFormed file bs n chains)
include h

/-! ## The loops -/

theorem blocks_eq : long ((PreservationDatabase.ofFile file).diskSize.tdiv (PreservationDatabase.ofFile file).blockSize) = n := by
  obtain ⟨start, table, hdb, -⟩ := ofFile_eq h.blockSize h.pos h.intSize h.blocks h.count
  have hblocks := h.blocks
  have hcount := h.count
  have hdiv : (numAt (byteAt file) 0 8 : Int).tdiv bs = (n : Int) := by
    rw [Int.tdiv_eq_ediv_of_nonneg (by omega), ← hblocks]
    rfl
  rw [hdb]
  dsimp only
  rw [hdiv, long_of_lt (by omega)]

/-- The older versions of a block. -/
theorem convertChain_eq {b : Nat} (hb : b < 2 ^ 31) : ∀ {vs : List Version} {fuel : Nat} {c : Converter},
    Chain (byteAt file) c.offset vs → (∀ v ∈ vs, v.Readable file bs) → vs.length < fuel →
    (PreservationDatabase.ofFile file).convertChain b fuel c =
      ({ c with appended := c.appended ++ vs.map (recordPair b), offset := 0 }, .ok ())
  | [], fuel + 1, c, hc, _, _ => by
    have h0 : c.offset = 0 := hc.headOff_eq.symm
    rw [PreservationDatabase.convertChain, h0, if_pos (by decide), List.map_nil, List.append_nil, ← h0]
    rfl
  | v :: vs, fuel + 1, c, hc, hv, hf => by
    obtain ⟨h0, hveq, hrest, hnext, hvs⟩ := hc.cases_cons hv
    have hreadable := hv v List.mem_cons_self
    have hrec := h.getRecordSequence_eq (show (versionAt (byteAt file) c.offset).Readable file bs from hveq ▸ hreadable)
    have hlt := hreadable.bound
    rw [hveq, Version.stop, versionAt_off] at hlt
    rw [← hveq] at hrec
    have happend := c.append_ofVersion hb (v := v) (hveq ▸ (length_tabulate ..).symm) (hveq ▸ versionAt_pad)
    have holder : (PreservationDatabase.ofFile file).convertOlder b c = .ok (c.appendVersion b v) := by
      rw [PreservationDatabase.convertOlder, hrec, ok_bind, nonNull_some, ok_bind, ← happend]
      rfl
    rw [PreservationDatabase.convertChain, long_of_lt (by omega), if_neg (by omega), holder]
    dsimp only
    rw [convertChain_eq hb hrest hvs (by simpa using hf)]
    simp only [Converter.appendVersion, List.map_cons, List.append_assoc, List.singleton_append]

/-- One block. -/
theorem convertBlock_eq {b fuel : Nat} (hb : b < n) (hf : (chains b).length < fuel) {c : Converter} (hc : c.offset = 0) :
    (PreservationDatabase.ofFile file).convertBlock fuel b c = (c.appendBlock b (convertedChain n chains b), .ok ()) := by
  have hcount := h.count
  obtain ⟨fuel, rfl⟩ : ∃ k, fuel = k + 1 := ⟨fuel - 1, by omega⟩
  by_cases hconv : b < loadedEntries n ∧ int (chains b).length ≠ 0
  · rw [PreservationDatabase.convertBlock, h.getNumOfRecord_eq hb hf, convertedChain, if_pos hconv, if_pos hconv.1, ok_bind,
      if_pos hconv.2]
    have hlen : 0 < (chains b).length := Nat.pos_of_ne_zero fun h0 => hconv.2 (by rw [h0]; rfl)
    have hrec := h.getRecord_eq hb hconv.1 hlen (by decide) hf
    have hchain := h.chain b hb
    have hreadable := h.version b hb
    obtain ⟨v, vs, hvs⟩ := List.exists_cons_of_ne_nil (List.ne_nil_of_length_pos hlen)
    simp only [hvs, List.length_cons, List.getElem_cons_zero] at hchain hreadable hrec hf ⊢
    obtain ⟨-, hveq, hrest, -, hvs'⟩ := hchain.cases_cons hreadable
    have happend := (c.observe v.head.ts.tvSec.toInt v.head.ts.tvNsec.toInt).append_ofVersion (b := b) (by omega) (v := v)
      (hveq ▸ (length_tabulate ..).symm) (hveq ▸ versionAt_pad)
    have hnewest : (PreservationDatabase.ofFile file).convertNewest (fuel + 1) b c =
        .ok ((c.observe v.head.ts.tvSec.toInt v.head.ts.tvNsec.toInt).appendVersion b v) := by
      rw [PreservationDatabase.convertNewest, show (0 : Int) = ((0 : Nat) : Int) from rfl, hrec, ok_bind, nonNull_some,
        ok_bind, ← happend]
      rfl
    rw [hnewest]
    dsimp only
    rw [h.convertChain_eq (by omega) (c := Converter.appendVersion _ b v) hrest hvs' (by omega)]
    obtain ⟨happ, -⟩ := c.observe_frame v.head.ts.tvSec.toInt v.head.ts.tvNsec.toInt
    simp only [Converter.appendVersion, Converter.appendBlock, happ, List.map_cons, List.append_assoc, List.singleton_append]
  · have hzero : (if b < loadedEntries n then int (chains b).length else 0) = 0 := by
      split
      · by_contra hne
        exact hconv ⟨‹_›, hne⟩
      · rfl
    have hdone : Chain (byteAt file) c.offset [] := by
      rw [hc]
      exact .done
    have hskip := h.convertChain_eq (b := b) (by omega) hdone nofun (Nat.succ_pos fuel)
    rw [PreservationDatabase.convertBlock, h.getNumOfRecord_eq hb hf, convertedChain, if_neg hconv, hzero, ok_bind,
      if_neg (by simp), pure_eq]
    dsimp only
    rw [hskip, List.map_nil, List.append_nil, ← hc]
    rfl

omit h in
theorem appendBlock_offset {c : Converter} (hc : c.offset = 0) (b : Nat) (vs : List Version) :
    (c.appendBlock b vs).offset = 0 := by
  cases vs with
  | nil => exact hc
  | cons v vs => rfl

/-- The blocks from the `i`th one on. -/
theorem convertBlocks_eq {fuel : Nat} (hf : ∀ b < n, (chains b).length < fuel) : ∀ (k i count : Nat) {c : Converter},
    i + k = n → k < count → c.offset = 0 → (PreservationDatabase.ofFile file).convertBlocks fuel count i c =
      ((List.range' i k).foldl (fun c b => c.appendBlock b (convertedChain n chains b)) c, .ok ())
  | 0, i, count + 1, c, hik, _, _ => by
    rw [PreservationDatabase.convertBlocks, h.blockSize_eq, if_neg (by have := h.pos; omega), ← h.blockSize_eq, h.blocks_eq,
      if_neg (by omega)]
    rfl
  | k + 1, i, count + 1, c, hik, hk, hc => by
    have hcount := h.count
    have hnext := @int_of_lt (i + 1) (by omega)
    rw [Nat.cast_succ] at hnext
    rw [PreservationDatabase.convertBlocks, h.blockSize_eq, if_neg (by have := h.pos; omega), ← h.blockSize_eq, h.blocks_eq,
      if_pos (by omega), h.convertBlock_eq (by omega) (hf i (by omega)) hc]
    dsimp only
    rw [hnext, ← Nat.cast_succ, convertBlocks_eq hf k (i + 1) count (by omega) (by omega) (appendBlock_offset hc i _),
      List.range'_succ, List.foldl_cons]

/-- **The converter.** -/
theorem convert_eq {fuel count : Nat} (hf : ∀ b < n, (chains b).length < fuel) (hcount : n < count) :
    convertToSequenceFileFromLdLocal fuel count file = ((converted n chains).appended,
      ⟨numAt (byteAt file) 0 8, bs, numAt (byteAt file) 16 8, (converted n chains).secMin, (converted n chains).nsecMin,
        (converted n chains).secMax, (converted n chains).nsecMax⟩, .ok ()) := by
  obtain ⟨start, table, hdb, -⟩ := ofFile_eq h.blockSize h.pos h.intSize h.blocks h.count
  have hrun := h.convertBlocks_eq hf n 0 count (c := .start) (Nat.zero_add n) hcount rfl
  rw [← List.range_eq_range', Nat.cast_zero] at hrun
  rw [convertToSequenceFileFromLdLocal]
  dsimp only
  rw [hrun, hdb, converted]

end WellFormed

/-! ## What is appended -/

/-- The pairs of the sequence file, block after block. -/
theorem appended_foldl (chain : Nat → List Version) : ∀ (bs : List Nat) (c : Converter),
    (bs.foldl (fun c b => c.appendBlock b (chain b)) c).appended =
      c.appended ++ bs.flatMap fun b => (chain b).map (recordPair b)
  | [], c => (List.append_nil _).symm
  | b :: bs, c => by
    have hone : (c.appendBlock b (chain b)).appended = c.appended ++ (chain b).map (recordPair b) := by
      cases chain b with
      | nil => exact (List.append_nil _).symm
      | cons v vs => rfl
    rw [List.foldl_cons, appended_foldl chain bs, hone, List.flatMap_cons, List.append_assoc]

/-! ## The extremes -/

/-- Timestamps in the order of time. -/
abbrev Stamp := Int ×ₗ Int

def Version.stamp (v : Version) : Stamp := toLex (v.head.ts.tvSec.toInt, v.head.ts.tvNsec.toInt)

/-- A timestamp that the converter takes for one that has not been set. -/
def Unset (t : Stamp) : Prop := (ofLex t).1 = 0

instance : DecidablePred Unset := fun t => inferInstanceAs (Decidable ((ofLex t).1 = 0))

def Converter.extremes (c : Converter) : Stamp × Stamp := (toLex (c.secMin, c.nsecMin), toLex (c.secMax, c.nsecMax))

theorem extremes_observe (c : Converter) (sec nsec : Int) :
    (c.observe sec nsec).extremes = Extremes.observe Unset c.extremes (toLex (sec, nsec)) := by
  have hmin : (if c.secMin > sec ∨ (c.secMin = sec ∧ c.nsecMin > nsec) then { c with secMin := sec, nsecMin := nsec }
      else c).extremes = (min c.extremes.1 (toLex (sec, nsec)), c.extremes.2) := by
    have hlt : toLex (sec, nsec) < c.extremes.1 ↔ c.secMin > sec ∨ (c.secMin = sec ∧ c.nsecMin > nsec) := by
      rw [Converter.extremes, Prod.Lex.toLex_lt_toLex]
      exact or_congr Iff.rfl (and_congr eq_comm Iff.rfl)
    split
    · rw [min_eq_right (le_of_lt (hlt.2 ‹_›))]
      rfl
    · rw [min_eq_left (not_lt.1 (mt hlt.1 ‹_›))]
  have hmax : ∀ c : Converter, (if c.secMax < sec ∨ (c.secMax = sec ∧ c.nsecMax < nsec) then
      { c with secMax := sec, nsecMax := nsec } else c).extremes =
        (c.extremes.1, max c.extremes.2 (toLex (sec, nsec))) := fun c => by
    have hlt : c.extremes.2 < toLex (sec, nsec) ↔ c.secMax < sec ∨ (c.secMax = sec ∧ c.nsecMax < nsec) :=
      Prod.Lex.toLex_lt_toLex
    split
    · rw [max_eq_right (le_of_lt (hlt.2 ‹_›))]
      rfl
    · rw [max_eq_left (not_lt.1 (mt hlt.1 ‹_›))]
  have hunset : (Unset c.extremes.1 ∧ Unset c.extremes.2) ↔ c.secMin = 0 ∧ c.secMax = 0 := Iff.rfl
  by_cases h0 : c.secMin = 0 ∧ c.secMax = 0
  · rw [Extremes.observe, if_pos (hunset.2 h0), Converter.observe, if_pos h0]
    rfl
  · rw [Extremes.observe, if_neg (mt hunset.1 h0), Converter.observe, if_neg h0]
    exact (hmax _).trans (by rw [hmin])

/-- The timestamps that reach the extremes. -/
def newestStamps (n : Nat) (chains : Nat → List Version) : List Stamp :=
  (List.range n).filterMap fun b => (convertedChain n chains b).head?.map Version.stamp

/-- The timestamps of all versions that are appended. -/
def allStamps (n : Nat) (chains : Nat → List Version) : List Stamp :=
  (List.range n).flatMap fun b => (convertedChain n chains b).map Version.stamp

theorem extremes_foldl (chain : Nat → List Version) : ∀ (bs : List Nat) (c : Converter),
    (bs.foldl (fun c b => c.appendBlock b (chain b)) c).extremes =
      (bs.filterMap fun b => (chain b).head?.map Version.stamp).foldl (Extremes.observe Unset) c.extremes
  | [], _ => rfl
  | b :: bs, c => by
    rw [List.foldl_cons, extremes_foldl chain bs, List.filterMap_cons]
    cases hvs : chain b with
    | nil => rfl
    | cons v vs =>
      have hone : (c.appendBlock b (v :: vs)).extremes = Extremes.observe Unset c.extremes v.stamp :=
        extremes_observe c _ _
      rw [hone]
      rfl

theorem unset_convex {a b c : Stamp} (ha : Unset a) (hc : Unset c) (h1 : a ≤ b) (h2 : b ≤ c) : Unset b := by
  have hfst : ∀ {x y : Stamp}, x ≤ y → (ofLex x).1 ≤ (ofLex y).1 := fun {x y} hxy => by
    rcases Prod.Lex.le_iff.1 hxy with h | h
    · exact le_of_lt h
    · exact le_of_eq h.1
  have h1' := hfst h1
  have h2' := hfst h2
  unfold Unset at *
  omega

theorem newestStamps_subset {n : Nat} {chains : Nat → List Version} {t : Stamp} (h : t ∈ newestStamps n chains) :
    t ∈ allStamps n chains := by
  obtain ⟨b, hb, ht⟩ := List.mem_filterMap.1 h
  obtain ⟨v, hv, rfl⟩ := Option.map_eq_some_iff.1 ht
  exact List.mem_flatMap.2 ⟨b, hb, List.mem_map_of_mem (List.mem_of_mem_head? hv)⟩

/-- Versions that are appended are in blocks that have a newest one. -/
theorem newestStamps_ne_nil {n : Nat} {chains : Nat → List Version} {t : Stamp} (h : t ∈ allStamps n chains) :
    newestStamps n chains ≠ [] := by
  obtain ⟨b, hb, ht⟩ := List.mem_flatMap.1 h
  cases hvs : convertedChain n chains b with
  | nil =>
    rw [hvs] at ht
    cases ht
  | cons v vs =>
    exact List.ne_nil_of_mem (List.mem_filterMap.2 ⟨b, hb, by rw [hvs]; rfl⟩)

/-- The info file has the least and the greatest timestamp of all versions that are appended. -/
def RangeCovers (info : Info) (n : Nat) (chains : Nat → List Version) : Prop :=
  IsLeast {t | t ∈ allStamps n chains} (toLex (info.secMin, info.nsecMin)) ∧
  IsGreatest {t | t ∈ allStamps n chains} (toLex (info.secMax, info.nsecMax))

/-- The least and the greatest timestamp of all versions are among these. -/
def ReachExtremes (some : List Stamp) (all : List Stamp) : Prop :=
  (∃ t ∈ some, ∀ u ∈ all, t ≤ u) ∧ ∃ t ∈ some, ∀ u ∈ all, u ≤ t

instance (some all : List Stamp) : Decidable (ReachExtremes some all) :=
  inferInstanceAs (Decidable ((∃ t ∈ some, ∀ u ∈ all, t ≤ u) ∧ ∃ t ∈ some, ∀ u ∈ all, u ≤ t))

/-- **The time range of the info file** is that of all versions exactly when the newest versions of the
blocks reach it. Of these, the first ones with second 0 do not count. -/
theorem time_range {file : Mem} {bs n : Nat} {chains : Nat → List Version} (h : WellFormed file bs n chains)
    {fuel count : Nat} (hf : ∀ b < n, (chains b).length < fuel) (hcount : n < count) :
    (RangeCovers (convertToSequenceFileFromLdLocal fuel count file).2.1 n chains ↔
      ReachExtremes (Extremes.counted Unset (newestStamps n chains)) (allStamps n chains)) ∧
    ((∀ t ∈ allStamps n chains, ¬Unset t) →
      (RangeCovers (convertToSequenceFileFromLdLocal fuel count file).2.1 n chains ↔
        ReachExtremes (newestStamps n chains) (allStamps n chains))) := by
  have hrun := h.convert_eq hf hcount
  have hiff : RangeCovers (convertToSequenceFileFromLdLocal fuel count file).2.1 n chains ↔
      ReachExtremes (Extremes.counted Unset (newestStamps n chains)) (allStamps n chains) := by
    by_cases hnil : newestStamps n chains = []
    · have hall : ∀ t, t ∉ allStamps n chains := fun t ht => newestStamps_ne_nil ht hnil
      rw [hnil]
      constructor
      · rintro ⟨hl, -⟩
        exact absurd hl.1 (hall _)
      · rintro ⟨⟨t, ht, -⟩, -⟩
        cases ht
    · have hspans := Extremes.observe_counted unset_convex (newestStamps n chains) (z := toLex (0, 0)) rfl hnil
      have hext := extremes_foldl (convertedChain n chains) (List.range n) .start
      rw [← converted] at hext
      have hend : Extremes.Spans (converted n chains).extremes (Extremes.counted Unset (newestStamps n chains)) := by
        rw [hext]
        exact hspans
      have hsub : ∀ t ∈ Extremes.counted Unset (newestStamps n chains), t ∈ allStamps n chains := fun t ht =>
        newestStamps_subset (Extremes.counted_subset ht)
      rw [hrun]
      constructor
      · rintro ⟨hl, hg⟩
        exact ⟨⟨_, hend.least.1, fun u hu => hl.2 hu⟩, ⟨_, hend.greatest.1, fun u hu => hg.2 hu⟩⟩
      · rintro ⟨⟨t, ht, hle⟩, ⟨u, hu, hge⟩⟩
        exact ⟨⟨hsub _ hend.least.1, fun w hw => (hend.least.2 ht).trans (hle w hw)⟩,
          ⟨hsub _ hend.greatest.1, fun w hw => (hge w hw).trans (hend.greatest.2 hu)⟩⟩
  refine ⟨hiff, fun hset => ?_⟩
  rwa [Extremes.counted_eq fun t ht => hset t (newestStamps_subset ht)] at hiff

/-! ## Two versions -/

def olderVersion : Version := ⟨1024, ⟨⟨1, 0⟩, 0, 0, zeros 6⟩, []⟩
def newerVersion : Version := ⟨1056, ⟨⟨2, 0⟩, 1024, 0, zeros 6⟩, []⟩

/-- A database of one block whose index entry is `newest`, with the two versions behind the index. -/
def twoVersions (newest : Nat) : Mem :=
  store (store (headerBytes 1 1536) 512 (le 8 newest)) 1024 (olderVersion.bytes ++ newerVersion.bytes)

section
variable {newest : Nat}

theorem twoVersions_front {i : Nat} (h : i < 512) : byteAt (twoVersions newest) i = byteAt (headerBytes 1 1536) i := by
  rw [twoVersions, byteAt_store_outside (.inl (by omega)), byteAt_store_outside (.inl h)]

theorem length_twoVersions : (twoVersions newest).length = 1088 := by
  rw [twoVersions, length_store, if_neg (by decide), length_store,
    if_neg (List.ne_nil_of_length_pos (by rw [length_le]; decide)), length_headerBytes, length_le]
  decide

theorem twoVersions_older : versionAt (byteAt (twoVersions newest)) 1024 = olderVersion :=
  @versionAt_eq _ olderVersion ⟨by decide, rfl, by decide, rfl⟩ (holds_append.1 (Holds.store _ 1024 _)).1

theorem twoVersions_newer : versionAt (byteAt (twoVersions newest)) 1056 = newerVersion :=
  @versionAt_eq _ newerVersion ⟨by decide, rfl, by decide, rfl⟩ (holds_append.1 (Holds.store _ 1024 _)).2

theorem chain_older : Chain (byteAt (twoVersions newest)) 1024 [olderVersion] := by
  have h := @Chain.link (byteAt (twoVersions newest)) 1024 []
  rw [twoVersions_older] at h
  exact h (by decide) .done

theorem chain_newer : Chain (byteAt (twoVersions newest)) 1056 [newerVersion, olderVersion] := by
  have h := @Chain.link (byteAt (twoVersions newest)) 1056 [olderVersion]
  rw [twoVersions_newer] at h
  exact h (by decide) chain_older

theorem twoVersions_wellFormed {vs : List Version} (hnewest : newest < 2 ^ 64)
    (hc : Chain (byteAt (twoVersions newest)) newest vs) (hv : ∀ v ∈ vs, v = olderVersion ∨ v = newerVersion) :
    WellFormed (twoVersions newest) 4096 1 fun _ => vs where
  blockSize := by
    rw [numAt_congr fun i _ hi => twoVersions_front (by omega)]
    decide
  pos := by decide
  intSize := by decide
  blocks := by
    rw [numAt_congr fun i _ hi => twoVersions_front (by omega)]
    decide
  count := by decide
  chain b hb := by
    obtain rfl : b = 0 := by omega
    have hindex : Holds (byteAt (twoVersions newest)) 512 (le 8 newest) :=
      (Holds.store (headerBytes 1 1536) 512 (le 8 newest)).congr fun i _ hi => by
        rw [length_le] at hi
        exact byteAt_store_outside (.inl (by omega))
    rw [storedEntry, numAt_of_holds hindex (by omega)]
    exact hc
  version b _ v hm := by
    have hlen := @length_twoVersions newest
    rcases hv v hm with rfl | rfl <;> exact ⟨by rw [hlen]; decide, by decide, by decide⟩

end

/-- A database of two blocks: the two versions in block 0, and one of two bytes from second 1 in block 1. -/
def otherVersion : Version := ⟨1088, ⟨⟨1, 0⟩, 0, 2, zeros 6⟩, [7, 8]⟩

def twoBlocks : Mem :=
  store (store (headerBytes 2 1536) 512 (le 8 1056 ++ le 8 1088)) 1024
    (olderVersion.bytes ++ (newerVersion.bytes ++ otherVersion.bytes))

def twoChains (b : Nat) : List Version := if b = 0 then [newerVersion, olderVersion] else [otherVersion]

theorem twoBlocks_front {i : Nat} (h : i < 512) : byteAt twoBlocks i = byteAt (headerBytes 2 1536) i := by
  rw [twoBlocks, byteAt_store_outside (.inl (by omega)), byteAt_store_outside (.inl h)]

theorem twoBlocks_index : storedEntry twoBlocks 0 = 1056 ∧ storedEntry twoBlocks 1 = 1088 := by
  have hindex : Holds (byteAt twoBlocks) 512 (le 8 1056 ++ le 8 1088) :=
    (Holds.store (headerBytes 2 1536) 512 (le 8 1056 ++ le 8 1088)).congr fun i _ hi => by
      rw [List.length_append, length_le, length_le] at hi
      exact byteAt_store_outside (.inl (by omega))
  obtain ⟨hfirst, hsecond⟩ := holds_append.1 hindex
  rw [length_le] at hsecond
  exact ⟨numAt_of_holds hfirst (by decide), numAt_of_holds hsecond (by decide)⟩

theorem twoBlocks_chain : ∀ b < 2, Chain (byteAt twoBlocks) (storedEntry twoBlocks b) (twoChains b) := by
  obtain ⟨hzero, hone⟩ := twoBlocks_index
  obtain ⟨holder, hrest⟩ := holds_append.1 (Holds.store (store (headerBytes 2 1536) 512 (le 8 1056 ++ le 8 1088)) 1024
    (olderVersion.bytes ++ (newerVersion.bytes ++ otherVersion.bytes)))
  obtain ⟨hnewer, hother⟩ := holds_append.1 hrest
  have h0 : versionAt (byteAt twoBlocks) 1024 = olderVersion :=
    @versionAt_eq _ olderVersion ⟨by decide, rfl, by decide, rfl⟩ holder
  have h1 : versionAt (byteAt twoBlocks) 1056 = newerVersion :=
    @versionAt_eq _ newerVersion ⟨by decide, rfl, by decide, rfl⟩ hnewer
  have h2 : versionAt (byteAt twoBlocks) 1088 = otherVersion :=
    @versionAt_eq _ otherVersion ⟨by decide, rfl, by decide, rfl⟩ hother
  have hold := @Chain.link (byteAt twoBlocks) 1024 []
  have hnew := @Chain.link (byteAt twoBlocks) 1056 [olderVersion]
  have holt := @Chain.link (byteAt twoBlocks) 1088 []
  rw [h0] at hold
  rw [h1] at hnew
  rw [h2] at holt
  intro b hb
  obtain rfl | rfl : b = 0 ∨ b = 1 := by omega
  · rw [hzero]
    exact hnew (by decide) (hold (by decide) .done)
  · rw [hone]
    exact holt (by decide) .done

theorem twoBlocks_wellFormed : WellFormed twoBlocks 4096 2 twoChains where
  blockSize := by
    rw [numAt_congr fun i _ hi => twoBlocks_front (by omega)]
    decide
  pos := by decide
  intSize := by decide
  blocks := by
    rw [numAt_congr fun i _ hi => twoBlocks_front (by omega)]
    decide
  count := by decide
  chain := twoBlocks_chain
  version b hb v hm := by
    have hlen : 1122 ≤ twoBlocks.length := by
      rw [twoBlocks, length_store, if_neg (by decide)]
      exact Nat.le_max_right _ _
    have hstop : v.stop ≤ 1122 ∧ v.data.length ≤ 4096 := by
      obtain rfl | rfl : b = 0 ∨ b = 1 := by omega
      · rcases List.mem_pair.1 hm with rfl | rfl
        · decide
        · decide
      · obtain rfl := List.mem_singleton.1 hm
        decide
    exact ⟨Nat.le_trans hstop.1 hlen, Nat.lt_of_le_of_lt hstop.1 (by decide), hstop.2⟩

theorem time_range_two : RangeCovers (convertToSequenceFileFromLdLocal 3 3 twoBlocks).2.1 2 twoChains :=
  (time_range twoBlocks_wellFormed (fun b hb => by
    obtain rfl | rfl : b = 0 ∨ b = 1 := by omega
    · decide
    · decide) (by decide)).1.2 (by decide)

/-- The version of second 1 is behind one of second 2: the least second reported is 2. -/
theorem time_range_short : ¬ ∀ (file : Mem) (bs n : Nat) (chains : Nat → List Version) (fuel count : Nat),
    WellFormed file bs n chains → (∀ b < n, (chains b).length < fuel) → n < count → (∃ b < n, chains b ≠ []) →
    (∀ b < n, ∀ v ∈ chains b, 0 < v.head.ts.tvSec.toInt ∧ 0 ≤ v.head.ts.tvNsec.toInt) →
    RangeCovers (convertToSequenceFileFromLdLocal fuel count file).2.1 n chains := by
  intro h
  have hw : WellFormed (twoVersions 1056) 4096 1 fun _ => [newerVersion, olderVersion] :=
    twoVersions_wellFormed (by decide) chain_newer fun v hv => by
      simp only [List.mem_cons, List.not_mem_nil, or_false] at hv
      exact hv.symm
  have hcover := h _ _ _ _ 3 2 hw (fun _ _ => by decide) (by decide) ⟨0, by decide, List.cons_ne_nil _ _⟩
    fun b _ v hv => by
      simp only [List.mem_cons, List.not_mem_nil, or_false] at hv
      rcases hv with rfl | rfl <;> decide
  rw [hw.convert_eq (fun _ _ => by decide) (by decide)] at hcover
  have hle : (toLex (2, 0) : Stamp) ≤ toLex (1, 0) :=
    hcover.1.2 (show olderVersion.stamp ∈ allStamps 1 fun _ => [newerVersion, olderVersion] by decide)
  revert hle
  decide

end LogDrive
