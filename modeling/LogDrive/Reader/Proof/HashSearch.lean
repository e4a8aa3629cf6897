import LogDrive.Reader.Proof.HashIndex

/-!
# What `hashSearch` puts out

The hashes of the target are handed over under the numbers 0, 1, .. of an `int` counter; `kept` is what
stays under each number when the counter has wrapped around, the whole list below `2 ^ 31`
(`kept_eq`). The mapper writes a key for every record, an empty one where nothing matches
(`searchMap_eq`), so that `search_exact` needs every record to match.
-/

set_option autoImplicit false

open Bytes Java

namespace LogDrive

/-! ## Lists numbered by an `int` -/

section
variable {α : Type}

/-- The last element of the list, whose elements have the numbers from `i` on, that has number `j`. -/
def lastAt (j : Int) : List α → Int → Option α
  | [], _ => none
  | a :: as, i => (lastAt j as (int (i + 1))).or (if i = j then some a else none)

/-- What is found under the numbers from 0 on, below the number after the last one. -/
def kept (as : List α) : List α := (List.range (int as.length).toNat).filterMap fun j : Nat => lastAt j as 0

theorem lastAt_map {β : Type} (f : α → β) (j : Int) : ∀ (as : List α) (i : Int),
    lastAt j (as.map f) i = (lastAt j as i).map f
  | [], _ => rfl
  | a :: as, i => by
    rw [List.map_cons, lastAt, lastAt, lastAt_map f j as]
    cases lastAt j as (int (i + 1)) with
    | some b => rfl
    | none =>
      simp only [Option.map_none, Option.none_or]
      split <;> rfl

theorem mem_of_lastAt {j : Int} {b : α} : ∀ {as : List α} {i : Int}, lastAt j as i = some b → b ∈ as
  | [], _, h => by cases h
  | a :: as, i, h => by
    rw [lastAt] at h
    cases hr : lastAt j as (int (i + 1)) with
    | some c =>
      rw [hr] at h
      cases h
      exact List.mem_cons_of_mem _ (mem_of_lastAt hr)
    | none =>
      rw [hr] at h
      simp only [Option.none_or] at h
      split at h
      · cases h
        exact List.mem_cons_self
      · cases h

theorem kept_subset {as : List α} {b : α} (h : b ∈ kept as) : b ∈ as := by
  obtain ⟨j, -, hj⟩ := List.mem_filterMap.1 h
  exact mem_of_lastAt hj

theorem kept_map {β : Type} (f : α → β) (as : List α) : kept (as.map f) = (kept as).map f := by
  rw [kept, kept, List.length_map, List.map_filterMap]
  simp only [lastAt_map]

/-- Below `2 ^ 31` every element keeps its number. -/
theorem lastAt_eq : ∀ (as : List α) (i : Nat), i + as.length < 2 ^ 31 → ∀ j : Nat,
    lastAt j as i = if i ≤ j then as[j - i]? else none
  | [], i, _, j => by simp [lastAt]
  | a :: as, i, h, j => by
    rw [List.length_cons] at h
    have hnext := @int_of_lt (i + 1) (by omega)
    rw [Nat.cast_succ] at hnext
    rw [lastAt, hnext, ← Nat.cast_succ, lastAt_eq as (i + 1) (by omega) j]
    rcases lt_trichotomy i j with hij | rfl | hij
    · rw [if_pos (show i + 1 ≤ j by omega), if_neg (show ¬(i : Int) = j by omega), if_pos (show i ≤ j by omega),
        Option.or_none, show j - i = (j - (i + 1)) + 1 by omega, List.getElem?_cons_succ]
    · rw [if_neg (show ¬i + 1 ≤ i by omega), if_pos (show (i : Int) = i by rfl), if_pos (Nat.le_refl i), Nat.sub_self]
      rfl
    · rw [if_neg (show ¬i + 1 ≤ j by omega), if_neg (show ¬(i : Int) = j by omega), if_neg (show ¬i ≤ j by omega)]
      rfl

theorem filterMap_getElem? (as : List α) (n : Nat) : (List.range n).filterMap (fun j => as[j]?) = as.take n := by
  induction n with
  | zero => rfl
  | succ n ih =>
    rw [List.range_succ, List.filterMap_append, ih, List.take_add_one]
    cases h : as[n]? <;> simp [h]

theorem kept_eq {as : List α} (h : as.length < 2 ^ 31) : kept as = as := by
  have hget : (fun j : Nat => lastAt (j : Int) as 0) = fun j => as[j]? := funext fun j => by
    have := lastAt_eq as 0 (by omega) j
    rwa [if_pos (Nat.zero_le _), Nat.sub_zero] at this
  rw [kept, int_of_lt h, Int.toNat_natCast, hget, filterMap_getElem?, List.take_length]

/-- An element has the number. -/
theorem lastAt_isSome {j : Int} : ∀ {as : List α} {i : Int} {k : Nat}, int i = i → k < as.length → int (i + k) = j →
    ∃ b, lastAt j as i = some b
  | [], _, _, _, hk, _ => by cases hk
  | a :: as, i, k, hi, hk, hj => by
    rw [lastAt]
    cases hr : lastAt j as (int (i + 1)) with
    | some b => exact ⟨b, rfl⟩
    | none =>
      cases k with
      | zero =>
        rw [Nat.cast_zero, add_zero, hi] at hj
        exact ⟨a, by rw [if_pos hj]; rfl⟩
      | succ k =>
        have hnext : int (int (i + 1) + k) = j := by
          rw [int, int, Int.bmod_add_bmod, ← int, ← hj]
          congr 1
          push_cast
          ring
        have hint : int (int (i + 1)) = int (i + 1) := by
          have := int_succ_int (i + 1)
          rw [int, int, Int.bmod_bmod]
        obtain ⟨b, hb⟩ := lastAt_isSome (k := k) hint (by simpa using hk) hnext
        rw [hr] at hb
        cases hb

/-- Below the number after the last one no number is missing. -/
theorem lastAt_below {as : List α} {j : Nat} (hj : (j : Int) < int as.length) : ∃ b, lastAt j as 0 = some b := by
  have hrange := int_range as.length
  have hle : int as.length ≤ as.length := by
    unfold int
    rw [Int.bmod_def]
    split <;> omega
  refine lastAt_isSome (k := j) rfl (by omega) ?_
  rw [zero_add]
  exact int_of_lt (by omega)

end

/-! ## The target -/

/-- Sector `k` of a file, with zeros behind its end. -/
def targetSector (file : Mem) (k : Nat) : Mem :=
  store (zeros hashSectorSize) 0 (slice file (hashSectorSize * k) hashSectorSize)

/-- The target is read to its end. -/
theorem readSectors_eq (file : Mem) : ∀ (fuel k : Nat), file.length ≤ hashSectorSize * (k + fuel) →
    readSectors file fuel (hashSectorSize * k) = (List.range' k ((file.length + 511) / 512 - k)).map (targetSector file)
  | 0, k, h => by
    rw [show (file.length + 511) / 512 - k = 0 by simp only [hashSectorSize] at h; omega]
    rfl
  | fuel + 1, k, h => by
    rw [readSectors]
    split
    · rw [show (file.length + 511) / 512 - k = 0 by simp only [hashSectorSize] at *; omega]
      rfl
    · have hrest := readSectors_eq file fuel (k + 1) (by rw [show k + 1 + fuel = k + (fuel + 1) by omega]; exact h)
      have hcount : (file.length + 511) / 512 - k = (file.length + 511) / 512 - (k + 1) + 1 := by
        simp only [hashSectorSize] at *; omega
      rw [hcount, List.range'_succ, List.map_cons, ← hrest]
      rfl

theorem targetSectors_eq (file : Mem) :
    targetSectors file = (List.range ((file.length + 511) / 512)).map (targetSector file) := by
  rw [targetSectors, List.range_eq_range', ← Nat.sub_zero ((file.length + 511) / 512)]
  exact readSectors_eq file _ 0 (by simp only [hashSectorSize]; omega)

/-- The sectors of the target that are looked for. -/
def validSectors (target : Mem) : List Mem := (targetSectors target).filter fun sector => !filledWithOne sector

def targetHashes (md5 : MD5) (target : Mem) : List Text := (validSectors target).map md5.toHashValue

/-- The configuration after the loop of `main`. -/
theorem setHashes_spec (md5 : MD5) : ∀ (sectors : List Mem) (conf : Configuration) (i : Int), int i = i →
    (setHashes md5 sectors conf i).2 = int (i + ((sectors.filter fun s => !filledWithOne s).length : Nat)) ∧
    ∀ j, (setHashes md5 sectors conf i).1.get (valueOf j) =
      (lastAt j ((sectors.filter fun s => !filledWithOne s).map md5.toHashValue) i).or (conf.get (valueOf j))
  | [], conf, i, hi => ⟨by rw [setHashes]; simp [hi], fun j => rfl⟩
  | sector :: sectors, conf, i, hi => by
    rw [setHashes]
    by_cases hf : filledWithOne sector = true
    · rw [if_pos hf, List.filter_cons_of_neg (by simp [hf])]
      exact setHashes_spec md5 sectors conf i hi
    · have hint : int (int (i + 1)) = int (i + 1) := by rw [int, int, Int.bmod_bmod]
      obtain ⟨h1, h2⟩ := setHashes_spec md5 sectors (conf.set (valueOf i) (md5.toHashValue sector)) _ hint
      rw [if_neg hf, List.filter_cons_of_pos (by simp [hf])]
      refine ⟨?_, fun j => ?_⟩
      · rw [h1, int, int, Int.bmod_add_bmod, ← int, List.length_cons]
        congr 1
        push_cast
        ring
      · rw [h2 j, List.map_cons, lastAt, Option.or_assoc]
        congr 1
        rw [Configuration.get, Configuration.set, List.lookup_cons]
        by_cases hij : i = j
        · subst hij
          simp
        · have hne : (valueOf j == valueOf i) = false := by
            simp only [beq_eq_false_iff_ne]
            exact fun h => hij (valueOf_injective h).symm
          rw [hne, if_neg hij]
          rfl

theorem getHashes_eq {conf : Configuration} {f : Nat → Option Text} : ∀ (count i : Nat),
    (∀ j, i ≤ j → j < i + count → conf.get (valueOf j) = f j ∧ ∃ hash, f j = some hash) →
    getHashes conf count i = .ok ((List.range' i count).filterMap f)
  | 0, _, _ => rfl
  | count + 1, i, h => by
    obtain ⟨hget, hash, hhash⟩ := h i (Nat.le_refl _) (by omega)
    rw [getHashes, hget, hhash, getHashes_eq count (i + 1) fun j h1 h2 => h j (by omega) (by omega), List.range'_succ,
      List.filterMap_cons, hhash]
    rfl

/-- What `setup` makes of the configuration. -/
theorem searchSetup_eq (md5 : MD5) (target : Mem) {conf : Configuration} {size : Int}
    (hconf : setHashes md5 (targetSectors target) [] 0 = (conf, size)) :
    size = int (validSectors target).length ∧
    searchSetup (conf.set ['s', 'i', 'z', 'e'] (valueOf size)) =
      if size < 0 then .error .thrown else .ok (kept (targetHashes md5 target)) := by
  obtain ⟨h1, h2⟩ := setHashes_spec md5 (targetSectors target) [] 0 rfl
  rw [hconf, zero_add] at h1
  simp only [hconf, Configuration.get, List.lookup_nil, Option.or_none] at h2
  refine ⟨h1, ?_⟩
  have hsize : (conf.set ['s', 'i', 'z', 'e'] (valueOf size)).get ['s', 'i', 'z', 'e'] = some (valueOf size) := by
    simp [Configuration.get, Configuration.set]
  have hrange := int_range (validSectors target).length
  change size = int (validSectors target).length at h1
  rw [← h1] at hrange
  rw [searchSetup, hsize]
  simp only [nonNull_some, ok_bind, parseInt_valueOf hrange.1 hrange.2]
  split
  · rfl
  · have hname : ∀ j : Nat, (valueOf j == ['s', 'i', 'z', 'e']) = false := fun j => by
      simp only [beq_eq_false_iff_ne]
      intro h
      exact @not_mem_valueOf j 's' (by decide) (by rw [h]; decide)
    have hget := @getHashes_eq (conf.set ['s', 'i', 'z', 'e'] (valueOf size))
      (fun j : Nat => lastAt j (targetHashes md5 target) 0) size.toNat 0 fun j _ hj => by
        refine ⟨?_, lastAt_below ?_⟩
        · rw [Configuration.get, Configuration.set, List.lookup_cons, hname j]
          exact h2 j
        · rw [targetHashes, List.length_map, ← h1]
          omega
    rw [hget, kept, targetHashes, List.length_map, ← h1, List.range_eq_range']

/-! ## The mapper -/

/-- A hash of the pair is among the hashes. -/
def Matches (hashes : List Text) (pair : Text × Text) : Prop := ∃ hash ∈ pair.1.splitOn ',', hash ∈ hashes

instance (hashes : List Text) (pair : Text × Text) : Decidable (Matches hashes pair) := by
  unfold Matches; infer_instance

theorem foldl_match (hashList : List Text) (k value keyOut : Text) :
    hashList.foldl (fun keyOut hash => if hash = k then value else keyOut) keyOut =
      if k ∈ hashList then value else keyOut := by
  induction hashList generalizing keyOut with
  | nil => rfl
  | cons hash hashList ih =>
    rw [List.foldl_cons, ih]
    by_cases h1 : k ∈ hashList
    · rw [if_pos h1, if_pos (List.mem_cons_of_mem _ h1)]
    · by_cases h2 : hash = k
      · rw [if_neg h1, if_pos h2, if_pos (by rw [h2]; exact List.mem_cons_self)]
      · rw [if_neg h1, if_neg h2, if_neg (by simp [h1, Ne.symm h2])]

/-- A hash as it stands in a key. -/
structure Token (hash : Text) : Prop where
  ne_nil : hash ≠ []
  comma : ',' ∉ hash

theorem following_head (hashes : List Text) : following hashes = [] ∨ (following hashes).head? = some ',' := by
  cases hashes with
  | nil => exact .inl rfl
  | cons hash hashes => exact .inr rfl

/-- The loop over the hashes that are left. -/
theorem searchHashes_following (hashList : List Text) (value : Text) : ∀ (hashes : List Text) (keyOut : Text),
    (∀ hash ∈ hashes, Token hash) → searchHashes hashList value hashes.length (following hashes) keyOut =
      .ok (if ∃ hash ∈ hashes, hash ∈ hashList then value else keyOut)
  | [], keyOut, _ => by
    rw [if_neg (by simp)]
    rfl
  | hash :: hashes, keyOut, h => by
    have htoken := h hash List.mem_cons_self
    have hnext : nextToken ',' (following (hash :: hashes)) = .ok (hash, following hashes) :=
      (nextToken_delim ',' _).trans (nextToken_append htoken.ne_nil htoken.comma (following_head hashes))
    rw [List.length_cons, searchHashes, hnext]
    simp only [bind, Except.bind]
    rw [searchHashes_following hashList value hashes _ fun x hx => h x (List.mem_cons_of_mem _ hx), foldl_match]
    by_cases h1 : ∃ hash ∈ hashes, hash ∈ hashList
    · obtain ⟨x, hx, hin⟩ := h1
      rw [if_pos ⟨x, hx, hin⟩, if_pos ⟨x, List.mem_cons_of_mem _ hx, hin⟩]
    · rw [if_neg h1]
      by_cases h2 : hash ∈ hashList
      · rw [if_pos h2, if_pos ⟨hash, List.mem_cons_self, h2⟩]
      · rw [if_neg h2, if_neg]
        rintro ⟨x, hx, hin⟩
        rcases List.mem_cons.1 hx with rfl | hx
        · exact h2 hin
        · exact h1 ⟨x, hx, hin⟩

/-- The values that `ByteControl` decodes are not negative. -/
theorem ofBytes_inv {m : Mem} {bc : ByteControl} (h : ByteControl.ofBytes m = .ok bc) : ∃ sec nsec size : Nat,
    bc.sec = sec ∧ bc.nsec = nsec ∧ bc.dataSize = size ∧ size < 2 ^ 16 ∧ bc.minSector = getMinSectorNum size := by
  have h1 := unle_slice_lt m 0 4
  have h2 := unle_slice_lt m 8 4
  have h3 := unle_slice_lt m 24 2
  have hsize : intOf (slice m 24 2) = (unle (slice m 24 2) : Int) := by rw [intOf_eq, int_of_lt (by omega)]
  rw [ByteControl.ofBytes] at h
  split at h
  · cases h
  · cases h
    have hsec : longOf (slice m 0 4) = (unle (slice m 0 4) : Int) := by rw [longOf_eq, long_of_lt (by omega)]
    have hnsec : longOf (slice m 8 4) = (unle (slice m 8 4) : Int) := by rw [longOf_eq, long_of_lt (by omega)]
    exact ⟨_, _, _, hsec, hnsec, hsize, h3, congrArg getMinSectorNum hsize⟩

/-- A pair of a HashDB: its hashes and the text of its values. -/
structure PairOf (pair : Text × Text) (hashes : List Text) : Prop where
  key : pair.1 = [','].intercalate hashes
  tokens : ∀ hash ∈ hashes, Token hash
  ne_nil : hashes ≠ []
  value : ∃ bc : ByteControl, ByteControl.ofText pair.2 = .ok bc ∧ bc.minSector.toNat = hashes.length
  text : pair.2 ≠ []

theorem token_toHashValue (md5 : MD5) (m : Mem) : Token (md5.toHashValue m) :=
  ⟨md5.toHashValue_ne_nil m, comma_not_mem_toEncryptedString _⟩

theorem Indexed.pairOf {md5 : MD5} {pair : Text × Text} (h : Indexed md5 pair) : ∃ hashes, PairOf pair hashes := by
  obtain ⟨key, value, hrun⟩ := h
  cases hbc : ByteControl.ofBytes key.bytes with
  | error e =>
    rw [hashMap, hbc] at hrun
    cases hrun
  | ok bc =>
    obtain ⟨sec, nsec, size, h1, h2, h3, hs, h4⟩ := ofBytes_inv hbc
    have hrange := getMinSectorNum_range size
    rw [hashMap_eq hbc h4] at hrun
    have hpair := Except.ok.inj hrun
    split at hpair
    · cases hpair
    · cases hpair
      refine ⟨_, rfl, fun hash hh => ?_, ?_, ⟨_, ofText_valueText h1 h2 h3 (by omega), ?_⟩, ?_⟩
      · obtain ⟨k, -, rfl⟩ := List.mem_map.1 hh
        exact token_toHashValue md5 _
      · intro hnil
        have := congrArg List.length hnil
        rw [sectorHashes, List.length_map, List.length_range', List.length_nil] at this
        omega
      · rw [sectorHashes, List.length_map, List.length_range']
      · rw [ByteControl.valueText]
        simp

namespace PairOf

variable {pair : Text × Text} {hashes : List Text} (h : PairOf pair hashes)
include h

theorem matches_iff {hashList : List Text} : Matches hashList pair ↔ ∃ hash ∈ hashes, hash ∈ hashList := by
  rw [Matches, h.key, List.splitOn_intercalate _ (fun x hx => (h.tokens x hx).comma) h.ne_nil]

/-- **`SearchMapper.map`** writes a key for every record. -/
theorem searchMap_eq (hashList : List Text) {samplingRate : Nat} {draw : Fin (2 ^ 53)} (hdraw : draw.val ≤ samplingRate) :
    searchMap hashList samplingRate draw pair = .ok (some (if Matches hashList pair then pair.2 else [])) := by
  obtain ⟨bc, hbc, hcount⟩ := h.value
  have hrun : searchHashes hashList pair.2 hashes.length pair.1 [] =
      .ok (if ∃ hash ∈ hashes, hash ∈ hashList then pair.2 else []) := by
    obtain ⟨hash, rest, hcons⟩ := List.exists_cons_of_ne_nil h.ne_nil
    have htokens := h.tokens
    rw [hcons] at htokens
    -- the key starts like the rest after a comma
    have hfirst : searchHashes hashList pair.2 (hash :: rest).length ([','].intercalate (hash :: rest)) [] =
        searchHashes hashList pair.2 (hash :: rest).length (following (hash :: rest)) [] := by
      rw [intercalate_cons, List.length_cons, searchHashes, searchHashes]
      exact congrArg (· >>= _) (nextToken_delim ',' _).symm
    rw [h.key, hcons, hfirst, searchHashes_following hashList pair.2 _ _ htokens]
  rw [searchMap, if_pos hdraw, hbc]
  simp only [ok_bind, hcount, hrun, pure_eq, h.matches_iff]

end PairOf

/-- The keys that the mapper writes for a HashDB. -/
theorem searchAll_eq (hashList : List Text) {samplingRate : Nat} (hrate : 2 ^ 53 ≤ samplingRate)
    (draw : Nat → Fin (2 ^ 53)) : ∀ (db : List (Text × Text)) (i : Nat), (∀ pair ∈ db, ∃ hashes, PairOf pair hashes) →
    searchAll hashList samplingRate draw i db =
      .ok (db.map fun pair => if Matches hashList pair then pair.2 else [])
  | [], _, _ => rfl
  | pair :: db, i, h => by
    obtain ⟨hashes, hp⟩ := h pair List.mem_cons_self
    have hdraw : (draw i).val ≤ samplingRate := Nat.le_trans (Nat.le_of_lt (draw i).isLt) hrate
    rw [searchAll, hp.searchMap_eq hashList hdraw, ok_bind,
      searchAll_eq hashList hrate draw db (i + 1) fun q hq => h q (List.mem_cons_of_mem _ hq)]
    rfl

/-! ## The lines -/

/-- `SamplingRate = 1.0`. -/
abbrev samplingRateOne : Nat := 2 ^ 53

theorem hashSearch_eq (md5 : MD5) (draw : Nat → Fin (2 ^ 53)) (target : Mem) {db : List (Text × Text)}
    (hdb : ∀ pair ∈ db, Indexed md5 pair) : hashSearch md5 samplingRateOne draw target db =
      if int (validSectors target).length = 0 then .ok []
      else if int (validSectors target).length < 0 then .error .thrown
      else .ok (db.map fun pair => if Matches (kept (targetHashes md5 target)) pair then pair.2 else []).dedup := by
  obtain ⟨hsize, hsetup⟩ := @searchSetup_eq md5 target _ _ rfl
  rw [hashSearch]
  simp only [hsize] at hsetup ⊢
  split
  · rfl
  · rw [hsetup]
    split
    · rfl
    · rw [ok_bind, searchAll_eq _ (Nat.le_refl _) draw db 0 fun pair hp => (hdb pair hp).pairOf]
      rfl

/-- No call of the mapper throws, and the lines are the texts of the pairs that match, each once. -/
structure SearchExact (md5 : MD5) (draw : Nat → Fin (2 ^ 53)) (target : Mem) (db : List (Text × Text)) : Prop where
  calls : ∀ hashList d, ∀ pair ∈ db, ∃ key, searchMap hashList samplingRateOne d pair = .ok key
  lines : ∃ lines, hashSearch md5 samplingRateOne draw target db = .ok lines ∧ lines.Nodup ∧
    ∀ line, line ∈ lines ↔ ∃ pair ∈ db, Matches (targetHashes md5 target) pair ∧ line = pair.2

/-- Every pair matches one of the hashes that stay under their numbers; or there is no hash to look for
and no pair matches. -/
def EveryPairMatches (md5 : MD5) (target : Mem) (db : List (Text × Text)) : Prop :=
  (int (validSectors target).length = 0 ∧ ∀ pair ∈ db, ¬Matches (targetHashes md5 target) pair) ∨
  (0 < int (validSectors target).length ∧ ∀ pair ∈ db, Matches (kept (targetHashes md5 target)) pair)

theorem Matches.mono {as bs : List Text} {pair : Text × Text} (h : Matches as pair) (hsub : ∀ a ∈ as, a ∈ bs) :
    Matches bs pair := by
  obtain ⟨hash, h1, h2⟩ := h
  exact ⟨hash, h1, hsub hash h2⟩

/-- A target of fewer than `2 ^ 31` sectors that are looked for. -/
theorem everyPairMatches_iff {md5 : MD5} {target : Mem} {db : List (Text × Text)}
    (hlt : (validSectors target).length < 2 ^ 31) : EveryPairMatches md5 target db ↔
      validSectors target = [] ∨ ∀ pair ∈ db, Matches (targetHashes md5 target) pair := by
  have hkept : kept (targetHashes md5 target) = targetHashes md5 target :=
    kept_eq (by rw [targetHashes, List.length_map]; exact hlt)
  have hnone : validSectors target = [] → ∀ pair ∈ db, ¬Matches (targetHashes md5 target) pair := by
    rintro h0 pair - ⟨hash, -, hin⟩
    rw [targetHashes, h0] at hin
    cases hin
  rw [EveryPairMatches, hkept, int_of_lt hlt]
  constructor
  · rintro (⟨h0, -⟩ | ⟨-, h⟩)
    · exact .inl (List.length_eq_zero_iff.1 (by omega))
    · exact .inr h
  · intro h
    by_cases h0 : validSectors target = []
    · exact .inl ⟨by rw [h0]; rfl, hnone h0⟩
    · have := List.length_pos_of_ne_nil h0
      exact .inr ⟨by omega, h.resolve_left h0⟩

/-- **Search is exact** exactly when every record of the HashDB matches, or none of the target is looked
for. -/
theorem search_exact {md5 : MD5} {draw : Nat → Fin (2 ^ 53)} {target : Mem} {db : List (Text × Text)}
    (hdb : ∀ pair ∈ db, Indexed md5 pair) :
    (SearchExact md5 draw target db ↔ EveryPairMatches md5 target db) ∧
    ((validSectors target).length < 2 ^ 31 → (SearchExact md5 draw target db ↔
      validSectors target = [] ∨ ∀ pair ∈ db, Matches (targetHashes md5 target) pair)) := by
  have hrun := hashSearch_eq md5 draw target hdb
  have hiff : SearchExact md5 draw target db ↔ EveryPairMatches md5 target db := by
    constructor
    · rintro ⟨-, lines, hlines, -, hmem⟩
      rw [hrun] at hlines
      split at hlines
      · rename_i h0
        cases hlines
        exact .inl ⟨h0, fun pair hp hmatch => by cases (hmem pair.2).2 ⟨pair, hp, hmatch, rfl⟩⟩
      · split at hlines
        · cases hlines
        · cases hlines
          refine .inr ⟨by omega, fun pair hp => ?_⟩
          by_contra hno
          -- the empty key of a pair that does not match
          obtain ⟨pair', hp', -, hempty⟩ := (hmem []).1
            (List.mem_dedup.2 (List.mem_map.2 ⟨pair, hp, by rw [if_neg hno]⟩))
          obtain ⟨hashes, hpair⟩ := (hdb pair' hp').pairOf
          exact hpair.text hempty.symm
    · intro h
      refine ⟨fun hashList d pair hp => ?_, ?_⟩
      · obtain ⟨hashes, hpair⟩ := (hdb pair hp).pairOf
        exact ⟨_, hpair.searchMap_eq hashList (Nat.le_of_lt d.isLt)⟩
      · rcases h with ⟨h0, hnone⟩ | ⟨hpos, hall⟩
        · refine ⟨[], by rw [hrun, if_pos h0], List.nodup_nil, fun line => ⟨nofun, ?_⟩⟩
          rintro ⟨pair, hp, hmatch, -⟩
          exact absurd hmatch (hnone pair hp)
        · refine ⟨_, by rw [hrun, if_neg (by omega), if_neg (by omega)], List.nodup_dedup _, fun line => ?_⟩
          rw [List.mem_dedup, List.mem_map]
          constructor
          · rintro ⟨pair, hp, rfl⟩
            rw [if_pos (hall pair hp)]
            exact ⟨pair, hp, (hall pair hp).mono fun _ => kept_subset, rfl⟩
          · rintro ⟨pair, hp, -, rfl⟩
            exact ⟨pair, hp, if_pos (hall pair hp)⟩
  exact ⟨hiff, fun hlt => hiff.trans (everyPairMatches_iff hlt)⟩

/-! ## One record -/

/-- A function under which everything matches. -/
def zeroMD5 : MD5 := ⟨fun _ => zeros 16, fun _ => length_zeros 16⟩

/-- The sector that starts with one byte and has zeros after it. -/
def markedSector (byte : UInt8) : Mem := byte :: zeros 511

theorem length_markedSector (byte : UInt8) : (markedSector byte).length = 512 := by
  rw [markedSector, List.length_cons, length_zeros]

theorem byteAt_markedSector {byte : UInt8} {i : Nat} : byteAt (markedSector byte) i = byteAt [byte] i := by
  cases i with
  | zero => rfl
  | succ i => exact (byteAt_zeros 511 i).trans (byteAt_of_le (Nat.succ_le_succ (Nat.zero_le i))).symm

theorem filledWithOne_marked {byte : UInt8} (h : byte ≠ 0) : filledWithOne (markedSector byte) = false := by
  rw [Bool.eq_false_iff]
  intro hf
  exact h (filledWithOne_iff.1 hf 1 (by decide)).symm

/-- The pair of a record whose value is one byte. -/
theorem indexed_plain (md5 : MD5) {byte : UInt8} (h : byte ≠ 0) :
    ∃ text, Indexed md5 (md5.toHashValue (markedSector byte), text) := by
  obtain ⟨bc, hbc, hk⟩ := @ofBytes_key { plainHeader 1459382400 with dataSize := 1 } (by decide) 0 (by decide) []
  rw [List.append_nil] at hbc
  have hone : (getMinSectorNum 1).toNat = 1 := by decide
  have hsector : sectorOf (copyOf [byte] 4096) 0 = markedSector byte :=
    ext_byteAt (by rw [sectorOf, length_slice_of_le (by rw [copyOf, length_tabulate]; decide), length_markedSector]) fun i hi => by
      rw [sectorOf, length_slice_of_le (by rw [copyOf, length_tabulate]; decide)] at hi
      rw [byteAt_sectorOf (by decide) hi, byteAt_markedSector, Nat.mul_zero, Nat.zero_add]
  have hrun := @hashMap_eq md5 (.of (plainRecord byte 1).1) (.of [byte]) bc hbc 1 hk.minSector
  simp only [BytesWritable.of, hone, Nat.sub_self, hsector, filledWithOne_marked h] at hrun
  have hhashes : [','].intercalate (sectorHashes md5 (copyOf [byte] 4096) 0 1) = md5.toHashValue (markedSector byte) := by
    rw [sectorHashes, List.range'_succ, List.map_cons, hsector, intercalate_cons]
    exact List.append_nil _
  rw [hhashes] at hrun
  exact ⟨bc.valueText, _, _, hrun⟩

theorem targetSector_marked {file : Mem} {byte : UInt8} {k : Nat}
    (h : ∀ i < 512, byteAt file (512 * k + i) = byteAt [byte] i) :
    targetSector file k = markedSector byte :=
  ext_byteAt (by rw [targetSector, length_store_slice, length_markedSector]) fun i hi => by
    rw [targetSector, length_store_slice] at hi
    rw [targetSector, byteAt_store_slice hi, h i hi, byteAt_markedSector]

theorem validSectors_plain {byte : UInt8} (h : byte ≠ 0) : validSectors [byte] = [markedSector byte] := by
  rw [validSectors, targetSectors_eq, List.length_singleton]
  simp only [Nat.reduceAdd, Nat.reduceDiv, List.range_one, List.map_cons, List.map_nil]
  rw [@targetSector_marked _ byte _ (by simp), List.filter_cons_of_pos (by rw [filledWithOne_marked h]; rfl)]
  rfl

/-- A target of a sector and one more byte. -/
theorem validSectors_snoc {sector : Mem} {byte : UInt8} (hlen : sector.length = 512) (hs : filledWithOne sector = false)
    (h : byte ≠ 0) : validSectors (sector ++ [byte]) = [sector, markedSector byte] := by
  have hfirst : targetSector (sector ++ [byte]) 0 = sector :=
    ext_byteAt (by rw [targetSector, length_store_slice, hlen]) fun i hi => by
      rw [targetSector, length_store_slice] at hi
      rw [targetSector, byteAt_store_slice hi, Nat.mul_zero, Nat.zero_add, byteAt_append_left (by rw [hlen]; exact hi)]
  have hsecond : targetSector (sector ++ [byte]) 1 = markedSector byte := targetSector_marked fun i _ => by
    rw [byteAt_append_right (by omega), hlen, Nat.mul_one, Nat.add_sub_cancel_left]
  rw [validSectors, targetSectors_eq, List.length_append, hlen, List.length_singleton,
    show List.range ((512 + 1 + 511) / 512) = [0, 1] by decide, List.map_cons, List.map_cons, hfirst, hsecond,
    List.filter_cons_of_pos (by rw [hs]; rfl), List.map_nil, List.filter_cons_of_pos (by rw [filledWithOne_marked h]; rfl)]
  rfl

theorem matches_one {hashes : List Text} (md5 : MD5) (m : Mem) (text : Text) :
    Matches hashes (md5.toHashValue m, text) ↔ md5.toHashValue m ∈ hashes := by
  have hsplit : (md5.toHashValue m).splitOn ',' = [md5.toHashValue m] :=
    List.splitOn_eq_singleton (comma_not_mem_toEncryptedString _)
  rw [Matches, hsplit]
  simp

/-- A target of two sectors and a record of each. -/
theorem search_exact_two : ∃ (md5 : MD5) (text text' : Text),
    md5.toHashValue (markedSector 1) ≠ md5.toHashValue (markedSector 2) ∧
    SearchExact md5 (fun _ => 0) (markedSector 1 ++ [2])
      [(md5.toHashValue (markedSector 1), text), (md5.toHashValue (markedSector 2), text')] := by
  obtain ⟨md5, hne⟩ := @exists_md5_ne (markedSector 1) (markedSector 2) (by decide)
  obtain ⟨text, hpair⟩ := indexed_plain md5 (show (1 : UInt8) ≠ 0 by decide)
  obtain ⟨text', hpair'⟩ := indexed_plain md5 (show (2 : UInt8) ≠ 0 by decide)
  have hvalid := validSectors_snoc (length_markedSector 1) (filledWithOne_marked (by decide)) (show (2 : UInt8) ≠ 0 by decide)
  have hdb : ∀ pair ∈ [(md5.toHashValue (markedSector 1), text), (md5.toHashValue (markedSector 2), text')],
      Indexed md5 pair :=
    fun pair hp => by
      rcases List.mem_pair.1 hp with rfl | rfl
      · exact hpair
      · exact hpair'
  refine ⟨md5, text, text', hne, ((search_exact hdb).2 (by rw [hvalid]; decide)).2 (.inr fun pair hp => ?_)⟩
  rw [targetHashes, hvalid]
  rcases List.mem_pair.1 hp with rfl | rfl
  · exact (matches_one md5 _ _).2 List.mem_cons_self
  · exact (matches_one md5 _ _).2 (List.mem_cons_of_mem _ List.mem_cons_self)

/-- A record that does not match adds an empty line. -/
theorem search_inexact : ¬ ∀ (md5 : MD5) (draw : Nat → Fin (2 ^ 53)) (target : Mem) (db : List (Text × Text)),
    (∀ pair ∈ db, Indexed md5 pair) → SearchExact md5 draw target db := by
  intro h
  obtain ⟨md5, hne⟩ := @exists_md5_ne (markedSector 1) (markedSector 2) (by decide)
  obtain ⟨text, hpair⟩ := indexed_plain md5 (show (1 : UInt8) ≠ 0 by decide)
  have hvalid := validSectors_plain (show (2 : UInt8) ≠ 0 by decide)
  have hdb : ∀ pair ∈ [(md5.toHashValue (markedSector 1), text)], Indexed md5 pair := fun pair hp => by
    rw [List.mem_singleton.1 hp]
    exact hpair
  have hno : ¬Matches (targetHashes md5 [2]) (md5.toHashValue (markedSector 1), text) := by
    rw [matches_one, targetHashes, hvalid]
    simpa using hne
  obtain ⟨lines, hlines, -, hmem⟩ := (h md5 (fun _ => 0) [2] _ hdb).lines
  have hkept : kept (targetHashes md5 [2]) = targetHashes md5 [2] :=
    kept_eq (by rw [targetHashes, hvalid, List.map_singleton, List.length_singleton]; decide)
  rw [hashSearch_eq md5 _ _ hdb, hvalid, hkept, if_neg (by decide), if_neg (by decide), List.map_singleton,
    if_neg hno] at hlines
  obtain rfl := Except.ok.inj hlines
  obtain ⟨pair, hp, hmatch, -⟩ := (hmem []).1 (by decide)
  rw [List.mem_singleton.1 hp] at hmatch
  exact hno hmatch

end LogDrive
