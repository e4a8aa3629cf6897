import LogDrive.Reader.Database
import LogDrive.Reader.Proof.Record

/-!
# The index that the Java reader loads

The constructor allocates `index_table_num * 8` bytes for the index, a product that is cut to an
`int`, and reads as many. `ofFile_spec` says which entries it then loads (`loadedEntries`); the others
stay 0. `index_loaded` is the exact condition for the whole index to be there.
-/

set_option autoImplicit false

open Bytes Java

namespace LogDrive

/-- The `i`th entry of the index in the file. -/
def storedEntry (file : Mem) (i : Nat) : Nat := numAt (byteAt file) (512 + 8 * i) 8

/-- The number of entries that the constructor loads of an index of `n`. -/
def loadedEntries (n : Nat) : Nat := (int (n * 8)).toNat / 8

theorem loadedEntries_le (n : Nat) : loadedEntries n ≤ n := by
  have := int_range (n * 8)
  unfold loadedEntries int at *
  rw [Int.bmod_def] at *
  split at this <;> omega

theorem loadedEntries_eq {n : Nat} (h : n < 2 ^ 28) : loadedEntries n = n := by
  have := @int_of_lt (n * 8) (by omega)
  rw [loadedEntries, ← Nat.cast_ofNat, ← Nat.cast_mul, this]
  omega

/-- Where `index_table_num * 8` is not negative, the array has 8 bytes for each entry loaded. -/
theorem int_mul_eight {n : Nat} (h : 0 ≤ int (n * 8)) : int (n * 8) = ((8 * loadedEntries n : Nat) : Int) := by
  have := int_range (n * 8)
  unfold loadedEntries
  unfold int at *
  rw [Int.bmod_def] at *
  split at this <;> omega

theorem loadedEntries_lt (n : Nat) : loadedEntries n < 2 ^ 28 := by
  have := int_range (n * 8)
  unfold loadedEntries
  omega

/-! ## The loop -/

theorem length_loadIndex (binary : Mem) : ∀ (count i : Nat) (table : List Int),
    (loadIndex binary count i table).length = table.length
  | 0, _, _ => rfl
  | count + 1, i, table => by
    rw [loadIndex]
    cases copyOfRange binary (int (i * 8)) (int (int (i * 8) + 8)) with
    | error e => rfl
    | ok buf => rw [handle_ok, length_loadIndex binary count, List.length_set]

section
variable {binary : Mem} {m : Nat} (hlen : binary.length = 8 * m)
include hlen

/-- Past the end of the array the loop changes no entry that is 0. -/
theorem loadIndex_end (hm : m < 2 ^ 28) (count : Nat) {table : List Int}
    (h0 : ∀ j, m ≤ j → j < table.length → table[j]? = some 0) : loadIndex binary count m table = table := by
  have hpast : ∀ count, ∀ i, i = m + 1 → loadIndex binary count i table = table := by
    intro count i hi
    cases count with
    | zero => rfl
    | succ count =>
      have hthrow : copyOfRange binary (int (i * 8)) (int (int (i * 8) + 8)) = .error .thrown := by
        rw [copyOfRange, if_pos ?_]
        · rfl
        by_cases hsmall : 8 * m + 8 < 2 ^ 31
        · have := @int_of_lt (i * 8) (by omega)
          push_cast at this
          omega
        · have hi : (i * 8 : Int) = 2 ^ 31 := by omega
          rw [hi]
          exact .inl (by decide)
      rw [loadIndex, hthrow]
      rfl
  cases count with
  | zero => rfl
  | succ count =>
    have hfrom := @int_of_lt (m * 8) (by omega)
    push_cast at hfrom
    rw [loadIndex, hfrom]
    by_cases hsmall : 8 * m + 8 < 2 ^ 31
    · have hto := @int_of_lt (m * 8 + 8) (by omega)
      push_cast at hto
      have hcopy := @copyOfRange_eq binary (m * 8) (m * 8 + 8) (by omega) (by omega)
      push_cast at hcopy
      rw [hto, hcopy]
      have hzero : tabulate (fun i => byteAt binary (m * 8 + i)) (m * 8 + 8 - m * 8) = zeros 8 :=
        ext_byteAt (by simp) fun i hi => by
          rw [length_tabulate] at hi
          rw [byteAt_tabulate hi, byteAt_zeros, byteAt_of_le (by omega)]
      have hset : table.set m (longOf (zeros 8)) = table := by
        refine List.ext_getElem? fun j => ?_
        rw [List.getElem?_set]
        split
        · rename_i hj
          subst hj
          split
          · rw [h0 m (Nat.le_refl _) ‹_›, longOf_zeros]
          · rw [List.getElem?_eq_none (by omega)]
        · rfl
      rw [hzero, handle_ok, hset]
      exact hpast count (m + 1) rfl
    · have hwrap : int (m * 8 + 8) = -2 ^ 31 := by
        rw [show (m * 8 + 8 : Int) = 2 ^ 31 by omega]
        rfl
      rw [hwrap, copyOfRange, if_pos (.inr (.inr (by omega)))]
      rfl

/-- The entries after the loop. -/
theorem loadIndex_get (hm : m < 2 ^ 28) : ∀ (count i : Nat) (table : List Int), i ≤ m → m ≤ i + count →
    i + count = table.length → (∀ j, m ≤ j → j < table.length → table[j]? = some 0) → ∀ j,
    (loadIndex binary count i table)[j]? =
      if i ≤ j ∧ j < m then some (longOf (slice binary (8 * j) 8)) else table[j]? := by
  intro count
  induction count with
  | zero =>
    intro i table hi hcount hlength h0 j
    rw [loadIndex, if_neg (by omega)]
  | succ count ih =>
    intro i table hi hcount hlength h0 j
    by_cases him : i = m
    · subst him
      rw [loadIndex_end hlen hm _ h0, if_neg (by omega)]
    · have hfrom := @int_of_lt (i * 8) (by omega)
      have hto := @int_of_lt (i * 8 + 8) (by omega)
      have hcopy := @copyOfRange_eq binary (i * 8) (i * 8 + 8) (by omega) (by omega)
      push_cast at hfrom hto hcopy
      have hslice : tabulate (fun k => byteAt binary (i * 8 + k)) (i * 8 + 8 - i * 8) = slice binary (8 * i) 8 :=
        ext_byteAt (by rw [length_tabulate, length_slice_of_le (by omega)]; omega) fun k hk => by
          rw [length_tabulate] at hk
          rw [byteAt_tabulate hk, byteAt_slice (by omega), Nat.mul_comm]
      rw [loadIndex, hfrom, hto, hcopy, hslice, handle_ok]
      rw [ih (i + 1) (table.set i _) (by omega) (by omega) (by rw [List.length_set]; omega)
        (fun j hj hl => by
          rw [List.length_set] at hl
          rw [List.getElem?_set_ne (by omega), h0 j hj hl]) j]
      by_cases hj : i = j
      · subst hj
        rw [if_neg (by omega), if_pos (by omega), List.getElem?_set_self (by omega)]
      · rw [List.getElem?_set_ne hj]
        by_cases h1 : i ≤ j ∧ j < m
        · rw [if_pos h1, if_pos (by omega)]
        · rw [if_neg h1, if_neg (by omega)]

end

/-! ## The constructor -/

/-- The fields that the constructor sets for a file whose header describes `n` blocks of 4096 bytes. -/
structure PreservationDatabase.Loaded (file : Mem) (n : Nat) (db : PreservationDatabase) (table : List Int) : Prop where
  source : db.file = file
  diskSize : db.diskSize = (numAt (byteAt file) 0 8 : Int)
  blockSize : db.blockSize = 4096
  nextOffset : db.nextOffset = numAt (byteAt file) 16 8
  indexTableNum : db.indexTableNum = n
  indexTable : db.indexTable = some table
  length : table.length = n
  entries : ∀ i < n, table[i]? = some (if i < loadedEntries n then long (storedEntry file i) else 0)

theorem withIndex_loaded {file : Mem} {n : Nat} (hn : n < 2 ^ 31) {db : PreservationDatabase} (hfile : db.file = file)
    (hnum : db.indexTableNum = n) : ∃ table, db.withIndex = { db with indexTable := some table } ∧ table.length = n ∧
      ∀ i < n, table[i]? = some (if i < loadedEntries n then long (storedEntry file i) else 0) := by
  have hzero : ∀ i < n, (List.replicate n (0 : Int))[i]? = some 0 := fun i hi => by
    rw [List.getElem?_replicate, if_pos hi]
  rw [PreservationDatabase.withIndex, if_neg (by omega), hnum, hfile]
  simp only [Int.toNat_natCast]
  by_cases hneg : int (n * 8) < 0
  · have h0 : loadedEntries n = 0 := by unfold loadedEntries; omega
    rw [newArray, if_pos hneg]
    refine ⟨List.replicate n 0, rfl, List.length_replicate, fun i hi => ?_⟩
    rw [hzero i hi, h0, if_neg (by omega)]
  · have hw := int_mul_eight (Int.not_lt.1 hneg)
    have hle := loadedEntries_le n
    have hlt := loadedEntries_lt n
    obtain ⟨m, hm⟩ : ∃ m, loadedEntries n = m := ⟨_, rfl⟩
    rw [hm] at hw hle hlt
    have hnew : newArray ((8 * m : Nat) : Int) = .ok (zeros (8 * m)) := by
      rw [newArray, if_neg (by omega)]
      rfl
    have hread := @readAt_eq file (zeros (8 * m)) 512 (8 * m) (by rw [length_zeros])
    rw [hw, hnew, handle_ok, show indexOffset = ((512 : Nat) : Int) by rfl, hread, handle_ok]
    have hlen := length_store_slice file 512 (8 * m)
    have hget := loadIndex_get hlen hlt n 0 (List.replicate n 0) (Nat.zero_le _) (by omega)
      (by rw [List.length_replicate]; omega) fun j _ hl => hzero j (by rwa [List.length_replicate] at hl)
    refine ⟨_, rfl, ?_, fun i hi => ?_⟩
    · rw [length_loadIndex, List.length_replicate]
    · rw [hget i, hm]
      by_cases him : i < m
      · rw [if_pos ⟨Nat.zero_le _, him⟩, if_pos him, longOf_eq, storedEntry, ← numAt_slice (by omega)]
        have hshift : numAt (byteAt (store (zeros (8 * m)) 0 (slice file 512 (8 * m)))) (8 * i) 8 =
            numAt (byteAt file) (512 + 8 * i) 8 := numAt_shift fun k hk => by
          rw [byteAt_store_slice (by omega), Nat.add_assoc]
        rw [hshift]
      · rw [if_neg (by omega), if_neg him, hzero i hi]

/-- The constructor on a file whose header describes `n` blocks of `bs` bytes. -/
theorem ofFile_eq {file : Mem} {bs n : Nat} (hblock : numAt (byteAt file) 8 8 = bs) (h0 : 0 < bs) (hbs : bs < 2 ^ 31)
    (hblocks : numAt (byteAt file) 0 8 / bs = n) (hn : n < 2 ^ 31) :
    ∃ start table, PreservationDatabase.ofFile file =
        ⟨file, numAt (byteAt file) 0 8, bs, numAt (byteAt file) 16 8, start, n, some table⟩ ∧ table.length = n ∧
      ∀ i < n, table[i]? = some (if i < loadedEntries n then long (storedEntry file i) else 0) := by
  have hfield : ∀ {pos : Nat}, pos + 8 ≤ 24 →
      unle (slice (store (zeros databaseHeaderLength) 0 (slice file 0 databaseHeaderLength)) pos 8) =
        numAt (byteAt file) pos 8 := fun hp => by
    rw [← numAt_slice (by rw [length_store_slice]; exact hp)]
    refine numAt_congr fun i _ hi => ?_
    rw [byteAt_store_slice (by simp only [databaseHeaderLength]; omega), Nat.zero_add]
  have hlt : numAt (byteAt file) 0 8 < 2 ^ 62 := by
    have hlast : numAt (byteAt file) 0 8 < (n + 1) * bs :=
      Nat.lt_mul_of_div_lt (by omega) h0
    calc numAt (byteAt file) 0 8 < (n + 1) * bs := hlast
      _ ≤ 2 ^ 31 * 2 ^ 31 := Nat.mul_le_mul (by omega) (Nat.le_of_lt hbs)
      _ = 2 ^ 62 := by decide
  have hdisk : longOf (slice (store (zeros databaseHeaderLength) 0 (slice file 0 databaseHeaderLength)) 0 8) =
      (numAt (byteAt file) 0 8 : Int) := by
    rw [longOf_eq, hfield (by decide), long_of_lt (by omega)]
  have hsize : intOf (slice (store (zeros databaseHeaderLength) 0 (slice file 0 databaseHeaderLength)) 8 8) = bs := by
    rw [intOf_eq, hfield (by decide), hblock, int_of_lt hbs]
  have hnext : decimalOf (slice (store (zeros databaseHeaderLength) 0 (slice file 0 databaseHeaderLength)) 16 8) =
      numAt (byteAt file) 16 8 := by
    rw [decimalOf_eq, hfield (by decide)]
  have hdiv : (numAt (byteAt file) 0 8 : Int).tdiv bs = (n : Int) := by
    rw [Int.tdiv_eq_ediv_of_nonneg (by omega), ← hblocks]
    rfl
  rw [PreservationDatabase.ofFile]
  simp only [hdisk, hsize, hnext, hdiv]
  rw [if_neg (by omega), long_of_lt (by omega), int_of_lt hn]
  obtain ⟨table, hrun, hlen, hget⟩ := @withIndex_loaded file n hn ⟨file, _, bs, _, _, n, none⟩ rfl rfl
  rw [hrun]
  exact ⟨_, table, rfl, hlen, hget⟩

/-- **The constructor** on a file whose header describes `n` blocks of 4096 bytes. -/
theorem ofFile_loaded {file : Mem} {n : Nat} (hblock : numAt (byteAt file) 8 8 = 4096)
    (hblocks : numAt (byteAt file) 0 8 / 4096 = n) (hn : n < 2 ^ 31) :
    ∃ table, (PreservationDatabase.ofFile file).Loaded file n table := by
  obtain ⟨start, table, hrun, hlen, hget⟩ := ofFile_eq hblock (by decide) (by decide) hblocks hn
  rw [hrun]
  exact ⟨table, rfl, rfl, rfl, rfl, rfl, rfl, hlen, hget⟩

/-! ## The whole index -/

/-- The index of `n` entries is there, and no block that has entries is reported as having none. -/
structure PreservationDatabase.WholeIndex (file : Mem) (n : Nat) (db : PreservationDatabase) : Prop where
  entries : ∃ table, db.indexTable = some table ∧ ∀ i < n, table[i]? = some (long (storedEntry file i))
  noneMissed : ∀ i < n, storedEntry file i ≠ 0 → ∃ next, db.indexAt i = .ok next ∧ next ≠ 0

/-- **The Java reader loads the whole index** exactly when the entries past those that its `int` product
gives are all 0; below `2 ^ 28` blocks there are none past them (`loadedEntries_eq`). -/
theorem index_loaded {file : Mem} {n : Nat} (hblock : numAt (byteAt file) 8 8 = 4096)
    (hblocks : numAt (byteAt file) 0 8 / 4096 = n) (hn : n < 2 ^ 31) :
    (PreservationDatabase.ofFile file).WholeIndex file n ↔
      ∀ i, loadedEntries n ≤ i → i < n → storedEntry file i = 0 := by
  obtain ⟨table, hL⟩ := ofFile_loaded hblock hblocks hn
  have hlong : ∀ i, long (storedEntry file i) = 0 ↔ storedEntry file i = 0 := fun i =>
    long_eq_zero (numAt_lt (byteAt file) (512 + 8 * i) 8)
  constructor
  · rintro ⟨⟨table', htable', hget⟩, -⟩ i h1 h2
    obtain rfl : table = table' := Option.some.inj (hL.indexTable.symm.trans htable')
    have h := (hget i h2).symm.trans (hL.entries i h2)
    rw [if_neg (by omega)] at h
    exact (hlong i).1 (Option.some.inj h)
  · intro h0
    have hget : ∀ i < n, table[i]? = some (long (storedEntry file i)) := fun i hi => by
      rw [hL.entries i hi]
      split
      · rfl
      · rw [h0 i (by omega) hi]
        rfl
    refine ⟨⟨table, hL.indexTable, hget⟩, fun i hi hne => ⟨_, ?_, fun h => hne ((hlong i).1 h)⟩⟩
    rw [PreservationDatabase.indexAt, hL.indexTable]
    simp only [nonNull, pure_bind, Int.toNat_natCast, hget i hi]
    rw [if_neg (by omega)]
    rfl

/-- An index of two entries. -/
def twoEntries : Mem := store (mkimage 8192 4096) 512 (le 8 1024 ++ le 8 1536)

theorem index_loaded_two : ∃ table, (PreservationDatabase.ofFile twoEntries).indexTable = some table ∧
    table[0]? = some 1024 ∧ table[1]? = some 1536 := by
  obtain ⟨⟨table, htable, hget⟩, -⟩ := (@index_loaded twoEntries 2 (by decide) (by decide) (by decide)).2 fun i h1 h2 => by
    rw [loadedEntries_eq (by decide)] at h1
    omega
  obtain ⟨hfirst, hsecond⟩ := holds_append.1 (Holds.store (mkimage 8192 4096) 512 (le 8 1024 ++ le 8 1536))
  rw [length_le] at hsecond
  have h0 : storedEntry twoEntries 0 = 1024 := numAt_of_holds hfirst (by decide)
  have h1 : storedEntry twoEntries 1 = 1536 := numAt_of_holds hsecond (by decide)
  refine ⟨table, htable, ?_, ?_⟩
  · rw [hget 0 (by decide), h0, long_of_lt (by decide)]
    rfl
  · rw [hget 1 (by decide), h1, long_of_lt (by decide)]
    rfl

/-- A database of 1 TiB with one entry, in block 0. -/
def oneTebibyte : Mem :=
  store (store (headerBytes (2 ^ 28) (logStart (2 ^ 28) + 4608)) 512 (le 8 (logStart (2 ^ 28)))) (logStart (2 ^ 28))
    ((plainHeader 1459382400).toBytes ++ tabulate (fun _ => 1) 4096 ++ zeros 480)

theorem oneTebibyte_header {pos : Nat} (h : pos + 8 ≤ 24) : numAt (byteAt oneTebibyte) pos 8 =
    numAt (byteAt (headerBytes (2 ^ 28) (logStart (2 ^ 28) + 4608))) pos 8 :=
  numAt_congr fun i _ hi => by
    have hstart : logStart (2 ^ 28) = 2147484160 := by decide
    rw [oneTebibyte, byteAt_store_outside (.inl (by omega)), byteAt_store_outside (.inl (by omega))]

theorem oneTebibyte_entry : storedEntry oneTebibyte 0 = logStart (2 ^ 28) := by
  have hstart : logStart (2 ^ 28) = 2147484160 := by decide
  have hindex : Holds (byteAt oneTebibyte) 512 (le 8 (logStart (2 ^ 28))) :=
    (Holds.store (headerBytes (2 ^ 28) (logStart (2 ^ 28) + 4608)) 512 (le 8 (logStart (2 ^ 28)))).congr fun i _ hi => by
      rw [length_le] at hi
      exact byteAt_store_outside (.inl (by omega))
  exact numAt_of_holds hindex (by omega)

/-- The reader allocates no bytes for an index of `2 ^ 31`. -/
theorem index_lost : ¬ ∀ (file : Mem) (n : Nat), numAt (byteAt file) 8 8 = 4096 → numAt (byteAt file) 0 8 / 4096 = n →
    n < 2 ^ 31 → (PreservationDatabase.ofFile file).WholeIndex file n := by
  intro h
  have hblock : numAt (byteAt oneTebibyte) 8 8 = 4096 := by
    rw [oneTebibyte_header (by decide)]
    decide
  have hblocks : numAt (byteAt oneTebibyte) 0 8 / 4096 = 2 ^ 28 := by
    rw [oneTebibyte_header (by decide)]
    decide
  obtain ⟨table, hL⟩ := ofFile_loaded hblock hblocks (by decide)
  obtain ⟨⟨table', htable', hget⟩, -⟩ := h oneTebibyte (2 ^ 28) hblock hblocks (by decide)
  obtain rfl : table = table' := Option.some.inj (hL.indexTable.symm.trans htable')
  have heq := (hget 0 (by decide)).symm.trans (hL.entries 0 (by decide))
  have hnone : loadedEntries (2 ^ 28) = 0 := by decide
  have hstart : logStart (2 ^ 28) = 2147484160 := by decide
  rw [hnone, if_neg (by decide), oneTebibyte_entry, hstart, long_of_lt (by decide)] at heq
  cases heq

end LogDrive
