import Mathlib.Data.List.Basic
import Mathlib.Tactic.Ring
import Mathlib.Tactic.Linarith

/-!
# Bytes in memory and in files

A region of memory and a file are both a `Mem`, a list of bytes. `byteAt` reads one byte (zero past
the end, as a hole of a file reads), `slice` a range, `store` overwrites a range and fills the gap
past the end with zeros, as `write` after `lseek` does. Facts about contents are stated pointwise:
`Holds img pos bs` says that the bytes `bs` lie at `pos` in an image `Nat → UInt8`, whatever the
image is made of.

`le n v` is the little-endian coding of `v` in `n` bytes and `unle` its inverse.
-/

set_option autoImplicit false

namespace Bytes

abbrev Mem := List UInt8

def zeros (n : Nat) : Mem := List.replicate n 0

/-- The byte at `i`, zero past the end. -/
def byteAt (m : Mem) (i : Nat) : UInt8 := m.getD i 0

/-- The `n` bytes from `pos` on, fewer where `m` ends before. -/
def slice (m : Mem) (pos n : Nat) : Mem := (m.drop pos).take n

/-- `m` with `bs` written at `pos`; a gap between the end of `m` and `pos` is filled with zeros. -/
def store (m : Mem) (pos : Nat) (bs : Mem) : Mem :=
  if bs = [] then m
  else m.take pos ++ zeros (pos - m.length) ++ bs ++ m.drop (pos + bs.length)

/-- `n` bytes of a memory given as a function. -/
def tabulate (f : Nat → UInt8) (n : Nat) : Mem := (List.range n).map f

/-- `bs` lies at `pos` in the image. -/
def Holds (img : Nat → UInt8) (pos : Nat) (bs : Mem) : Prop :=
  ∀ i < bs.length, img (pos + i) = byteAt bs i

/-! ## Single bytes and lengths -/

@[simp] theorem length_zeros (n : Nat) : (zeros n).length = n := List.length_replicate

@[simp] theorem byteAt_zeros (n i : Nat) : byteAt (zeros n) i = 0 := by
  simp only [byteAt, zeros, List.getD_eq_getElem?_getD, List.getElem?_replicate]
  split <;> rfl

@[simp] theorem length_tabulate (f : Nat → UInt8) (n : Nat) : (tabulate f n).length = n := by
  simp [tabulate]

theorem byteAt_tabulate {f : Nat → UInt8} {n i : Nat} (h : i < n) : byteAt (tabulate f n) i = f i := by
  simp [byteAt, tabulate, List.getD_eq_getElem?_getD, h]

theorem byteAt_of_le {m : Mem} {i : Nat} (h : m.length ≤ i) : byteAt m i = 0 := by
  simp [byteAt, List.getD_eq_getElem?_getD, List.getElem?_eq_none h]

@[simp] theorem byteAt_nil (i : Nat) : byteAt [] i = 0 := byteAt_of_le (Nat.zero_le i)

theorem byteAt_append (a b : Mem) (i : Nat) :
    byteAt (a ++ b) i = if i < a.length then byteAt a i else byteAt b (i - a.length) := by
  simp only [byteAt, List.getD_eq_getElem?_getD]
  split
  · rw [List.getElem?_append_left ‹_›]
  · rw [List.getElem?_append_right (by omega)]

theorem byteAt_append_left {a b : Mem} {i : Nat} (h : i < a.length) :
    byteAt (a ++ b) i = byteAt a i := by rw [byteAt_append, if_pos h]

theorem byteAt_append_right {a b : Mem} {i : Nat} (h : a.length ≤ i) :
    byteAt (a ++ b) i = byteAt b (i - a.length) := by rw [byteAt_append, if_neg (by omega)]

theorem byteAt_take {m : Mem} {n i : Nat} (h : i < n) : byteAt (m.take n) i = byteAt m i := by
  simp [byteAt, List.getD_eq_getElem?_getD, h]

theorem byteAt_drop (m : Mem) (n i : Nat) : byteAt (m.drop n) i = byteAt m (n + i) := by
  simp [byteAt, List.getD_eq_getElem?_getD]

/-- Two regions of one length are equal when their bytes are. -/
theorem ext_byteAt {a b : Mem} (hl : a.length = b.length)
    (h : ∀ i < a.length, byteAt a i = byteAt b i) : a = b := by
  refine List.ext_getElem hl fun i h1 h2 => ?_
  have := h i h1
  simpa [byteAt, List.getD_eq_getElem?_getD, h1, h2] using this

theorem take_eq_zeros {m : Mem} {n : Nat} (h : n ≤ m.length) : m.take n = zeros n ↔ ∀ i < n, byteAt m i = 0 := by
  constructor
  · intro heq i hi
    rw [← byteAt_take hi, heq, byteAt_zeros]
  · intro hall
    refine ext_byteAt (by simp; omega) fun i hi => ?_
    rw [List.length_take] at hi
    rw [byteAt_take (by omega), byteAt_zeros, hall i (by omega)]

theorem tabulate_add (f : Nat → UInt8) (m n : Nat) :
    tabulate f (m + n) = tabulate f m ++ tabulate (fun k => f (m + k)) n := by
  simp [tabulate, List.range_add, Function.comp_def]

/-! ## Slices -/

theorem length_slice (m : Mem) (pos n : Nat) : (slice m pos n).length = min n (m.length - pos) := by
  simp [slice]

theorem length_slice_of_le {m : Mem} {pos n : Nat} (h : pos + n ≤ m.length) :
    (slice m pos n).length = n := by rw [length_slice]; omega

theorem byteAt_slice {m : Mem} {pos n i : Nat} (h : i < n) :
    byteAt (slice m pos n) i = byteAt m (pos + i) := by
  rw [slice, byteAt_take h, byteAt_drop]

@[simp] theorem slice_zero (m : Mem) (pos : Nat) : slice m pos 0 = [] := by simp [slice]

theorem slice_all (m : Mem) : slice m 0 m.length = m := by simp [slice]

theorem slice_add (m : Mem) (pos n k : Nat) : slice m pos (n + k) = slice m pos n ++ slice m (pos + n) k := by
  simp only [slice, List.take_add, List.drop_drop]

theorem slice_slice {m : Mem} {a n b k : Nat} (h : b + k ≤ n) :
    slice (slice m a n) b k = slice m (a + b) k := by
  simp only [slice, List.drop_take, List.drop_drop, List.take_take]
  rw [Nat.min_eq_left (by omega)]

theorem slice_append_left {a b : Mem} {pos n : Nat} (h : pos + n ≤ a.length) :
    slice (a ++ b) pos n = slice a pos n := by
  simp only [slice]
  rw [List.drop_append_of_le_length (by omega), List.take_append_of_le_length (by simp; omega)]

theorem slice_append_right {a b : Mem} (pos n : Nat) :
    slice (a ++ b) (a.length + pos) n = slice b pos n := by
  simp [slice]

/-- A part of a region made of parts. -/
theorem slice_mid (a b c : Mem) {m : Mem} {pos n : Nat} (h : m = a ++ (b ++ c))
    (ha : a.length = pos) (hb : b.length = n) : slice m pos n = b := by
  subst h ha hb
  simp [slice]

/-- A slice of a region in which `bs` lies. -/
theorem slice_eq_of_holds {m : Mem} {pos : Nat} {bs : Mem} (hl : pos + bs.length ≤ m.length)
    (h : Holds (byteAt m) pos bs) : slice m pos bs.length = bs := by
  have hlen := length_slice_of_le hl
  refine ext_byteAt hlen fun i hi => ?_
  rw [byteAt_slice (by omega), h i (by omega)]

/-! ## Stores -/

@[simp] theorem store_nil (m : Mem) (pos : Nat) : store m pos [] = m := by simp [store]

theorem length_store (m : Mem) (pos : Nat) (bs : Mem) :
    (store m pos bs).length = if bs = [] then m.length else max m.length (pos + bs.length) := by
  unfold store
  split
  · rfl
  · simp only [List.length_append, List.length_take, length_zeros, List.length_drop]
    omega

theorem length_store_of_le {m : Mem} {pos : Nat} {bs : Mem} (h : pos + bs.length ≤ m.length) :
    (store m pos bs).length = m.length := by
  rw [length_store]; split <;> omega

theorem le_length_store (m : Mem) (pos : Nat) (bs : Mem) : m.length ≤ (store m pos bs).length := by
  rw [length_store]; split <;> omega

theorem end_le_length_store {m bs : Mem} (pos : Nat) (h : bs ≠ []) :
    pos + bs.length ≤ (store m pos bs).length := by
  rw [length_store, if_neg h]; omega

/-- **A byte after a store**: the new one inside the range written, the old one outside. -/
theorem byteAt_store (m : Mem) (pos : Nat) (bs : Mem) (i : Nat) :
    byteAt (store m pos bs) i =
      if pos ≤ i ∧ i < pos + bs.length then byteAt bs (i - pos) else byteAt m i := by
  unfold store
  split
  · rename_i h; subst h; simp only [List.length_nil]; rw [if_neg (by omega)]
  · rw [byteAt_append, byteAt_append, byteAt_append]
    simp only [List.length_append, List.length_take, length_zeros]
    by_cases h1 : i < pos
    · rw [if_neg (show ¬(pos ≤ i ∧ i < pos + bs.length) by omega), if_pos (by omega),
        if_pos (by omega)]
      split
      · exact byteAt_take h1
      · rw [byteAt_zeros, byteAt_of_le (by omega)]
    · by_cases h2 : i < pos + bs.length
      · rw [if_pos (show pos ≤ i ∧ i < pos + bs.length by omega), if_pos (by omega),
          if_neg (by omega)]
        congr 1; omega
      · rw [if_neg (show ¬(pos ≤ i ∧ i < pos + bs.length) by omega), if_neg (by omega), byteAt_drop]
        congr 1; omega

theorem byteAt_store_inside {m bs : Mem} {pos i : Nat} (h1 : pos ≤ i) (h2 : i < pos + bs.length) :
    byteAt (store m pos bs) i = byteAt bs (i - pos) := by rw [byteAt_store, if_pos ⟨h1, h2⟩]

theorem byteAt_store_outside {m bs : Mem} {pos i : Nat} (h : i < pos ∨ pos + bs.length ≤ i) :
    byteAt (store m pos bs) i = byteAt m i := by rw [byteAt_store, if_neg (by omega)]

/-- A store over the whole region. -/
theorem store_all {m bs : Mem} (h : bs.length = m.length) : store m 0 bs = bs :=
  ext_byteAt (by rw [length_store_of_le (by omega), h]) fun i hi => by
    rw [length_store_of_le (by omega)] at hi
    rw [byteAt_store_inside (by omega) (by omega), Nat.sub_zero]

theorem length_store_slice (f : Mem) (pos n : Nat) : (store (zeros n) 0 (slice f pos n)).length = n := by
  rw [length_store_of_le, length_zeros]
  rw [length_slice, length_zeros]
  omega

/-- What a read into zeros gives, of a file that may end before. -/
theorem byteAt_store_slice {f : Mem} {pos n i : Nat} (h : i < n) :
    byteAt (store (zeros n) 0 (slice f pos n)) i = byteAt f (pos + i) := by
  rw [byteAt_store, length_slice]
  split
  · rw [byteAt_slice (by omega), Nat.sub_zero]
  · rw [byteAt_zeros, byteAt_of_le (by omega)]

/-- A store into a part of a region. -/
theorem take_append_store {m bs : Mem} {pos : Nat} (h : pos + bs.length ≤ m.length) :
    m.take pos ++ store (m.drop pos) 0 bs = store m pos bs := by
  unfold store
  split
  · exact List.take_append_drop pos m
  · simp [show pos - m.length = 0 by omega, zeros]

/-- A store right behind another. -/
theorem store_store_append {m a b : Mem} {pos : Nat} (h : pos + a.length + b.length ≤ m.length) :
    store (store m pos a) (pos + a.length) b = store m pos (a ++ b) := by
  have hl : (store m pos a).length = m.length := length_store_of_le (by omega)
  have hab : pos + (a ++ b).length ≤ m.length := by rw [List.length_append]; omega
  refine ext_byteAt ?_ fun i _ => ?_
  · rw [length_store_of_le (by omega), length_store_of_le hab, hl]
  · rw [byteAt_store, byteAt_store, byteAt_store, byteAt_append, List.length_append]
    split
    · rw [if_pos (by omega), if_neg (by omega)]
      congr 1; omega
    · split
      · rw [if_pos (by omega), if_pos (by omega)]
      · rw [if_neg (by omega)]

theorem take_store (m bs : Mem) : (store m 0 bs).take bs.length = bs := by
  unfold store
  split
  · rename_i h; simp [h]
  · simp [zeros]

theorem drop_store (m bs : Mem) : (store m 0 bs).drop bs.length = m.drop bs.length := by
  unfold store
  split
  · rfl
  · simp [zeros]

/-- A part of what has been stored. -/
theorem slice_store {m bs : Mem} {pos n : Nat} (h : pos + n ≤ bs.length) : slice (store m 0 bs) pos n = slice bs pos n := by
  have hall : slice (store m 0 bs) 0 bs.length = bs := take_store m bs
  calc slice (store m 0 bs) pos n = slice (slice (store m 0 bs) 0 bs.length) pos n := by rw [slice_slice h, Nat.zero_add]
    _ = slice bs pos n := by rw [hall]

/-- A store into what has been stored. -/
theorem store_store_inside {m a b : Mem} {pos : Nat} (h : pos + b.length ≤ a.length) (hm : a.length ≤ m.length) :
    store (store m 0 a) pos b = store m 0 (store a pos b) := by
  have ha : (store a pos b).length = a.length := length_store_of_le h
  have hl : (store m 0 a).length = m.length := length_store_of_le (by omega)
  refine ext_byteAt ?_ fun i _ => ?_
  · rw [length_store_of_le (by omega), hl, length_store_of_le (by omega)]
  · rw [byteAt_store, byteAt_store m 0 (store a pos b), ha, Nat.sub_zero, byteAt_store a, byteAt_store m, Nat.sub_zero]
    by_cases h1 : pos ≤ i ∧ i < pos + b.length
    · rw [if_pos h1, if_pos (by omega), if_pos h1]
    · rw [if_neg h1, if_neg h1]

/-! ## Images -/

theorem Holds.congr {img img' : Nat → UInt8} {pos : Nat} {bs : Mem} (h : Holds img pos bs)
    (he : ∀ i, pos ≤ i → i < pos + bs.length → img' i = img i) : Holds img' pos bs :=
  fun i hi => by rw [he _ (by omega) (by omega), h i hi]

theorem Holds.store (m : Mem) (pos : Nat) (bs : Mem) : Holds (byteAt (store m pos bs)) pos bs :=
  fun i hi => by rw [byteAt_store_inside (by omega) (by omega)]; congr 1; omega

theorem holds_append {img : Nat → UInt8} {pos : Nat} {a b : Mem} :
    Holds img pos (a ++ b) ↔ Holds img pos a ∧ Holds img (pos + a.length) b := by
  constructor
  · intro h
    refine ⟨fun i hi => ?_, fun i hi => ?_⟩
    · rw [h i (by simp; omega), byteAt_append_left hi]
    · rw [Nat.add_assoc, h (a.length + i) (by simp; omega), byteAt_append_right (by omega)]
      congr 1; omega
  · intro ⟨ha, hb⟩ i hi
    rw [List.length_append] at hi
    by_cases h1 : i < a.length
    · rw [ha i h1, byteAt_append_left h1]
    · have := hb (i - a.length) (by omega)
      rw [byteAt_append_right (by omega), ← this]
      congr 1; omega

/-- A part of what lies at `pos` lies at its own place. -/
theorem Holds.slice {img : Nat → UInt8} {pos : Nat} {bs : Mem} (h : Holds img pos bs) {a n : Nat} :
    Holds img (pos + a) (slice bs a n) := fun i hi => by
  rw [length_slice] at hi
  rw [byteAt_slice (by omega), Nat.add_assoc, h (a + i) (by omega)]

/-- What lies at one place of one image is determined by its length. -/
theorem Holds.unique {img : Nat → UInt8} {pos : Nat} {a b : Mem} (ha : Holds img pos a)
    (hb : Holds img pos b) (hl : a.length = b.length) : a = b :=
  ext_byteAt hl fun i hi => by rw [← ha i hi, hb i (by omega)]

theorem holds_tabulate (img : Nat → UInt8) (pos n : Nat) :
    Holds img pos (tabulate (fun i => img (pos + i)) n) := fun i hi => by
  rw [length_tabulate] at hi
  rw [byteAt_tabulate hi]

theorem holds_slice (m : Mem) (pos n : Nat) : Holds (byteAt m) pos (Bytes.slice m pos n) :=
  fun i hi => by
    rw [length_slice] at hi
    rw [byteAt_slice (by omega)]

/-- What lies at `pos` in an image that agrees there. -/
theorem tabulate_congr {img img' : Nat → UInt8} {pos n : Nat}
    (h : ∀ i, pos ≤ i → i < pos + n → img' i = img i) :
    tabulate (fun i => img' (pos + i)) n = tabulate (fun i => img (pos + i)) n :=
  (holds_tabulate img' pos n).unique
    ((holds_tabulate img pos n).congr fun i h1 h2 => h i h1 (by simpa using h2)) (by simp)

theorem tabulate_eq_of_holds {img : Nat → UInt8} {pos n : Nat} {bs : Mem} (h : Holds img pos bs)
    (hl : bs.length = n) : tabulate (fun i => img (pos + i)) n = bs :=
  (holds_tabulate img pos n).unique h (by simp [hl])

/-! ## Little-endian numbers -/

/-- The `n` low bytes of `v`, lowest first. -/
def le : Nat → Nat → Mem
  | 0, _ => []
  | n + 1, v => UInt8.ofNat v :: le n (v / 256)

/-- The number whose little-endian bytes are given. -/
def unle : Mem → Nat
  | [] => 0
  | b :: bs => b.toNat + 256 * unle bs

@[simp] theorem length_le : ∀ n v, (le n v).length = n
  | 0, _ => rfl
  | n + 1, v => by simp [le, length_le n]

theorem unle_lt : ∀ bs : Mem, unle bs < 256 ^ bs.length
  | [] => by simp [unle]
  | b :: bs => by
    have h1 := unle_lt bs
    have h2 := b.toNat_lt
    simp only [unle, List.length_cons, Nat.pow_succ]
    omega

theorem unle_slice_lt (m : Mem) (pos n : Nat) : unle (slice m pos n) < 256 ^ n :=
  Nat.lt_of_lt_of_le (unle_lt _) (Nat.pow_le_pow_right (by decide) (by rw [length_slice]; omega))

theorem unle_le_mod : ∀ n v, unle (le n v) = v % 256 ^ n
  | 0, v => by simp [le, unle, Nat.mod_one]
  | n + 1, v => by
    have hb : (UInt8.ofNat v).toNat = v % 256 := by simp
    rw [le, unle, unle_le_mod n, hb, Nat.pow_succ, Nat.mul_comm (256 ^ n), Nat.mod_mul]

theorem unle_le {n v : Nat} (h : v < 256 ^ n) : unle (le n v) = v := by
  rw [unle_le_mod, Nat.mod_eq_of_lt h]

theorem le_unle : ∀ bs : Mem, le bs.length (unle bs) = bs
  | [] => rfl
  | b :: bs => by
    have h2 := b.toNat_lt
    have hd : (b.toNat + 256 * unle bs) / 256 = unle bs := by omega
    have hm : UInt8.ofNat (b.toNat + 256 * unle bs) = b := by
      apply UInt8.toNat_inj.1
      simp only [UInt8.toNat_ofNat']
      omega
    rw [List.length_cons, unle, le, hd, hm, le_unle bs]

theorem le_add : ∀ m n v, le (m + n) v = le m v ++ le n (v / 256 ^ m)
  | 0, n, v => by simp [le]
  | m + 1, n, v => by
    rw [Nat.add_right_comm, le, le_add m n, le, Nat.div_div_eq_div_mul, Nat.pow_succ, Nat.mul_comm 256]
    rfl

/-- The number whose `n` little-endian bytes lie at `pos` in an image. -/
def numAt (img : Nat → UInt8) (pos n : Nat) : Nat := unle (tabulate (fun i => img (pos + i)) n)

theorem numAt_of_holds {img : Nat → UInt8} {pos n v : Nat} (h : Holds img pos (le n v))
    (hv : v < 256 ^ n) : numAt img pos n = v := by
  rw [numAt, tabulate_eq_of_holds h (length_le n v), unle_le hv]

theorem numAt_shift {img img' : Nat → UInt8} {pos pos' n : Nat}
    (h : ∀ i < n, img' (pos' + i) = img (pos + i)) : numAt img' pos' n = numAt img pos n := by
  have ht : tabulate (fun i => img' (pos' + i)) n = tabulate (fun i => img (pos + i)) n :=
    ext_byteAt (by simp) fun i hi => by
      rw [length_tabulate] at hi
      rw [byteAt_tabulate hi, byteAt_tabulate hi, h i hi]
  rw [numAt, ht, numAt]

theorem numAt_congr {img img' : Nat → UInt8} {pos n : Nat}
    (h : ∀ i, pos ≤ i → i < pos + n → img' i = img i) : numAt img' pos n = numAt img pos n :=
  numAt_shift fun i hi => h (pos + i) (by omega) (by omega)

theorem numAt_lt (img : Nat → UInt8) (pos n : Nat) : numAt img pos n < 256 ^ n := by
  have h := unle_lt (tabulate (fun i => img (pos + i)) n)
  rwa [length_tabulate] at h

theorem numAt_slice {m : Mem} {pos n : Nat} (h : pos + n ≤ m.length) :
    numAt (byteAt m) pos n = unle (slice m pos n) := by
  rw [numAt, tabulate_eq_of_holds (holds_slice m pos n) (length_slice_of_le h)]

theorem unle_zeros : ∀ n, unle (zeros n) = 0
  | 0 => rfl
  | n + 1 => by
    have := unle_zeros n
    simp only [zeros] at this ⊢
    simp [List.replicate_succ, unle, this]

theorem numAt_eq_zero {img : Nat → UInt8} {pos n : Nat}
    (h : ∀ i, pos ≤ i → i < pos + n → img i = 0) : numAt img pos n = 0 := by
  have hz : tabulate (fun i => img (pos + i)) n = zeros n :=
    tabulate_eq_of_holds (fun i hi => by
      rw [length_zeros] at hi
      rw [h _ (by omega) (by omega), byteAt_zeros]) (length_zeros n)
  rw [numAt, hz, unle_zeros]

theorem le_zero (n : Nat) : le n 0 = zeros n := by
  have h := le_unle (zeros n)
  rwa [unle_zeros, length_zeros] at h

end Bytes
