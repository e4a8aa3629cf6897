import LogDrive.Lib.Bytes

/-!
# Values of Java programs

An `int` and a `long` are an `Int` cut to its range by `int` and `long`; a `byte[]` is a `Mem`, a
string a `Text`. `Exec` is a computation that can throw; `spin` is a loop that has used up its fuel.

`readAt` is `seek` and `read` of a `RandomAccessFile`: it stores the bytes that the file has, so what
lies past its end keeps the bytes of the array. `nextToken` is the step of a `StringTokenizer` with one
delimiter, whose state is the rest of the string.
-/

set_option autoImplicit false

open Bytes

namespace Java

inductive Stop where
  | thrown
  | spin
  deriving DecidableEq

abbrev Exec (α : Type) := Except Stop α

/-- `null` where a value is needed. -/
def nonNull {α : Type} : Option α → Exec α
  | some a => pure a
  | none => throw .thrown

@[simp] theorem pure_eq {α : Type} (a : α) : (pure a : Exec α) = .ok a := rfl
@[simp] theorem throw_eq {α : Type} (e : Stop) : (throw e : Exec α) = .error e := rfl
@[simp] theorem ok_bind {α β : Type} (a : α) (f : α → Exec β) : (Except.ok a : Exec α) >>= f = f a := rfl
@[simp] theorem error_bind {α β : Type} (e : Stop) (f : α → Exec β) :
    (Except.error e : Exec α) >>= f = .error e := rfl
@[simp] theorem nonNull_some {α : Type} (a : α) : nonNull (some a) = .ok a := rfl

/-- `f` of the value of `x`, and `caught` where `x` ends in an exception. -/
def handle {α β : Type} (x : Exec α) (caught : β) (f : α → β) : β :=
  match x with
  | .ok a => f a
  | .error _ => caught

@[simp] theorem handle_ok {α β : Type} (a : α) (caught : β) (f : α → β) : handle (.ok a) caught f = f a := rfl
@[simp] theorem handle_error {α β : Type} (e : Stop) (caught : β) (f : α → β) :
    handle (.error e) caught f = caught := rfl

/-! ## Numbers -/

def int (i : Int) : Int := Int.bmod i (2 ^ 32)
def long (i : Int) : Int := Int.bmod i (2 ^ 64)

/-- `bnum = (bnum << 8) + (in[i] & 0xff)` from the last byte to the first, on `long`. -/
def longOf (bs : Mem) : Int := bs.foldr (fun b bnum => long (bnum * 256 + b.toNat)) 0

/-- The same on `int`. -/
def intOf (bs : Mem) : Int := bs.foldr (fun b bnum => int (bnum * 256 + b.toNat)) 0

/-- The same on `BigDecimal`. -/
def decimalOf (bs : Mem) : Nat := bs.foldr (fun b bnum => bnum * 256 + b.toNat) 0

theorem int_of_lt {n : Nat} (h : n < 2 ^ 31) : int n = n := by
  rw [int, Int.bmod_eq_of_le (by omega) (by omega)]

theorem long_of_lt {n : Nat} (h : n < 2 ^ 63) : long n = n := by
  rw [long, Int.bmod_eq_of_le (by omega) (by omega)]

theorem int_range (i : Int) : -2 ^ 31 ≤ int i ∧ int i < 2 ^ 31 := by
  have hlo := @Int.le_bmod i (2 ^ 32) (by decide)
  have hhi := @Int.bmod_lt i (2 ^ 32) (by decide)
  unfold int
  omega

theorem longOf_eq (bs : Mem) : longOf bs = long (unle bs) := by
  induction bs with
  | nil => rfl
  | cons b bs ih =>
    have ih' : bs.foldr (fun b bnum => long (bnum * 256 + b.toNat)) 0 = long (unle bs) := ih
    rw [longOf, List.foldr_cons, ih', long, long, long, ← Int.bmod_add_bmod, Int.bmod_mul_bmod,
      Int.bmod_add_bmod, unle]
    congr 1
    push_cast
    ring

theorem longOf_zeros (n : Nat) : longOf (zeros n) = 0 := by
  rw [longOf_eq, unle_zeros]
  exact Int.zero_bmod

theorem int_succ_int (i : Int) : int (int i + 1) = int (i + 1) := Int.bmod_add_bmod

/-- A value of 64 bits that is 0 as a `long`. -/
theorem long_eq_zero {n : Nat} (h : n < 2 ^ 64) : long n = 0 ↔ n = 0 := by
  rw [long, Int.bmod_def]
  split <;> omega

theorem intOf_eq (bs : Mem) : intOf bs = int (unle bs) := by
  induction bs with
  | nil => rfl
  | cons b bs ih =>
    have ih' : bs.foldr (fun b bnum => int (bnum * 256 + b.toNat)) 0 = int (unle bs) := ih
    rw [intOf, List.foldr_cons, ih', int, int, int, ← Int.bmod_add_bmod, Int.bmod_mul_bmod,
      Int.bmod_add_bmod, unle]
    congr 1
    push_cast
    ring

theorem decimalOf_eq (bs : Mem) : decimalOf bs = unle bs := by
  induction bs with
  | nil => rfl
  | cons b bs ih =>
    have ih' : bs.foldr (fun b bnum => bnum * 256 + b.toNat) 0 = unle bs := ih
    rw [decimalOf, List.foldr_cons, ih', unle]
    ring

/-! ## Arrays and files -/

def newArray (n : Int) : Exec Mem := if n < 0 then throw .thrown else pure (zeros n.toNat)

/-- `Arrays.copyOfRange`: past the end of the array are zeros. -/
def copyOfRange (a : Mem) (lo hi : Int) : Exec Mem :=
  if lo < 0 ∨ a.length < lo ∨ hi < lo then throw .thrown
  else pure (tabulate (fun i => byteAt a (lo.toNat + i)) (hi - lo).toNat)

/-- `Arrays.copyOf`. -/
def copyOf (a : Mem) (n : Nat) : Mem := tabulate (byteAt a) n

/-- `raf.seek(pos); raf.read(buf, 0, len)`. -/
def readAt (file : Mem) (pos : Int) (buf : Mem) (len : Int) : Exec Mem :=
  if pos < 0 ∨ len < 0 ∨ buf.length < len then throw .thrown
  else pure (store buf 0 (slice file pos.toNat len.toNat))

theorem copyOfRange_eq {a : Mem} {lo hi : Nat} (h : lo ≤ a.length) (hle : lo ≤ hi) :
    copyOfRange a lo hi = .ok (tabulate (fun i => byteAt a (lo + i)) (hi - lo)) := by
  rw [copyOfRange, if_neg (by omega)]
  simp only [Int.toNat_natCast, show ((hi : Int) - lo).toNat = hi - lo by omega]
  rfl

theorem readAt_eq {file buf : Mem} {pos len : Nat} (h : len ≤ buf.length) :
    readAt file pos buf len = .ok (store buf 0 (slice file pos len)) := by
  rw [readAt, if_neg (by omega)]
  rfl

/-! ## Strings -/

abbrev Text := List Char

/-- `String.valueOf` of a `long`. -/
def valueOf (i : Int) : Text := if i < 0 then '-' :: Nat.toDigits 10 i.natAbs else Nat.toDigits 10 i.toNat

/-- `Integer.parseInt` of a string of ASCII characters. -/
def parseInt (t : Text) : Exec Int :=
  let neg := t.head? = some '-'
  let ds := if neg ∨ t.head? = some '+' then t.tail else t
  let n : Int := Nat.ofDigitChars 10 ds 0
  let i := if neg then -n else n
  if ds = [] ∨ ¬ds.all Char.isDigit ∨ i < -2 ^ 31 ∨ 2 ^ 31 ≤ i then throw .thrown else pure i

def nextToken (delim : Char) (rest : Text) : Exec (Text × Text) :=
  let t := rest.dropWhile (· == delim)
  if t = [] then throw .thrown else pure (t.takeWhile (· != delim), t.dropWhile (· != delim))

theorem isDigit_of_mem_valueOf {n : Nat} {c : Char} (h : c ∈ valueOf n) : c.isDigit := by
  rw [valueOf, if_neg (by omega)] at h
  exact Nat.isDigit_of_mem_toDigits (by decide) (by decide) h

theorem valueOf_ne_nil (n : Nat) : valueOf n ≠ [] := by
  rw [valueOf, if_neg (by omega)]
  exact Nat.toDigits_ne_nil

/-- What is read of the digits of a number. -/
theorem ofDigitChars_valueOf (n : Nat) : Nat.ofDigitChars 10 (valueOf n) 0 = n := by
  rw [valueOf, if_neg (by omega)]
  exact Nat.ofDigitChars_ten_toDigits

/-- No delimiter is a digit. -/
theorem not_mem_valueOf {n : Nat} {c : Char} (hc : c.isDigit = false) : c ∉ valueOf n := fun h => by
  rw [isDigit_of_mem_valueOf h] at hc
  cases hc

theorem head_valueOf {n : Nat} {c : Char} (hc : c.isDigit = false) : (valueOf n).head? ≠ some c := fun h =>
  not_mem_valueOf hc (List.mem_of_mem_head? (by rw [h]; rfl))

theorem valueOf_injective {i j : Int} (h : valueOf i = valueOf j) : i = j := by
  have hneg : ∀ {i j : Int}, i < 0 → 0 ≤ j → valueOf i ≠ valueOf j := fun {i j} hi hj heq => by
    obtain ⟨n, rfl⟩ := Int.eq_ofNat_of_zero_le hj
    refine head_valueOf (n := n) (c := '-') (by decide) ?_
    rw [← heq, valueOf, if_pos hi]
    rfl
  rcases lt_or_ge i 0 with hi | hi <;> rcases lt_or_ge j 0 with hj | hj
  · rw [valueOf, if_pos hi, valueOf, if_pos hj] at h
    have := congrArg (Nat.ofDigitChars 10 · 0) (List.cons.inj h).2
    simp only [Nat.ofDigitChars_ten_toDigits] at this
    omega
  · exact absurd h (hneg hi hj)
  · exact absurd h.symm (hneg hj hi)
  · rw [valueOf, if_neg (by omega), valueOf, if_neg (by omega)] at h
    have := congrArg (Nat.ofDigitChars 10 · 0) h
    simp only [Nat.ofDigitChars_ten_toDigits] at this
    omega

theorem parseInt_valueOf {i : Int} (hlo : -2 ^ 31 ≤ i) (hhi : i < 2 ^ 31) : parseInt (valueOf i) = .ok i := by
  rcases lt_or_ge i 0 with hi | hi
  · have hv : valueOf i = '-' :: Nat.toDigits 10 i.natAbs := by rw [valueOf, if_pos hi]
    have hd : (Nat.toDigits 10 i.natAbs).all Char.isDigit = true :=
      List.all_eq_true.2 fun c hc => Nat.isDigit_of_mem_toDigits (by decide) (by decide) hc
    have hn : -(i.natAbs : Int) = i := by omega
    unfold parseInt
    simp only [hv, List.head?_cons, true_or, if_true, List.tail_cons, hd, Nat.ofDigitChars_ten_toDigits, hn,
      Nat.toDigits_ne_nil, not_true, false_or]
    rw [if_neg (by omega)]
    rfl
  · obtain ⟨n, rfl⟩ := Int.eq_ofNat_of_zero_le hi
    have hm := head_valueOf (n := n) (c := '-') (by decide)
    have hp := head_valueOf (n := n) (c := '+') (by decide)
    have hd : (valueOf n).all Char.isDigit = true := List.all_eq_true.2 fun c hc => isDigit_of_mem_valueOf hc
    have hv := ofDigitChars_valueOf n
    unfold parseInt
    simp only [hm, hp, or_self, if_false, hv, hd, valueOf_ne_nil, not_true, false_or]
    rw [if_neg (by omega)]
    rfl

/-- A delimiter at the front is skipped. -/
theorem nextToken_delim (delim : Char) (rest : Text) : nextToken delim (delim :: rest) = nextToken delim rest := by
  simp [nextToken]

/-- A token and what follows it. -/
theorem nextToken_append {delim : Char} {t rest : Text} (ht : t ≠ []) (hd : delim ∉ t)
    (hrest : rest = [] ∨ rest.head? = some delim) : nextToken delim (t ++ rest) = .ok (t, rest) := by
  obtain ⟨c, cs, rfl⟩ := List.exists_cons_of_ne_nil ht
  have hall : ∀ x ∈ c :: cs, (x != delim) = true := fun x hx => by
    simp only [bne_iff_ne]
    rintro rfl
    exact hd hx
  have hc : (c == delim) = false := by simpa using hall c List.mem_cons_self
  have hdrop : ((c :: cs) ++ rest).dropWhile (· == delim) = (c :: cs) ++ rest := by simp [hc]
  have htake : rest.takeWhile (· != delim) = [] ∧ rest.dropWhile (· != delim) = rest := by
    rcases hrest with rfl | h
    · exact ⟨rfl, rfl⟩
    · obtain ⟨r, rfl⟩ : ∃ r, rest = delim :: r := by
        cases rest with
        | nil => cases h
        | cons x r => cases h; exact ⟨r, rfl⟩
      simp
  unfold nextToken
  simp only [hdrop]
  rw [if_neg (by simp), List.takeWhile_append_of_pos hall, List.dropWhile_append_of_pos hall, htake.1, htake.2,
    List.append_nil]
  rfl

end Java
