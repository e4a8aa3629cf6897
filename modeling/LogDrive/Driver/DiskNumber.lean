import LogDrive.Driver.DeviceName

/-!
# The numbers of virtual disks (`libxl__device_disk_dev_number` of `libxl_device.c`)

A virtual disk is named `d0p1`, `xvda1`, `hda1`, `sda1` or by its number. Letters count in base 26 from `a` on,
without a zero; nothing asks for one letter at least, so that `xvd` alone is disk -1. `devNumber_xvd`: the
number of a disk named by letters only.
-/

set_option autoImplicit false

open Bytes CString

namespace LogDrive

/-! ## Numbers in strings -/

/-- The value of a digit, `a` and `A` being 10. -/
def digitValue (c : UInt8) : Option Nat :=
  if isdigit c then some (c.toNat - 48)
  else if 97 ≤ c ∧ c ≤ 122 then some (c.toNat - 87)
  else if 65 ≤ c ∧ c ≤ 90 then some (c.toNat - 55)
  else none

def isDigitOf (base : Nat) (c : UInt8) : Bool := (digitValue c).any fun v => decide (v < base)

/-- `0x` or `0X` and a digit. -/
def isHex (s : Mem) : Bool :=
  decide (s.head? = some 48) && decide (s[1]? = some 120 ∨ s[1]? = some 88) && s[2]?.any (isDigitOf 16)

/-- What `strtoul` takes from the start of a string: whether there is a minus, the digits' value and the
offset behind them; `none` without digits. The base 0 is what the digits start with. -/
def scanNumber (base : Nat) (s : Mem) : Option (Bool × Nat × Nat) :=
  let space := (s.takeWhile isspace).length
  let t := s.drop space
  let neg := decide (t.head? = some 45)
  let sign := if neg ∨ t.head? = some 43 then 1 else 0
  let t := t.drop sign
  let hex := base = 0 ∧ isHex t = true
  let base := if base ≠ 0 then base else if hex then 16 else if t.head? = some 48 then 8 else 10
  let start := if hex then 2 else 0
  let ds := (t.drop start).takeWhile (isDigitOf base)
  if ds = [] then none
  else some (neg, ds.foldl (fun n c => base * n + (digitValue c).getD 0) 0, space + sign + start + ds.length)

/-- `strtoul(s, &ep, base)`: the value, whether `errno` is set, and the offset of `ep`. -/
def strtoul (base : Nat) (s : Mem) : Nat × Bool × Nat :=
  match scanNumber base s with
  | none => (0, false, 0)
  | some (neg, n, ep) =>
    if 2 ^ 64 ≤ n then (2 ^ 64 - 1, true, ep) else (if neg then (2 ^ 64 - n) % 2 ^ 64 else n, false, ep)

/-- `%i` of `sscanf`: the value and the rest of the string. What does not fit is the nearest `long`, cut to an
`int`. -/
def scanInt (s : Mem) : Option (Int × Mem) :=
  match scanNumber 0 s with
  | none => none
  | some (neg, n, ep) => some (toInt (if neg then max (-n) (-2 ^ 63) else min n (2 ^ 63 - 1)), s.drop ep)

/-- `sscanf(virtpath, "d%ip%i%n", ..)` up to the end of the string. -/
def scanDiskNumber (virtpath : Mem) : Option (Int × Int) :=
  match virtpath with
  | 100 :: s =>
    match scanInt s with
    | some (disk, 112 :: s) =>
      match scanInt s with
      | some (partition, []) => some (disk, partition)
      | _ => none
    | _ => none
  | _ => none

/-! ## `libxl__device_disk_dev_number` -/

/-- The loop over the letters: the index, and what follows them; `none` where the index gets too large. -/
def virtdiskLetters (maxIndex : Int) : Int → Mem → Option (Int × Mem)
  | index, [] => some (index, [])
  | index, c :: p =>
    if 97 ≤ c ∧ c ≤ 122 then
      let index := (index + 1) * 26 + (c.toNat - 97)
      if index > maxIndex then none else virtdiskLetters maxIndex index p
    else some (index, c :: p)

/-- `device_virtdisk_matches`: index and partition. -/
def deviceVirtdiskMatches (virtpath devtype : Mem) (maxIndex maxPartition : Int) : Option (Int × Int) :=
  if devtype <+: virtpath then
    match virtdiskLetters maxIndex (-1) (virtpath.drop devtype.length) with
    | none => none
    | some (index, p) =>
      if p = [] then some (index, 0)
      else if p.head? = some 48 then none
      else
        let (ul, _, ep) := strtoul 10 p
        let pl := Int.bmod ul (2 ^ 64)
        if pl > maxPartition ∨ ep ≠ p.length then none else some (index, toInt pl)
  else none

/-- The bits of an `int`. -/
abbrev intBits (i : Int) : BitVec 32 := BitVec.ofInt 32 i

/-- `disk` and `partition` in the bits of a number. -/
def xvdNumber (disk partition : Int) : Int :=
  if disk ≤ 15 ∧ partition ≤ 15 then (intBits 202 <<< 8 ||| intBits disk <<< 4 ||| intBits partition).toInt
  else (intBits 1 <<< 28 ||| intBits disk <<< 8 ||| intBits partition).toInt

def libxlDeviceDiskDevNumber (virtpath : Mem) : Int :=
  match (scanDiskNumber virtpath).filter (fun (disk, partition) => disk < 2 ^ 20 ∧ partition < 256) <|>
      deviceVirtdiskMatches virtpath (ascii "xvd") (2 ^ 20 - 1) 255 with
  | some (disk, partition) => xvdNumber disk partition
  | none =>
    let (ul, errno, ep) := strtoul 0 virtpath
    if errno = false ∧ ep = virtpath.length ∧ ul < 2 ^ 31 then ul
    else match deviceVirtdiskMatches virtpath (ascii "hd") 3 63 with
      | some (disk, partition) =>
        (intBits (if disk < 2 then 3 else 22) <<< 8 ||| (intBits disk &&& 1) <<< 6 ||| intBits partition).toInt
      | none =>
        match deviceVirtdiskMatches virtpath (ascii "sd") 15 15 with
        | some (disk, partition) => (intBits 8 <<< 8 ||| intBits disk <<< 4 ||| intBits partition).toInt
        | none => -1

/-! ## Disks named by letters -/

def IsLetters (w : Mem) : Prop := ∀ c ∈ w, 97 ≤ c ∧ c ≤ 122

/-- The index that letters add up to behind the index so far. -/
def virtdiskIndex (index : Int) (w : Mem) : Int := w.foldl (fun index c => (index + 1) * 26 + (c.toNat - 97)) index

theorem letter_step {index : Int} {c : UInt8} (h : -1 ≤ index) (hc : 97 ≤ c ∧ c ≤ 122) :
    index < (index + 1) * 26 + (c.toNat - 97) := by
  have h97 : 97 ≤ c.toNat := UInt8.le_iff_toNat_le.1 hc.1
  omega

/-- Letters only add. -/
theorem le_virtdiskIndex {w : Mem} (hw : IsLetters w) {index : Int} (h : -1 ≤ index) : index ≤ virtdiskIndex index w := by
  induction w generalizing index with
  | nil => exact Int.le_refl _
  | cons c w ih =>
    have hstep := letter_step h (hw c List.mem_cons_self)
    have hrest := ih (fun c hc => hw c (List.mem_cons_of_mem _ hc)) (Int.le_trans h (Int.le_of_lt hstep))
    exact Int.le_trans (Int.le_of_lt hstep) hrest

theorem virtdiskLetters_eq {w : Mem} (hw : IsLetters w) {index maxIndex : Int} (h : -1 ≤ index)
    (hmax : virtdiskIndex index w ≤ maxIndex) : virtdiskLetters maxIndex index w = some (virtdiskIndex index w, []) := by
  induction w generalizing index with
  | nil => rfl
  | cons c w ih =>
    have hc := hw c List.mem_cons_self
    have hw' : IsLetters w := fun c hc => hw c (List.mem_cons_of_mem _ hc)
    have hstep := letter_step h hc
    have hrest := @le_virtdiskIndex w hw' ((index + 1) * 26 + (c.toNat - 97)) (by omega)
    have hall : virtdiskIndex ((index + 1) * 26 + (c.toNat - 97)) w ≤ maxIndex := hmax
    rw [virtdiskLetters, if_pos hc, if_neg (by omega), ih hw' (by omega) hall]
    rfl

/-- Two numbers side by side in the bits of a positive `int`. -/
theorem toInt_side {a b k l : Nat} (hb : b * 2 ^ l < 2 ^ k) (ha : a * 2 ^ k + b * 2 ^ l < 2 ^ 31) :
    (intBits a <<< k ||| intBits b <<< l ||| intBits 0).toInt = a * 2 ^ k + b * 2 ^ l := by
  have hbits : ∀ {m j : Nat}, m * 2 ^ j < 2 ^ 31 → (intBits m <<< j).toNat = m <<< j := fun {m j} hm => by
    have hle := Nat.le_mul_of_pos_right m (Nat.two_pow_pos j)
    have hm' : m % 2 ^ 32 = m := Nat.mod_eq_of_lt (by omega)
    rw [intBits, BitVec.ofInt_natCast, BitVec.toNat_shiftLeft, BitVec.toNat_ofNat, hm', Nat.shiftLeft_eq,
      Nat.mod_eq_of_lt (by omega)]
  have hor : (intBits a <<< k ||| intBits b <<< l ||| intBits 0).toNat = a * 2 ^ k + b * 2 ^ l := by
    rw [BitVec.toNat_or, BitVec.toNat_or, hbits (by omega), hbits (by omega),
      ← Nat.shiftLeft_add_eq_or_of_lt (by rw [Nat.shiftLeft_eq]; exact hb), Nat.shiftLeft_eq, Nat.shiftLeft_eq]
    exact Nat.or_zero _
  rw [BitVec.toInt_eq_toNat_of_lt (by omega), hor]
  rfl

theorem xvdNumber_whole {n : Nat} (hn : n < 2 ^ 20) :
    xvdNumber n 0 = if n ≤ 15 then 51712 + 16 * n else 2 ^ 28 + 256 * n := by
  rw [xvdNumber]
  split
  · rw [if_pos (by omega)]
    exact (@toInt_side 202 n 8 4 (by omega) (by omega)).trans (by omega)
  · rw [if_neg (by omega)]
    exact (@toInt_side 1 n 28 8 (by omega) (by omega)).trans (by omega)

/-- **The number of a disk named by letters.** -/
theorem devNumber_xvd {w : Mem} (hw : IsLetters w) {n : Nat} (hindex : virtdiskIndex (-1) w = n) (hn : n < 2 ^ 20) :
    libxlDeviceDiskDevNumber (ascii "xvd" ++ w) = if n ≤ 15 then 51712 + 16 * n else 2 ^ 28 + 256 * n := by
  have hscan : scanDiskNumber (ascii "xvd" ++ w) = none := rfl
  have hmatch : deviceVirtdiskMatches (ascii "xvd" ++ w) (ascii "xvd") (2 ^ 20 - 1) 255 = some ((n : Int), 0) := by
    rw [deviceVirtdiskMatches, if_pos (List.prefix_append ..), List.drop_left,
      virtdiskLetters_eq hw (Int.le_refl _) (by omega), hindex]
    rfl
  rw [libxlDeviceDiskDevNumber, hscan, hmatch]
  exact xvdNumber_whole hn

end LogDrive
