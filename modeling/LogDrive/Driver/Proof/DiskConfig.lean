import LogDrive.Driver.DiskConfig

/-!
# The disk lines without pointers

`scanDisk` reads a disk line word by word; `parseDiskConfig_eq_scan` says that it gives what the parser gives
that runs through the buffer and writes zeros into it. `parserAt st done t rest` is the parser in the state `st`
behind the bytes `done`, in a word of which it has read `t`.
-/

set_option autoImplicit false

open Bytes CString

namespace LogDrive

/-! ## Words -/

/-- In a word that ends at a comma, at a colon or with the line. -/
def inWord (c : UInt8) : Bool := c ≠ comma && c ≠ colon && c ≠ 0

/-- In a word that ends at a comma or with the line. -/
def inPath (c : UInt8) : Bool := c ≠ comma && c ≠ 0

/-- Before the end of the line. -/
def inLine (c : UInt8) : Bool := c ≠ 0

theorem inWord_iff {c : UInt8} : inWord c = true ↔ c ≠ comma ∧ c ≠ colon ∧ c ≠ 0 := by
  simp [inWord, and_assoc]

theorem inPath_iff {c : UInt8} : inPath c = true ↔ c ≠ comma ∧ c ≠ 0 := by
  simp [inPath]

theorem inLine_iff {c : UInt8} : inLine c = true ↔ c ≠ 0 := by
  simp [inLine]

theorem dropWhile_cons_not {plain : UInt8 → Bool} {rest r : Mem} {c : UInt8}
    (h : rest.dropWhile plain = c :: r) : plain c = false := by
  have hne : rest.dropWhile plain ≠ [] := by simp [h]
  have := List.head_dropWhile_not plain hne
  simpa [h] using this

/-- What follows a word in a line. -/
theorem mem_of_dropWhile {plain : UInt8 → Bool} {rest r : Mem} {c : UInt8} (h : rest.dropWhile plain = c :: r) :
    c ∈ rest ∧ ∀ x ∈ r, x ∈ rest := by
  have hsub := (List.dropWhile_suffix plain (l := rest)).subset
  rw [h] at hsub
  exact ⟨hsub List.mem_cons_self, fun x hx => hsub (List.mem_cons_of_mem _ hx)⟩

theorem length_of_dropWhile {plain : UInt8 → Bool} {rest r : Mem} {c : UInt8} (h : rest.dropWhile plain = c :: r) :
    r.length < rest.length := by
  have := (List.dropWhile_suffix plain (l := rest)).length_le
  rw [h, List.length_cons] at this
  omega

theorem zero_not_mem_takeWhile (plain : UInt8 → Bool) {rest : Mem} (h : 0 ∉ rest) :
    (0 : UInt8) ∉ rest.takeWhile plain := fun hm =>
  h ((List.takeWhile_prefix plain).subset hm)

/-! ## Reading word by word -/

def scanRw (d : DeviceDisk) (rest : Mem) : DeviceDisk := { d with readwrite := rest.head? = some 119 }

def scanType (d : DeviceDisk) (rest : Mem) : Option DeviceDisk :=
  if rest.takeWhile inPath = ascii "cdrom" then some { d with isCdrom := true, unpluggable := true } else none

def scanVirt (d : DeviceDisk) (rest : Mem) : Option DeviceDisk :=
  let vdev := rest.takeWhile inWord
  match rest.dropWhile inWord with
  | [] => some (if vdev = [] then d else { d with vdev := some vdev })
  | c :: r =>
    if vdev = [] then none
    else if c = colon then scanType { d with vdev := some vdev } r
    else some (scanRw { d with vdev := some vdev } r)

def stripIoemu (rest : Mem) : Mem := if rest.take 6 = ascii "ioemu:" then rest.drop 6 else rest

def scanPath (d : DeviceDisk) (rest : Mem) : Option DeviceDisk :=
  match rest.dropWhile inPath with
  | [] => none
  | _ :: r => scanVirt { d with pdevPath := strdupOrNull (rest.takeWhile inPath) } (stripIoemu r)

def scanTap (d : DeviceDisk) (rest : Mem) : Option DeviceDisk :=
  match _h : rest.dropWhile inWord with
  | [] => none
  | c :: r =>
    if c = comma then scanPath { d with format := .raw, backend := .tap } rest
    else if rest.takeWhile inWord = ascii "aio" then scanTap d r
    else match tapTypes.find? (·.1 = rest.takeWhile inWord) with
      | none => none
      | some (_, format, backend) => scanPath { d with format := format, backend := backend } r
termination_by rest.length
decreasing_by exact length_of_dropWhile (by assumption)

def scanDisk (rest : Mem) : Option DeviceDisk :=
  let type := rest.takeWhile inWord
  match rest.dropWhile inWord with
  | [] => none
  | c :: r =>
    if c = comma then scanVirt { DeviceDisk.zero with format := .empty, backend := .tap, pdevPath := some [] } r
    else if type = ascii "phy" then scanPath { DeviceDisk.zero with format := .raw, backend := .phy } r
    else if type = ascii "file" then scanPath { DeviceDisk.zero with format := .raw, backend := .tap } r
    else if type = ascii "tap" ∨ type = ascii "tap2" then scanTap .zero r
    else none

/-! ## The buffer -/

def parserAt (st : DState) (done t rest : Mem) (d : DeviceDisk) : DiskParser :=
  ⟨st, done ++ (t ++ rest), done.length, done.length + t.length, d⟩

section
variable {st : DState} {done t r : Mem} {c : UInt8} {d : DeviceDisk}

@[simp] theorem parserAt_char : (parserAt st done t (c :: r) d).char = c := by
  simp only [DiskParser.char, parserAt]
  rw [byteAt_append_right (by omega), Nat.add_sub_cancel_left, byteAt_append_right (Nat.le_refl _), Nat.sub_self]
  rfl

@[simp] theorem parserAt_cut : (parserAt st done t (c :: r) d).cut = parserAt st done t (0 :: r) d := by
  simp only [DiskParser.cut, parserAt, DiskParser.mk.injEq, true_and, and_true]
  rw [List.set_append_right _ _ (by omega), Nat.add_sub_cancel_left, List.set_append_right _ _ (Nat.le_refl _),
    Nat.sub_self]
  rfl

theorem parserAt_word (h : 0 ∉ t) : (parserAt st done t (0 :: r) d).word = t := by
  simp only [DiskParser.word, parserAt, cstr, List.drop_left]
  rw [List.takeWhile_append_of_pos]
  · simp
  · intro x hx
    have hne : x ≠ 0 := fun h0 => h (h0 ▸ hx)
    simp [hne]

theorem parserAt_lt : (parserAt st done t (c :: r) d).p < (parserAt st done t (c :: r) d).buf.length := by
  simp only [parserAt, List.length_append, List.length_cons]
  omega

end

/-- The parser when it has set `tok` behind the word `t` and the byte `c`. -/
def landing (st : DState) (done t : Mem) (c : UInt8) (r : Mem) (d : DeviceDisk) : DiskParser :=
  ⟨st, done ++ (t ++ c :: r), done.length + t.length + 1, done.length + t.length, d⟩

/-! ## The loop -/

theorem diskLoop_turn {s s' : DiskParser} {fuel : Nat} (hp : s.p < s.buf.length) (h : stepDisk s = .next s') :
    diskLoop (fuel + 1) s = diskLoop fuel { s' with p := s'.p + 1 } := by
  simp only [diskLoop, if_pos hp, h]

theorem diskLoop_fail {s : DiskParser} {fuel : Nat} (hp : s.p < s.buf.length) (h : stepDisk s = .fail) :
    diskLoop (fuel + 1) s = none := by
  simp only [diskLoop, if_pos hp, h]

theorem diskLoop_out {s s' : DiskParser} {fuel : Nat} (hp : s.p < s.buf.length) (h : stepDisk s = .out s') :
    diskLoop (fuel + 1) s = some s' := by
  simp only [diskLoop, if_pos hp, h]

theorem diskLoop_end {s : DiskParser} {fuel : Nat} (hp : s.buf.length ≤ s.p) : diskLoop fuel s = some s := by
  cases fuel with
  | zero => rfl
  | succ fuel => simp only [diskLoop, if_neg (Nat.not_lt.2 hp)]

/-- The next word begins. -/
theorem diskLoop_landing {s : DiskParser} {fuel : Nat} {st : DState} {done t r : Mem} {c : UInt8} {d : DeviceDisk}
    (hp : s.p < s.buf.length) (h : stepDisk s = .next (landing st done t c r d)) :
    diskLoop (fuel + 1) s = diskLoop fuel (parserAt st (done ++ t ++ [c]) [] r d) := by
  rw [diskLoop_turn hp h]
  simp [landing, parserAt, Nat.add_assoc]

section
variable {st : DState} {done : Mem} {d : DeviceDisk} {plain : UInt8 → Bool}

/-- The bytes of a word are passed over. -/
theorem diskLoop_word (done : Mem) (d : DeviceDisk)
    (hskip : ∀ s : DiskParser, s.state = st → plain s.char = true → stepDisk s = .next s)
    (w : Mem) (hw : ∀ c ∈ w, plain c = true) (t r : Mem) (fuel : Nat) :
    diskLoop (fuel + w.length) (parserAt st done t (w ++ r) d) = diskLoop fuel (parserAt st done (t ++ w) r d) := by
  induction w generalizing t with
  | nil => simp
  | cons c w ih =>
    have hstep : stepDisk (parserAt st done t (c :: (w ++ r)) d) = .next (parserAt st done t (c :: (w ++ r)) d) := by
      apply hskip _ rfl
      rw [parserAt_char]
      exact hw c List.mem_cons_self
    have hmove : ({ parserAt st done t (c :: (w ++ r)) d with p := (parserAt st done t (c :: (w ++ r)) d).p + 1 } :
        DiskParser) = parserAt st done (t ++ [c]) (w ++ r) d := by
      simp [parserAt, Nat.add_assoc]
    rw [List.cons_append, List.length_cons, ← Nat.add_assoc, diskLoop_turn parserAt_lt hstep, hmove,
      ih (fun x hx => hw x (List.mem_cons_of_mem _ hx))]
    simp

/-- The loop comes to the end of the word. -/
theorem diskLoop_reach (done : Mem) (d : DeviceDisk)
    (hskip : ∀ s : DiskParser, s.state = st → plain s.char = true → stepDisk s = .next s)
    {rest : Mem} {fuel : Nat} (hf : rest.length < fuel) :
    ∃ m, (rest.dropWhile plain).length ≤ m ∧ diskLoop fuel (parserAt st done [] (rest ++ [0]) d) =
      diskLoop (m + 1) (parserAt st done (rest.takeWhile plain) (rest.dropWhile plain ++ [0]) d) := by
  have hlen : (rest.takeWhile plain).length + (rest.dropWhile plain).length = rest.length := by
    rw [← List.length_append, List.takeWhile_append_dropWhile]
  refine ⟨fuel - 1 - (rest.takeWhile plain).length, by omega, ?_⟩
  have hword := diskLoop_word done d hskip (rest.takeWhile plain)
    (fun c hc => List.mem_takeWhile_imp hc) [] (rest.dropWhile plain ++ [0])
    (fuel - 1 - (rest.takeWhile plain).length + 1)
  rw [← List.append_assoc, List.takeWhile_append_dropWhile, List.nil_append,
    show fuel - 1 - (rest.takeWhile plain).length + 1 + (rest.takeWhile plain).length = fuel by omega] at hword
  exact hword

/-- A loop that ends in another state than the last one rejects. -/
theorem diskOut_end (t : Mem) (hst : st ≠ .terminal) (m : Nat) :
    (diskLoop m { parserAt st done t [0] d with p := (parserAt st done t [0] d).p + 1 }).bind diskOut = none := by
  rw [diskLoop_end (by simp [parserAt, Nat.add_assoc])]
  simp [diskOut, parserAt, hst]

end

/-! ## State by state -/

/-- The bytes that a state passes over. -/
theorem skip_rw (s : DiskParser) (hst : s.state = .rw) (hc : inLine s.char = true) : stepDisk s = .next s := by
  simp only [stepDisk, hst, stepRw, if_neg (inLine_iff.1 hc)]

theorem skip_virttype (s : DiskParser) (hst : s.state = .virttype) (hc : inPath s.char = true) :
    stepDisk s = .next s := by
  have h := inPath_iff.1 hc
  simp only [stepDisk, hst, stepVirttype, h.1, h.2, or_self, if_false]

theorem skip_virtpath (s : DiskParser) (hst : s.state = .virtpath) (hc : inWord s.char = true) :
    stepDisk s = .next s := by
  have h := inWord_iff.1 hc
  simp only [stepDisk, hst, stepVirtpath, h.1, h.2.1, h.2.2, or_self, if_false]

theorem skip_physpath (s : DiskParser) (hst : s.state = .physpath) (hc : inPath s.char = true) :
    stepDisk s = .next s := by
  simp only [stepDisk, hst, stepPhyspath, if_neg (inPath_iff.1 hc).1]

theorem skip_tap (s : DiskParser) (hst : s.state = .tap) (hc : inWord s.char = true) : stepDisk s = .next s := by
  have h := inWord_iff.1 hc
  simp only [stepDisk, hst, stepTap, h.1, h.2.1, if_false]

theorem skip_initial (s : DiskParser) (hst : s.state = .initial) (hc : inWord s.char = true) :
    stepDisk s = .next s := by
  have h := inWord_iff.1 hc
  simp only [stepDisk, hst, stepInitial, h.1, h.2.1, if_false]

section
variable {done t r : Mem} {c : UInt8} {d : DeviceDisk}

/-- What is done at the end of a word. -/
theorem turn_rw : stepDisk (parserAt .rw done t [0] d) =
    .next (landing .terminal done t 0 [] { d with readwrite := decide ((t ++ [0]).head? = some (119 : UInt8)) }) := by
  have hmode : decide (byteAt (done ++ (t ++ [0])) done.length = 119) = decide ((t ++ [0]).head? = some 119) := by
    rw [byteAt_append_right (Nat.le_refl _), Nat.sub_self]
    cases t with
    | nil => rfl
    | cons c r => simp [byteAt]
  show stepRw _ = _
  rw [stepRw, parserAt_char, if_pos rfl, ← hmode]
  rfl

theorem turn_virttype (done r : Mem) (d : DeviceDisk) (h0 : 0 ∉ t) (hc : c = comma ∨ c = 0) :
    stepDisk (parserAt .virttype done t (c :: r) d) =
      if t = ascii "cdrom" then
        .next (landing .terminal done t 0 r { d with isCdrom := true, unpluggable := true })
      else .fail := by
  have hzero : (0 : UInt8) ≠ comma := by decide
  show stepVirttype _ = _
  simp only [stepVirttype, parserAt_char, parserAt_cut, parserAt_word h0, if_pos hc, if_neg hzero]
  rfl

theorem turn_virtpath (h0 : 0 ∉ t) (ht : t ≠ []) (hc : c = comma ∨ c = colon ∨ c = 0) :
    stepDisk (parserAt .virtpath done t (c :: r) d) =
      .next (landing (if c = colon then .virttype else if c = comma then .rw else .terminal) done t 0 r
        { d with vdev := some t }) := by
  have htok : done.length ≠ done.length + t.length := by
    have := List.length_pos_iff.2 ht
    omega
  have hstate : stepVirtpath (parserAt .virtpath done t (c :: r) d) =
      let s := parserAt (if c = colon then .virttype else if c = comma then .rw else .terminal) done t (c :: r) d
      if s.tok = s.p then .out s
      else .next { s.cut with disk := { s.cut.disk with vdev := strdupOrNull s.cut.word } }.behind := by
    simp only [stepVirtpath, parserAt_char, if_pos hc]
    rfl
  show stepVirtpath _ = _
  rw [hstate]
  simp only [parserAt_cut, parserAt_word h0, strdupOrNull, if_neg ht]
  exact if_neg htok

/-- An empty word. -/
theorem turn_virtpath_nil (hc : c = comma ∨ c = colon ∨ c = 0) :
    stepDisk (parserAt .virtpath done [] (c :: r) d) =
      .out (parserAt (if c = colon then .virttype else if c = comma then .rw else .terminal) done [] (c :: r) d) := by
  show stepVirtpath _ = _
  simp only [stepVirtpath, parserAt_char, if_pos hc]
  exact if_pos rfl

end

section
variable {done rest : Mem} {d : DeviceDisk} {fuel : Nat}

/-- After the last word the rest of the line does not matter. -/
theorem loop_terminal (r : Mem) : (diskLoop fuel (parserAt .terminal done [] r d)).bind diskOut = some d := by
  have hout : diskOut (parserAt .terminal done [] r d) = some d := by
    simp [diskOut, parserAt]
  cases r with
  | nil =>
    rw [diskLoop_end (by simp [parserAt])]
    exact hout
  | cons c r =>
    cases fuel with
    | zero => exact hout
    | succ fuel =>
      rw [diskLoop_out parserAt_lt rfl]
      exact hout

/-- The mode. -/
theorem loop_rw (h0 : 0 ∉ rest) (hf : rest.length < fuel) :
    (diskLoop fuel (parserAt .rw done [] (rest ++ [0]) d)).bind diskOut = some (scanRw d rest) := by
  have hall : ∀ c ∈ rest, inLine c = true := fun c hc => inLine_iff.2 fun he => h0 (he ▸ hc)
  obtain ⟨m, -, hreach⟩ := diskLoop_reach done d skip_rw hf
  rw [List.takeWhile_eq_self_iff.2 hall, List.dropWhile_eq_nil_iff.2 hall, List.nil_append] at hreach
  have hmode : decide ((rest ++ [0]).head? = some 119) = decide (rest.head? = some 119) := by
    cases rest with
    | nil => rfl
    | cons c r => rfl
  rw [hreach, diskLoop_landing parserAt_lt turn_rw, loop_terminal, hmode]
  rfl

/-- The type of the virtual disk. -/
theorem loop_virttype (h0 : 0 ∉ rest) (hf : rest.length < fuel) :
    (diskLoop fuel (parserAt .virttype done [] (rest ++ [0]) d)).bind diskOut = scanType d rest := by
  obtain ⟨m, -, hreach⟩ := diskLoop_reach done d skip_virttype hf
  obtain ⟨c, r, hr, hc⟩ : ∃ c r, rest.dropWhile inPath ++ [0] = c :: r ∧ (c = comma ∨ c = 0) := by
    cases hd : rest.dropWhile inPath with
    | nil => exact ⟨0, [], rfl, .inr rfl⟩
    | cons c r =>
      have hn := dropWhile_cons_not hd
      refine ⟨c, r ++ [0], rfl, ?_⟩
      by_contra hne
      rw [not_or] at hne
      rw [inPath_iff.2 hne] at hn
      cases hn
  have hturn := turn_virttype done r d (zero_not_mem_takeWhile inPath h0) hc
  rw [hreach, hr, scanType]
  split
  · rename_i hcd
    rw [if_pos hcd] at hturn
    rw [diskLoop_landing parserAt_lt hturn, loop_terminal]
  · rename_i hcd
    rw [if_neg hcd] at hturn
    rw [diskLoop_fail parserAt_lt hturn]
    rfl

/-- The name of the virtual disk. -/
theorem loop_virtpath (h0 : 0 ∉ rest) (hf : rest.length < fuel) :
    (diskLoop fuel (parserAt .virtpath done [] (rest ++ [0]) d)).bind diskOut = scanVirt d rest := by
  obtain ⟨m, hm, hreach⟩ := diskLoop_reach done d skip_virtpath hf
  have hw := zero_not_mem_takeWhile inWord h0
  rw [hreach, scanVirt]
  cases hd : rest.dropWhile inWord with
  | nil =>
    simp only [List.nil_append]
    by_cases hv : rest.takeWhile inWord = []
    · have hend : (if (0 : UInt8) = colon then DState.virttype else if (0 : UInt8) = comma then .rw else .terminal) =
          .terminal := by decide
      rw [hv, diskLoop_out parserAt_lt (turn_virtpath_nil (.inr (.inr rfl))), hend]
      simp [diskOut, parserAt]
    · rw [diskLoop_landing parserAt_lt (turn_virtpath hw hv (.inr (.inr rfl)))]
      simp only [if_neg hv]
      exact loop_terminal []
  | cons c r =>
    have hn := dropWhile_cons_not hd
    obtain ⟨hmem, hsub⟩ := mem_of_dropWhile hd
    have hc0 : c ≠ 0 := fun he => h0 (he ▸ hmem)
    have hr0 : 0 ∉ r := fun h => h0 (hsub 0 h)
    have hc : c = comma ∨ c = colon ∨ c = 0 := by
      by_contra hne
      simp only [not_or] at hne
      rw [inWord_iff.2 hne] at hn
      cases hn
    rw [hd, List.length_cons] at hm
    simp only [List.cons_append]
    by_cases hv : rest.takeWhile inWord = []
    · rw [hv, diskLoop_out parserAt_lt (turn_virtpath_nil hc)]
      rw [if_pos rfl]
      simp only [diskOut, parserAt, Option.bind_some]
      rw [if_pos]
      right
      split
      · decide
      · split
        · decide
        · rename_i h1 h2
          exact absurd hc (by simp [h1, h2, hc0])
    · rw [diskLoop_landing parserAt_lt (turn_virtpath hw hv hc), if_neg hv]
      by_cases hcol : c = colon
      · rw [if_pos hcol, if_pos hcol]
        exact loop_virttype hr0 (by omega)
      · have hcom : c = comma := by
          obtain h | h | h := hc
          · exact h
          · exact absurd h hcol
          · exact absurd h hc0
        rw [if_neg hcol, if_neg hcol, if_pos hcom]
        exact loop_rw hr0 (by omega)

end

/-! ## The path -/

theorem ioemu_terminated (r : Mem) : (r ++ [0]).take 6 = ascii "ioemu:" ↔ r.take 6 = ascii "ioemu:" := by
  by_cases hl : 6 ≤ r.length
  · rw [List.take_append_of_le_length hl]
  · have hzero : (0 : UInt8) ∉ ascii "ioemu:" := by decide
    rw [List.take_of_length_le (by simp; omega), List.take_of_length_le (by omega)]
    constructor
    · intro h
      refine absurd ?_ hzero
      rw [← h]
      exact List.mem_append_right _ List.mem_cons_self
    · intro h
      rw [h] at hl
      exact absurd (by decide) hl

section
variable {done rest t r : Mem} {d : DeviceDisk} {fuel : Nat}

/-- The end of the path. -/
theorem loop_comma (ht : 0 ∉ t) (hr : 0 ∉ r) (hf : r.length < fuel) :
    (diskLoop (fuel + 1) (parserAt .physpath done t (comma :: (r ++ [0])) d)).bind diskOut =
      scanVirt { d with pdevPath := strdupOrNull t } (stripIoemu r) := by
  have hslice : slice (done ++ (t ++ 0 :: (r ++ [0]))) (done.length + t.length + 1) 6 = (r ++ [0]).take 6 := by
    have hsplit : done ++ (t ++ 0 :: (r ++ [0])) = (done ++ t ++ [0]) ++ (r ++ [0]) := by simp
    rw [slice, hsplit, List.drop_left' (by simp [Nat.add_assoc])]
  have hstep : stepDisk (parserAt .physpath done t (comma :: (r ++ [0])) d) =
      let s := landing .virtpath done t 0 (r ++ [0]) { d with pdevPath := strdupOrNull t }
      if s.tok + 6 < s.buf.length ∧ slice s.buf s.tok 6 = ascii "ioemu:" then
        .next { s with tok := s.tok + 6, p := s.p + 6 }
      else .next s := by
    show stepPhyspath _ = _
    simp only [stepPhyspath, parserAt_char, if_pos, parserAt_cut, parserAt_word ht]
    rfl
  simp only [landing, hslice, ioemu_terminated] at hstep
  by_cases hio : r.take 6 = ascii "ioemu:"
  · have hlen : 6 ≤ r.length := by
      have := congrArg List.length hio
      rw [List.length_take, show (ascii "ioemu:").length = 6 by decide] at this
      omega
    rw [if_pos ⟨by simp; omega, hio⟩] at hstep
    have hmove : (⟨.virtpath, done ++ (t ++ 0 :: (r ++ [0])), done.length + t.length + 1 + 6,
        done.length + t.length + 6 + 1, { d with pdevPath := strdupOrNull t }⟩ : DiskParser) =
        parserAt .virtpath (done ++ t ++ [0] ++ r.take 6) [] (r.drop 6 ++ [0])
          { d with pdevPath := strdupOrNull t } := by
      have hbuf : done ++ (t ++ 0 :: (r ++ [0])) = done ++ t ++ [0] ++ r.take 6 ++ ([] ++ (r.drop 6 ++ [0])) := by
        simp only [List.append_assoc, List.nil_append]
        rw [← List.append_assoc (r.take 6), List.take_append_drop]
        rfl
      rw [hbuf, parserAt]
      simp only [List.length_append, List.length_take, List.length_singleton, List.length_nil, Nat.min_eq_left hlen]
    rw [diskLoop_turn parserAt_lt hstep]
    simp only at hmove ⊢
    rw [hmove, stripIoemu, if_pos hio]
    apply loop_virtpath
    · exact fun hm => hr (List.mem_of_mem_drop hm)
    · rw [List.length_drop]
      omega
  · rw [if_neg fun h => hio h.2] at hstep
    rw [diskLoop_landing parserAt_lt hstep, stripIoemu, if_neg hio]
    exact loop_virtpath hr hf

theorem loop_physpath (h0 : 0 ∉ rest) (hf : rest.length < fuel) :
    (diskLoop fuel (parserAt .physpath done [] (rest ++ [0]) d)).bind diskOut = scanPath d rest := by
  obtain ⟨m, hm, hreach⟩ := diskLoop_reach done d skip_physpath hf
  have hw := zero_not_mem_takeWhile inPath h0
  rw [hreach, scanPath]
  cases hd : rest.dropWhile inPath with
  | nil =>
    have hturn : stepDisk (parserAt .physpath done (rest.takeWhile inPath) [0] d) =
        .next (parserAt .physpath done (rest.takeWhile inPath) [0] d) := by
      have hne : (0 : UInt8) ≠ comma := by decide
      show stepPhyspath _ = _
      rw [stepPhyspath, parserAt_char, if_neg hne]
    rw [List.nil_append, diskLoop_turn parserAt_lt hturn]
    exact diskOut_end _ (by decide) _
  | cons c r =>
    have hn := dropWhile_cons_not hd
    obtain ⟨hmem, hsub⟩ := mem_of_dropWhile hd
    obtain rfl : c = comma := by
      by_contra hne
      rw [inPath_iff.2 ⟨hne, fun he => h0 (he ▸ hmem)⟩] at hn
      cases hn
    rw [hd, List.length_cons] at hm
    exact loop_comma hw (fun h => h0 (hsub 0 h)) hm

end

/-! ## The type -/

/-- The words of a line that is put together. -/
theorem span_append {plain : UInt8 → Bool} {w r : Mem} {c : UInt8} (hw : ∀ x ∈ w, plain x = true)
    (hc : plain c = false) :
    (w ++ c :: r).takeWhile plain = w ∧ (w ++ c :: r).dropWhile plain = c :: r := by
  constructor
  · rw [List.takeWhile_append_of_pos hw, List.takeWhile_cons_of_neg (by rw [hc]; decide), List.append_nil]
  · rw [List.dropWhile_append_of_pos hw, List.dropWhile_cons_of_neg (by rw [hc]; decide)]

theorem scanTap_cons {d : DeviceDisk} {rest r : Mem} {c : UInt8} (hd : rest.dropWhile inWord = c :: r) :
    scanTap d rest =
      if c = comma then scanPath { d with format := .raw, backend := .tap } rest
      else if rest.takeWhile inWord = ascii "aio" then scanTap d r
      else match tapTypes.find? (·.1 = rest.takeWhile inWord) with
        | none => none
        | some (_, format, backend) => scanPath { d with format := format, backend := backend } r := by
  rw [scanTap]
  split
  · rename_i heq
    rw [hd] at heq
    cases heq
  · rename_i heq
    rw [hd] at heq
    cases heq
    rfl

theorem scanTap_nil {d : DeviceDisk} {rest : Mem} (hd : rest.dropWhile inWord = []) : scanTap d rest = none := by
  rw [scanTap]
  split
  · rfl
  · rename_i heq
    rw [hd] at heq
    cases heq

/-- A path without a colon ends where a word ends. -/
theorem scanPath_word {d : DeviceDisk} {rest r : Mem} (hd : rest.dropWhile inWord = comma :: r) :
    scanPath d rest = scanVirt { d with pdevPath := strdupOrNull (rest.takeWhile inWord) } (stripIoemu r) := by
  have hword : ∀ x ∈ rest.takeWhile inWord, inPath x = true := fun x hx => by
    have h := inWord_iff.1 (List.mem_takeWhile_imp hx)
    exact inPath_iff.2 ⟨h.1, h.2.2⟩
  have hsplit : rest = rest.takeWhile inWord ++ comma :: r := by
    rw [← hd, List.takeWhile_append_dropWhile]
  obtain ⟨htake, hdrop⟩ := span_append (r := r) hword (show inPath comma = false by decide)
  rw [← hsplit] at htake hdrop
  rw [scanPath, hdrop]
  simp only [htake]

section
variable {done t r : Mem} {d : DeviceDisk}

theorem turn_tap (done r : Mem) (d : DeviceDisk) (h0 : 0 ∉ t) : stepDisk (parserAt .tap done t (colon :: r) d) =
    if t = ascii "aio" then .next (landing .tap done t 0 r d)
    else match tapTypes.find? (·.1 = t) with
      | none => .fail
      | some (_, format, backend) =>
        .next (landing .physpath done t 0 r { d with format := format, backend := backend }) := by
  have hne : colon ≠ comma := by decide
  show stepTap _ = _
  simp only [stepTap, parserAt_char, if_neg hne, if_true, parserAt_cut, parserAt_word h0]
  rfl

theorem turn_initial (done r : Mem) (d : DeviceDisk) (h0 : 0 ∉ t) : stepDisk (parserAt .initial done t (colon :: r) d) =
    if t = ascii "phy" then .next (landing .physpath done t 0 r { d with format := .raw, backend := .phy })
    else if t = ascii "file" then .next (landing .physpath done t 0 r { d with format := .raw, backend := .tap })
    else if t = ascii "tap" ∨ t = ascii "tap2" then .next (landing .tap done t 0 r d)
    else .fail := by
  show stepInitial _ = _
  simp only [stepInitial, parserAt_char, if_true, parserAt_cut, parserAt_word h0]
  rfl

end

/-- A comma in `DSTATE_TAP` ends a path. -/
theorem loop_tap_comma {done t r : Mem} {d : DeviceDisk} {fuel : Nat} :
    diskLoop (fuel + 1) (parserAt .tap done t (comma :: r) d) =
      diskLoop (fuel + 1) (parserAt .physpath done t (comma :: r) { d with format := .raw, backend := .tap }) := by
  have hstep : stepDisk (parserAt .tap done t (comma :: r) d) =
      stepDisk (parserAt .physpath done t (comma :: r) { d with format := .raw, backend := .tap }) := by
    show stepTap _ = stepPhyspath _
    rw [stepTap, parserAt_char, if_pos rfl]
    rfl
  simp only [diskLoop, if_pos parserAt_lt, hstep]

/-- At the end of the line nothing happens in `DSTATE_INITIAL` and `DSTATE_TAP`. -/
theorem turn_zero {st : DState} {done t : Mem} {d : DeviceDisk} (hst : st = .initial ∨ st = .tap) :
    stepDisk (parserAt st done t [0] d) = .next (parserAt st done t [0] d) := by
  have hne : (0 : UInt8) ≠ comma ∧ (0 : UInt8) ≠ colon := by decide
  cases hst with
  | inl hst =>
    subst hst
    show stepInitial _ = _
    rw [stepInitial, parserAt_char, if_neg hne.2, if_neg hne.1]
  | inr hst =>
    subst hst
    show stepTap _ = _
    rw [stepTap, parserAt_char, if_neg hne.1, if_neg hne.2]

/-- What ends a word. -/
theorem word_end {rest r : Mem} {c : UInt8} (h0 : 0 ∉ rest) (hd : rest.dropWhile inWord = c :: r) :
    c = comma ∨ c = colon := by
  have hn := dropWhile_cons_not hd
  by_contra hne
  rw [not_or] at hne
  rw [inWord_iff.2 ⟨hne.1, hne.2, fun he => h0 (he ▸ (mem_of_dropWhile hd).1)⟩] at hn
  cases hn

theorem loop_tap (n : Nat) : ∀ {done rest : Mem} {d : DeviceDisk} {fuel : Nat}, rest.length ≤ n → 0 ∉ rest →
    rest.length < fuel →
    (diskLoop fuel (parserAt .tap done [] (rest ++ [0]) d)).bind diskOut = scanTap d rest := by
  induction n with
  | zero =>
    intro done rest d fuel hn h0 hf
    obtain rfl : rest = [] := List.length_eq_zero_iff.1 (by omega)
    obtain ⟨m, rfl⟩ : ∃ m, fuel = m + 1 := ⟨fuel - 1, by simp at hf; omega⟩
    rw [List.nil_append, diskLoop_turn parserAt_lt (turn_zero (.inr rfl)), scanTap_nil rfl]
    exact diskOut_end _ (by decide) _
  | succ n ih =>
    intro done rest d fuel hn h0 hf
    obtain ⟨m, hm, hreach⟩ := diskLoop_reach done d skip_tap hf
    have hw := zero_not_mem_takeWhile inWord h0
    rw [hreach]
    cases hd : rest.dropWhile inWord with
    | nil =>
      rw [List.nil_append, diskLoop_turn parserAt_lt (turn_zero (.inr rfl)), scanTap_nil hd]
      exact diskOut_end _ (by decide) _
    | cons c r =>
      have hr0 : 0 ∉ r := fun h => h0 ((mem_of_dropWhile hd).2 0 h)
      have hlen := length_of_dropWhile hd
      rw [hd, List.length_cons] at hm
      rw [scanTap_cons hd, List.cons_append]
      cases word_end h0 hd with
      | inl hc =>
        subst hc
        rw [if_pos rfl, loop_tap_comma, scanPath_word hd]
        exact loop_comma hw hr0 hm
      | inr hc =>
        subst hc
        rw [if_neg (show colon ≠ comma by decide)]
        have hturn := turn_tap done (r ++ [0]) d hw
        by_cases haio : rest.takeWhile inWord = ascii "aio"
        · rw [if_pos haio] at hturn ⊢
          rw [diskLoop_landing parserAt_lt hturn]
          exact ih (by omega) hr0 hm
        · rw [if_neg haio] at hturn ⊢
          cases hfind : tapTypes.find? (·.1 = rest.takeWhile inWord) with
          | none =>
            rw [hfind] at hturn
            rw [diskLoop_fail parserAt_lt hturn]
            rfl
          | some type =>
            rw [hfind] at hturn
            rw [diskLoop_landing parserAt_lt hturn]
            exact loop_physpath hr0 hm

/-- **The parser reads the line word by word.** -/
theorem parseDiskConfig_eq_scan {s : Mem} (h0 : 0 ∉ s) : parseDiskConfig s = scanDisk s := by
  have hstart : (⟨.initial, s ++ [0], 0, 0, .zero⟩ : DiskParser) = parserAt .initial [] [] (s ++ [0]) .zero := rfl
  obtain ⟨m, hm, hreach⟩ := diskLoop_reach [] .zero skip_initial (Nat.lt_succ_self s.length)
  have hw := zero_not_mem_takeWhile inWord h0
  rw [parseDiskConfig, hstart, hreach, scanDisk]
  cases hd : s.dropWhile inWord with
  | nil =>
    rw [List.nil_append, diskLoop_turn parserAt_lt (turn_zero (.inl rfl))]
    exact diskOut_end _ (by decide) _
  | cons c r =>
    have hr0 : 0 ∉ r := fun h => h0 ((mem_of_dropWhile hd).2 0 h)
    rw [hd, List.length_cons] at hm
    simp only [List.cons_append]
    cases word_end h0 hd with
    | inl hc =>
      subst hc
      have hturn : stepDisk (parserAt .initial [] (s.takeWhile inWord) (comma :: (r ++ [0])) .zero) =
          .next (landing .virtpath [] (s.takeWhile inWord) comma (r ++ [0])
            { DeviceDisk.zero with format := .empty, backend := .tap, pdevPath := some [] }) := by
        have hne : comma ≠ colon := by decide
        show stepInitial _ = _
        simp only [stepInitial, parserAt_char, if_neg hne, if_true]
        rfl
      rw [if_pos rfl, diskLoop_landing parserAt_lt hturn]
      exact loop_virtpath hr0 hm
    | inr hc =>
      subst hc
      have hturn := turn_initial [] (r ++ [0]) .zero hw
      rw [if_neg (show colon ≠ comma by decide)]
      by_cases hphy : s.takeWhile inWord = ascii "phy"
      · rw [if_pos hphy] at hturn ⊢
        rw [diskLoop_landing parserAt_lt hturn]
        exact loop_physpath hr0 hm
      · rw [if_neg hphy] at hturn ⊢
        by_cases hfile : s.takeWhile inWord = ascii "file"
        · rw [if_pos hfile] at hturn ⊢
          rw [diskLoop_landing parserAt_lt hturn]
          exact loop_physpath hr0 hm
        · rw [if_neg hfile] at hturn ⊢
          by_cases htap : s.takeWhile inWord = ascii "tap" ∨ s.takeWhile inWord = ascii "tap2"
          · rw [if_pos htap] at hturn ⊢
            rw [diskLoop_landing parserAt_lt hturn]
            exact loop_tap _ (Nat.le_refl _) hr0 hm
          · rw [if_neg htap] at hturn ⊢
            rw [diskLoop_fail parserAt_lt hturn]
            rfl

end LogDrive
