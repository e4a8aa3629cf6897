import LogDrive.Driver.Proof.Aio
import LogDrive.Driver.Proof.Codec

/-!
# An asynchronous driver as a plain disk

The kernel serves requests in any order. Where tapdisk makes no call that meets one that is still outstanding
(it shares a sector with it, and one of the two writes), that order cannot be told: the image and every answer
are what a plain disk gives that does the calls in the order in which they were made (`aio_serial`).
-/

set_option autoImplicit false

open Bytes

namespace LogDrive

/-! ## The plain disk -/

/-- The bytes of an image under transfers. -/
def imageMachine : Machine (Nat → UInt8) Move Mem where
  exec
    | .write offset bytes, img => fun i =>
      if offset ≤ i ∧ i < offset + bytes.length then byteAt bytes (i - offset) else img i
    | .read _ _, img => img
  observe
    | .write _ bytes, _ => bytes
    | .read offset count, img => tabulate (fun k => img (offset + k)) count

def Move.writes : Move → Bool
  | .write _ _ => true
  | .read _ _ => false

def Move.start : Move → Nat
  | .write offset _ => offset
  | .read offset _ => offset

def Move.count : Move → Nat
  | .write _ bytes => bytes.length
  | .read _ count => count

theorem byteAt_exec (m : Move) (file : Mem) : byteAt (m.exec file) = imageMachine.exec m (byteAt file) := by
  cases m with
  | write offset bytes =>
    funext i
    simp only [Move.exec, imageMachine]
    split
    · rename_i h
      exact byteAt_store_inside h.1 h.2
    · rename_i h
      exact byteAt_store_outside (by omega)
  | read offset count => rfl

theorem data_eq_observe {m : Move} {file : Mem} (h : m.Inside file) :
    m.data file = imageMachine.observe m (byteAt file) := by
  cases m with
  | write offset bytes => rfl
  | read offset count =>
    apply ext_byteAt
    · simp only [Move.data, imageMachine, length_tabulate]
      exact length_slice_of_le h
    · intro i hi
      simp only [Move.data] at hi ⊢
      rw [length_slice_of_le h] at hi
      rw [byteAt_slice hi]
      simp only [imageMachine]
      rw [byteAt_tabulate hi]

theorem length_observe (m : Move) (img : Nat → UInt8) : (imageMachine.observe m img).length = m.count := by
  cases m with
  | write offset bytes => rfl
  | read offset count => exact length_tabulate _ _

/-- A write and a read elsewhere. -/
theorem apart_write_read {offset offset' count : Nat} {bytes : Mem}
    (h : offset + bytes.length ≤ offset' ∨ offset' + count ≤ offset) :
    imageMachine.Apart (.write offset bytes) (.read offset' count) where
  exec _ := rfl
  left _ := rfl
  right img := by
    simp only [imageMachine, tabulate]
    apply List.map_congr_left
    intro k hk
    have hlt := List.mem_range.1 hk
    rw [if_neg (by omega)]

/-- Two writes of different places. -/
theorem apart_write_write {offset offset' : Nat} {bytes bytes' : Mem}
    (h : offset + bytes.length ≤ offset' ∨ offset' + bytes'.length ≤ offset) :
    imageMachine.Apart (.write offset bytes) (.write offset' bytes') where
  exec img := by
    funext i
    simp only [imageMachine]
    by_cases hi : offset ≤ i ∧ i < offset + bytes.length
    · have hn : ¬(offset' ≤ i ∧ i < offset' + bytes'.length) := by omega
      rw [if_pos hi, if_neg hn, if_pos hi]
    · rw [if_neg hi, if_neg hi]
  left _ := rfl
  right _ := rfl

/-- Transfers of different places are apart, and so are two reads. -/
theorem Move.apart {a b : Move}
    (h : a.writes || b.writes → a.start + a.count ≤ b.start ∨ b.start + b.count ≤ a.start) :
    imageMachine.Apart a b := by
  cases a with
  | write offset bytes =>
    cases b with
    | write offset' bytes' => exact apart_write_write (h rfl)
    | read offset' count => exact apart_write_read (h rfl)
  | read offset count =>
    cases b with
    | write offset' bytes' => exact (apart_write_read (h rfl).symm).symm
    | read offset' count' => exact ⟨fun _ => rfl, fun _ => rfl, fun _ => rfl⟩

/-! ## Calls -/

/-- The size of the request is an `int`, its offset a `uint64_t`. -/
structure AioCall.Fits (c : AioCall) (sectorSize : Nat) : Prop where
  size : c.treq.secs * sectorSize < 2 ^ 31
  offset : c.treq.sec * sectorSize < 2 ^ 64

/-- Two calls have a sector in common, and one of them writes. -/
def AioCall.Meets (c d : AioCall) : Prop :=
  (c.write || d.write) ∧ c.treq.sec < d.treq.sec + d.treq.secs ∧ d.treq.sec < c.treq.sec + c.treq.secs

/-- The first `k` bytes of what a call asks for. -/
def AioCall.moved (c : AioCall) (sectorSize k : Nat) : Move :=
  if c.write then .write (c.treq.sec * sectorSize) (tabulate (fun i => c.treq.buf i) k)
  else .read (c.treq.sec * sectorSize) k

/-- All of it. -/
def AioCall.whole (c : AioCall) (sectorSize : Nat) : Move := c.moved sectorSize (c.treq.secs * sectorSize)

theorem AioCall.moved_writes (c : AioCall) (sectorSize k : Nat) : (c.moved sectorSize k).writes = c.write := by
  unfold AioCall.moved
  cases c.write with
  | true => rfl
  | false => rfl

theorem AioCall.moved_start (c : AioCall) (sectorSize k : Nat) :
    (c.moved sectorSize k).start = c.treq.sec * sectorSize := by
  unfold AioCall.moved
  cases c.write with
  | true => rfl
  | false => rfl

theorem AioCall.moved_count (c : AioCall) (sectorSize k : Nat) : (c.moved sectorSize k).count = k := by
  unfold AioCall.moved
  cases c.write with
  | true => exact length_tabulate _ _
  | false => rfl

/-- What a structure asks for is what its call asks for. -/
theorem AioCall.Fits.prepared {c : AioCall} {sectorSize : Nat} (h : c.Fits sectorSize) (fd : Int) (k : Nat) :
    (c.prepared fd sectorSize).tiocb.size = (c.treq.secs * sectorSize : Nat) ∧
    (c.prepared fd sectorSize).tiocb.move k = c.moved sectorSize k := by
  have hsize : toInt (c.treq.secs * sectorSize) = (c.treq.secs * sectorSize : Nat) := by
    rw [← Nat.cast_mul]
    exact toInt_of_lt h.size
  have hoffset : u64 (c.treq.sec * sectorSize) = c.treq.sec * sectorSize := u64_of_lt h.offset
  constructor
  · simp only [AioCall.prepared, tdPrep]
    exact hsize
  · simp only [AioCall.prepared, tdPrep, Tiocb.move, AioCall.moved, hoffset]

/-- Transfers of calls that do not meet are apart. -/
theorem AioCall.apart {c d : AioCall} {sectorSize k l : Nat} (h : ¬c.Meets d)
    (hk : k ≤ c.treq.secs * sectorSize) (hl : l ≤ d.treq.secs * sectorSize) :
    imageMachine.Apart (c.moved sectorSize k) (d.moved sectorSize l) := by
  apply Move.apart
  rw [c.moved_writes, d.moved_writes, c.moved_start, d.moved_start, c.moved_count, d.moved_count]
  intro hw
  have hsec : d.treq.sec + d.treq.secs ≤ c.treq.sec ∨ c.treq.sec + c.treq.secs ≤ d.treq.sec := by
    by_contra hn
    exact h ⟨hw, by omega, by omega⟩
  cases hsec with
  | inl hsec =>
    have hmul := Nat.mul_le_mul_right sectorSize hsec
    rw [Nat.add_mul] at hmul
    exact .inr (by omega)
  | inr hsec =>
    have hmul := Nat.mul_le_mul_right sectorSize hsec
    rw [Nat.add_mul] at hmul
    exact .inl (by omega)

/-- Tapdisk makes a call that meets none of those that are outstanding. -/
def AioCareful (sectorSize : Nat) (s : AioSystem) (c : AioCall) : Prop :=
  c.Fits sectorSize ∧ ∀ f ∈ s.flight, ∀ d, s.calls[f.call]? = some d → ¬d.Meets c

/-! ## The order of the calls -/

/-- `d` is what the transfer of call `j` observes after those of the calls before it. -/
def AioSystem.Sees (s : AioSystem) (img : Nat → UInt8) (j : Nat) (d : Mem) : Prop :=
  ∃ m, s.moves[j]? = some (some m) ∧ d = imageMachine.observe m (imageMachine.serial img (s.moves.take j))

/-- The image is that of a plain disk and everybody has seen what such a disk has. -/
structure AioOrdered (sectorSize : Nat) (img : Nat → UInt8) (s : AioSystem) : Prop where
  image : byteAt s.file = imageMachine.serial img s.moves
  moved : ∀ (j : Nat) (m : Move), s.moves[j]? = some (some m) →
    ∃ c k, s.calls[j]? = some c ∧ k ≤ c.treq.secs * sectorSize ∧ m = c.moved sectorSize k
  fits : ∀ c ∈ s.calls, c.Fits sectorSize
  clear : ∀ f ∈ s.flight, ∀ c, s.calls[f.call]? = some c → ∀ (j : Nat) (d : AioCall), f.call < j →
    s.calls[j]? = some d → ¬c.Meets d
  hole : ∀ f ∈ s.flight, f.data = none → s.moves[f.call]? = some none
  seen : ∀ f ∈ s.flight, ∀ d, f.data = some d → s.Sees img f.call d
  told : ∀ a ∈ s.answers, a.err = 0 → ∃ c, s.calls[a.call]? = some c ∧
    s.moves[a.call]? = some (some (c.whole sectorSize)) ∧ s.Sees img a.call a.data

namespace AioOrdered

variable {n sectorSize : Nat} {fd : Int} {img : Nat → UInt8} {s s' : AioSystem}

theorem opened (prv : TdaioState) (file : Mem) : AioOrdered sectorSize (byteAt file) (.opened prv file) where
  image := rfl
  moved j m h := by cases h
  fits c h := by cases h
  clear f h := by cases h
  hole f h := by cases h
  seen f h := by cases h
  told a h := by cases h

/-- A transfer of an outstanding call comes late. -/
theorem late (h : AioOrdered sectorSize img s) {f : InFlight} (hf : f ∈ s.flight) {c : AioCall}
    (hc : s.calls[f.call]? = some c) {k : Nat} (hk : k ≤ c.treq.secs * sectorSize) :
    imageMachine.Late s.moves f.call (c.moved sectorSize k) := by
  intro j m hj hm
  obtain ⟨d, l, hd, hl, rfl⟩ := h.moved j m hm
  exact AioCall.apart (h.clear f hf c hc j d hj hd) hk hl

/-- A further call changes nothing that has been seen. -/
theorem sees_call {j : Nat} {d : Mem} (h : s.Sees img j d) {s' : AioSystem}
    (hs : s'.moves = s.moves ++ [none]) : s'.Sees img j d := by
  obtain ⟨m, hm, hd⟩ := h
  have hlt := (List.getElem?_eq_some_iff.1 hm).1
  refine ⟨m, ?_, ?_⟩
  · rw [hs, List.getElem?_append_left hlt]
    exact hm
  · rw [hs, List.take_append_of_le_length (Nat.le_of_lt hlt)]
    exact hd

/-- A late transfer changes nothing that has been seen. -/
theorem sees_move {i j : Nat} {a : Move} {d : Mem} (h : s.Sees img j d) (hi : s.moves[i]? = some none)
    (ha : imageMachine.Late s.moves i a) {s' : AioSystem} (hs : s'.moves = s.moves.set i (some a)) :
    s'.Sees img j d := by
  obtain ⟨m, hm, hd⟩ := h
  have hne : i ≠ j := fun he => by
    rw [← he, hi] at hm
    cases hm
  refine ⟨m, ?_, ?_⟩
  · rw [hs, List.getElem?_set_ne hne]
    exact hm
  · rw [hs, Machine.observe_other hi ha hm]
    exact hd

/-- A further call, refused or not: `flight` and `answers` grow by what does not speak of the past. -/
theorem call (h : AioOrdered sectorSize img s) (hI : AioInv n fd sectorSize s) {c : AioCall}
    (hc : AioCareful sectorSize s c) (prv : TdaioState) (flight : List InFlight) (answers : List AioAnswer)
    (hflight : ∀ f ∈ flight, f ∈ s.flight ∨ f.call = s.calls.length ∧ f.data = none)
    (hanswers : ∀ a ∈ answers, a ∈ s.answers ∨ a.err ≠ 0) :
    AioOrdered sectorSize img { s with
      prv := prv, calls := s.calls ++ [c], moves := s.moves ++ [none], flight := flight, answers := answers } := by
  have hlen := hI.moves
  refine ⟨?_, ?_, ?_, ?_, ?_, ?_, ?_⟩
  · simp only [Machine.serial_none]
    exact h.image
  · intro j m hm
    have hlt : j < s.moves.length := by
      by_contra hge
      simp only [List.getElem?_append_right (Nat.le_of_not_lt hge)] at hm
      obtain ⟨hl, hg⟩ := List.getElem?_eq_some_iff.1 hm
      simp only [List.getElem_singleton] at hg
      cases hg
    simp only [List.getElem?_append_left hlt] at hm
    obtain ⟨d, k, hd, hk, rfl⟩ := h.moved j m hm
    exact ⟨d, k, by rw [List.getElem?_append_left (by omega)]; exact hd, hk, rfl⟩
  · intro d hd
    cases List.mem_append.1 hd with
    | inl hd => exact h.fits d hd
    | inr hd =>
      rw [List.mem_singleton.1 hd]
      exact hc.1
  · intro f hf d hd j e hj he
    have hjlt : j < s.calls.length + 1 := by
      have := (List.getElem?_eq_some_iff.1 he).1
      rwa [List.length_append] at this
    cases hflight f hf with
    | inl hf =>
      simp only [List.getElem?_append_left (hI.calls_lt hf)] at hd
      by_cases hlast : j < s.calls.length
      · simp only [List.getElem?_append_left hlast] at he
        exact h.clear f hf d hd j e hj he
      · have hj' : j = s.calls.length := by omega
        rw [hj'] at he
        simp only [List.getElem?_concat_length, Option.some.injEq] at he
        rw [← he]
        exact hc.2 f hf d hd
    | inr hf => omega
  · intro f hf hn
    cases hflight f hf with
    | inl hf =>
      have := h.hole f hf hn
      rw [List.getElem?_append_left (List.getElem?_eq_some_iff.1 this).1]
      exact this
    | inr hf =>
      rw [hf.1, ← hlen]
      exact List.getElem?_concat_length
  · intro f hf d hd
    cases hflight f hf with
    | inl hf => exact sees_call (h.seen f hf d hd) rfl
    | inr hf =>
      rw [hf.2] at hd
      cases hd
  · intro a ha he
    cases hanswers a ha with
    | inl ha =>
      obtain ⟨d, hd, hm, hs⟩ := h.told a ha he
      refine ⟨d, ?_, ?_, sees_call hs rfl⟩
      · rw [List.getElem?_append_left (List.getElem?_eq_some_iff.1 hd).1]
        exact hd
      · rw [List.getElem?_append_left (List.getElem?_eq_some_iff.1 hm).1]
        exact hm
    | inr ha => exact absurd he ha

/-- The kernel moves the first `k` bytes of an outstanding call. -/
theorem move (h : AioOrdered sectorSize img s) (hI : AioInv n fd sectorSize s) {f : InFlight}
    {before after : List InFlight} {c : AioCall} {k : Nat} (hs : s.flight = before ++ f :: after)
    (hnone : f.data = none) (hc : s.calls[f.call]? = some c) (hk : k ≤ c.treq.secs * sectorSize)
    (hin : (c.moved sectorSize k).Inside s.file) :
    AioOrdered sectorSize img { s with
      file := (c.moved sectorSize k).exec s.file
      moves := s.moves.set f.call (some (c.moved sectorSize k))
      flight := before ++ { f with data := some ((c.moved sectorSize k).data s.file) } :: after } := by
  have hf : f ∈ s.flight := by
    rw [hs]
    exact List.mem_append_right _ List.mem_cons_self
  have hhole := h.hole f hf hnone
  have hlt := (List.getElem?_eq_some_iff.1 hhole).1
  have hlate := h.late hf hc hk
  -- The other outstanding calls have numbers of their own.
  have hother : ∀ g ∈ before ++ after, g ∈ s.flight ∧ g.call ≠ f.call := by
    have hnd : (s.flight.map (·.call)).Nodup := (List.nodup_append.1 (hI.once.nodup_iff.2 List.nodup_range)).2.1
    rw [hs, List.map_append, List.map_cons, List.nodup_middle, ← List.map_append, List.nodup_cons] at hnd
    intro g hg
    refine ⟨?_, fun he => hnd.1 ?_⟩
    · rw [hs]
      obtain hg | hg := List.mem_append.1 hg
      · exact List.mem_append_left _ hg
      · exact List.mem_append_right _ (List.mem_cons_of_mem _ hg)
    · rw [← he]
      exact List.mem_map_of_mem hg
  have hsplit : ∀ g ∈ before ++ { f with data := some ((c.moved sectorSize k).data s.file) } :: after,
      g ∈ before ++ after ∨ g = { f with data := some ((c.moved sectorSize k).data s.file) } := by
    intro g hg
    simp only [List.mem_append, List.mem_cons] at hg ⊢
    tauto
  refine ⟨?_, ?_, h.fits, ?_, ?_, ?_, ?_⟩
  · simp only [Machine.serial_fill hhole hlate, byteAt_exec, h.image]
  · intro j m hm
    by_cases hj : f.call = j
    · simp only [← hj, List.getElem?_set_self hlt, Option.some.injEq] at hm ⊢
      exact ⟨c, k, hc, hk, hm.symm⟩
    · simp only [List.getElem?_set_ne hj] at hm
      exact h.moved j m hm
  · intro g hg
    cases hsplit g hg with
    | inl hg => exact h.clear g (hother g hg).1
    | inr hg =>
      rw [hg]
      exact h.clear f hf
  · intro g hg hn
    cases hsplit g hg with
    | inl hg =>
      simp only [List.getElem?_set_ne (hother g hg).2.symm]
      exact h.hole g (hother g hg).1 hn
    | inr hg =>
      rw [hg] at hn
      cases hn
  · intro g hg d hd
    cases hsplit g hg with
    | inl hg => exact sees_move (h.seen g (hother g hg).1 d hd) hhole hlate rfl
    | inr hg =>
      rw [hg] at hd ⊢
      cases hd
      refine ⟨c.moved sectorSize k, List.getElem?_set_self hlt, ?_⟩
      simp only [List.take_set_of_le (Nat.le_refl f.call)]
      rw [data_eq_observe hin, h.image]
      exact Machine.observe_fill hhole hlate img
  · intro a ha he
    obtain ⟨d, hd, hm, hsee⟩ := h.told a ha he
    have hne : f.call ≠ a.call := fun heq => by
      rw [← heq, hhole] at hm
      cases hm
    refine ⟨d, hd, ?_, sees_move hsee hhole hlate rfl⟩
    rw [List.getElem?_set_ne hne]
    exact hm

/-- The kernel reports a call. -/
theorem report (h : AioOrdered sectorSize img s) {f : InFlight} {before after : List InFlight} {c : AioCall}
    {err : Int} (hs : s.flight = before ++ f :: after) (hc : s.calls[f.call]? = some c)
    (hwhole : err = 0 → ∃ d, f.data = some d ∧ d.length = c.treq.secs * sectorSize) (returning : List Nat) :
    AioOrdered sectorSize img { s with
      flight := before ++ after, returning := returning
      answers := ⟨f.call, c.treq, err, f.data.getD []⟩ :: s.answers } := by
  have hf : f ∈ s.flight := by
    rw [hs]
    exact List.mem_append_right _ List.mem_cons_self
  have hsub : ∀ g ∈ before ++ after, g ∈ s.flight := by
    intro g hg
    rw [hs]
    obtain hg | hg := List.mem_append.1 hg
    · exact List.mem_append_left _ hg
    · exact List.mem_append_right _ (List.mem_cons_of_mem _ hg)
  refine ⟨h.image, h.moved, h.fits, fun g hg => h.clear g (hsub g hg), fun g hg => h.hole g (hsub g hg),
    fun g hg => h.seen g (hsub g hg), ?_⟩
  intro a ha he
  cases List.mem_cons.1 ha with
  | inl ha =>
    subst ha
    obtain ⟨d, hd, hlen⟩ := hwhole he
    obtain ⟨m, hm, hsee⟩ := h.seen f hf d hd
    obtain ⟨c', k, hc', hk, rfl⟩ := h.moved f.call m hm
    obtain rfl : c = c' := Option.some.inj (hc.symm.trans hc')
    have hcount : k = c.treq.secs * sectorSize := by
      rw [hsee, length_observe, AioCall.moved_count] at hlen
      exact hlen
    subst hcount
    refine ⟨c, hc, hm, c.whole sectorSize, hm, ?_⟩
    simp only [hd, Option.getD_some]
    exact hsee
  | inr ha => exact h.told a ha he

/-- What one step keeps. -/
theorem step (h : AioOrdered sectorSize img s) (hI : AioInv n fd sectorSize s)
    (hs : AioStep (AioCareful sectorSize) sectorSize s s') : AioOrdered sectorSize img s' := by
  cases hs with
  | refuse hP hq =>
    obtain ⟨-, -, he⟩ | ⟨aio, -, -, -, he, -⟩ := AioCall.queue_cases hq
    · cases he
      refine h.call hI hP _ _ _ (fun f hf => .inl hf) fun a ha => ?_
      cases List.mem_cons.1 ha with
      | inl ha =>
        rw [ha]
        exact .inr (show -ebusy ≠ 0 by decide)
      | inr ha => exact .inl ha
    · cases he
  | accept hP hq =>
    refine h.call hI hP _ _ _ (fun f hf => ?_) fun a ha => .inl ha
    cases List.mem_cons.1 hf with
    | inl hf =>
      rw [hf]
      exact .inr ⟨rfl, rfl⟩
    | inr hf => exact .inl hf
  | @move f before after request k hf hnone hr hk hin =>
    have hmem : f ∈ s.flight := by
      rw [hf]
      exact List.mem_append_right _ List.mem_cons_self
    obtain ⟨c, hc, hr'⟩ := hI.flying f hmem
    obtain rfl : request = c.prepared fd sectorSize := Option.some.inj (hr.symm.trans hr')
    obtain ⟨hsize, hmove⟩ := (h.fits c (List.mem_of_getElem? hc)).prepared fd k
    rw [hsize] at hk
    rw [hmove] at hin ⊢
    exact h.move hI hf hnone hc (by omega) hin
  | @report f before after request treq err hf hr hwhole hrep =>
    have hmem : f ∈ s.flight := by
      rw [hf]
      exact List.mem_append_right _ List.mem_cons_self
    obtain ⟨c, hc, hr'⟩ := hI.flying f hmem
    obtain rfl : request = c.prepared fd sectorSize := Option.some.inj (hr.symm.trans hr')
    obtain ⟨hsize, -⟩ := (h.fits c (List.mem_of_getElem? hc)).prepared fd 0
    rw [tdaioCompleteReport, hr] at hrep
    cases hrep
    rw [hsize] at hwhole
    apply h.report hf hc fun he => ?_
    obtain ⟨d, hd, hl⟩ := hwhole he
    exact ⟨d, hd, by omega⟩
  | release _ _ => exact ⟨h.image, h.moved, h.fits, h.clear, h.hole, h.seen, h.told⟩

/-- What a run keeps. -/
theorem run {s0 : AioSystem} (h : AioOrdered sectorSize img s0) (hI : AioInv n fd sectorSize s0)
    (hr : AioRun (AioCareful sectorSize) sectorSize s0 s) : AioOrdered sectorSize img s := by
  induction hr with
  | refl => exact h
  | step hr hs ih => exact ih.step (hI.run hr) hs

end AioOrdered

/-- **The order of the kernel cannot be told**: where no call meets an outstanding one, there is at every moment
of every run what has been moved for each call, of none more than it asks for, such that the image is that of
a plain disk that does these transfers in the order of the calls; and a call that is answered with success
has been done as a whole and its data are those of the plain disk after the calls before it. -/
theorem aio_serial {direct : Bool} {n : Nat} {sys : OpenFlags → Except Int Int} {stat : ImageStat}
    {rdonly : Bool} {prv : TdaioState} {info : TdDiskInfo} {file : Mem} {s : AioSystem}
    (ho : aioOpen direct n sys stat rdonly = .ok (prv, info))
    (h : AioRun (AioCareful info.sectorSize) info.sectorSize (.opened prv file) s) :
    ∃ moves : List (Option Move), moves.length = s.calls.length ∧
      (∀ (j : Nat) (m : Move), moves[j]? = some (some m) →
        ∃ c k, s.calls[j]? = some c ∧ k ≤ c.treq.secs * info.sectorSize ∧ m = c.moved info.sectorSize k) ∧
      byteAt s.file = imageMachine.serial (byteAt file) moves ∧
      ∀ a ∈ s.answers, a.err = 0 → ∃ c, s.calls[a.call]? = some c ∧ c.treq = a.treq ∧
        moves[a.call]? = some (some (c.whole info.sectorSize)) ∧
        a.data = imageMachine.observe (c.whole info.sectorSize)
          (imageMachine.serial (byteAt file) (moves.take a.call)) := by
  have hI := @AioInv.opened _ info.sectorSize _ _ _ _ _ _ ho file
  have hO := (AioOrdered.opened prv file).run hI h
  refine ⟨s.moves, (hI.run h).moves, hO.moved, hO.image, fun a ha he => ?_⟩
  obtain ⟨c, hc, hm, m, hm', hd⟩ := hO.told a ha he
  obtain ⟨c', hc', ht⟩ := (hI.run h).answered a ha
  obtain rfl : c = c' := Option.some.inj (hc.symm.trans hc')
  obtain rfl : c.whole info.sectorSize = m := Option.some.inj (Option.some.inj (hm.symm.trans hm'))
  exact ⟨c, hc, ht, hm, hd⟩

/-- A write, and a read elsewhere that the kernel serves before it. -/
theorem aio_serial_small : ∃ s : AioSystem, s.answers.map (fun a => (a.call, a.err)) = [(0, 0), (1, 0)] ∧
    ∃ moves : List (Option Move), byteAt s.file = imageMachine.serial (byteAt (zeros 1024)) moves ∧
      ∀ a ∈ s.answers, a.err = 0 → ∃ c, s.calls[a.call]? = some c ∧
        a.data = imageMachine.observe (c.whole 512)
          (imageMachine.serial (byteAt (zeros 1024)) (moves.take a.call)) := by
  let w : AioCall := ⟨true, ⟨0, 1, fun _ => 7⟩⟩
  let r : AioCall := ⟨false, ⟨1, 1, fun _ => 0⟩⟩
  have ho : aioOpen false 2 (fun _ => .ok 5) (.file 1024) false =
      .ok (⟨5, 2, [.zero, .zero], [0, 1]⟩, ⟨2, 512, 0⟩) := rfl
  have hfw : w.Fits 512 := ⟨by decide, by decide⟩
  have hfr : r.Fits 512 := ⟨by decide, by decide⟩
  have hin : ((r.prepared 5 512).tiocb.move 512).Inside (zeros 1024) := by
    rw [(hfr.prepared 5 512).2]
    show 1 * 512 + 512 ≤ (zeros 1024).length
    rw [length_zeros]
  have hread : ((((r.prepared 5 512).tiocb.move 512).data (zeros 1024)).length : Int) =
      (r.prepared 5 512).tiocb.size := by
    rw [data_eq_observe hin, length_observe, (hfr.prepared 5 512).1, (hfr.prepared 5 512).2, AioCall.moved_count,
      show r.treq.secs * 512 = 512 from Nat.one_mul 512]
  have hwrite : ((((w.prepared 5 512).tiocb.move 512).data (zeros 1024)).length : Int) =
      (w.prepared 5 512).tiocb.size := by
    have hin : (w.moved 512 512).Inside (zeros 1024) := trivial
    rw [(hfw.prepared 5 512).1, (hfw.prepared 5 512).2, data_eq_observe hin, length_observe, AioCall.moved_count,
      show w.treq.secs * 512 = 512 from Nat.one_mul 512]
  have hclear : ¬w.Meets r := fun ⟨_, _, h⟩ => absurd h (by decide)
  have h1 := (AioRun.refl (.opened ⟨5, 2, [.zero, .zero], [0, 1]⟩ (zeros 1024))).step
    (@AioStep.accept (AioCareful 512) 512 _ w _ 1 ⟨hfw, fun f hf => nomatch hf⟩ rfl)
  have h2 := h1.step (@AioStep.accept _ 512 _ r _ 0 ⟨hfr, fun f hf d hd => by
    rw [List.mem_singleton.1 hf] at hd
    cases hd
    exact hclear⟩ rfl)
  have h3 := h2.step (@AioStep.move _ 512 _ ⟨0, 1, none⟩ [] [⟨1, 0, none⟩] (r.prepared 5 512) 512 rfl rfl rfl
    (by decide) hin)
  have h4 := h3.step (@AioStep.move _ 512 _ ⟨1, 0, none⟩ [_] [] (w.prepared 5 512) 512 rfl rfl rfl
    (by decide) trivial)
  have h5 := h4.step (@AioStep.report _ 512 _ _ [] _ (r.prepared 5 512) _ 0 rfl rfl (fun _ => ⟨_, rfl, hread⟩) rfl)
  have h6 := h5.step (@AioStep.report _ 512 _ _ [] [] (w.prepared 5 512) _ 0 rfl rfl (fun _ => ⟨_, rfl, hwrite⟩) rfl)
  obtain ⟨moves, -, -, himage, hanswers⟩ := aio_serial ho h6
  refine ⟨_, rfl, moves, himage, fun a ha he => ?_⟩
  obtain ⟨c, hc, -, -, hd⟩ := hanswers a ha he
  exact ⟨c, hc, hd⟩

end LogDrive
