import LogDrive.Driver.Aio
import LogDrive.Lib.Pool
import LogDrive.Lib.Serial

/-!
# Every request of an asynchronous driver is answered once

Whatever order the kernel serves what it has in, and however tapdisk makes its calls, also from within a
completion: the driver stays inside its arrays, a structure that is outstanding keeps what it was prepared
with until the kernel has reported it, and each call is answered once, with its own request
(`AioInv.run`, `aio_answers_once`).
-/

set_option autoImplicit false

open Bytes

namespace LogDrive

/-- What a call leaves in its structure. -/
def AioCall.prepared (c : AioCall) (fd : Int) (sectorSize : Nat) : AioRequest :=
  ⟨c.treq, tdPrep c.write fd sectorSize c.treq⟩

theorem AioCall.queue_eq (c : AioCall) (sectorSize : Nat) (prv : TdaioState) :
    c.queue sectorSize prv = aioQueue c.write sectorSize prv c.treq := by
  unfold AioCall.queue tdaioQueueWrite tdaioQueueRead
  cases c.write with
  | true => rfl
  | false => rfl

/-- `block-log.c` queues a request as `block-aio.c` does. -/
theorem AioCall.queue_tdlog (c : AioCall) (sectorSize : Nat) (prv : TdaioState) :
    c.queue sectorSize prv =
      if c.write then tdlogQueueWrite sectorSize prv c.treq else tdlogQueueRead sectorSize prv c.treq := by
  rw [AioCall.queue_eq]
  unfold tdlogQueueWrite tdlogQueueRead
  cases c.write with
  | true => rfl
  | false => rfl

/-- The structures that are not free. -/
def AioSystem.used (s : AioSystem) : List Nat := s.flight.map (·.aio) ++ s.returning

/-- What holds of a driver of `n` structures on the descriptor `fd`. -/
structure AioInv (n : Nat) (fd : Int) (sectorSize : Nat) (s : AioSystem) : Prop where
  descriptor : s.prv.fd = fd
  requests : s.prv.aioRequests.length = n
  pool : Splits (List.range n) s.prv.aioFreeList s.prv.aioFreeCount s.used
  moves : s.moves.length = s.calls.length
  once : (s.answers.map (·.call) ++ s.flight.map (·.call)).Perm (List.range s.calls.length)
  answered : ∀ a ∈ s.answers, ∃ c, s.calls[a.call]? = some c ∧ c.treq = a.treq
  flying : ∀ f ∈ s.flight, ∃ c, s.calls[f.call]? = some c ∧
    s.prv.aioRequests[f.aio]? = some (c.prepared fd sectorSize)

/-! ## The functions of the driver -/

/-- What a call does. -/
theorem AioCall.queue_cases {c : AioCall} {sectorSize : Nat} {prv prv' : TdaioState} {e : AioEffect}
    (h : c.queue sectorSize prv = some (prv', e)) :
    (prv.aioFreeCount = 0 ∧ prv' = prv ∧ e = .complete c.treq (-ebusy)) ∨
    ∃ aio, prv.aioFreeCount ≠ 0 ∧ prv.aioFreeList[prv.aioFreeCount - 1]? = some aio ∧
      aio < prv.aioRequests.length ∧ e = .queue aio ∧
      prv' = { prv with
        aioFreeCount := prv.aioFreeCount - 1
        aioRequests := prv.aioRequests.set aio (c.prepared prv.fd sectorSize) } := by
  rw [AioCall.queue_eq] at h
  unfold aioQueue at h
  split at h
  · rename_i h0
    cases h
    exact .inl ⟨h0, rfl, rfl⟩
  · rename_i h0
    simp only at h
    split at h
    · cases h
    · rename_i aio hget
      split at h
      · rename_i hlt
        cases h
        exact .inr ⟨aio, h0, hget, hlt, rfl, rfl⟩
      · cases h

namespace AioInv

variable {n sectorSize : Nat} {fd : Int} {s s' : AioSystem} {P : AioSystem → AioCall → Prop}

theorem distinct (h : AioInv n fd sectorSize s) : s.used.Nodup := h.pool.nodup List.nodup_range

theorem calls_lt (h : AioInv n fd sectorSize s) {f : InFlight} (hf : f ∈ s.flight) : f.call < s.calls.length := by
  have hmem : f.call ∈ List.range s.calls.length :=
    h.once.subset (List.mem_append_right _ (List.mem_map_of_mem hf))
  exact List.mem_range.1 hmem

theorem count_add (h : AioInv n fd sectorSize s) : s.prv.aioFreeCount + s.used.length = n :=
  h.pool.count_add.trans List.length_range

/-- A call does not leave the arrays: it is refused iff no structure is free. -/
theorem queue (h : AioInv n fd sectorSize s) (c : AioCall) :
    (s.used.length = n ∧ c.queue sectorSize s.prv = some (s.prv, .complete c.treq (-ebusy))) ∨
    s.used.length < n ∧ ∃ prv aio, c.queue sectorSize s.prv = some (prv, .queue aio) := by
  have hadd := h.count_add
  rw [AioCall.queue_eq]
  unfold aioQueue
  by_cases h0 : s.prv.aioFreeCount = 0
  · rw [if_pos h0]
    exact .inl ⟨by omega, rfl⟩
  · obtain ⟨aio, hget, hp⟩ := h.pool.take h0
    have hlt : aio < s.prv.aioRequests.length := by
      rw [h.requests]
      exact List.mem_range.1 (hp.mem List.mem_cons_self)
    rw [if_neg h0]
    simp only [hget, if_pos hlt]
    exact .inr ⟨by omega, _, _, rfl⟩

/-- A structure that comes back fits into the stack. -/
theorem release (h : AioInv n fd sectorSize s) {aio : Nat} (ha : aio ∈ s.returning) :
    ∃ prv, tdaioCompleteRelease s.prv aio = some prv := by
  have hlt := (h.pool.put (List.mem_append_right _ ha)).1
  exact ⟨_, if_pos hlt⟩

/-- A structure that the kernel has goes back to tapdisk with the request of its call. -/
theorem report (h : AioInv n fd sectorSize s) {f : InFlight} (hf : f ∈ s.flight) (err : Int) :
    ∃ c, s.calls[f.call]? = some c ∧ tdaioCompleteReport s.prv f.aio err = some (.complete c.treq err) := by
  obtain ⟨c, hc, hr⟩ := h.flying f hf
  refine ⟨c, hc, ?_⟩
  rw [tdaioCompleteReport, hr]
  rfl

/-! ## Steps -/

theorem opened {direct : Bool} {sys : OpenFlags → Except Int Int} {stat : ImageStat} {rdonly : Bool}
    {prv : TdaioState} {info : TdDiskInfo} (h : aioOpen direct n sys stat rdonly = .ok (prv, info)) (file : Mem) :
    AioInv n prv.fd sectorSize (.opened prv file) := by
  have hprv : prv = ⟨prv.fd, n, List.replicate n .zero, List.range n⟩ := by
    unfold aioOpen at h
    simp only at h
    split at h
    · cases h
    · split at h
      · cases h
      · cases h
        rfl
  have hpool := Splits.start (List.range n)
  rw [List.length_range] at hpool
  refine ⟨rfl, ?_, ?_, rfl, .nil, ?_, ?_⟩
  · rw [hprv]
    exact List.length_replicate
  · rw [hprv]
    exact hpool
  · intro a ha
    cases ha
  · intro f hf
    cases hf

theorem tdaioOpened {sys : OpenFlags → Except Int Int} {stat : ImageStat} {rdonly : Bool} {prv : TdaioState}
    {info : TdDiskInfo} (h : tdaioOpen n sys stat rdonly = .ok (prv, info)) (file : Mem) :
    AioInv n prv.fd sectorSize (.opened prv file) := opened h file

theorem tdlogOpened {sys : OpenFlags → Except Int Int} {stat : ImageStat} {rdonly : Bool} {prv : TdaioState}
    {info : TdDiskInfo} (h : tdlogOpen n sys stat rdonly = .ok (prv, info)) (file : Mem) :
    AioInv n prv.fd sectorSize (.opened prv file) := opened h file

/-- The number of a new call is one that no call has had. -/
theorem once_new (h : AioInv n fd sectorSize s) (c : AioCall) :
    (s.calls.length :: (s.answers.map (·.call) ++ s.flight.map (·.call))).Perm
      (List.range (s.calls ++ [c]).length) := by
  rw [List.length_append, List.length_singleton, List.range_succ]
  exact (h.once.cons _).trans (@List.perm_append_comm _ [s.calls.length] _)

theorem refuse (h : AioInv n fd sectorSize s) {c : AioCall} {prv : TdaioState} {treq : TdRequest} {err : Int}
    (hq : c.queue sectorSize s.prv = some (prv, .complete treq err)) :
    AioInv n fd sectorSize { s with
      prv := prv, calls := s.calls ++ [c], moves := s.moves ++ [none]
      answers := ⟨s.calls.length, treq, err, []⟩ :: s.answers } := by
  obtain ⟨-, rfl, he⟩ | ⟨aio, -, -, -, he, -⟩ := AioCall.queue_cases hq
  · cases he
    refine ⟨h.descriptor, h.requests, h.pool, ?_, h.once_new c, ?_, ?_⟩
    · rw [List.length_append, List.length_append, h.moves]
      rfl
    · intro a ha
      cases List.mem_cons.1 ha with
      | inl ha =>
        subst ha
        exact ⟨c, List.getElem?_concat_length, rfl⟩
      | inr ha =>
        obtain ⟨c', hc', ht⟩ := h.answered a ha
        exact ⟨c', by rw [List.getElem?_append_left (List.getElem?_eq_some_iff.1 hc').1]; exact hc', ht⟩
    · intro f hf
      obtain ⟨c', hc', hr⟩ := h.flying f hf
      exact ⟨c', by rw [List.getElem?_append_left (h.calls_lt hf)]; exact hc', hr⟩
  · cases he

theorem accept (h : AioInv n fd sectorSize s) {c : AioCall} {prv : TdaioState} {aio : Nat}
    (hq : c.queue sectorSize s.prv = some (prv, .queue aio)) :
    AioInv n fd sectorSize { s with
      prv := prv, calls := s.calls ++ [c], moves := s.moves ++ [none]
      flight := ⟨aio, s.calls.length, none⟩ :: s.flight } := by
  obtain ⟨-, -, he⟩ | ⟨aio', h0, hget, hlt, he, rfl⟩ := AioCall.queue_cases hq
  · cases he
  · cases he
    obtain ⟨aio1, hget1, hp⟩ := h.pool.take h0
    obtain rfl : aio = aio1 := Option.some.inj (hget.symm.trans hget1)
    have hnew : aio ∉ s.used := (List.nodup_cons.1 (hp.nodup List.nodup_range)).1
    refine ⟨h.descriptor, by rw [List.length_set]; exact h.requests, hp, ?_, ?_, ?_, ?_⟩
    · rw [List.length_append, List.length_append, h.moves]
      rfl
    · exact List.perm_middle.trans (h.once_new c)
    · intro a ha
      obtain ⟨c', hc', ht⟩ := h.answered a ha
      exact ⟨c', by rw [List.getElem?_append_left (List.getElem?_eq_some_iff.1 hc').1]; exact hc', ht⟩
    · intro f hf
      cases List.mem_cons.1 hf with
      | inl hf =>
        subst hf
        refine ⟨c, List.getElem?_concat_length, ?_⟩
        rw [List.getElem?_set_self hlt, h.descriptor]
      | inr hf =>
        obtain ⟨c', hc', hr⟩ := h.flying f hf
        have hne : aio ≠ f.aio := fun he => by
          apply hnew
          rw [he]
          exact List.mem_append_left _ (List.mem_map_of_mem hf)
        refine ⟨c', by rw [List.getElem?_append_left (h.calls_lt hf)]; exact hc', ?_⟩
        rw [List.getElem?_set_ne hne]
        exact hr

/-- The kernel touches neither the driver nor who has what. -/
theorem move (h : AioInv n fd sectorSize s) {f : InFlight} {before after : List InFlight}
    (hs : s.flight = before ++ f :: after) (file : Mem) (m : Move) (d : Mem) :
    AioInv n fd sectorSize { s with
      file := file, moves := s.moves.set f.call (some m)
      flight := before ++ { f with data := some d } :: after } := by
  have hpool := h.pool
  have honce := h.once
  simp only [AioSystem.used, hs, List.map_append, List.map_cons] at hpool honce
  refine ⟨h.descriptor, h.requests, ?_, by rw [List.length_set]; exact h.moves, ?_, h.answered, ?_⟩
  · simp only [AioSystem.used, List.map_append, List.map_cons]
    exact hpool
  · simp only [List.map_append, List.map_cons]
    exact honce
  · intro g hg
    have hflying := h.flying
    simp only [hs, List.mem_append, List.mem_cons] at hflying
    simp only [List.mem_append, List.mem_cons] at hg
    obtain hg | rfl | hg := hg
    · exact hflying g (.inl hg)
    · exact hflying f (.inr (.inl rfl))
    · exact hflying g (.inr (.inr hg))

theorem reported (h : AioInv n fd sectorSize s) {f : InFlight} {before after : List InFlight} {treq : TdRequest}
    {err : Int} (hs : s.flight = before ++ f :: after)
    (hr : tdaioCompleteReport s.prv f.aio err = some (.complete treq err)) :
    AioInv n fd sectorSize { s with
      flight := before ++ after, returning := f.aio :: s.returning
      answers := ⟨f.call, treq, err, f.data.getD []⟩ :: s.answers } := by
  have hf : f ∈ s.flight := by
    rw [hs]
    exact List.mem_append_right _ List.mem_cons_self
  have hpool := h.pool
  have honce := h.once
  simp only [AioSystem.used, hs, List.map_append, List.map_cons] at hpool honce
  refine ⟨h.descriptor, h.requests, hpool.congr ?_, h.moves, ?_, ?_, ?_⟩
  · simp only [AioSystem.used, List.map_append, List.append_assoc, List.cons_append]
    refine (List.perm_middle (a := f.aio)).trans (.trans ?_ (List.Perm.append_left _ List.perm_middle.symm))
    exact List.perm_middle.symm
  · refine .trans ?_ honce
    simp only [List.map_append, List.map_cons, List.cons_append, ← List.append_assoc]
    exact List.perm_middle.symm
  · intro a ha
    cases List.mem_cons.1 ha with
    | inl ha =>
      subst ha
      obtain ⟨c, hc, hrep⟩ := h.report hf err
      rw [hr] at hrep
      cases hrep
      exact ⟨c, hc, rfl⟩
    | inr ha => exact h.answered a ha
  · intro g hg
    apply h.flying g
    rw [hs]
    obtain hg | hg := List.mem_append.1 hg
    · exact List.mem_append_left _ hg
    · exact List.mem_append_right _ (List.mem_cons_of_mem _ hg)

theorem released (h : AioInv n fd sectorSize s) {aio : Nat} {prv : TdaioState} (ha : aio ∈ s.returning)
    (hr : tdaioCompleteRelease s.prv aio = some prv) :
    AioInv n fd sectorSize { s with prv := prv, returning := s.returning.erase aio } := by
  obtain ⟨hlt, hput⟩ := h.pool.put (List.mem_append_right (s.flight.map (·.aio)) ha)
  have hnot : aio ∉ s.flight.map (·.aio) := by
    have hd := h.distinct
    exact fun hf => (List.nodup_append.1 hd).2.2 aio hf aio ha rfl
  rw [tdaioCompleteRelease, if_pos hlt] at hr
  cases hr
  refine ⟨h.descriptor, h.requests, ?_, h.moves, h.once, h.answered, h.flying⟩
  rw [AioSystem.used, List.erase_append_right _ hnot] at hput
  exact hput

/-- What one step keeps. -/
theorem step (h : AioInv n fd sectorSize s) (hs : AioStep P sectorSize s s') : AioInv n fd sectorSize s' := by
  cases hs with
  | refuse _ hq => exact h.refuse hq
  | accept _ hq => exact h.accept hq
  | move hf _ _ _ _ => exact h.move hf _ _ _
  | report hf _ _ hr => exact h.reported hf hr
  | release ha hr => exact h.released ha hr

/-- **Every run** keeps the invariant. -/
theorem run (h : AioInv n fd sectorSize s) (hr : AioRun P sectorSize s s') : AioInv n fd sectorSize s' := by
  induction hr with
  | refl => exact h
  | step _ hs ih => exact ih.step hs

end AioInv

/-! ## The answers -/

/-- **Each call is answered once**: at every moment of every run the answered calls and those that the kernel
has are together all calls, each once; an answer carries the request of its call and a structure that the
kernel has is as its call prepared it. Neither a further call nor a completion leaves an array; a call is
refused iff all structures are outstanding, with `EBUSY`, and then changes nothing. -/
theorem aio_answers_once {direct : Bool} {n : Nat} {sys : OpenFlags → Except Int Int} {stat : ImageStat}
    {rdonly : Bool} {prv : TdaioState} {info : TdDiskInfo} {file : Mem} {s : AioSystem}
    (ho : aioOpen direct n sys stat rdonly = .ok (prv, info))
    (h : AioRun (fun _ _ => True) info.sectorSize (.opened prv file) s) :
    (s.answers.map (·.call) ++ s.flight.map (·.call)).Perm (List.range s.calls.length) ∧
    (∀ a ∈ s.answers, ∃ c, s.calls[a.call]? = some c ∧ c.treq = a.treq) ∧
    (∀ f ∈ s.flight, ∃ c, s.calls[f.call]? = some c ∧
      s.prv.aioRequests[f.aio]? = some ⟨c.treq, tdPrep c.write prv.fd info.sectorSize c.treq⟩ ∧
      ∀ err, tdaioCompleteReport s.prv f.aio err = some (.complete c.treq err)) ∧
    (s.flight.map (·.aio) ++ s.returning).Nodup ∧
    s.prv.aioFreeCount + s.flight.length + s.returning.length = n ∧
    (∀ aio ∈ s.returning, (tdaioCompleteRelease s.prv aio).isSome) ∧
    ∀ c : AioCall,
      (s.flight.length + s.returning.length = n ∧
        c.queue info.sectorSize s.prv = some (s.prv, .complete c.treq (-ebusy))) ∨
      (s.flight.length + s.returning.length < n ∧
        ∃ prv' aio, c.queue info.sectorSize s.prv = some (prv', .queue aio)) := by
  have hI := (AioInv.opened ho file).run h
  have hused : s.used.length = s.flight.length + s.returning.length := by
    rw [AioSystem.used, List.length_append, List.length_map]
  have hadd := hI.count_add
  refine ⟨hI.once, hI.answered, ?_, hI.distinct, by omega, ?_, ?_⟩
  · intro f hf
    obtain ⟨c, hc, hr⟩ := hI.flying f hf
    refine ⟨c, hc, hr, fun err => ?_⟩
    rw [tdaioCompleteReport, hr]
    rfl
  · intro aio ha
    obtain ⟨prv', hr⟩ := hI.release ha
    rw [hr]
    rfl
  · intro c
    rw [← hused]
    exact hI.queue c

/-- Two structures and four calls: the third is refused, the fourth too, since the completion of the first has
not freed its structure yet. -/
theorem aio_answers_once_small : ∃ s : AioSystem, s.answers.map (·.call) = [3, 0, 2] ∧ s.flight.map (·.call) = [1] ∧
    (s.answers.map (·.call) ++ s.flight.map (·.call)).Perm (List.range s.calls.length) := by
  let c : AioCall := ⟨false, ⟨0, 1, fun _ => 0⟩⟩
  have ho : aioOpen false 2 (fun _ => .ok 5) (.file 4096) false =
      .ok (⟨5, 2, [.zero, .zero], [0, 1]⟩, ⟨8, 512, 0⟩) := rfl
  have h0 := @AioRun.refl (fun _ _ => True) 512 (.opened ⟨5, 2, [.zero, .zero], [0, 1]⟩ (zeros 4096))
  have h1 := h0.step (@AioStep.accept _ _ _ c _ 1 trivial rfl)
  have h2 := h1.step (@AioStep.accept _ _ _ c _ 0 trivial rfl)
  have h3 := h2.step (@AioStep.refuse _ _ _ c _ _ _ trivial rfl)
  have h4 := h3.step (@AioStep.report _ _ _ _ [⟨0, 1, none⟩] [] _ _ (-5) rfl rfl (by decide) rfl)
  have h5 := h4.step (@AioStep.refuse _ _ _ c _ _ _ trivial rfl)
  have h6 := h5.step (@AioStep.release _ _ _ 1 _ (by decide) rfl)
  exact ⟨_, rfl, rfl, (aio_answers_once ho h6).1⟩

end LogDrive
