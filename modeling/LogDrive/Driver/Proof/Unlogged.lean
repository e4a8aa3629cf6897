import LogDrive.Driver.Proof.LogInv

/-!
# Reading logs nothing

`Full s recs`: nothing has been logged but the records. A program that records no `logged` event keeps it
(`wp_unlogged`), and the readers of blocks and `pd_read` are such programs.
-/

set_option autoImplicit false

open Bytes

namespace LogDrive

/-- Nothing has been logged but the records. -/
def Full (s : Os Event) (recs : List Rec) : Prop := ∀ e, Logged s.notes e → e ∈ entries recs

def Event.NotLogged : Event → Prop
  | .logged _ _ => False
  | _ => True

theorem Logged.of_notLogged {past : List Event} {ev : Event} (h : ev.NotLogged) {e : Entry}
    (he : Logged (ev :: past) e) : Logged past e := by
  cases ev with
  | logged off bytes => exact h.elim
  | _ => exact he

/-- A record that has been logged. -/
theorem Full.push {s s' : Os Event} {recs : List Rec} (h : Full s recs) {r : Rec}
    (hn : s'.notes = .logged r.ver.off r.ver.bytes :: s.notes) : Full s' (r :: recs) := fun e he => by
  rw [hn] at he
  rcases he with rfl | ⟨he, -⟩
  · exact List.mem_cons_self
  · exact List.mem_cons_of_mem _ (h e he)

/-- A program that logs nothing. -/
theorem wp_unlogged {α : Type} {L : Logic Event} {p : Prog Event α} {Q : α → Os Event → Prop} {s : Os Event}
    (hp : p.Records Event.NotLogged) (h : wp L p Q s) :
    wp L p (fun a s' => Q a s' ∧ ∀ recs, Full s recs → Full s' recs) s := by
  have hkeep : ∀ past (e : Event), e.NotLogged → (∀ x, Logged past x → Logged s.notes x) →
      ∀ x, Logged (e :: past) x → Logged s.notes x := fun _ _ he hpast x hx => hpast x (hx.of_notLogged he)
  refine wp_mono (wp_records hkeep hp h) fun a s' hs => ⟨hs.1, fun recs hfull e he => ?_⟩
  exact hfull e (hs.2 (fun _ h => h) e he)

/-! ## The readers -/

theorem copyFrom_unlogged (m : Mem) (start size : Nat) : (copyFrom m start size).Records Event.NotLogged := by
  unfold copyFrom
  split <;> trivial

theorem clearFrom_unlogged (buf : Mem) (start size : Nat) : (clearFrom buf start size).Records Event.NotLogged := by
  unfold clearFrom
  split <;> trivial

theorem indexAt_unlogged (d : PreservationDisk) (block : Nat) : (indexAt d block).Records Event.NotLogged := by
  unfold indexAt
  split <;> trivial

theorem bioRead_unlogged (b : BufferedIo) (pos size : Nat) : (bioRead b pos size).Records Event.NotLogged := by
  unfold bioRead
  split
  · exact .bind (copyFrom_unlogged ..) fun _ => ⟨trivial, trivial⟩
  · refine .bind ?_ fun r => ?_
    · split
      · trivial
      · intro r
        cases r <;> trivial
    · dsimp only
      split
      · exact .bind (copyFrom_unlogged ..) fun _ => ⟨trivial, trivial⟩
      · trivial

theorem bioReadInto_unlogged (b : BufferedIo) (pos : Nat) (buf : Mem) (size : Nat) :
    (bioReadInto b pos buf size).Records Event.NotLogged := by
  refine .bind (bioRead_unlogged ..) fun r => ?_
  dsimp only
  split
  · trivial
  · split <;> trivial

theorem readPayload_unlogged (d : PreservationDisk) (buf : Mem) (offset dataSize : Nat) :
    (readPayload d buf offset dataSize).Records Event.NotLogged := by
  refine .bind (bioReadInto_unlogged ..) fun r => ?_
  dsimp only
  split
  · exact .bind (clearFrom_unlogged ..) fun _ => trivial
  · trivial

theorem readLatestBlock_unlogged (J : Junk) (d : PreservationDisk) (buf : Mem) (block : Nat) :
    (readLatestBlock J d buf block).Records Event.NotLogged := by
  refine .bind (indexAt_unlogged ..) fun offset => ?_
  dsimp only
  split
  · exact .bind (clearFrom_unlogged ..) fun _ => trivial
  · refine .bind (bioReadInto_unlogged ..) fun r => ?_
    split
    · exact .bind (clearFrom_unlogged ..) fun _ => trivial
    · exact readPayload_unlogged ..

theorem searchVersion_unlogged (ts : TimeSpec) (fuel : Nat) : ∀ b offset header dataSize,
    (searchVersion ts fuel b offset header dataSize).Records Event.NotLogged := by
  induction fuel with
  | zero => exact fun _ _ _ _ => trivial
  | succ fuel ih =>
    intro b offset header dataSize
    rw [searchVersion]
    split
    · trivial
    · refine .bind (bioReadInto_unlogged ..) fun r => ?_
      dsimp only
      split
      · trivial
      · exact ih _ _ _ _

theorem readCurrentBlock_unlogged (J : Junk) (fuel : Nat) (d : PreservationDisk) (buf : Mem) (block : Nat) :
    (readCurrentBlock J fuel d buf block).Records Event.NotLogged := by
  refine .bind (indexAt_unlogged ..) fun offset => ?_
  split
  · refine .bind ?_ fun r => ?_
    · split
      · exact .bind (searchVersion_unlogged ..) fun _ => ⟨trivial, trivial⟩
      · trivial
    · dsimp only
      split
      · exact readPayload_unlogged ..
      · exact .bind (clearFrom_unlogged ..) fun _ => trivial
  · trivial

theorem readBlockOf_unlogged (J : Junk) (fuel : Nat) (d d' : PreservationDisk) (buf : Mem) (block : Nat) :
    (readBlockOf J fuel d d' buf block).Records Event.NotLogged := by
  unfold readBlockOf
  split
  · exact readCurrentBlock_unlogged ..
  · exact readLatestBlock_unlogged ..

section
variable {readBlock : ReadBlock} (h : ∀ d buf b, (readBlock d buf b).Records Event.NotLogged) (treq : TdRequest)
include h

theorem pdReadBlocks_unlogged (count : Nat) : ∀ i d, (pdReadBlocks readBlock treq count i d).Records Event.NotLogged := by
  induction count with
  | zero => exact fun _ _ => trivial
  | succ count ih =>
    intro i d
    refine .bind (h _ _ _) fun r => ?_
    dsimp only
    split
    · trivial
    · exact .bind (ih _ _) fun _ => trivial

theorem pdReadCover_unlogged (fuel : Nat) : ∀ d sector k buf,
    (pdReadCover readBlock treq fuel d sector k buf).Records Event.NotLogged := by
  induction fuel with
  | zero => exact fun _ _ _ _ => trivial
  | succ fuel ih =>
    intro d sector k buf
    rw [pdReadCover]
    split
    · dsimp only
      split
      · refine .bind (h _ _ _) fun r => ?_
        split
        · trivial
        · exact ih _ _ _ _
      · trivial
    · trivial

end

/-- **`pd_read` logs nothing.** -/
theorem pdRead_unlogged (J : Junk) (fuel : Nat) (d : PreservationDisk) (treq : TdRequest) :
    (pdRead J fuel d treq).Records Event.NotLogged := by
  unfold pdRead
  dsimp only
  split
  · trivial
  · split
    · exact pdReadBlocks_unlogged (readBlockOf_unlogged J fuel d) ..
    · refine .bind (pdReadCover_unlogged (readBlockOf_unlogged J fuel d) ..) fun r => ?_
      split
      · trivial
      · exact .bind (copyFrom_unlogged ..) fun _ => trivial

end LogDrive
