import LogDrive.Driver.Proof.Past
import Mathlib.Order.Interval.Finset.Nat

/-!
# Sessions that run to their end

The write buffer has room for 128 versions of a whole block. A session whose write requests touch at most as
many blocks in all makes `bio_write` flush nothing before it is closed (`affordable_of_versions`), so none of
its reads is stale. Any number of such sessions runs to its end with the replies of a plain sector array,
and every journey behind them shows the array as of its time, with nothing taken for granted of what
`bio_read` returns (`small_sessions_total`).
-/

set_option autoImplicit false

open Bytes

namespace LogDrive

open SectorArray

/-- The blocks from that of the first sector to that of the last one. -/
def TdRequest.touchedBlocks (q : TdRequest) : Finset Nat :=
  if q.secs = 0 then ∅ else Finset.Ico (q.sec / 8) ((q.sec + q.secs + 7) / 8)

theorem TdRequest.mem_touchedBlocks {q : TdRequest} {b : Nat} (h : q.Touches b) : b ∈ q.touchedBlocks := by
  obtain ⟨h0, h1, h2⟩ := h
  rw [TdRequest.touchedBlocks, if_neg (by omega)]
  exact Finset.mem_Ico.2 ⟨by omega, by omega⟩

/-- The number of versions that a request can log. -/
def Request.versions : Request → Nat
  | .write q => q.touchedBlocks.card
  | .read _ => 0

def Session.versions (S : Session) : Nat := (S.requests.map Request.versions).sum

/-- The versions that fit into the write buffer. -/
abbrev bufferedVersions : Nat := 128

theorem affordable_of_versions {T : Prop} {pos : Nat} {recs : List Rec} {reqs : List Request}
    (h : pos + 4128 * (reqs.map Request.versions).sum ≤ bufferSize) : Affordable T pos recs reqs := by
  induction reqs generalizing pos recs with
  | nil => trivial
  | cons req reqs ih =>
    rw [List.map_cons, List.sum_cons] at h
    cases req with
    | read treq =>
      simp only [Request.versions, Nat.zero_add] at h
      exact ih h
    | write q =>
      simp only [Request.versions] at h
      refine ⟨q.touchedBlocks, by omega, fun b ht hb => absurd (TdRequest.mem_touchedBlocks ht) hb, fun recs' _ => ih ?_⟩
      omega

theorem affordableAll_of_versions {T : Prop} {Ss : List Session} (h : ∀ S ∈ Ss, S.versions ≤ bufferedVersions) :
    ∀ recs, AffordableAll T recs Ss := by
  induction Ss with
  | nil => exact fun _ => trivial
  | cons S Ss ih =>
    intro recs
    have hS : S.versions ≤ bufferedVersions := h S List.mem_cons_self
    refine ⟨affordable_of_versions ?_, fun _ recs' _ => ih (fun S' hS' => h S' (List.mem_cons_of_mem _ hS')) recs'⟩
    rw [bufferSize_eq]
    simp only [Session.versions, bufferedVersions] at hS
    omega

/-- **Sessions of at most 128 versions each** run to their end. -/
theorem small_sessions_total {n : Nat} (hn : n < 2 ^ 31) {Ss : List Session}
    (hSs : ∀ S ∈ Ss, ∀ req ∈ S.requests, req.Inside n ∧ req.Fits) (hsmall : ∀ S ∈ Ss, S.versions ≤ bufferedVersions)
    (hlen : Ss.length < 2 ^ 32) :
    ∃ s, Done (runSessions Ss) (newDatabase n) (replies [] (Ss.flatMap Session.requests)) s ∧
      Assumed Coherent s.notes ∧ Assumed (fun _ => NoStale) s.notes ∧
      ∀ V : Travel, (∀ treq ∈ V.reads, treq.Readable n) → offMax ≤ V.fuel → ∃ s', s'.file = s.file ∧
        Done V.run s (some (V.reads.map (fun treq =>
          .got 0 ((asOf V.ts (writes [] (Ss.flatMap Session.requests))).read treq)), 0)) s' := by
  have hstart := logStart_bounds n
  have h := wp_runSessions total_mode hn (fun _ _ _ => trivial) (newDatabase_inv hn)
    (fun S hS req hreq => (hSs S hS req hreq).1) [] fun _ => ⟨nofun, by
      rw [List.append_nil]
      exact affordableAll_of_versions hsmall [], by simp only [offMax]; omega⟩
  obtain ⟨rs, s, hd, ⟨N, new, hf, hR, -⟩, ha⟩ := exists_done h trivial
  rw [List.append_nil] at hf hR
  have hfits := requests_fit hSs
  have hT : Traces (writes [] (Ss.flatMap Session.requests)) new :=
    hR.keeps (F := fun q => q.toTdRequest.Fits) (fun _ _ _ _ h hq hw => h.write hq hw) traces_nil fun q hq => hfits _ hq
  rw [hR.replies_eq models_nil hfits] at hd
  refine ⟨s, hd, (assumed_of_total ha).1, (assumed_of_total ha).2, fun V hreads hfuel => ?_⟩
  obtain ⟨s', hd', hfile⟩ := hf.journey hn hreads hfuel
  rw [List.map_congr_left fun treq _ => hT.reply V.ts treq] at hd'
  exact ⟨s', hfile, hd'⟩

/-- A session of one write and one read. -/
theorem small_sessions_total_one : ∃ s s', Done (runSessions [echoSession]) (newDatabase 1)
      [.wrote 0, .got 0 ((after [smallWrite]).read smallWrite.toTdRequest)] s ∧
    Done (Travel.run ⟨zeroJunk, ⟨2, 0⟩, offMax, [smallWrite.toTdRequest]⟩) s
      (some ([.got 0 ((asOf ⟨2, 0⟩ [smallWrite]).read smallWrite.toTdRequest)], 0)) s' := by
  have hreads : ∀ treq ∈ [smallWrite.toTdRequest], treq.Readable 1 := fun treq ht => by
    rcases List.mem_singleton.1 ht with rfl
    exact ⟨smallWrite_inside, .inr (by decide)⟩
  obtain ⟨s, hd, -, -, htravel⟩ := @small_sessions_total 1 (by decide) [echoSession] (fun S' hS' req hreq => by
    rcases List.mem_singleton.1 hS' with rfl
    rcases List.mem_pair.1 hreq with rfl | rfl
    · exact ⟨smallWrite_inside, show _ < _ by decide⟩
    · exact ⟨hreads _ (List.mem_singleton_self _), trivial⟩) (fun S' hS' => by
    rcases List.mem_singleton.1 hS' with rfl
    decide) (by decide)
  obtain ⟨s', -, hd'⟩ := htravel ⟨zeroJunk, ⟨2, 0⟩, offMax, [smallWrite.toTdRequest]⟩ hreads (Nat.le_refl _)
  exact ⟨s, s', hd, hd'⟩

end LogDrive
