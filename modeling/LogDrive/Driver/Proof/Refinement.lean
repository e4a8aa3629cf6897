import LogDrive.Driver.SectorArray
import LogDrive.Driver.Proof.Runs

/-!
# The preservation disk refines a plain sector array

`Models ws recs`: the newest versions of the records hold the array after the writes `ws`. Write
requests keep it (`Models.write`), so each reply of a run is the reply of the array (`disk_refines`).
`pd_write` finds the bytes of a block in the request's memory by an `int` product, which has to fit
(`TdRequest.Fits`).
-/

set_option autoImplicit false

open Bytes

namespace LogDrive

open SectorArray

/-! ## What a request puts in a block -/

/-- Where the product fits, a block gets the request's sectors. -/
theorem TdRequest.patch_eq {q : TdRequest} (hf : q.Fits) {b p : Nat} (hp : p < 4096) (old : Nat → UInt8) :
    q.patch b old p = if q.Covers (8 * b + p / 512) then q.sector (8 * b + p / 512) (Fin.ofNat 512 p)
      else old p := by
  rw [TdRequest.patch]
  by_cases hc : q.Covers (8 * b + p / 512)
  · rw [if_pos hc, if_pos hc]
    obtain ⟨h1, h2⟩ := hc
    have hlast : 8 * b ≤ (q.sec + q.secs - 1) / 8 * 8 := by omega
    have hfit : q.sectorsBefore b * 512 < 2 ^ 31 := by
      unfold TdRequest.Fits at hf
      unfold TdRequest.sectorsBefore
      omega
    have hint : toInt (q.sectorsBefore b * 512) = (q.sectorsBefore b * 512 : Nat) := by
      rw [← toInt_of_lt hfit]; norm_cast
    have hplace : q.sectorsBefore b * 512 + (p - (q.sec - 8 * b) * 512) =
        (8 * b + p / 512 - q.sec) * 512 + p % 512 := by
      unfold TdRequest.sectorsBefore
      omega
    rw [hint, TdRequest.sector, ← Nat.cast_add, hplace]
    rfl
  · rw [if_neg hc, if_neg hc]

/-- A request that fits turns the bytes of a block into those of the array after it. -/
theorem BlockStep.content {q : WriteRequest} {b : Nat} {vs vs' : List Version} (h : BlockStep True q b vs vs')
    {p : Nat} (hp : p < 4096) : contentOf vs' p = q.patch b (contentOf vs) p := by
  cases h with
  | skip hz => rw [hz p hp]; rfl
  | push old hold _ _ _ hdata =>
    rw [contentOf, hdata p hp]
    exact patch_congr (hold trivial p hp)

/-! ## The array and the records -/

theorem models_nil : Models [] [] := fun _ _ _ => rfl

theorem Models.write {ws : List WriteRequest} {recs recs' : List Rec} {q : WriteRequest}
    (h : Models ws recs) (hf : q.Fits) (hw : WriteStep True q recs recs') : Models (q :: ws) recs' := by
  intro b p hp
  rw [after, SectorArray.write]
  by_cases ht : q.Touches b
  · rw [(hw.touched b ht).content hp, q.patch_eq hf hp]
    split
    · rfl
    · exact h b p hp
  · have hb : (8 * b + p / 512) / 8 = b := by omega
    rw [hw.others b ht, if_neg (TdRequest.not_covers (by rw [hb]; exact ht))]
    exact h b p hp

/-- A disk given block by block, at the place of a request. -/
theorem diskByte_sector {A : SectorArray} {c : Nat → Nat → UInt8}
    (h : ∀ b, ∀ p < 4096, c b p = A (8 * b + p / 512) (Fin.ofNat 512 p)) (sec k : Nat) :
    diskByte c (sec * 512 + k) = A (sec + k / 512) (Fin.ofNat 512 k) := by
  have hsector : 8 * ((sec * 512 + k) / 4096) + (sec * 512 + k) % 4096 / 512 = sec + k / 512 := by omega
  have hbyte : Fin.ofNat 512 ((sec * 512 + k) % 4096) = Fin.ofNat 512 k :=
    Fin.ext (show (sec * 512 + k) % 4096 % 512 = k % 512 by omega)
  rw [diskByte, h _ _ (by omega), hsector, hbyte]

/-- The bytes that a read delivers are those of the array. -/
theorem Models.read {ws : List WriteRequest} {recs : List Rec} (h : Models ws recs) {treq : TdRequest}
    {bytes : Mem} (hl : bytes.length = treq.secs * 512)
    (hb : ∀ k < treq.secs * 512, byteAt bytes k = recsByte recs (treq.sec * 512 + k)) :
    bytes = (after ws).read treq := by
  refine ext_byteAt (by rw [hl, length_read]) fun k hk => ?_
  rw [hl] at hk
  rw [hb k hk, SectorArray.read, byteAt_tabulate hk]
  exact diskByte_sector h _ _

/-- What each write request keeps, the requests of a run keep. -/
theorem ServeRun.keeps {T : Prop} {P : List WriteRequest → List Rec → Prop} {F : WriteRequest → Prop}
    (hstep : ∀ ws recs recs' q, P ws recs → F q → WriteStep T q recs recs' → P (q :: ws) recs')
    {recs recs' : List Rec} {reqs : List Request} {rs : List Reply} (hr : ServeRun T recs reqs rs recs')
    {ws : List WriteRequest} (h : P ws recs) (hF : ∀ q, .write q ∈ reqs → F q) : P (writes ws reqs) recs' := by
  induction hr generalizing ws with
  | done => exact h
  | cons hs _ ih =>
    have hrest := fun q hq => hF q (List.mem_cons_of_mem _ hq)
    cases hs with
    | write hw => exact ih (hstep _ _ _ _ h (hF _ List.mem_cons_self) hw) hrest
    | read _ _ => exact ih h hrest

theorem ServeRun.models {recs recs' : List Rec} {reqs : List Request} {rs : List Reply}
    (hr : ServeRun True recs reqs rs recs') {ws : List WriteRequest} (h : Models ws recs)
    (hf : ∀ req ∈ reqs, req.Fits) : Models (writes ws reqs) recs' :=
  hr.keeps (F := fun q => q.toTdRequest.Fits) (fun _ _ _ _ h hq hw => h.write hq hw) h fun _ hq => hf _ hq

/-- **The requests of a run** answer as the array does. -/
theorem ServeRun.replies_eq {recs recs' : List Rec} {reqs : List Request} {rs : List Reply}
    (hr : ServeRun True recs reqs rs recs') {ws : List WriteRequest} (h : Models ws recs)
    (hf : ∀ req ∈ reqs, req.Fits) : rs = replies ws reqs := by
  induction hr generalizing ws with
  | done => rfl
  | cons hs _ ih =>
    have hrest := fun req hreq => hf req (List.mem_cons_of_mem _ hreq)
    cases hs with
    | write hw => exact congrArg (List.cons _) (ih (h.write (hf _ List.mem_cons_self) hw) hrest)
    | read hl hb => rw [replies, ← h.read hl (hb trivial), ← ih h hrest]

/-! ## Runs -/

theorem requests_fit {n : Nat} {Ss : List Session} (hSs : ∀ S ∈ Ss, ∀ req ∈ S.requests, req.Inside n ∧ req.Fits) :
    ∀ req ∈ Ss.flatMap Session.requests, req.Fits := by
  intro req hreq
  obtain ⟨S, hS, hm⟩ := List.mem_flatMap.1 hreq
  exact (hSs S hS req hm).2

/-- **The disk refines a sector array.** Where every write fits, the requests of any sessions on a
database laid out by `mkimage.rb` answer as the array does, and so do those of a session that is still
open. -/
theorem disk_refines {n : Nat} (hn : n < 2 ^ 31) {past : List Session}
    (hpast : ∀ S' ∈ past, ∀ req ∈ S'.requests, req.Inside n ∧ req.Fits) :
    (∀ rs s, Done (runSessions past) (newDatabase n) rs s → Assumed Coherent s.notes →
      rs = replies [] (past.flatMap Session.requests)) ∧
    (∀ (S : Session) rs d s, (∀ req ∈ S.requests, req.Inside n ∧ req.Fits) →
      Done (history past S) (newDatabase n) (some (rs, d)) s → Assumed Coherent s.notes →
      rs = replies (writes [] (past.flatMap Session.requests)) S.requests) := by
  have hfits := requests_fit hpast
  refine ⟨fun rs s hd hc => ?_, fun S rs d s hS hd hc => ?_⟩
  · have h := wp_runSessions (driver_mode n) hn (fun _ _ h => h) (newDatabase_inv hn)
      (fun S' hS' req hreq => (hpast S' hS' req hreq).1) [] fun h => h.elim
    obtain ⟨-, new, -, hR, -⟩ := driver_done h hd hc
    exact hR.replies_eq models_nil hfits
  · obtain ⟨-, new, old, earlier, -, h1, h2⟩ := history_inv hn
      (fun S' hS' req hreq => (hpast S' hS' req hreq).1) (fun req hreq => (hS req hreq).1) hd hc
    exact h2.replies_eq (h1.models models_nil hfits) fun req hreq => (hS req hreq).2

theorem smallSession_fits : ∀ S ∈ [smallSession], ∀ req ∈ S.requests, req.Inside 1 ∧ req.Fits := by
  intro S hS req hreq
  rcases List.mem_singleton.1 hS with rfl
  rcases List.mem_singleton.1 hreq with rfl
  exact ⟨smallWrite_inside, show _ < _ by decide⟩

/-- A sector of ones, written and read. -/
def echoSession : Session := ⟨zeroJunk, [.write smallWrite, .read smallWrite.toTdRequest]⟩

theorem disk_refines_small : ∃ rs s, Done (runSessions [echoSession]) (newDatabase 1) rs s ∧
    rs = replies [] echoSession.requests := by
  have hin : ∀ S' ∈ [echoSession], ∀ req ∈ S'.requests, req.Inside 1 ∧ req.Fits := fun S' hS' req hreq => by
    rcases List.mem_singleton.1 hS' with rfl
    rcases List.mem_pair.1 hreq with rfl | rfl
    · exact ⟨smallWrite_inside, show _ < _ by decide⟩
    · exact ⟨⟨smallWrite_inside, .inr (by decide)⟩, trivial⟩
  have haff : Affordable True 0 [] echoSession.requests :=
    affordable_write (fun _ => smallWrite_touches) (by rw [bufferSize_eq]; decide) fun _ => trivial
  have h := wp_runSessions total_mode (by decide) (fun _ _ _ => trivial)
    (newDatabase_inv (n := 1) (by decide)) (fun S' hS' req hreq => (hin S' hS' req hreq).1) []
    fun _ => ⟨nofun, ⟨haff, fun _ _ _ => trivial⟩, by decide⟩
  obtain ⟨rs, s, hd, -, ha⟩ := exists_done h trivial
  exact ⟨rs, s, hd, (disk_refines (by decide) hin).1 rs s hd (assumed_of_total ha).1⟩

/-! ## A request that does not fit -/

/-- Zeros for a disk of `2 ^ 22 + 8` sectors; ones lie before them in memory. -/
def bigWrite : WriteRequest where
  sec := 0
  secs := 2 ^ 22 + 8
  buf i := if i < 0 then 1 else 0
  ts := ⟨1, 0⟩
  pad _ := 0

/-- The last block of that disk. -/
def lastRead : TdRequest := ⟨2 ^ 22, 8, fun _ => 0⟩

def bigSession : Session := ⟨zeroJunk, [.write bigWrite, .read lastRead]⟩

theorem bigSession_inside : ∀ req ∈ bigSession.requests, req.Inside (2 ^ 19 + 1) := fun req hreq => by
  rcases List.mem_pair.1 hreq with rfl | rfl
  · exact ⟨by decide, by decide⟩
  · exact ⟨⟨by decide, by decide⟩, .inl ⟨by decide, by decide⟩⟩

theorem bigWrite_before {i : Int} (h : i < 0) : bigWrite.buf i = 1 := by simp only [bigWrite, if_pos h]

theorem bigWrite_buf (i : Nat) : bigWrite.buf i = 0 := by
  simp only [bigWrite, if_neg (Int.not_lt.2 (Int.natCast_nonneg i))]

/-- Only the last block gets ones. -/
theorem bigWrite_skips {b : Nat} (ht : bigWrite.Touches b) (hb : b ≠ 2 ^ 19) : Skips bigWrite [] b := by
  refine ⟨rfl, fun p _ => ?_⟩
  have h3 : 8 * b < 0 + (2 ^ 22 + 8) := ht.2.2
  have hint : toInt (bigWrite.sectorsBefore b * 512) = (bigWrite.sectorsBefore b * 512 : Nat) := by
    have hlt : bigWrite.sectorsBefore b * 512 < 2 ^ 31 := by
      show (8 * b - 0) * 512 < 2 ^ 31
      omega
    rw [← toInt_of_lt hlt]; norm_cast
  rw [TdRequest.patch, hint, ← Nat.cast_add]
  split
  · exact bigWrite_buf _
  · rfl

/-- There is room for what the request logs. -/
theorem bigWrite_affordable {reqs : List Request} (h : ∀ pos recs, Affordable True pos recs reqs) :
    Affordable True 0 [] (.write bigWrite :: reqs) :=
  ⟨{2 ^ 19}, by rw [bufferSize_eq, Finset.card_singleton]; decide,
    fun b ht hb => bigWrite_skips ht fun heq => hb (Finset.mem_singleton.2 heq), fun _ _ => h _ _⟩

/-- The last block gets what lies before the request's memory. -/
theorem bigWrite_last (old : Nat → UInt8) : bigWrite.patch (2 ^ 19) old 0 = 1 := by
  have hcov : bigWrite.Covers (8 * 2 ^ 19 + 0 / 512) := ⟨by decide, by decide⟩
  have hint : toInt (bigWrite.sectorsBefore (2 ^ 19) * 512) = -2 ^ 31 := by decide
  rw [TdRequest.patch, if_pos hcov, hint]
  exact bigWrite_before (by rw [Nat.zero_sub]; decide)

/-- The request has zeros for the last block. -/
theorem bigWrite_read : byteAt ((after [bigWrite]).read lastRead) 0 = 0 := by
  have hcov : bigWrite.Covers (lastRead.sec + 0 / 512) := ⟨by decide, by decide⟩
  rw [SectorArray.read, byteAt_tabulate (by decide), after, SectorArray.write, if_pos hcov]
  exact bigWrite_buf _

/-- The first byte of the last block is read as one. -/
theorem bigSession_served {rs : List Reply} {recs : List Rec}
    (hR : ServeRun True [] bigSession.requests rs recs) :
    ∃ bytes, rs = [.wrote 0, .got 0 bytes] ∧ byteAt bytes 0 = 1 := by
  change ServeRun True [] [.write bigWrite, .read lastRead] rs recs at hR
  cases hR with
  | cons hw hR =>
    cases hR with
    | cons hr hR =>
      cases hR
      cases hw with
      | write hw =>
        cases hr with
        | @read _ bytes _ hb =>
          refine ⟨bytes, rfl, ?_⟩
          have hplace : recsByte recs (lastRead.sec * 512 + 0) = contentOf (chainOf recs (2 ^ 19)) 0 :=
            diskByte_eq (by decide) (by decide)
          have hstep := hw.touched (2 ^ 19) ⟨by decide, by decide, by decide⟩
          rw [hb trivial 0 (by decide), hplace, hstep.content (by decide), bigWrite_last]

/-- **A write of 2 GiB and a block** does not read back: its last block gets what lies 2 GiB before the
request's memory. -/
theorem disk_not_sector_array : (∀ req ∈ bigSession.requests, req.Inside (2 ^ 19 + 1)) ∧
    ∃ rs s, Done (runSessions [bigSession]) (newDatabase (2 ^ 19 + 1)) rs s ∧ Assumed Coherent s.notes ∧
      rs ≠ replies [] ([bigSession].flatMap Session.requests) := by
  have haff : Affordable True 0 [] bigSession.requests := bigWrite_affordable fun _ _ => trivial
  have hin : ∀ S' ∈ [bigSession], ∀ req ∈ S'.requests, req.Inside (2 ^ 19 + 1) := fun S' hS' => by
    rcases List.mem_singleton.1 hS' with rfl
    exact bigSession_inside
  have h := wp_runSessions total_mode (by decide) (fun _ _ _ => trivial)
    (newDatabase_inv (n := 2 ^ 19 + 1) (by decide)) hin []
    fun _ => ⟨nofun, ⟨haff, fun _ _ _ => trivial⟩, by decide⟩
  obtain ⟨rs, s, hd, ⟨-, new, -, hR, -⟩, ha⟩ := exists_done h trivial
  refine ⟨bigSession_inside, rs, s, hd, (assumed_of_total ha).1, fun heq => ?_⟩
  obtain ⟨bytes, hrs, hone⟩ := bigSession_served hR
  have hspec : Reply.got 0 bytes = .got 0 ((after [bigWrite]).read lastRead) := by
    rw [hrs] at heq
    exact (List.cons.inj (List.cons.inj heq).2).1
  have hzero := bigWrite_read
  rw [← (Reply.got.inj hspec).2, hone] at hzero
  cases hzero

end LogDrive
