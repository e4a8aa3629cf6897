import LogDrive.Driver.Log

/-!
# The disk as a plain sector array

What the preservation disk is for, without files, entries and caches: a sector holds what the last
write request that covers it has for it, and zeros before there is one (`after_eq_latest`). A history
of writes is a list of requests, newest first. `asOf ts` is the array that a journey to the time `ts`
shows, block by block.
-/

set_option autoImplicit false

open Bytes

namespace LogDrive

/-- The bytes of every sector of a disk. -/
abbrev SectorArray := Nat → Fin 512 → UInt8

/-- What a request has for a sector that it covers. -/
def TdRequest.sector (q : TdRequest) (sector : Nat) (k : Fin 512) : UInt8 :=
  q.buf ((sector - q.sec) * 512 + k : Nat)

/-- The bytes of that sector. -/
def TdRequest.sectorBytes (q : TdRequest) (sector : Nat) : Mem :=
  tabulate (fun k => q.sector sector (Fin.ofNat 512 k)) 512

namespace SectorArray

/-- Byte `p` of block `b`. -/
def blockByte (A : SectorArray) (b p : Nat) : UInt8 := A (8 * b + p / 512) (Fin.ofNat 512 p)

def blank : SectorArray := fun _ _ => 0

def write (A : SectorArray) (q : TdRequest) : SectorArray := fun sector =>
  if q.Covers sector then q.sector sector else A sector

/-- The sectors of a request one after the other. -/
def read (A : SectorArray) (treq : TdRequest) : Mem :=
  tabulate (fun k => A (treq.sec + k / 512) (Fin.ofNat 512 k)) (treq.secs * 512)

/-- The array after the writes `ws`, newest first. -/
def after : List WriteRequest → SectorArray
  | [] => blank
  | q :: older => (after older).write q.toTdRequest

/-- The writes after some more requests. -/
def writes : List WriteRequest → List Request → List WriteRequest
  | ws, [] => ws
  | ws, .write q :: reqs => writes (q :: ws) reqs
  | ws, .read _ :: reqs => writes ws reqs

/-- What a plain disk answers. -/
def replies : List WriteRequest → List Request → List Reply
  | _, [] => []
  | ws, .write q :: reqs => .wrote 0 :: replies (q :: ws) reqs
  | ws, .read treq :: reqs => .got 0 ((after ws).read treq) :: replies ws reqs

/-- The array as of `ts`: a block is as it was right after the last write that touched it and was made
before `ts`. -/
def asOf (ts : TimeSpec) : List WriteRequest → SectorArray
  | [] => blank
  | q :: older => fun sector =>
    if q.Touches (sector / 8) ∧ q.ts.before ts = true then after (q :: older) sector else asOf ts older sector

theorem length_read (A : SectorArray) (treq : TdRequest) : (A.read treq).length = treq.secs * 512 :=
  length_tabulate _ _

/-- A sector holds what the latest write that covers it has for it. -/
theorem after_eq_latest (ws : List WriteRequest) (sector : Nat) : after ws sector =
    match ws.find? fun q => decide (q.Covers sector) with
    | some q => q.sector sector
    | none => fun _ => 0 := by
  induction ws with
  | nil => rfl
  | cons q older ih =>
    rw [after, write]
    by_cases hc : q.Covers sector
    · simp only [if_pos hc, List.find?_cons, decide_eq_true hc]
    · simp only [if_neg hc, List.find?_cons, decide_eq_false hc]
      exact ih

/-- Reads change nothing. -/
theorem replies_reads (ws : List WriteRequest) (reads : List TdRequest) :
    replies ws (reads.map .read) = reads.map fun treq => .got 0 ((after ws).read treq) := by
  induction reads with
  | nil => rfl
  | cons treq reads ih => exact congrArg (List.cons _) ih

end SectorArray

/-! ## Times -/

theorem TimeSpec.before_of_le {a b c : TimeSpec} (h : b.before a = false) (hc : b.before c = true) :
    a.before c = true := by
  simp only [TimeSpec.before, Bool.or_eq_false_iff, Bool.or_eq_true, Bool.and_eq_true,
    Bool.and_eq_false_iff, decide_eq_true_eq, decide_eq_false_iff_not, Int64.lt_iff_toInt_lt,
    ← Int64.toInt_inj] at *
  omega

/-- Before the start of a second. -/
theorem TimeSpec.before_second {ts : TimeSpec} (h : 0 ≤ ts.tvNsec) (T : Int64) :
    ts.before ⟨T, 0⟩ = decide (ts.tvSec < T) := by
  have hn : ¬ts.tvNsec < 0 := by
    rw [Int64.lt_iff_toInt_lt]
    rw [Int64.le_iff_toInt_le] at h
    omega
  simp [TimeSpec.before, hn]

theorem TdRequest.not_covers {q : TdRequest} {sector : Nat} (h : ¬q.Touches (sector / 8)) :
    ¬q.Covers sector := by
  rintro ⟨h1, h2⟩
  refine h ⟨?_, ?_, ?_⟩ <;> omega

namespace SectorArray

/-- Where all writes were made before `ts` nothing is left out. -/
theorem asOf_all {ts : TimeSpec} {ws : List WriteRequest} (h : ∀ q ∈ ws, q.ts.before ts = true) :
    asOf ts ws = after ws := by
  induction ws with
  | nil => rfl
  | cons q older ih =>
    funext sector
    simp only [asOf]
    by_cases ht : q.Touches (sector / 8)
    · rw [if_pos ⟨ht, h q List.mem_cons_self⟩]
    · rw [if_neg fun hq => ht hq.1, ih fun q' hq' => h q' (List.mem_cons_of_mem _ hq'), after, write,
        if_neg (TdRequest.not_covers ht)]

/-- **With a clock that never goes back** the array as of `ts` is what the writes made before `ts` leave. -/
theorem asOf_sorted {ts : TimeSpec} {ws : List WriteRequest}
    (hs : ws.Pairwise fun newer older => newer.ts.before older.ts = false) :
    asOf ts ws = after (ws.filter fun q => q.ts.before ts) := by
  induction ws with
  | nil => rfl
  | cons q older ih =>
    obtain ⟨hq, hs⟩ := List.pairwise_cons.1 hs
    by_cases hb : q.ts.before ts = true
    · have hall : ∀ q' ∈ q :: older, q'.ts.before ts = true := fun q' hq' => by
        rcases List.mem_cons.1 hq' with rfl | hm
        · exact hb
        · exact TimeSpec.before_of_le (hq q' hm) hb
      rw [List.filter_eq_self.2 hall, asOf_all hall]
    · rw [List.filter_cons_of_neg (p := fun q : WriteRequest => q.ts.before ts) hb, ← ih hs]
      funext sector
      exact if_neg fun h => hb h.2

end SectorArray

/-- The newest versions of the records hold the array after the writes. -/
def Models (ws : List WriteRequest) (recs : List Rec) : Prop :=
  ∀ b, ∀ p < 4096, contentOf (chainOf recs b) p = SectorArray.after ws (8 * b + p / 512) (Fin.ofNat 512 p)

/-! ## Requests that the driver copies from the right place -/

/-- The last block of the request starts fewer than `2 ^ 22` sectors behind the request, so that its
place in the request's memory, counted in bytes, is an `int`. -/
def TdRequest.Fits (q : TdRequest) : Prop := (q.sec + q.secs - 1) / 8 * 8 - q.sec < 2 ^ 22

def Request.Fits : Request → Prop
  | .write q => q.toTdRequest.Fits
  | .read _ => True

end LogDrive
