import LogDrive.Reader.Job
import LogDrive.Reader.Proof.Restore
import LogDrive.Reader.Proof.HashSearch

/-!
# From the disk to the lines of a search

`JobOf md5 records out`: the pairs `out` are those of the records, each with the hash of one sector that
shows the record's bytes (`Shows`), and a record of 512 bytes or more that is not left out has its pair.
`hashIndex_spec` gives it for the job over any splits. With what the converter writes and what the search
puts out this makes `pipeline_exact`, and with the history of the writes `written_sector_found`: what a
guest has written at the start of a block is found.
-/

set_option autoImplicit false

open Bytes Java

namespace LogDrive

open SectorArray

/-! ## One record -/

/-- The line that `hashIndex` makes of a key. -/
def keyLine (key : Mem) : Text :=
  match ByteControl.ofBytes key with
  | .ok bc => bc.valueText
  | .error _ => []

/-- The sector begins with the bytes of the record, of which it is the first 512 when there are as many. -/
structure Shows (sector data : Mem) : Prop where
  length : sector.length = 512
  bytes : ∀ i < 512, i < data.length → byteAt sector i = byteAt data i

/-- A key of the sequence file, of a record of at most one block. -/
structure KeyOk (key : Mem) : Prop where
  length : key.length = 32
  size : intOf (slice key 24 2) ≤ 4096

theorem KeyOk.one {key : Mem} (h : KeyOk key) : (getMinSectorNum (intOf (slice key 24 2))).toNat = 1 := by
  rw [getMinSectorNum, if_pos h.size]
  rfl

/-- **The mapper** on a record in the arrays of the ones before. -/
theorem hashMap_set {md5 : MD5} {key value : BytesWritable} {record : Mem × Mem} (hk : KeyOk record.1) :
    ∃ sector, Shows sector record.2 ∧ hashMap md5 (key.set record.1) (value.set record.2) =
      .ok (if filledWithOne sector then none else some (md5.toHashValue sector, keyLine record.1)) := by
  obtain ⟨bc, hbc, hbc', hmin⟩ := ofBytes_set (w := key) hk.length
  have hblock : (copyOf (value.set record.2).bytes 4096).length = 4096 := length_tabulate ..
  have hline : keyLine record.1 = bc.valueText := by rw [keyLine, hbc']
  refine ⟨sectorOf (copyOf (value.set record.2).bytes 4096) 0, ⟨?_, fun i h1 h2 => ?_⟩, ?_⟩
  · rw [sectorOf, length_slice_of_le (by omega)]
  · rw [byteAt_sectorOf (by decide) h1, Nat.mul_zero, Nat.zero_add]
    exact byteAt_store_inside (Nat.zero_le i) (by omega)
  · rw [hashMap_eq hbc hmin, hk.one, hline]
    simp only [Nat.sub_self, sectorHashes, List.range'_succ, List.range'_zero, List.map_cons, List.map_nil,
      List.intercalate_singleton]

theorem Shows.eq {sector data : Mem} (h : Shows sector data) (hlong : 512 ≤ data.length) : sector = slice data 0 512 := by
  refine ext_byteAt (by rw [h.length, length_slice_of_le (by omega)]) fun i hi => ?_
  rw [h.length] at hi
  rw [byteAt_slice hi, Nat.zero_add, h.bytes i hi (by omega)]

/-! ## The job -/

/-- The pairs that the job writes for the records. -/
structure JobOf (md5 : MD5) (records : List (Mem × Mem)) (out : List (Text × Text)) : Prop where
  indexed : ∀ pair ∈ out, Indexed md5 pair
  sound : ∀ pair ∈ out, ∃ record ∈ records, ∃ sector, Shows sector record.2 ∧ filledWithOne sector = false ∧
    pair = (md5.toHashValue sector, keyLine record.1)
  complete : ∀ record ∈ records, 512 ≤ record.2.length → filledWithOne (slice record.2 0 512) = false →
    (md5.toHashValue (slice record.2 0 512), keyLine record.1) ∈ out

namespace JobOf

variable {md5 : MD5}

theorem nil : JobOf md5 [] [] := ⟨nofun, nofun, nofun⟩

theorem append {records records' : List (Mem × Mem)} {out out' : List (Text × Text)} (h : JobOf md5 records out)
    (h' : JobOf md5 records' out') : JobOf md5 (records ++ records') (out ++ out') where
  indexed pair hp := (List.mem_append.1 hp).elim (h.indexed pair) (h'.indexed pair)
  sound pair hp := by
    rcases List.mem_append.1 hp with hp | hp
    · obtain ⟨record, hr, hrest⟩ := h.sound pair hp
      exact ⟨record, List.mem_append_left _ hr, hrest⟩
    · obtain ⟨record, hr, hrest⟩ := h'.sound pair hp
      exact ⟨record, List.mem_append_right _ hr, hrest⟩
  complete record hr hlong hfilled := by
    rcases List.mem_append.1 hr with hr | hr
    · exact List.mem_append_left _ (h.complete record hr hlong hfilled)
    · exact List.mem_append_right _ (h'.complete record hr hlong hfilled)

/-- The order does not matter. -/
theorem perm {records records' : List (Mem × Mem)} {out out' : List (Text × Text)} (h : JobOf md5 records out)
    (hrecords : records.Perm records') (hout : out'.Perm out) : JobOf md5 records' out' where
  indexed pair hp := h.indexed pair (hout.mem_iff.1 hp)
  sound pair hp := by
    obtain ⟨record, hr, hrest⟩ := h.sound pair (hout.mem_iff.1 hp)
    exact ⟨record, hrecords.mem_iff.1 hr, hrest⟩
  complete record hr hlong hfilled := hout.mem_iff.2 (h.complete record (hrecords.mem_iff.2 hr) hlong hfilled)

/-- The pair of one record. -/
theorem single {key value : BytesWritable} {record : Mem × Mem} (hk : KeyOk record.1) :
    ∃ written, hashMap md5 (key.set record.1) (value.set record.2) = .ok written ∧ JobOf md5 [record] written.toList := by
  obtain ⟨sector, hshows, hrun⟩ := @hashMap_set md5 key value record hk
  refine ⟨_, hrun, ?_⟩
  by_cases hf : filledWithOne sector = true
  · rw [if_pos hf]
    refine ⟨nofun, nofun, fun record' hr hlong hfilled => ?_⟩
    obtain rfl := List.mem_singleton.1 hr
    rw [← hshows.eq hlong, hf] at hfilled
    cases hfilled
  · rw [if_neg hf] at hrun ⊢
    refine ⟨fun pair hp => ?_, fun pair hp => ?_, fun record' hr hlong _ => ?_⟩
    · rw [List.mem_singleton.1 hp]
      exact ⟨_, _, hrun⟩
    · exact ⟨record, List.mem_singleton_self record, sector, hshows, Bool.eq_false_iff.2 hf, List.mem_singleton.1 hp⟩
    · obtain rfl := List.mem_singleton.1 hr
      rw [← hshows.eq hlong]
      exact List.mem_singleton_self _

end JobOf

/-- One map task. -/
theorem hashTask_spec {md5 : MD5} : ∀ {records : List (Mem × Mem)} {key value : BytesWritable},
    (∀ record ∈ records, KeyOk record.1) →
    ∃ out, collect (mapRecords md5 key value records) = .ok out ∧ JobOf md5 records out
  | [], _, _, _ => ⟨[], rfl, .nil⟩
  | record :: records, key, value, hk => by
    obtain ⟨written, hrun, hone⟩ := @JobOf.single md5 key value record (hk record List.mem_cons_self)
    obtain ⟨rest, hrest, hjob⟩ := @hashTask_spec md5 records (key.set record.1) (value.set record.2) fun r hr =>
      hk r (List.mem_cons_of_mem _ hr)
    refine ⟨written.toList ++ rest, ?_, hone.append hjob⟩
    rw [mapRecords, collect, hrun, ok_bind, hrest, ok_bind]
    rfl

/-- **`hashIndex`** over any splits. -/
theorem hashIndex_spec {md5 : MD5} {splits : List (List (Mem × Mem))} (hk : ∀ record ∈ splits.flatten, KeyOk record.1) :
    ∃ out, hashIndex md5 splits = .ok out ∧ JobOf md5 splits.flatten out := by
  induction splits with
  | nil => exact ⟨[], rfl, .nil⟩
  | cons split splits ih =>
    rw [List.flatten_cons] at hk ⊢
    obtain ⟨pairs, hpairs, hone⟩ := @hashTask_spec md5 split (.of []) (.of []) fun record hr =>
      hk record (List.mem_append_left _ hr)
    obtain ⟨rest, hrest, hjob⟩ := ih fun record hr => hk record (List.mem_append_right _ hr)
    refine ⟨pairs ++ rest, ?_, hone.append hjob⟩
    rw [hashIndex, hashTask, hpairs, ok_bind, hrest, ok_bind]
    rfl

/-! ## The search -/

/-- What the search puts out for the pairs of the records. -/
structure SearchOf (md5 : MD5) (target : Mem) (records : List (Mem × Mem)) (lines : List Text) : Prop where
  nodup : lines.Nodup
  sound : ∀ line ∈ lines, line ≠ [] → ∃ record ∈ records, line = keyLine record.1 ∧ ∃ sector, Shows sector record.2 ∧
    filledWithOne sector = false ∧ md5.toHashValue sector ∈ targetHashes md5 target
  complete : ∀ record ∈ records, 512 ≤ record.2.length → filledWithOne (slice record.2 0 512) = false →
    md5.toHashValue (slice record.2 0 512) ∈ targetHashes md5 target → keyLine record.1 ∈ lines

theorem JobOf.search {md5 : MD5} {records : List (Mem × Mem)} {db : List (Text × Text)} (h : JobOf md5 records db)
    (draw : Nat → Fin (2 ^ 53)) {target : Mem} (hpos : validSectors target ≠ [])
    (hlt : (validSectors target).length < 2 ^ 31) :
    ∃ lines, hashSearch md5 samplingRateOne draw target db = .ok lines ∧ SearchOf md5 target records lines := by
  have hlen := List.length_pos_of_ne_nil hpos
  have hint := int_of_lt hlt
  have hkept : kept (targetHashes md5 target) = targetHashes md5 target :=
    kept_eq (by rw [targetHashes, List.length_map]; exact hlt)
  rw [hashSearch_eq md5 draw target h.indexed, if_neg (by omega), if_neg (by omega), hkept]
  refine ⟨_, rfl, List.nodup_dedup _, fun line hline hne => ?_, fun record hr hlong hfilled hhash => ?_⟩
  · obtain ⟨pair, hp, rfl⟩ := List.mem_map.1 (List.mem_dedup.1 hline)
    obtain ⟨record, hr, sector, hshows, hfilled, rfl⟩ := h.sound pair hp
    by_cases hm : Matches (targetHashes md5 target) (md5.toHashValue sector, keyLine record.1)
    · exact ⟨record, hr, if_pos hm, sector, hshows, hfilled, (matches_one md5 sector _).1 hm⟩
    · exact absurd (if_neg hm) hne
  · refine List.mem_dedup.2 (List.mem_map.2 ⟨_, h.complete record hr hlong hfilled, ?_⟩)
    exact if_pos ((matches_one md5 _ _).2 hhash)

/-! ## What sessions leave -/

/-- The line of a version of block `b`. -/
def lineOf (b : Nat) (v : Version) : Text := keyLine (keyBytes v.head b)

/-- Its second and nanosecond, as unsigned numbers of 32 bits, its block and its size. -/
theorem lineOf_eq {v : Version} (hv : v.WF) {b : Nat} (hb : b < 2 ^ 64) : ∃ bc : ByteControl, lineOf b v = bc.valueText ∧
    bc.sec = ((v.head.ts.tvSec.toUInt64.toNat % 2 ^ 32 : Nat) : Int) ∧
    bc.nsec = ((v.head.ts.tvNsec.toUInt64.toNat % 2 ^ 32 : Nat) : Int) ∧ bc.blockNum = b ∧ bc.dataSize = v.data.length := by
  have hsize := hv.size
  have hshort := hv.short
  obtain ⟨bc, hbc, hk⟩ := ofBytes_key (h := v.head) (by omega) hb []
  rw [List.append_nil] at hbc
  exact ⟨bc, by rw [lineOf, keyLine, hbc], hk.sec, hk.nsec, hk.blockNum, by rw [hk.dataSize, hsize]⟩

theorem keyOk_keyBytes {v : Version} (hv : v.WF) (b : Nat) : KeyOk (keyBytes v.head b) := by
  have hsize := hv.size
  have hshort := hv.short
  have hslice : slice (keyBytes v.head b) 24 2 = le 2 v.head.dataSize :=
    slice_mid (encodeInt64 v.head.ts.tvSec ++ encodeInt64 v.head.ts.tvNsec ++ le 8 b) _ (slice v.head.pad 0 1 ++ zeros 5)
      (by simp only [keyBytes, List.append_assoc]) (by simp) (length_le ..)
  refine ⟨length_keyBytes hv.pad b, ?_⟩
  rw [hslice, intOf_eq, unle_le (by omega), int_of_lt (by omega)]
  omega

theorem mem_sequenceOf {n : Nat} {recs : List Rec} {record : Mem × Mem} : record ∈ sequenceOf n recs ↔
    ∃ b < n, ∃ v ∈ chainOf recs b, recordPair b v = record := by
  simp only [sequenceOf, List.mem_flatMap, List.mem_range, List.mem_map]

/-- The lines of a search in a HashDB of the log `recs` of `n` blocks. -/
structure PipelineExact (md5 : MD5) (n : Nat) (recs : List Rec) (target : Mem) (lines : List Text) : Prop where
  nodup : lines.Nodup
  /-- A line stands for a version whose first bytes are those of a sector with a hash of the target. -/
  sound : ∀ line ∈ lines, line ≠ [] → ∃ b < n, ∃ v ∈ chainOf recs b, line = lineOf b v ∧ ∃ sector, Shows sector v.data ∧
    filledWithOne sector = false ∧ md5.toHashValue sector ∈ targetHashes md5 target
  /-- A version of 512 bytes or more is found by its first sector. -/
  complete : ∀ b < n, ∀ v ∈ chainOf recs b, 512 ≤ v.data.length → filledWithOne (slice v.data 0 512) = false →
    md5.toHashValue (slice v.data 0 512) ∈ targetHashes md5 target → lineOf b v ∈ lines

/-- The whole way from a database to the lines. -/
theorem FileInv.pipeline {n N : Nat} {recs : List Rec} {f : Mem} (h : FileInv n N recs f) (hn : n < 2 ^ 28)
    (hlt : ∀ b < n, (chainOf recs b).length < 2 ^ 31) {fuel count : Nat} (hfuel : fileNext f ≤ fuel) (hcount : n < count)
    (md5 : MD5) : ∃ pairs info, convertToSequenceFileFromLdLocal fuel count f = (pairs, info, .ok ()) ∧
      ∀ splits, splits.flatten.Perm pairs → ∃ out, hashIndex md5 splits = .ok out ∧
        ∀ db, db.Perm out → ∀ draw target, validSectors target ≠ [] → (validSectors target).length < 2 ^ 31 →
          ∃ lines, hashSearch md5 samplingRateOne draw target db = .ok lines ∧ PipelineExact md5 n recs target lines := by
  obtain ⟨info, hconv⟩ := h.sequence hn hlt hfuel hcount
  refine ⟨_, info, hconv, fun splits hsplits => ?_⟩
  obtain ⟨out, hrun, hjob⟩ := @hashIndex_spec md5 splits fun record hr => by
    obtain ⟨b, -, v, hv, rfl⟩ := mem_sequenceOf.1 (hsplits.mem_iff.1 hr)
    exact keyOk_keyBytes (h.wf.mem_chain hv).2.2 b
  refine ⟨out, hrun, fun db hdb draw target hpos hsectors => ?_⟩
  obtain ⟨lines, hlines, hsearch⟩ := (hjob.perm hsplits hdb).search draw hpos hsectors
  refine ⟨lines, hlines, hsearch.nodup, fun line hline hne => ?_, fun b hb v hv hlong hfilled hhash => ?_⟩
  · obtain ⟨record, hr, hkey, hsector⟩ := hsearch.sound line hline hne
    obtain ⟨b, hb, v, hv, rfl⟩ := mem_sequenceOf.1 hr
    exact ⟨b, hb, v, hv, hkey, hsector⟩
  · exact hsearch.complete (recordPair b v) (mem_sequenceOf.2 ⟨b, hb, v, hv, rfl⟩) hlong hfilled hhash

/-! ## Every write is in the log -/

/-- Each write of the history that leaves a byte in a block has a version there, with its time and with the
bytes of the block right after it. -/
def Remembers (ws : List WriteRequest) (recs : List Rec) : Prop :=
  ∀ newer q older, ws = newer ++ q :: older → ∀ b, q.Touches b →
    (∃ p < 4096, (after (q :: older)).blockByte b p ≠ 0) →
    ∃ v ∈ chainOf recs b, v.head.ts = q.ts ∧ ∀ p < 4096, byteAt v.data p = (after (q :: older)).blockByte b p

theorem WriteStep.chain_subset {T : Prop} {q : WriteRequest} {recs recs' : List Rec} (h : WriteStep T q recs recs')
    {b : Nat} {v : Version} (hv : v ∈ chainOf recs b) : v ∈ chainOf recs' b := by
  by_cases ht : q.Touches b
  · have hstep := h.touched b ht
    generalize chainOf recs b = vs at hstep hv
    generalize chainOf recs' b = vs' at hstep
    cases hstep with
    | skip _ => exact hv
    | push => exact List.mem_cons_of_mem _ hv
  · rw [h.others b ht]
    exact hv

theorem Remembers.write {ws : List WriteRequest} {recs recs' : List Rec} {q : WriteRequest} (h : Remembers ws recs)
    (hm : Models (q :: ws) recs') (hw : WriteStep True q recs recs') : Remembers (q :: ws) recs' := by
  intro newer q0 older heq b ht hne
  cases newer with
  | cons q1 newer =>
    obtain ⟨v, hv, hrest⟩ := h newer q0 older (List.cons.inj heq).2 b ht hne
    exact ⟨v, hw.chain_subset hv, hrest⟩
  | nil =>
    obtain ⟨rfl, rfl⟩ := List.cons.inj heq
    have hcontent := hm b
    have hstep := hw.touched b ht
    generalize chainOf recs b = vs at hstep
    generalize chainOf recs' b = vs' at hstep hcontent
    cases hstep with
    | skip _ =>
      obtain ⟨p, hp, hbyte⟩ := hne
      exact absurd (hcontent p hp).symm hbyte
    | @push _ v _ _ _ hts _ _ => exact ⟨v, List.mem_cons_self, hts, hcontent⟩

/-- What the sessions on a database leave, with the writes that it remembers. -/
theorem sessions_remembered {n : Nat} (hn : n < 2 ^ 31) {Ss : List Session}
    (hSs : ∀ S ∈ Ss, ∀ req ∈ S.requests, req.Inside n ∧ req.Fits) {rs : List Reply} {s : Os Event}
    (hd : Done (runSessions Ss) (newDatabase n) rs s) (hc : Assumed Coherent s.notes) :
    ∃ N recs, FileInv n N recs s.file ∧ Remembers (writes [] (Ss.flatMap Session.requests)) recs := by
  have h := wp_runSessions (driver_mode n) hn (fun _ _ h => h) (newDatabase_inv hn)
    (fun S hS req hreq => (hSs S hS req hreq).1) [] fun h => h.elim
  obtain ⟨N, new, hD, hR, -⟩ := driver_done h hd hc
  rw [List.append_nil] at hD hR
  refine ⟨N, new, hD, ?_⟩
  have hboth : Models (writes [] (Ss.flatMap Session.requests)) new ∧ Remembers (writes [] (Ss.flatMap Session.requests)) new :=
    hR.keeps (P := fun ws recs => Models ws recs ∧ Remembers ws recs) (F := fun q => q.toTdRequest.Fits)
      (fun ws recs recs' q hk hq hw => ⟨hk.1.write hq hw, hk.2.write (hk.1.write hq hw) hw⟩)
      ⟨models_nil, fun newer q older heq => by simp at heq⟩ fun q hq => requests_fit hSs _ hq
  exact hboth.2

/-! ## Runs -/

section
variable {n : Nat} (hn : n < 2 ^ 28) {Ss : List Session} (md5 : MD5)
include hn

/-- **From a database to the lines of a search.** Any sessions, the converter, `hashIndex` over any splits
of the sequence file and a search in the HashDB, whatever order the framework has left it in: no program
throws, every line that is not empty stands for a version whose first bytes are looked for, and every
version of 512 bytes or more whose first sector is looked for has its line. -/
theorem pipeline_exact (hreqs : ∀ S ∈ Ss, ∀ req ∈ S.requests, req.Inside n)
    {rs : List Reply} {s : Os Event} (hd : Done (runSessions Ss) (newDatabase n) rs s) (hfew : FewVersions n s.file)
    {fuel count : Nat} (hfuel : fileNext s.file ≤ fuel) (hblocks : n < count) :
    ∃ N recs earlier, FileInv n N recs s.file ∧ ServeRun False [] (Ss.flatMap Session.requests) earlier recs ∧
      ∃ pairs info, convertToSequenceFileFromLdLocal fuel count s.file = (pairs, info, .ok ()) ∧
        ∀ splits, splits.flatten.Perm pairs → ∃ out, hashIndex md5 splits = .ok out ∧
          ∀ db, db.Perm out → ∀ draw target, validSectors target ≠ [] → (validSectors target).length < 2 ^ 31 →
            ∃ lines, hashSearch md5 samplingRateOne draw target db = .ok lines ∧ PipelineExact md5 n recs target lines := by
  obtain ⟨N, recs, earlier, hf, hR, -⟩ := sessions_log (by omega) hreqs hd
  exact ⟨N, recs, earlier, hf, hR, hf.pipeline hn (hf.few hfew) hfuel hblocks md5⟩

/-- **What a guest has written at the start of a block is found.** Where every write fits, take any write
of the history that covers the first sector of a block, with bytes that are not all the same, and leaves a
byte behind them in the block. A search for a file with that sector puts out a line with the time of the
write and the block. -/
theorem written_sector_found (hSs : ∀ S ∈ Ss, ∀ req ∈ S.requests, req.Inside n ∧ req.Fits)
    {rs : List Reply} {s : Os Event} (hd : Done (runSessions Ss) (newDatabase n) rs s) (hc : Assumed Coherent s.notes)
    (hfew : FewVersions n s.file) {fuel count : Nat} (hfuel : fileNext s.file ≤ fuel) (hblocks : n < count)
    {newer older : List WriteRequest} {q : WriteRequest}
    (hq : writes [] (Ss.flatMap Session.requests) = newer ++ q :: older) {b : Nat} (hb : b < n) (hcov : q.Covers (8 * b))
    (hlong : ∃ p, 511 ≤ p ∧ p < 4096 ∧ (after (q :: older)).blockByte b p ≠ 0) :
    ∃ pairs info, convertToSequenceFileFromLdLocal fuel count s.file = (pairs, info, .ok ()) ∧
      ∀ splits, splits.flatten.Perm pairs → ∃ out, hashIndex md5 splits = .ok out ∧
        ∀ db, db.Perm out → ∀ draw target, q.sectorBytes (8 * b) ∈ validSectors target →
          (validSectors target).length < 2 ^ 31 →
          ∃ lines, hashSearch md5 samplingRateOne draw target db = .ok lines ∧
            ∃ bc : ByteControl, bc.valueText ∈ lines ∧ bc.sec = ((q.ts.tvSec.toUInt64.toNat % 2 ^ 32 : Nat) : Int) ∧
              bc.nsec = ((q.ts.tvNsec.toUInt64.toNat % 2 ^ 32 : Nat) : Int) ∧ bc.blockNum = b := by
  obtain ⟨N, recs, hf, hrem⟩ := sessions_remembered (by omega) hSs hd hc
  obtain ⟨pairs, info, hconv, hjob⟩ := hf.pipeline hn (hf.few hfew) hfuel hblocks md5
  obtain ⟨p, hp, hp', hbyte⟩ := hlong
  have htouch : q.Touches b := by
    obtain ⟨h1, h2⟩ := hcov
    exact ⟨by omega, by omega, by omega⟩
  obtain ⟨v, hv, hts, hdata⟩ := hrem newer q older hq b htouch ⟨p, hp', hbyte⟩
  have hwf := (hf.wf.mem_chain hv).2.2
  -- the byte behind the sector makes the version long enough
  have h512 : 512 ≤ v.data.length := by
    by_contra hshort
    refine hbyte ?_
    rw [← hdata p hp', byteAt_of_le (by omega)]
  have hfirst : slice v.data 0 512 = q.sectorBytes (8 * b) := by
    rw [TdRequest.sectorBytes]
    refine ext_byteAt (by rw [length_slice_of_le (by omega), length_tabulate]) fun i hi => ?_
    rw [length_slice_of_le (by omega)] at hi
    have hplace : 8 * b + i / 512 = 8 * b := by omega
    rw [byteAt_slice hi, Nat.zero_add, hdata i (by omega), byteAt_tabulate hi, blockByte, hplace, after, SectorArray.write,
      if_pos hcov]
  refine ⟨pairs, info, hconv, fun splits hsplits => ?_⟩
  obtain ⟨out, hrun, hdb⟩ := hjob splits hsplits
  refine ⟨out, hrun, fun db hperm draw target hmem hlt => ?_⟩
  obtain ⟨lines, hlines, hexact⟩ := hdb db hperm draw target (List.ne_nil_of_mem hmem) hlt
  obtain ⟨bc, hline, hsec, hnsec, hblock, -⟩ := lineOf_eq hwf (show b < 2 ^ 64 by omega)
  refine ⟨lines, hlines, bc, ?_, by rw [hsec, hts], by rw [hnsec, hts], hblock⟩
  have hvalid : filledWithOne (q.sectorBytes (8 * b)) = false := by simpa using (List.mem_filter.1 hmem).2
  rw [← hline]
  exact hexact.complete b hb v hv h512 (by rw [hfirst]; exact hvalid) (by
    rw [hfirst]
    exact List.mem_map.2 ⟨_, hmem, rfl⟩)

end

/-! ## One sector -/

/-- A sector that starts with a two and goes on with ones. -/
def twoOnes : TdRequest := ⟨0, 1, fun i => if i = 0 then 2 else 1⟩

def sectorSession : Session := ⟨zeroJunk, [.write { twoOnes with ts := ⟨1, 0⟩, pad := fun _ => 0 }]⟩

/-- Its bytes. -/
def twoOnesSector : Mem := twoOnes.sectorBytes (8 * 0)

theorem sectorSession_fits : ∀ S ∈ [sectorSession], ∀ req ∈ S.requests, req.Inside 1 ∧ req.Fits := by
  intro S hS req hreq
  rcases List.mem_singleton.1 hS with rfl
  rcases List.mem_singleton.1 hreq with rfl
  exact ⟨⟨by decide, by decide⟩, show _ < _ by decide⟩

theorem exists_sectorSession : ∃ rs s, Done (runSessions [sectorSession]) (newDatabase 1) rs s ∧
    Assumed Coherent s.notes ∧ FewVersions 1 s.file := by
  have haff : Affordable True 0 [] sectorSession.requests := affordable_write (k := 0) (fun b ht => by
    have := ht.2.2
    simp only [twoOnes] at this
    omega) (by rw [bufferSize_eq]; decide) fun _ => trivial
  have h := wp_runSessions total_mode (by decide) (fun _ _ _ => trivial)
    (newDatabase_inv (n := 1) (by decide)) (fun S' hS' req hreq => (sectorSession_fits S' hS' req hreq).1) []
    fun _ => ⟨nofun, ⟨haff, fun _ _ _ => trivial⟩, by decide⟩
  obtain ⟨rs, s, hd, ⟨N, new, hf, hR, -⟩, ha⟩ := exists_done h trivial
  rw [List.append_nil] at hf hR
  exact ⟨rs, s, hd, (assumed_of_total ha).1, hf.fewVersions fun b _ => Nat.lt_of_le_of_lt (hR.length_le b) (by decide)⟩

theorem twoOnesSector_valid : validSectors twoOnesSector = [twoOnesSector] := by
  have hlen : twoOnesSector.length = 512 := length_tabulate ..
  have hread : targetSector twoOnesSector 0 = twoOnesSector := by
    have hall := slice_all twoOnesSector
    rw [hlen] at hall
    rw [targetSector, Nat.mul_zero, hall, store_all (by rw [hlen, length_zeros])]
  have htarget : targetSectors twoOnesSector = [twoOnesSector] := by
    rw [targetSectors_eq, hlen]
    exact congrArg (· :: []) hread
  have hnot : filledWithOne twoOnesSector = false := by
    rw [Bool.eq_false_iff]
    intro hf
    have hbyte := filledWithOne_iff.1 hf 1 (by decide)
    rw [twoOnesSector, TdRequest.sectorBytes, byteAt_tabulate (by decide), byteAt_tabulate (by decide)] at hbyte
    revert hbyte
    decide
  rw [validSectors, htarget, List.filter_cons_of_pos (by rw [hnot]; rfl)]
  rfl

theorem pipeline_exact_one : ∃ rs s N recs pairs info out lines, Done (runSessions [sectorSession]) (newDatabase 1) rs s ∧
    FileInv 1 N recs s.file ∧ convertToSequenceFileFromLdLocal (fileNext s.file) 2 s.file = (pairs, info, .ok ()) ∧
    hashIndex zeroMD5 [pairs] = .ok out ∧ hashSearch zeroMD5 samplingRateOne (fun _ => 0) twoOnesSector out = .ok lines ∧
    PipelineExact zeroMD5 1 recs twoOnesSector lines := by
  obtain ⟨rs, s, hd, -, hfew⟩ := exists_sectorSession
  obtain ⟨N, recs, -, hf, -, pairs, info, hconv, hall⟩ := pipeline_exact (n := 1) (by decide) zeroMD5
    (fun S hS req hreq => (sectorSession_fits S hS req hreq).1) hd hfew (Nat.le_refl _) (show 1 < 2 by decide)
  obtain ⟨out, hrun, hdb⟩ := hall [pairs] (by rw [List.flatten_singleton])
  obtain ⟨lines, hlines, hexact⟩ := hdb out (List.Perm.refl _) (fun _ => 0) twoOnesSector
    (by rw [twoOnesSector_valid]; exact List.cons_ne_nil _ _) (by rw [twoOnesSector_valid]; decide)
  exact ⟨rs, s, N, recs, pairs, info, out, lines, hd, hf, hconv, hrun, hlines, hexact⟩

theorem written_sector_found_one : ∃ rs s pairs info out lines, Done (runSessions [sectorSession]) (newDatabase 1) rs s ∧
    convertToSequenceFileFromLdLocal (fileNext s.file) 2 s.file = (pairs, info, .ok ()) ∧
    hashIndex zeroMD5 [pairs] = .ok out ∧ hashSearch zeroMD5 samplingRateOne (fun _ => 0) twoOnesSector out = .ok lines ∧
    ∃ bc : ByteControl, bc.valueText ∈ lines ∧ bc.sec = 1 ∧ bc.nsec = 0 ∧ bc.blockNum = 0 := by
  obtain ⟨rs, s, hd, hc, hfew⟩ := exists_sectorSession
  obtain ⟨pairs, info, hconv, hall⟩ := @written_sector_found 1 (by decide) [sectorSession] zeroMD5
    sectorSession_fits rs s hd hc hfew (fileNext s.file) 2 (Nat.le_refl _) (by decide) [] []
    { twoOnes with ts := ⟨1, 0⟩, pad := fun _ => 0 } rfl 0 (by decide) (by decide)
    ⟨511, by decide, by decide, by decide⟩
  obtain ⟨out, hrun, hdb⟩ := hall [pairs] (by rw [List.flatten_singleton])
  obtain ⟨lines, hlines, bc, hline, hsec, hnsec, hblock⟩ := hdb out (List.Perm.refl _) (fun _ => 0) twoOnesSector
    (by rw [twoOnesSector_valid]; exact List.mem_singleton_self _) (by rw [twoOnesSector_valid]; decide)
  exact ⟨rs, s, pairs, info, out, lines, hd, hconv, hrun, hlines, bc, hline, hsec, hnsec, hblock⟩

end LogDrive
