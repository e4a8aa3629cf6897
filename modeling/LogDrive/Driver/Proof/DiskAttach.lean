import LogDrive.Driver.Proof.DiskLine

/-!
# From a disk line to the driver of tapdisk

`attachLine` puts the parser of the line, `libxl_device_disk_add` and the parser of tapdisk together. The path
of the line reaches the driver as it is, colons included, and the preservation driver is asked for exactly the
lines with `tap:preservation:` (`attached_line_exact`), whatever is at the path. The time-travel driver is
asked for no line.
-/

set_option autoImplicit false

open Bytes CString

namespace LogDrive

/-- The type that tapdisk finds and the name that it gives to the driver; `none` where no disk is attached
through tapdisk. -/
def attachLine (H : DiskHost) (line : Mem) : Option (Int × Option Mem) := do
  let disk ← parseDiskConfig line
  match ← libxlDeviceDiskAdd H disk with
  | .error _ => none
  | .ok back => back.tapdiskParams.map tapdiskDisktypeParseParams

abbrev diskTypePreservation : Int := 10

/-- Tapdisk splits its parameters where libxl has put them together. -/
theorem tapdiskDisktypeParseParams_append (type rest : Mem) (hc : colon ∉ type) (hl : type.length ≤ 31)
    (hf : 0 ≤ tapdiskDisktypeFind type) :
    tapdiskDisktypeParseParams (type ++ colon :: rest) = (tapdiskDisktypeFind type, some rest) := by
  have hfirst : strchr (type ++ colon :: rest) colon = some type.length := strchr_eq_some.2 ⟨type, rest, rfl, hc, rfl⟩
  have hdrop : (type ++ colon :: rest).drop (type.length + 1) = rest := by simp [List.drop_append]
  have hshort : ¬type.length > diskTypeNameMax - 1 := by
    show ¬type.length > 31
    omega
  simp only [tapdiskDisktypeParseParams, hfirst, List.take_left, hdrop, if_neg hshort, ge_iff_le, if_pos hf]

/-- The number of the driver for a format that tapdisk may get. -/
theorem find_format {format : DiskFormat} {number : Int} {rest : Mem}
    (h : (format = .raw ∧ number = 0) ∨ (format = .vhd ∧ number = 4) ∨ (format = .preservation ∧ number = 10)) :
    tapdiskDisktypeParseParams (printed (diskStringOfFormat format) ++ colon :: rest) = (number, some rest) := by
  obtain ⟨rfl, rfl⟩ | ⟨rfl, rfl⟩ | ⟨rfl, rfl⟩ := h
  · exact tapdiskDisktypeParseParams_append (ascii "aio") rest (by decide) (by decide) (by decide)
  · exact tapdiskDisktypeParseParams_append (ascii "vhd") rest (by decide) (by decide) (by decide)
  · exact tapdiskDisktypeParseParams_append (ascii "preservation") rest (by decide) (by decide) (by decide)

/-- The format that `validate_virtual_disk` leaves. -/
def validFormat (disk : DeviceDisk) : DiskFormat :=
  if disk.format = .raw ∧ disk.pdevPath.map (·.take 4) = some (ascii "vhd:") then .vhd else disk.format

theorem validFormat_of_ne {disk : DeviceDisk} (h : disk.format ≠ .raw) : validFormat disk = disk.format :=
  if_neg fun hr => h hr.1

/-- What `validate_virtual_disk` makes of a disk that it does not refuse. -/
theorem validateVirtualDisk_ok {stat : Mem → Option DiskStat} {disk disk' : DeviceDisk} {rc : Int}
    (h : validateVirtualDisk stat disk = some (rc, disk')) : disk' = { disk with format := validFormat disk } := by
  have hsame (hf : validFormat disk = disk.format) : disk = { disk with format := validFormat disk } := by
    rw [hf]
  rw [validateVirtualDisk] at h
  split at h
  · rename_i hf
    cases h
    exact hsame (validFormat_of_ne (by rw [hf]; decide))
  · split at h
    · rename_i hf
      cases h
      exact hsame (validFormat_of_ne (by rw [hf]; decide))
    · simp only at h
      split at h
      · rename_i hraw
        split at h
        · cases h
        · rename_i path hpath
          split at h
          · rename_i hvhd
            cases h
            rw [validFormat, if_pos ⟨hraw, by rw [hpath]; exact congrArg some hvhd.2⟩]
          · rename_i hvhd
            cases h
            refine hsame (if_neg fun hv => hvhd ?_)
            rw [hpath] at hv
            have htake : path.take 4 = ascii "vhd:" := Option.some.inj hv.2
            refine ⟨List.mem_of_mem_take (i := 4) ?_, htake⟩
            rw [htake]
            decide
      · rename_i hraw
        cases h
        exact hsame (validFormat_of_ne hraw)

/-- What `libxl_device_disk_add` asks for before it hands a disk to tapdisk. -/
structure Attached (H : DiskHost) (disk : DeviceDisk) (vdev params : Mem) : Prop where
  valid : validateVirtualDisk H.stat disk = some (0, { disk with format := validFormat disk })
  named : disk.vdev = some vdev
  number : H.devNumber vdev ≠ -1
  backend : disk.backend = .tap
  enabled : H.blktapEnabled = true
  format : validFormat disk ≠ .empty
  devpath : (H.devpath disk.pdevPath (validFormat disk)).isSome
  params : params = printed (diskStringOfFormat (validFormat disk)) ++ colon :: printed disk.pdevPath

theorem libxlDeviceDiskAdd_iff {H : DiskHost} {disk : DeviceDisk} {params : Mem} :
    (∃ back, libxlDeviceDiskAdd H disk = some (.ok back) ∧ back.tapdiskParams = some params) ↔
      ∃ vdev, Attached H disk vdev params := by
  constructor
  · rintro ⟨back, h, hb⟩
    rw [libxlDeviceDiskAdd] at h
    split at h
    · cases h
    · rename_i rc disk' hv
      obtain rfl := validateVirtualDisk_ok hv
      split at h
      · cases h
      · rename_i hrc
        rw [Decidable.not_not] at hrc
        subst hrc
        split at h
        · cases h
        · rename_i vdev hvdev
          split at h
          · cases h
          · rename_i hnum
            simp only at h hvdev
            split at h
            · cases h
              cases hb
            · rename_i hbackend
              split at h
              · rename_i hen
                split at h
                · cases h
                · rename_i dev hdev
                  cases h
                  refine ⟨vdev, hv, hvdev, hnum, hbackend, hen.1, hen.2, ?_, ?_⟩
                  · rw [hdev]
                    rfl
                  · exact (Option.some.inj hb).symm
              · cases h
                cases hb
            · cases h
              cases hb
            · cases h
  · rintro ⟨vdev, h⟩
    obtain ⟨dev, hdev⟩ := Option.isSome_iff_exists.1 h.devpath
    refine ⟨⟨.vbd, some params, some dev, some (ascii "phy"),
      if disk.readwrite then ascii "w" else ascii "r"⟩, ?_, rfl⟩
    rw [libxlDeviceDiskAdd, h.valid]
    simp only [ne_eq, not_true_eq_false, if_false, h.named, if_neg h.number, h.backend, h.enabled, true_and,
      if_pos h.format, hdev, h.params]

theorem attachLine_iff {H : DiskHost} {line : Mem} {type : Int} {name : Option Mem} :
    attachLine H line = some (type, name) ↔ ∃ disk vdev params, parseDiskConfig line = some disk ∧
      Attached H disk vdev params ∧ tapdiskDisktypeParseParams params = (type, name) := by
  rw [attachLine]
  constructor
  · intro h
    obtain ⟨disk, hp, h⟩ := Option.bind_eq_some_iff.1 h
    obtain ⟨result, ha, h⟩ := Option.bind_eq_some_iff.1 h
    cases result with
    | error rc => cases h
    | ok back =>
      obtain ⟨params, hb, ht⟩ := Option.map_eq_some_iff.1 h
      obtain ⟨vdev, hA⟩ := libxlDeviceDiskAdd_iff.1 ⟨back, ha, hb⟩
      exact ⟨disk, vdev, params, hp, hA, ht⟩
  · rintro ⟨disk, vdev, params, hp, hA, ht⟩
    obtain ⟨back, ha, hb⟩ := libxlDeviceDiskAdd_iff.2 ⟨vdev, hA⟩
    refine Option.bind_eq_some_iff.2 ⟨disk, hp, Option.bind_eq_some_iff.2 ⟨_, ha, ?_⟩⟩
    exact Option.map_eq_some_iff.2 ⟨params, hb, ht⟩

/-! ## The disks of lines -/

/-- The mode and the virtual disk do not concern what is behind the disk. -/
theorem DiskSpec.disk_fields (spec : DiskSpec) :
    spec.disk.format = spec.target.disk.format ∧ spec.disk.backend = spec.target.disk.backend ∧
      spec.disk.pdevPath = spec.target.disk.pdevPath ∧ spec.disk.vdev = strdupOrNull spec.vdev := by
  obtain ⟨target, ioemu, vdev, mode⟩ := spec
  cases mode with
  | none => exact ⟨rfl, rfl, rfl, rfl⟩
  | rw m => exact ⟨rfl, rfl, rfl, rfl⟩
  | cdrom ignored => exact ⟨rfl, rfl, rfl, rfl⟩

/-- The disks of a line that tapdisk may get. -/
theorem DiskTarget.tap_format {target : DiskTarget} (h : target.disk.backend = .tap) :
    target.disk.format = .empty ∨ target.disk.format = .raw ∨ target.disk.format = .vhd ∨
      ∃ tap2 aio path, target = .typed tap2 aio .preservation path := by
  cases target with
  | empty ignored => exact .inl rfl
  | phy path => cases h
  | file path => exact .inr (.inl rfl)
  | tap tap2 aio path => exact .inr (.inl rfl)
  | typed tap2 aio type path =>
    cases type with
    | vhd => exact .inr (.inr (.inl rfl))
    | qcow => cases h
    | qcow2 => cases h
    | raw => exact .inr (.inl rfl)
    | preservation => exact .inr (.inr (.inr ⟨tap2, aio, path, rfl⟩))

/-- A raw disk stays raw or becomes a vhd. -/
theorem validFormat_raw {disk : DeviceDisk} (h : disk.format = .raw) :
    validFormat disk = .raw ∨ validFormat disk = .vhd := by
  unfold validFormat
  split
  · exact .inr rfl
  · exact .inl h

/-- What tapdisk makes of the parameters of a line's disk. -/
theorem Attached.opens {H : DiskHost} {spec : DiskSpec} {vdev params : Mem} (h : Attached H spec.disk vdev params) :
    ∃ type, tapdiskDisktypeParseParams params = (type, some (printed spec.target.disk.pdevPath)) ∧
      ((type = 0 ∨ type = 4) ∨ type = 10 ∧ ∃ tap2 aio path, spec.target = .typed tap2 aio .preservation path) := by
  obtain ⟨hformat, hbackend, hpath, -⟩ := spec.disk_fields
  rw [h.params, hpath]
  obtain he | hr | hv | ⟨tap2, aio, path, hpres⟩ := DiskTarget.tap_format (hbackend.symm.trans h.backend)
  · refine absurd ?_ h.format
    rw [validFormat_of_ne (by rw [hformat, he]; decide), hformat, he]
  · cases validFormat_raw (hformat.trans hr) with
    | inl hraw => exact ⟨0, find_format (.inl ⟨hraw, rfl⟩), .inl (.inl rfl)⟩
    | inr hvhd => exact ⟨4, find_format (.inr (.inl ⟨hvhd, rfl⟩)), .inl (.inr rfl)⟩
  · have hvhd : validFormat spec.disk = .vhd := by
      rw [validFormat_of_ne (by rw [hformat, hv]; decide), hformat, hv]
    exact ⟨4, find_format (.inr (.inl ⟨hvhd, rfl⟩)), .inl (.inr rfl)⟩
  · have hf : spec.disk.format = .preservation := by
      rw [hformat, hpres]
      rfl
    have hvalid : validFormat spec.disk = .preservation := by
      rw [validFormat_of_ne (by rw [hf]; decide), hf]
    exact ⟨10, find_format (.inr (.inr ⟨hvalid, rfl⟩)), .inr ⟨rfl, tap2, aio, path, hpres⟩⟩

/-- When a disk of the type `preservation` is handed to tapdisk. -/
theorem attached_preservation_iff {H : DiskHost} {spec : DiskSpec} {tap2 : Bool} {aio : Nat} {path : Mem}
    (hpres : spec.target = .typed tap2 aio .preservation path) :
    (∃ vdev params, Attached H spec.disk vdev params) ↔
      spec.vdev ≠ [] ∧ H.devNumber spec.vdev ≠ -1 ∧ H.blktapEnabled = true ∧
        (H.devpath (strdupOrNull path) .preservation).isSome := by
  obtain ⟨hformat, hbackend, hpath, hvdev⟩ := spec.disk_fields
  rw [hpres] at hformat hbackend hpath
  have hf : spec.disk.format = .preservation := hformat
  have hp : spec.disk.pdevPath = strdupOrNull path := hpath
  have hvalid : validFormat spec.disk = .preservation := by
    rw [validFormat_of_ne (by rw [hf]; decide), hf]
  constructor
  · rintro ⟨vdev, params, h⟩
    have hv : strdupOrNull spec.vdev = some vdev := hvdev.symm.trans h.named
    have hne : spec.vdev ≠ [] := fun he => by
      rw [he] at hv
      cases hv
    rw [strdupOrNull, if_neg hne] at hv
    obtain rfl : spec.vdev = vdev := Option.some.inj hv
    have hdev := h.devpath
    rw [hvalid, hp] at hdev
    exact ⟨hne, h.number, h.enabled, hdev⟩
  · rintro ⟨hne, hnum, hen, hdev⟩
    refine ⟨spec.vdev, _, ?_, ?_, hnum, hbackend, hen, ?_, ?_, rfl⟩
    · rw [validateVirtualDisk, if_neg (by rw [hf]; decide), if_pos hf, hvalid, ← hf]
    · rw [hvdev, strdupOrNull, if_neg hne]
    · rw [hvalid]
      decide
    · rw [hvalid, hp]
      exact hdev

/-- **What tapdisk is asked to open**: of every line that reaches it the path as the line has it, by the driver
aio, vhd or preservation; and by the last exactly for the lines with the type `preservation`, with a virtual
disk that has a number, where tapdisk makes a device. -/
theorem attached_line_exact (H : DiskHost) {line : Mem} (h0 : 0 ∉ line) :
    (∀ type name, attachLine H line = some (type, name) → ∃ spec : DiskSpec, spec.WF ∧ spec.render = line ∧
      name = some (printed spec.target.disk.pdevPath) ∧ (type = 0 ∨ type = 4 ∨ type = diskTypePreservation)) ∧
    ∀ name, attachLine H line = some (diskTypePreservation, name) ↔
      ∃ (spec : DiskSpec) (tap2 : Bool) (aio : Nat) (path : Mem), spec.WF ∧ spec.render = line ∧
        spec.target = .typed tap2 aio .preservation path ∧ name = some (printed (strdupOrNull path)) ∧
        spec.vdev ≠ [] ∧ H.devNumber spec.vdev ≠ -1 ∧ H.blktapEnabled = true ∧
        (H.devpath (strdupOrNull path) .preservation).isSome := by
  constructor
  · intro type name h
    obtain ⟨disk, vdev, params, hp, hA, ht⟩ := attachLine_iff.1 h
    obtain ⟨spec, hwf, hrender, rfl⟩ := (disk_line_exact h0 disk).1 hp
    obtain ⟨type', ht', htype⟩ := hA.opens
    rw [ht, Prod.mk.injEq] at ht'
    obtain ⟨rfl, rfl⟩ := ht'
    refine ⟨spec, hwf, hrender, rfl, ?_⟩
    obtain (htype | htype) | ⟨htype, -⟩ := htype
    · exact .inl htype
    · exact .inr (.inl htype)
    · exact .inr (.inr htype)
  · intro name
    constructor
    · intro h
      obtain ⟨disk, vdev, params, hp, hA, ht⟩ := attachLine_iff.1 h
      obtain ⟨spec, hwf, hrender, rfl⟩ := (disk_line_exact h0 disk).1 hp
      obtain ⟨type', ht', htype⟩ := hA.opens
      rw [ht, Prod.mk.injEq] at ht'
      obtain ⟨rfl, rfl⟩ := ht'
      obtain (htype | htype) | ⟨-, tap2, aio, path, hpres⟩ := htype
      · exact absurd htype (by decide)
      · exact absurd htype (by decide)
      · refine ⟨spec, tap2, aio, path, hwf, hrender, hpres, ?_,
          (attached_preservation_iff hpres).1 ⟨vdev, params, hA⟩⟩
        rw [hpres]
        rfl
    · rintro ⟨spec, tap2, aio, path, hwf, hrender, hpres, rfl, hlive⟩
      obtain ⟨vdev, params, hA⟩ := (attached_preservation_iff hpres).2 hlive
      obtain ⟨hformat, -, hpath, -⟩ := spec.disk_fields
      rw [hpres] at hformat hpath
      have hf : spec.disk.format = .preservation := hformat
      have hvalid : validFormat spec.disk = .preservation := by
        rw [validFormat_of_ne (by rw [hf]; decide), hf]
      refine attachLine_iff.2 ⟨spec.disk, vdev, params, (disk_line_exact h0 _).2 ⟨spec, hwf, hrender, rfl⟩, hA, ?_⟩
      rw [hA.params, hpath]
      exact find_format (.inr (.inr ⟨hvalid, rfl⟩))

/-- A machine where tapdisk makes a device for every image. -/
def blktapHost : DiskHost where
  stat _ := none
  blktapEnabled := true
  devpath _ _ := some (ascii "/dev/xen/blktap-2/tapdev0")

/-- The first disk that is named by letters has a number. -/
theorem devNumber_xvda : blktapHost.devNumber (ascii "xvda") ≠ -1 := by
  have h : blktapHost.devNumber (ascii "xvda") = 51712 :=
    @devNumber_xvd (ascii "a") (List.forall_mem_singleton.2 (by decide)) 0 rfl (by decide)
  rw [h]
  decide

/-- A line with a colon in the path. -/
theorem attached_line_exact_colon : attachLine blktapHost (ascii "tap:preservation:/db:1,xvda,w") =
    some (diskTypePreservation, some (ascii "/db:1")) :=
  ((@attached_line_exact blktapHost (ascii "tap:preservation:/db:1,xvda,w") (by decide)).2 _).2
    ⟨⟨.typed false 0 .preservation (ascii "/db:1"), false, ascii "xvda", .rw (ascii "w")⟩, false, 0, ascii "/db:1",
      ⟨isPath_iff.2 (List.all_eq_true.1 (by decide)), isWord_iff.2 (List.all_eq_true.1 (by decide)),
        fun h => absurd h (by decide), fun h => absurd h (by decide), fun _ _ h => absurd h.2 (by decide)⟩,
      rfl, rfl, rfl, by decide, devNumber_xvda, rfl, rfl⟩

end LogDrive
