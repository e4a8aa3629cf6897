import LogDrive.Driver.DiskSpec
import LogDrive.Driver.Proof.DiskConfig

/-!
# The disk lines that are accepted

`disk_line_exact`: a line is accepted exactly when it is written down from a `DiskSpec`, and then gives the
disk that the specification stands for.
-/

set_option autoImplicit false

open Bytes CString

namespace LogDrive

theorem isWord_iff {w : Mem} : IsWord w ↔ ∀ c ∈ w, inWord c = true :=
  forall₂_congr fun _ _ => inWord_iff.symm

theorem isPath_iff {w : Mem} : IsPath w ↔ ∀ c ∈ w, inPath c = true :=
  forall₂_congr fun _ _ => inPath_iff.symm

theorem isWord_takeWhile (rest : Mem) : IsWord (rest.takeWhile inWord) :=
  isWord_iff.2 fun _ hc => List.mem_takeWhile_imp hc

theorem isPath_takeWhile (rest : Mem) : IsPath (rest.takeWhile inPath) :=
  isPath_iff.2 fun _ hc => List.mem_takeWhile_imp hc

/-- A word that is the whole line. -/
theorem span_word {plain : UInt8 → Bool} {w : Mem} (hw : ∀ x ∈ w, plain x = true) :
    w.takeWhile plain = w ∧ w.dropWhile plain = [] :=
  ⟨List.takeWhile_eq_self_iff.2 hw, List.dropWhile_eq_nil_iff.2 hw⟩

/-! ## The mode and the virtual disk -/

/-- The type `cdrom` ends at a comma or with the line. -/
theorem scanType_eq_some {d d' : DeviceDisk} {rest : Mem} (h0 : 0 ∉ rest) :
    scanType d rest = some d' ↔
      ∃ ignored, colon :: rest = (DiskMode.cdrom ignored).render ∧ d' = (DiskMode.cdrom ignored).set d := by
  have hword : ∀ c ∈ ascii "cdrom", inPath c = true := List.all_eq_true.1 (by decide)
  rw [scanType]
  constructor
  · intro h
    split at h
    · rename_i htake
      have hsplit : rest = ascii "cdrom" ++ rest.dropWhile inPath := by
        rw [← htake, List.takeWhile_append_dropWhile]
      cases hd : rest.dropWhile inPath with
      | nil =>
        rw [hd, List.append_nil] at hsplit
        refine ⟨none, ?_, (Option.some.inj h).symm⟩
        rw [hsplit]
        rfl
      | cons c r =>
        have hn := dropWhile_cons_not hd
        obtain rfl : c = comma := by
          by_contra hne
          rw [inPath_iff.2 ⟨hne, fun he => h0 (he ▸ (mem_of_dropWhile hd).1)⟩] at hn
          cases hn
        rw [hd] at hsplit
        refine ⟨some r, ?_, (Option.some.inj h).symm⟩
        rw [hsplit]
        rfl
    · cases h
  · rintro ⟨ignored, hrest, rfl⟩
    cases ignored with
    | none =>
      obtain rfl : rest = ascii "cdrom" := List.tail_eq_of_cons_eq hrest
      rw [if_pos (span_word hword).1]
      rfl
    | some r =>
      obtain rfl : rest = ascii "cdrom" ++ comma :: r := List.tail_eq_of_cons_eq hrest
      rw [if_pos (span_append hword (show inPath comma = false by decide)).1]
      rfl

/-- The name of the virtual disk and what follows it. -/
theorem scanVirt_eq_some {d d' : DeviceDisk} {rest : Mem} (hd0 : d.vdev = none) (h0 : 0 ∉ rest) :
    scanVirt d rest = some d' ↔
      ∃ vdev mode, IsWord vdev ∧ (vdev = [] → mode = DiskMode.none) ∧ rest = vdev ++ mode.render ∧
        d' = mode.set { d with vdev := strdupOrNull vdev } := by
  have hself : ({ d with vdev := strdupOrNull [] } : DeviceDisk) = d := by
    rw [strdupOrNull, if_pos rfl, ← hd0]
  constructor
  · intro h
    have hsplit := (List.takeWhile_append_dropWhile (p := inWord) (l := rest)).symm
    refine ⟨rest.takeWhile inWord, ?_⟩
    rw [scanVirt] at h
    cases hd : rest.dropWhile inWord with
    | nil =>
      rw [hd] at h hsplit
      refine ⟨.none, isWord_takeWhile rest, fun _ => rfl, hsplit, ?_⟩
      simp only [Option.some.injEq] at h
      rw [← h]
      split
      · rename_i hv
        rw [hv, hself]
        rfl
      · rename_i hv
        rw [strdupOrNull, if_neg hv]
        rfl
    | cons c r =>
      have hr0 : 0 ∉ r := fun hm => h0 ((mem_of_dropWhile hd).2 0 hm)
      rw [hd] at h hsplit
      simp only at h
      split at h
      · cases h
      · rename_i hv
        rw [strdupOrNull, if_neg hv]
        split at h
        · rename_i hc
          subst hc
          obtain ⟨ignored, hrest, hd'⟩ := (scanType_eq_some hr0).1 h
          rw [hrest] at hsplit
          exact ⟨.cdrom ignored, isWord_takeWhile rest, fun he => absurd he hv, hsplit, hd'⟩
        · rename_i hc
          obtain rfl : c = comma := (word_end h0 hd).resolve_right hc
          refine ⟨.rw r, isWord_takeWhile rest, fun he => absurd he hv, hsplit, ?_⟩
          exact (Option.some.inj h).symm
  · rintro ⟨vdev, mode, hword, hnamed, rfl, rfl⟩
    have hw := isWord_iff.1 hword
    rw [scanVirt]
    by_cases hv : vdev = []
    · subst hv
      rw [hnamed rfl]
      simp only [DiskMode.render, List.append_nil, List.takeWhile_nil, List.dropWhile_nil, if_true, DiskMode.set, hself]
    · rw [strdupOrNull, if_neg hv]
      cases mode with
      | none =>
        rw [DiskMode.render, List.append_nil, (span_word hw).1, (span_word hw).2]
        simp only [if_neg hv]
        rfl
      | rw m =>
        obtain ⟨h1, h2⟩ := span_append (r := m) hw (show inWord comma = false by decide)
        rw [DiskMode.render, h1, h2]
        simp only [if_neg hv]
        rw [if_neg (show comma ≠ colon by decide)]
        rfl
      | cdrom ignored =>
        obtain ⟨r, hr⟩ : ∃ r, (DiskMode.cdrom ignored).render = colon :: r := by
          cases ignored with
          | none => exact ⟨_, rfl⟩
          | some m => exact ⟨_, rfl⟩
        obtain ⟨h1, h2⟩ := span_append (r := r) hw (show inWord colon = false by decide)
        have hr0 : 0 ∉ r := fun hm => by
          apply h0
          rw [hr]
          exact List.mem_append_right _ (List.mem_cons_of_mem _ hm)
        rw [hr, h1, h2]
        simp only [if_neg hv, if_true]
        exact (scanType_eq_some hr0).2 ⟨ignored, hr.symm, rfl⟩

/-! ## The prefix -/

/-- What is read as the prefix. -/
theorem ioemu_iff {vdev : Mem} {mode : DiskMode} (hw : IsWord vdev) :
    (vdev ++ mode.render).take 6 = ascii "ioemu:" ↔ vdev = ascii "ioemu" ∧ mode.isCdrom = true := by
  have hio : ∀ c ∈ ascii "ioemu", inWord c = true := List.all_eq_true.1 (by decide)
  constructor
  · intro h
    have hline : vdev ++ mode.render = ascii "ioemu" ++ colon :: (vdev ++ mode.render).drop 6 := by
      conv_lhs => rw [← List.take_append_drop 6 (vdev ++ mode.render), h]
      rfl
    obtain ⟨h1, h2⟩ := span_append (r := (vdev ++ mode.render).drop 6) hio (show inWord colon = false by decide)
    rw [← hline] at h1 h2
    cases mode with
    | none =>
      rw [DiskMode.render, List.append_nil, (span_word (isWord_iff.1 hw)).2] at h2
      cases h2
    | rw m =>
      rw [DiskMode.render, (span_append (isWord_iff.1 hw) (show inWord comma = false by decide)).2] at h2
      exact absurd (List.head_eq_of_cons_eq h2) (by decide)
    | cdrom ignored =>
      obtain ⟨r, hr⟩ : ∃ r, (DiskMode.cdrom ignored).render = colon :: r := by
        cases ignored with
        | none => exact ⟨_, rfl⟩
        | some m => exact ⟨_, rfl⟩
      rw [hr, (span_append (isWord_iff.1 hw) (show inWord colon = false by decide)).1] at h1
      exact ⟨h1, rfl⟩
  · rintro ⟨rfl, hm⟩
    cases mode with
    | none => cases hm
    | rw m => cases hm
    | cdrom ignored =>
      cases ignored with
      | none => rfl
      | some m => rfl

/-- What follows the comma behind a path. -/
theorem scanTail_eq_some {d d' : DeviceDisk} {rest : Mem} (hd0 : d.vdev = none) (h0 : 0 ∉ rest) :
    scanVirt d (stripIoemu rest) = some d' ↔
      ∃ (ioemu : Bool) (vdev : Mem) (mode : DiskMode), IsWord vdev ∧ (vdev = [] → mode = DiskMode.none) ∧
        (ioemu = false → ¬(vdev = ascii "ioemu" ∧ mode.isCdrom = true)) ∧
        rest = (if ioemu then ascii "ioemu:" else []) ++ (vdev ++ mode.render) ∧
        d' = mode.set { d with vdev := strdupOrNull vdev } := by
  rw [stripIoemu]
  constructor
  · intro h
    split at h
    · rename_i hio
      obtain ⟨vdev, mode, hw, hnamed, hrest, hd'⟩ :=
        (scanVirt_eq_some hd0 fun hm => h0 (List.mem_of_mem_drop hm)).1 h
      refine ⟨true, vdev, mode, hw, hnamed, fun h => absurd h (by decide), ?_, hd'⟩
      rw [if_pos rfl, ← hio, ← hrest, List.take_append_drop]
    · rename_i hio
      obtain ⟨vdev, mode, hw, hnamed, hrest, hd'⟩ := (scanVirt_eq_some hd0 h0).1 h
      refine ⟨false, vdev, mode, hw, hnamed, fun _ hc => hio ?_, hrest, hd'⟩
      rw [hrest]
      exact (ioemu_iff hw).2 hc
  · rintro ⟨ioemu, vdev, mode, hw, hnamed, hplain, rfl, hd'⟩
    cases ioemu with
    | true =>
      have hlen : (ascii "ioemu:").length = 6 := by decide
      have htake : (ascii "ioemu:" ++ (vdev ++ mode.render)).take 6 = ascii "ioemu:" := List.take_left' hlen
      have hdrop : (ascii "ioemu:" ++ (vdev ++ mode.render)).drop 6 = vdev ++ mode.render := List.drop_left' hlen
      rw [if_pos rfl] at h0 ⊢
      rw [if_pos htake, hdrop]
      exact (scanVirt_eq_some hd0 fun hm => h0 (List.mem_append_right _ hm)).2 ⟨vdev, mode, hw, hnamed, rfl, hd'⟩
    | false =>
      simp only [Bool.false_eq_true, if_false, List.nil_append] at h0 ⊢
      rw [if_neg fun h => hplain rfl ((ioemu_iff hw).1 h)]
      exact (scanVirt_eq_some hd0 h0).2 ⟨vdev, mode, hw, hnamed, rfl, hd'⟩

/-! ## The target -/

theorem scanPath_append {path r : Mem} (hp : IsPath path) (d : DeviceDisk) :
    scanPath d (path ++ comma :: r) = scanVirt { d with pdevPath := strdupOrNull path } (stripIoemu r) := by
  obtain ⟨h1, h2⟩ := span_append (r := r) (isPath_iff.1 hp) (show inPath comma = false by decide)
  rw [scanPath, h2]
  simp only [h1]

theorem scanPath_eq_some {d d' : DeviceDisk} {rest : Mem} (h0 : 0 ∉ rest) (h : scanPath d rest = some d') :
    ∃ path r, IsPath path ∧ rest = path ++ comma :: r ∧
      scanVirt { d with pdevPath := strdupOrNull path } (stripIoemu r) = some d' := by
  rw [scanPath] at h
  cases hd : rest.dropWhile inPath with
  | nil =>
    rw [hd] at h
    cases h
  | cons c r =>
    have hn := dropWhile_cons_not hd
    obtain rfl : c = comma := by
      by_contra hne
      rw [inPath_iff.2 ⟨hne, fun he => h0 (he ▸ (mem_of_dropWhile hd).1)⟩] at hn
      cases hn
    rw [hd] at h
    refine ⟨rest.takeWhile inPath, r, isPath_takeWhile rest, ?_, h⟩
    rw [← hd, List.takeWhile_append_dropWhile]

theorem tapTypes_find (type : TapType) :
    tapTypes.find? (·.1 = type.name) = some (type.name, type.format, type.backend) := by
  cases type with
  | vhd => rfl
  | qcow => rfl
  | qcow2 => rfl
  | raw => rfl
  | preservation => rfl

theorem tapTypes_mem {w : Mem} {format : DiskFormat} {backend : DiskBackend} (h : (w, format, backend) ∈ tapTypes) :
    ∃ type : TapType, w = type.name ∧ format = type.format ∧ backend = type.backend := by
  simp only [tapTypes, List.mem_cons, Prod.mk.injEq, List.not_mem_nil, or_false] at h
  obtain h | h | h | h | h := h
  · exact ⟨.vhd, h⟩
  · exact ⟨.qcow, h⟩
  · exact ⟨.qcow2, h⟩
  · exact ⟨.raw, h⟩
  · exact ⟨.preservation, h⟩

theorem TapType.isWord_name (type : TapType) : ∀ c ∈ type.name, inWord c = true := by
  cases type with
  | vhd => exact List.all_eq_true.1 (by decide)
  | qcow => exact List.all_eq_true.1 (by decide)
  | qcow2 => exact List.all_eq_true.1 (by decide)
  | raw => exact List.all_eq_true.1 (by decide)
  | preservation => exact List.all_eq_true.1 (by decide)

theorem TapType.name_ne_aio (type : TapType) : type.name ≠ ascii "aio" := by
  cases type with
  | vhd => decide
  | qcow => decide
  | qcow2 => decide
  | raw => decide
  | preservation => decide

/-- `aio:` any number of times. -/
theorem scanTap_aio (aio : Nat) (d : DeviceDisk) (rest : Mem) :
    scanTap d ((List.replicate aio (ascii "aio:")).flatten ++ rest) = scanTap d rest := by
  induction aio with
  | zero => rfl
  | succ aio ih =>
    have hw : ∀ c ∈ ascii "aio", inWord c = true := List.all_eq_true.1 (by decide)
    have hline : (List.replicate (aio + 1) (ascii "aio:")).flatten ++ rest =
        ascii "aio" ++ colon :: ((List.replicate aio (ascii "aio:")).flatten ++ rest) := by
      rw [List.replicate_succ, List.flatten_cons, List.append_assoc]
      rfl
    obtain ⟨h1, h2⟩ := span_append (r := (List.replicate aio (ascii "aio:")).flatten ++ rest) hw
      (show inWord colon = false by decide)
    rw [hline, scanTap_cons h2, if_neg (show colon ≠ comma by decide), if_pos h1]
    exact ih

theorem scanTap_path {path r : Mem} (hp : IsWord path) (d : DeviceDisk) :
    scanTap d (path ++ comma :: r) =
      scanVirt { d with format := .raw, backend := .tap, pdevPath := strdupOrNull path } (stripIoemu r) := by
  obtain ⟨h1, h2⟩ := span_append (r := r) (isWord_iff.1 hp) (show inWord comma = false by decide)
  rw [scanTap_cons h2, if_pos rfl, scanPath_word h2, h1]

theorem scanTap_type (type : TapType) (d : DeviceDisk) (rest : Mem) :
    scanTap d (type.name ++ colon :: rest) =
      scanPath { d with format := type.format, backend := type.backend } rest := by
  obtain ⟨h1, h2⟩ := span_append (r := rest) type.isWord_name (show inWord colon = false by decide)
  rw [scanTap_cons h2, if_neg (show colon ≠ comma by decide), h1, if_neg type.name_ne_aio, tapTypes_find]

/-- What may follow `tap:`. -/
theorem scanTap_eq_some (n : Nat) : ∀ {d d' : DeviceDisk} {rest : Mem}, rest.length ≤ n → 0 ∉ rest →
    scanTap d rest = some d' → ∃ aio,
      (∃ path r, IsWord path ∧ rest = (List.replicate aio (ascii "aio:")).flatten ++ (path ++ comma :: r) ∧
        scanVirt { d with format := .raw, backend := .tap, pdevPath := strdupOrNull path } (stripIoemu r) =
          some d') ∨
      ∃ (type : TapType) (path r : Mem), IsPath path ∧
        rest = (List.replicate aio (ascii "aio:")).flatten ++ (type.name ++ colon :: (path ++ comma :: r)) ∧
        scanVirt { d with format := type.format, backend := type.backend, pdevPath := strdupOrNull path }
          (stripIoemu r) = some d' := by
  induction n with
  | zero =>
    intro d d' rest hn h0 h
    obtain rfl : rest = [] := List.length_eq_zero_iff.1 (by omega)
    rw [scanTap_nil rfl] at h
    cases h
  | succ n ih =>
    intro d d' rest hn h0 h
    cases hd : rest.dropWhile inWord with
    | nil =>
      rw [scanTap_nil hd] at h
      cases h
    | cons c r =>
      have hr0 : 0 ∉ r := fun hm => h0 ((mem_of_dropWhile hd).2 0 hm)
      have hlen := length_of_dropWhile hd
      have hsplit : rest = rest.takeWhile inWord ++ c :: r := by
        rw [← hd, List.takeWhile_append_dropWhile]
      cases word_end h0 hd with
      | inl hc =>
        subst hc
        rw [hsplit, scanTap_path (isWord_takeWhile rest)] at h
        exact ⟨0, .inl ⟨_, r, isWord_takeWhile rest, hsplit, h⟩⟩
      | inr hc =>
        subst hc
        rw [scanTap_cons hd, if_neg (show colon ≠ comma by decide)] at h
        split at h
        · rename_i haio
          have hline : ∀ (k : Nat) (x : Mem), r = (List.replicate k (ascii "aio:")).flatten ++ x →
              rest = (List.replicate (k + 1) (ascii "aio:")).flatten ++ x := fun k x hx => by
            rw [hsplit, haio, hx, List.replicate_succ, List.flatten_cons, List.append_assoc]
            rfl
          obtain ⟨aio, hpath | htype⟩ := ih (by omega) hr0 h
          · obtain ⟨path, x, hp, hx, hs⟩ := hpath
            exact ⟨aio + 1, .inl ⟨path, x, hp, hline _ _ hx, hs⟩⟩
          · obtain ⟨type, path, x, hp, hx, hs⟩ := htype
            exact ⟨aio + 1, .inr ⟨type, path, x, hp, hline _ _ hx, hs⟩⟩
        · split at h
          · cases h
          · rename_i w format backend hfind
            obtain ⟨type, rfl, rfl, rfl⟩ := tapTypes_mem (List.mem_of_find?_eq_some hfind)
            have hname : type.name = rest.takeWhile inWord := by
              simpa using List.find?_some hfind
            obtain ⟨path, x, hp, hx, hs⟩ := scanPath_eq_some hr0 h
            refine ⟨0, .inr ⟨type, path, x, hp, ?_, hs⟩⟩
            rw [← hx, hname]
            exact hsplit

/-! ## Lines -/

/-- What follows a target that is not empty. -/
theorem tail_eq_some (target : DiskTarget) {d : DeviceDisk} {r : Mem} (hv : target.disk.vdev = none) (hr : 0 ∉ r)
    (htarget : target.WF) (hempty : target.isEmpty = false)
    (h : scanVirt target.disk (stripIoemu r) = some d) :
    ∃ spec : DiskSpec, spec.WF ∧ spec.render = target.render ++ comma :: r ∧ spec.disk = d := by
  obtain ⟨ioemu, vdev, mode, hw, hnamed, hplain, hrest, hd⟩ := (scanTail_eq_some hv hr).1 h
  refine ⟨⟨target, ioemu, vdev, mode⟩, ⟨htarget, hw, hnamed, fun _ => hempty, fun hi _ => hplain hi⟩, ?_, hd.symm⟩
  rw [hrest]
  rfl

theorem DiskTarget.disk_vdev (target : DiskTarget) : target.disk.vdev = none := by
  cases target with
  | empty ignored => rfl
  | phy path => rfl
  | file path => rfl
  | tap tap2 aio path => rfl
  | typed tap2 aio type path => rfl

/-- A line that is accepted says something. -/
theorem scanDisk_sound {s : Mem} {d : DeviceDisk} (h0 : 0 ∉ s) (h : scanDisk s = some d) :
    ∃ spec : DiskSpec, spec.WF ∧ spec.render = s ∧ spec.disk = d := by
  rw [scanDisk] at h
  cases hd : s.dropWhile inWord with
  | nil =>
    rw [hd] at h
    cases h
  | cons c r =>
    have hr0 : 0 ∉ r := fun hm => h0 ((mem_of_dropWhile hd).2 0 hm)
    have hsplit : s = s.takeWhile inWord ++ c :: r := by
      rw [← hd, List.takeWhile_append_dropWhile]
    rw [hd] at h
    simp only at h
    cases word_end h0 hd with
    | inl hc =>
      subst hc
      rw [if_pos rfl] at h
      obtain ⟨vdev, mode, hw, hnamed, hrest, hd'⟩ := (scanVirt_eq_some rfl hr0).1 h
      refine ⟨⟨.empty (s.takeWhile inWord), false, vdev, mode⟩,
        ⟨isWord_takeWhile s, hw, hnamed, fun h => absurd h Bool.false_ne_true,
          fun _ he => absurd he.symm Bool.false_ne_true⟩, ?_, hd'.symm⟩
      rw [hrest] at hsplit
      exact hsplit.symm
    | inr hc =>
      subst hc
      rw [if_neg (show colon ≠ comma by decide)] at h
      split at h
      · rename_i hphy
        obtain ⟨path, x, hp, rfl, hs⟩ := scanPath_eq_some hr0 h
        obtain ⟨spec, hwf, hrender, hdisk⟩ := tail_eq_some (.phy path) rfl
          (fun hm => hr0 (List.mem_append_right _ (List.mem_cons_of_mem _ hm))) hp rfl hs
        refine ⟨spec, hwf, ?_, hdisk⟩
        rw [hrender, hsplit, hphy]
        exact List.append_assoc (ascii "phy:") path (comma :: x)
      · split at h
        · rename_i hfile
          obtain ⟨path, x, hp, rfl, hs⟩ := scanPath_eq_some hr0 h
          obtain ⟨spec, hwf, hrender, hdisk⟩ := tail_eq_some (.file path) rfl
            (fun hm => hr0 (List.mem_append_right _ (List.mem_cons_of_mem _ hm))) hp rfl hs
          refine ⟨spec, hwf, ?_, hdisk⟩
          rw [hrender, hsplit, hfile]
          exact List.append_assoc (ascii "file:") path (comma :: x)
        · split at h
          · rename_i htap
            obtain ⟨tap2, htap2⟩ : ∃ tap2 : Bool, s.takeWhile inWord ++ [colon] =
                if tap2 then ascii "tap2:" else ascii "tap:" := by
              cases htap with
              | inl htap =>
                rw [htap]
                exact ⟨false, rfl⟩
              | inr htap =>
                rw [htap]
                exact ⟨true, rfl⟩
            have hline : s = (if tap2 then ascii "tap2:" else ascii "tap:") ++ r := by
              rw [← htap2, List.append_assoc]
              exact hsplit
            obtain ⟨aio, hpath | htype⟩ := scanTap_eq_some r.length (Nat.le_refl _) hr0 h
            · obtain ⟨path, x, hp, hx, hs⟩ := hpath
              have hx0 : 0 ∉ x := fun hm => hr0 (by
                rw [hx]
                exact List.mem_append_right _ (List.mem_append_right _ (List.mem_cons_of_mem _ hm)))
              obtain ⟨spec, hwf, hrender, hdisk⟩ := tail_eq_some (.tap tap2 aio path) rfl hx0 hp rfl hs
              refine ⟨spec, hwf, ?_, hdisk⟩
              rw [hrender, hline, hx]
              simp only [DiskTarget.render, DiskTarget.tapPrefix, List.append_assoc]
            · obtain ⟨type, path, x, hp, hx, hs⟩ := htype
              have hx0 : 0 ∉ x := fun hm => hr0 (by
                rw [hx]
                exact List.mem_append_right _ (List.mem_append_right _
                  (List.mem_cons_of_mem _ (List.mem_append_right _ (List.mem_cons_of_mem _ hm)))))
              obtain ⟨spec, hwf, hrender, hdisk⟩ :=
                tail_eq_some (.typed tap2 aio type path) rfl hx0 hp rfl hs
              refine ⟨spec, hwf, ?_, hdisk⟩
              rw [hrender, hline, hx]
              simp only [DiskTarget.render, DiskTarget.tapPrefix, List.append_assoc, List.cons_append]
          · cases h

/-- The first word of a line and what is read behind it. -/
theorem scanDisk_type {w r : Mem} (hw : ∀ c ∈ w, inWord c = true) : scanDisk (w ++ colon :: r) =
    if w = ascii "phy" then scanPath { DeviceDisk.zero with format := .raw, backend := .phy } r
    else if w = ascii "file" then scanPath { DeviceDisk.zero with format := .raw, backend := .tap } r
    else if w = ascii "tap" ∨ w = ascii "tap2" then scanTap .zero r
    else none := by
  obtain ⟨h1, h2⟩ := span_append (r := r) hw (show inWord colon = false by decide)
  rw [scanDisk, h2, h1]
  simp only [if_neg (show colon ≠ comma by decide)]

theorem scanDisk_tap (tap2 : Bool) (aio : Nat) (r : Mem) :
    scanDisk (DiskTarget.tapPrefix tap2 aio ++ r) = scanTap .zero r := by
  rw [DiskTarget.tapPrefix, List.append_assoc]
  cases tap2 with
  | true =>
    have hw : ∀ c ∈ ascii "tap2", inWord c = true := List.all_eq_true.1 (by decide)
    refine (scanDisk_type (r := (List.replicate aio (ascii "aio:")).flatten ++ r) hw).trans ?_
    rw [if_neg (by decide), if_neg (by decide), if_pos (.inr rfl), scanTap_aio]
  | false =>
    have hw : ∀ c ∈ ascii "tap", inWord c = true := List.all_eq_true.1 (by decide)
    refine (scanDisk_type (r := (List.replicate aio (ascii "aio:")).flatten ++ r) hw).trans ?_
    rw [if_neg (by decide), if_neg (by decide), if_pos (.inl rfl), scanTap_aio]

/-- Behind a target that is not empty a line goes on with the virtual disk. -/
theorem scanDisk_target {target : DiskTarget} (h : target.WF) (he : target.isEmpty = false) (r : Mem) :
    scanDisk (target.render ++ comma :: r) = scanVirt target.disk (stripIoemu r) := by
  cases target with
  | empty ignored => cases he
  | phy path =>
    have hw : ∀ c ∈ ascii "phy", inWord c = true := List.all_eq_true.1 (by decide)
    rw [DiskTarget.render, List.append_assoc]
    refine (scanDisk_type (r := path ++ comma :: r) hw).trans ?_
    rw [if_pos rfl, scanPath_append h]
    rfl
  | file path =>
    have hw : ∀ c ∈ ascii "file", inWord c = true := List.all_eq_true.1 (by decide)
    rw [DiskTarget.render, List.append_assoc]
    refine (scanDisk_type (r := path ++ comma :: r) hw).trans ?_
    rw [if_neg (by decide), if_pos rfl, scanPath_append h]
    rfl
  | tap tap2 aio path =>
    rw [DiskTarget.render, List.append_assoc, scanDisk_tap, scanTap_path h]
    rfl
  | typed tap2 aio type path =>
    rw [DiskTarget.render, List.append_assoc, List.append_assoc, List.cons_append, scanDisk_tap, scanTap_type,
      scanPath_append h]
    rfl

/-- A specification is read back. -/
theorem scanDisk_complete {spec : DiskSpec} (h : spec.WF) (h0 : 0 ∉ spec.render) :
    scanDisk spec.render = some spec.disk := by
  obtain ⟨target, ioemu, vdev, mode⟩ := spec
  have hr0 : 0 ∉ (if ioemu then ascii "ioemu:" else []) ++ (vdev ++ mode.render) := fun hm =>
    h0 (List.mem_append_right _ (List.mem_cons_of_mem _ hm))
  cases he : target.isEmpty with
  | true =>
    cases target with
    | empty ignored =>
      have hio : ioemu = false := by
        cases hb : ioemu with
        | false => rfl
        | true => cases h.ioemu hb
      subst hio
      obtain ⟨h1, h2⟩ := span_append (r := [] ++ (vdev ++ mode.render)) (isWord_iff.1 h.target)
        (show inWord comma = false by decide)
      show scanDisk (ignored ++ comma :: ([] ++ (vdev ++ mode.render))) = _
      rw [scanDisk, h2]
      simp only [if_true]
      exact (scanVirt_eq_some rfl hr0).2 ⟨vdev, mode, h.vdev, h.named, rfl, rfl⟩
    | phy path => cases he
    | file path => cases he
    | tap tap2 aio path => cases he
    | typed tap2 aio type path => cases he
  | false =>
    rw [DiskSpec.render, scanDisk_target h.target he]
    exact (scanTail_eq_some target.disk_vdev hr0).2
      ⟨ioemu, vdev, mode, h.vdev, h.named, fun hi => h.plain hi he, rfl, rfl⟩

/-- **The lines that are accepted** are exactly those written down from a specification, and the disk is the one
that it stands for. -/
theorem disk_line_exact {s : Mem} (h0 : 0 ∉ s) (d : DeviceDisk) :
    parseDiskConfig s = some d ↔ ∃ spec : DiskSpec, spec.WF ∧ spec.render = s ∧ spec.disk = d := by
  rw [parseDiskConfig_eq_scan h0]
  constructor
  · exact scanDisk_sound h0
  · rintro ⟨spec, hwf, rfl, rfl⟩
    exact scanDisk_complete hwf h0

/-- Behind `cdrom` the mode is ignored, so the disk is read-only. -/
theorem disk_line_exact_cdrom : ∃ spec : DiskSpec, spec.WF ∧ spec.render = ascii "phy:/dev/sr0,hdc:cdrom,w" ∧
    spec.disk = { DeviceDisk.zero with
      format := .raw, backend := .phy, pdevPath := some (ascii "/dev/sr0"), vdev := some (ascii "hdc")
      isCdrom := true, unpluggable := true } :=
  (disk_line_exact (s := ascii "phy:/dev/sr0,hdc:cdrom,w") (by decide) _).1 (by decide)

end LogDrive
