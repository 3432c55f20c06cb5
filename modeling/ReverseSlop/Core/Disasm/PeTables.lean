import ReverseSlop.Core.Disasm.PeBounds
import ReverseSlop.Core.Disasm.PeFile

namespace slop.core.disasm

open Bytes (At le)

section

variable {d s : List UInt8} {off n : Nat}

theorem rd16_at {v : UInt16} (h : At d off (le 2 v.toNat)) : rd16 d off = some v := by
  rw [rd16, h.read (by decide) v.toNat_lt]
  simp

theorem rd32_at {v : UInt32} (h : At d off (le 4 v.toNat)) : rd32 d off = some v := by
  rw [rd32, h.read (by decide) v.toNat_lt]
  simp

theorem rd16_at_nat (h : At d off (le 2 n)) (hn : n < 65536) : rd16 d off = some n.toUInt16 := by
  rw [rd16, h.read (by decide) hn]
  rfl

theorem rd32_at_nat (h : At d off (le 4 n)) (hn : n < 2 ^ 32) : rd32 d off = some n.toUInt32 := by
  rw [rd32, h.read (by decide) hn]
  rfl

theorem rd64_at_nat (h : At d off (le 8 n)) (hn : n < 2 ^ 64) : rd64 d off = some n.toUInt64 := by
  rw [rd64, h.read (by decide) hn]
  rfl

/-- The characters of a text are read up to its zero. -/
theorem read_chars_text (h : At d off (s ++ [0])) (hzero : 0 ∉ s) (hn : s.length < n) : read_chars d n off = some s := by
  induction s generalizing off n with
  | nil =>
    obtain ⟨n, rfl⟩ := Nat.exists_eq_succ_of_ne_zero (Nat.ne_of_gt hn)
    rw [read_chars, (Bytes.at_cons.mp h).1]
    rfl
  | cons c s ih =>
    obtain ⟨n, rfl⟩ := Nat.exists_eq_succ_of_ne_zero (Nat.ne_of_gt (Nat.lt_of_le_of_lt (Nat.zero_le _) hn))
    rw [List.cons_append, Bytes.at_cons] at h
    rw [List.mem_cons, not_or] at hzero
    have hrest : read_chars d n (off + 1) = some s := ih h.2 hzero.2 (Nat.lt_of_succ_lt_succ hn)
    rw [read_chars, h.1, hrest]
    simp [Ne.symm hzero.1]

theorem read_cstring_at_text (h : TextAt d off s) : read_cstring_at d off = some s := by
  obtain ⟨hat, hzero, hlength⟩ := h
  have hin := hat.length_le (by simp)
  rw [List.length_append, List.length_singleton] at hin
  rw [read_cstring_at, if_neg (by omega)]
  exact read_chars_text hat hzero (by omega)

end

section

variable {s t : pe_section_t} {sections : List pe_section_t} {rva : UInt32} {off : Nat}

theorem contains_rva_iff (hend : s.rva.toNat + s.extent < 2 ^ 32) :
    s.contains_rva rva = true ↔ s.rva.toNat ≤ rva.toNat ∧ rva.toNat < s.rva.toNat + s.extent := by
  have hsum : (s.rva + (if s.virtual_size = 0 then s.raw_size else s.virtual_size)).toNat = s.rva.toNat + s.extent := by
    rw [pe_section_t.extent] at hend ⊢
    rw [UInt32.toNat_add]
    split at hend <;> simp_all
  simp only [pe_section_t.contains_rva, Bool.and_eq_true, decide_eq_true_eq, ge_iff_le, UInt32.le_iff_toNat_le,
    UInt32.lt_iff_toNat_lt, hsum]

/-- Of sections that are apart only one contains an address. -/
theorem find_section (hapart : sections.Pairwise pe_section_t.Apart)
    (hend : ∀ s ∈ sections, s.rva.toNat + s.extent < 2 ^ 32) (hs : s ∈ sections) (hcontains : s.contains_rva rva = true) :
    sections.find? (fun s => s.contains_rva rva) = some s := by
  induction sections with
  | nil => cases hs
  | cons t sections ih =>
    obtain ⟨hfirst, hrest⟩ := List.pairwise_cons.mp hapart
    obtain ⟨ht, hends⟩ := List.forall_mem_cons.mp hend
    cases hother : t.contains_rva rva with
    | true =>
      rcases List.mem_cons.mp hs with rfl | hs
      · simp [hother]
      · have hin := (contains_rva_iff ht).mp hother
        have hin' := (contains_rva_iff (hends s hs)).mp hcontains
        rcases hfirst s hs with hbelow | habove <;> omega
    | false =>
      have hne : s ≠ t := by
        rintro rfl
        rw [hcontains] at hother
        cases hother
      rw [List.find?_cons, hother]
      exact ih hrest hends ((List.mem_cons.mp hs).resolve_left hne)

/-- An address that is backed by a section has its offset. -/
theorem rva_to_offset_backed {img : pe_image_t} {f : pe_file_t} (hsections : img.sections = f.sections) (hmapped : f.Mapped)
    (h : Backed f.sections rva off) : img.rva_to_offset rva = some off := by
  obtain ⟨s, hs, hge, hlt, hraw, rfl⟩ := h
  have hfind := find_section hmapped.apart hmapped.end_lt hs ((contains_rva_iff (hmapped.end_lt s hs)).mpr ⟨hge, hlt⟩)
  have hsub : (rva - s.rva).toNat = rva.toNat - s.rva.toNat := UInt32.toNat_sub_of_le _ _ (UInt32.le_iff_toNat_le.mpr hge)
  rw [pe_image_t.rva_to_offset, hsections, hfind]
  dsimp only
  rw [if_neg, hsub]
  rw [ge_iff_le, UInt32.le_iff_toNat_le, hsub]
  omega

end

section

variable {d : List UInt8} {off : Nat}

theorem read_section_at {s : pe_section_t} (h : s.At d off) : read_section d off = some s := by
  obtain ⟨hname, hfields, hcharacteristics⟩ := h
  simp only [Bytes.at_append, List.length_append, Bytes.length_le, hname] at hfields
  obtain ⟨⟨⟨⟨hat, hvirtual⟩, hrva⟩, hraw⟩, hoffset⟩ := hfields
  have hbytes : le 8 (Bytes.of_le s.name) = s.name := hname ▸ Bytes.le_of_le s.name
  have hlt : Bytes.of_le s.name < 256 ^ 8 := hname ▸ Bytes.of_le_lt s.name
  have hread : Bytes.read 8 d off = some (Bytes.of_le s.name) := At.read (hbytes.symm ▸ hat) (by decide) hlt
  rw [read_section, hread, rd32_at hvirtual, rd32_at hrva, rd32_at hraw, rd32_at hoffset, rd32_at hcharacteristics]
  simp [hbytes]

theorem read_sections_at {sections : List pe_section_t}
    (h : ∀ i (hi : i < sections.length), (sections[i]).At d (off + i * 40)) :
    read_sections d sections.length off = some sections := by
  induction sections generalizing off with
  | nil => rfl
  | cons s sections ih =>
    have hfirst : s.At d (off + 0 * 40) := h 0 (Nat.succ_pos _)
    rw [Nat.zero_mul, Nat.add_zero] at hfirst
    have hrest : read_sections d sections.length (off + 40) = some sections := by
      refine ih fun i hi => ?_
      have hnext := h (i + 1) (by simpa using hi)
      rw [Nat.add_mul, Nat.one_mul, Nat.add_comm (i * 40), ← Nat.add_assoc] at hnext
      exact hnext
    rw [List.length_cons, read_sections, read_section_at hfirst, hrest]
    rfl

/-- The directories are those that are in their places, as far as these are in the file. -/
theorem read_data_dirs_get {n : Nat} {dirs : List pe_data_dir_t} (hread : read_data_dirs d n off = some dirs) {i : Nat}
    (hi : i < n) : dirs.getD i {} =
      if off + i * 8 + 8 ≤ d.length then
        { rva := (rd32 d (off + i * 8)).getD 0, size := (rd32 d (off + i * 8 + 4)).getD 0 }
      else {} := by
  induction n generalizing off dirs i with
  | zero => cases hi
  | succ n ih =>
    rw [read_data_dirs] at hread
    by_cases hin : off + 8 > d.length
    · rw [if_pos hin, Option.some.injEq] at hread
      rw [if_neg (by omega), ← hread, List.getD_eq_getElem?_getD, List.getElem?_replicate_of_lt hi]
      rfl
    · obtain ⟨rva, hrva⟩ := Option.isSome_iff_exists.mp (rd32_isSome.mpr (show off + 4 ≤ d.length by omega))
      obtain ⟨size, hsize⟩ := Option.isSome_iff_exists.mp (rd32_isSome.mpr (show off + 4 + 4 ≤ d.length by omega))
      obtain ⟨rest, hrest⟩ := Option.isSome_iff_exists.mp (show (read_data_dirs d n (off + 8)).isSome from read_data_dirs_isSome)
      simp only [if_neg hin, hrva, hsize, hrest, Option.bind_eq_bind, Option.bind_some] at hread
      cases hread
      cases i with
      | zero =>
        rw [if_pos (by omega), Nat.zero_mul, Nat.add_zero off, hrva, hsize]
        rfl
      | succ i =>
        have hplace : off + 8 + i * 8 = off + (i + 1) * 8 := by omega
        rw [List.getD_cons_succ, ih hrest (Nat.lt_of_succ_lt_succ hi), hplace]

section

variable {f : pe_file_t} {exp imp : pe_data_dir_t} {e_lfanew opt_size num_dirs : Nat}

/-- A directory that the optional header has is what is in its place. -/
theorem slot_of_directory {i : Nat} {dir : pe_data_dir_t} (hi : i < num_dirs)
    (hsize : dirs_at f.pe32plus + num_dirs * 8 ≤ opt_size)
    (hdir : pe_file_t.Directory d (e_lfanew + 24 + dirs_at f.pe32plus) num_dirs i dir) : f.slot d e_lfanew opt_size i = dir := by
  rw [pe_file_t.Directory, if_pos hi] at hdir
  have hin := hdir.length_le (by simp [le])
  simp only [Bytes.at_append, List.length_append, Bytes.length_le] at hdir hin
  rw [pe_file_t.slot, if_pos ⟨by omega, by omega⟩, rd32_at hdir.1, rd32_at hdir.2]
  rfl

/-- The data directories are those in their places. -/
theorem read_dirs_at {opt dd_off : UInt16} (hopt : opt.toNat = opt_size)
    (hdd : dd_off.toNat = e_lfanew + 24 + dirs_at f.pe32plus) :
    ∃ dirs, read_dirs d opt f.pe32plus dd_off = some dirs ∧ ∀ i < 16, dirs.getD i {} = f.slot d e_lfanew opt_size i := by
  obtain ⟨dirs, hdirs⟩ := Option.isSome_iff_exists.mp (show (read_dirs d opt f.pe32plus dd_off).isSome from read_dirs_isSome)
  refine ⟨dirs, hdirs, fun i hi => ?_⟩
  rw [read_dirs, hopt, hdd] at hdirs
  rw [pe_file_t.slot]
  by_cases hfirst : dirs_at f.pe32plus + 8 ≤ opt_size
  · rw [if_pos hfirst] at hdirs
    simp only [read_data_dirs_get hdirs hi, hfirst, true_and]
  · rw [if_neg hfirst, Option.some.injEq] at hdirs
    rw [← hdirs, List.getD_eq_getElem?_getD, List.getElem?_replicate_of_lt hi]
    simp [hfirst]

/-- The optional header and the sections are read as they are described. -/
theorem read_optional_header_at (h : f.Headers d exp imp e_lfanew opt_size num_dirs) {img : pe_image_t}
    {opt_header_off opt num_sections : UInt16} (hoff : opt_header_off.toNat = e_lfanew + 24) (hopt : opt.toNat = opt_size)
    (hnum : num_sections.toNat = f.sections.length) :
    ∃ img', read_optional_header d img opt_header_off opt num_sections = some img' ∧ img'.ok = true ∧
      img'.pe32plus = f.pe32plus ∧ img'.sections = f.sections ∧ ∀ i < 16, img'.dir i = f.slot d e_lfanew opt_size i := by
  have hbelow := h.below
  have hsize := h.size_ge
  have hinside := h.inside
  have hdirs_at := dirs_at_bounds f.pe32plus
  have hmagic : rd16 d (e_lfanew + 24) = some (if f.pe32plus then 0x20B else 0x10B) := by
    have hat := h.opt_magic
    cases hplus : f.pe32plus <;> rw [hplus] at hat <;> exact rd16_at hat
  have hdd : (opt_header_off + (dirs_at f.pe32plus).toUInt16).toNat = e_lfanew + 24 + dirs_at f.pe32plus := by
    rw [UInt16.toNat_add, hoff, Nat.toUInt16_eq, UInt16.toNat_ofNat']
    omega
  obtain ⟨dirs, hdirs, hslots⟩ := read_dirs_at (d := d) hopt hdd
  obtain ⟨image_base, hbase⟩ := Option.isSome_iff_exists.mp (show (read_image_base d (e_lfanew + 24) f.pe32plus).isSome from
    read_image_base_isSome (by omega))
  obtain ⟨entry_rva, hentry⟩ := Option.isSome_iff_exists.mp (rd32_isSome.mpr (show e_lfanew + 24 + 16 + 4 ≤ d.length by omega))
  obtain ⟨subsystem, hsubsystem⟩ := Option.isSome_iff_exists.mp
    (rd16_isSome.mpr (show e_lfanew + 24 + 68 + 2 ≤ d.length by omega))
  obtain ⟨size_of_image, himage⟩ := Option.isSome_iff_exists.mp
    (rd32_isSome.mpr (show e_lfanew + 24 + 56 + 4 ≤ d.length by omega))
  have hsections := read_sections_at h.sections
  have hplus : (decide ((if f.pe32plus then 0x20B else 0x10B : UInt16) = 0x20B)) = f.pe32plus := by
    cases f.pe32plus <;> decide
  have hknown : ¬ ((if f.pe32plus then 0x20B else 0x10B : UInt16) ≠ 0x10B ∧
      (if f.pe32plus then 0x20B else 0x10B : UInt16) ≠ 0x20B) := by
    cases f.pe32plus <;> decide
  rw [read_optional_header]
  simp only [hoff, hopt, hnum, hmagic, hbase, hentry, hsubsystem, himage, hdirs, hsections, hplus, if_neg hknown,
    Option.bind_eq_bind, Option.bind_some]
  rw [if_neg (by omega), if_neg (by omega)]
  exact ⟨_, rfl, rfl, rfl, rfl, hslots⟩

theorem toNat_e_lfanew_add (h : f.Headers d exp imp e_lfanew opt_size num_dirs) {k : UInt32} (hk : k.toNat < 65536) :
    (e_lfanew.toUInt32 + k).toNat = e_lfanew + k.toNat := by
  have hbelow := h.below
  rw [UInt32.toNat_add, Nat.toUInt32_eq, UInt32.toNat_ofNat']
  omega

/-- The new header is found where it is described. -/
theorem e_lfanew_eq (h : f.Headers d exp imp e_lfanew opt_size num_dirs) :
    slop.core.disasm.e_lfanew d = e_lfanew.toUInt32 := by
  have hbelow := h.below
  have hrd : rd32 d 0x3C = some e_lfanew.toUInt32 := rd32_at_nat h.place (by omega)
  rw [rd32_e_lfanew h.dos] at hrd
  exact Option.some.inj hrd

theorem located_of_headers (h : f.Headers d exp imp e_lfanew opt_size num_dirs) : Located d := by
  have hbelow := h.below
  have hinside := h.inside
  have hsize := h.size_ge
  have hdirs := dirs_at_bounds f.pe32plus
  have hplace : e_lfanew.toUInt32.toNat = e_lfanew := by simpa using toNat_e_lfanew_add h (k := 0) (by decide)
  have hend : (e_lfanew.toUInt32 + 24).toNat = e_lfanew + 24 := toNat_e_lfanew_add h (by decide)
  obtain ⟨hm, hz⟩ := Bytes.at_cons.mp h.magic
  have hne : e_lfanew ≠ 0 := by
    -- the signature does not begin as the file does
    rintro rfl
    have hp := (Bytes.at_cons.mp h.signature).1
    rw [hm] at hp
    exact absurd hp (by decide)
  refine ⟨⟨h.dos, hm, (Bytes.at_cons.mp hz).1⟩, ?_, ?_⟩
  · rw [e_lfanew_eq h]
    intro hzero
    rw [hzero] at hplace
    exact hne hplace.symm
  · rw [e_lfanew_eq h]
    omega

/-- The headers are read as they are described. -/
theorem read_headers_at (h : f.Headers d exp imp e_lfanew opt_size num_dirs) :
    ∃ img, read_headers d = some img ∧ img.ok = true ∧ img.pe32plus = f.pe32plus ∧ img.sections = f.sections ∧
      ∀ i < 16, img.dir i = f.slot d e_lfanew opt_size i := by
  have hbelow := h.below
  have hsize := h.size_ge
  have hinside := h.inside
  have hsections := h.sections_lt
  have hdirs := dirs_at_bounds f.pe32plus
  have hplace : e_lfanew.toUInt32.toNat = e_lfanew := by simpa using toNat_e_lfanew_add h (k := 0) (by decide)
  have hcoff : (e_lfanew.toUInt32 + 4).toNat = e_lfanew + 4 := toNat_e_lfanew_add h (by decide)
  have hend : (e_lfanew.toUInt32 + 24).toNat = e_lfanew + 24 := toNat_e_lfanew_add h (by decide)
  obtain ⟨machine, hmachine⟩ := Option.isSome_iff_exists.mp (rd16_isSome.mpr (show e_lfanew + 4 + 2 ≤ d.length by omega))
  have hnum := rd16_at_nat h.num_sections hsections
  have hopt := rd16_at_nat h.size (by omega)
  have hnum' : f.sections.length.toUInt16.toNat = f.sections.length := by
    rw [Nat.toUInt16_eq, UInt16.toNat_ofNat']
    omega
  have hopt' : opt_size.toUInt16.toNat = opt_size := by
    rw [Nat.toUInt16_eq, UInt16.toNat_ofNat']
    omega
  have hoff : (e_lfanew.toUInt32 + 24).toUInt16.toNat = e_lfanew + 24 := by
    rw [UInt32.toNat_toUInt16, hend]
    omega
  have hcheck : ¬ (opt_size.toUInt16 = 0 ∨
      (e_lfanew.toUInt32 + 24).toUInt16.toNat + opt_size.toUInt16.toNat > d.length) := by
    rintro (hzero | hbeyond)
    · rw [hzero, UInt16.toNat_zero] at hopt'
      omega
    · omega
  have hall : ∃ img, read_optional_header d { machine } _ _ _ = some img ∧ _ := read_optional_header_at h hoff hopt' hnum'
  obtain ⟨img, himg, hfields⟩ := hall
  refine ⟨img, ?_, hfields⟩
  rw [(located_of_headers h).read_headers, e_lfanew_eq h, read_file_header, hplace, h.signature.read (by decide) (by decide)]
  simp only [hcoff, hmachine, hnum, hopt, Option.bind_eq_bind, Option.bind_some, ne_eq, not_true, if_false, if_neg hcheck]
  rw [if_neg (by omega)]
  exact himg

end

end

end slop.core.disasm
