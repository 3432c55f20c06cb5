import ReverseSlop.Core.Disasm.PeTables

namespace slop.core.disasm

open Bytes (At le)

/-- The headers of an image, from the signature to the end of the section table. -/
structure nt_headers_t where
  bytes : List UInt8
  machine : UInt16
  num_sections : UInt16
  opt_size : UInt16
  pe32plus : Bool
  signature : Bytes.read 4 bytes 0 = some pe_signature
  machine_at : rd16 bytes 4 = some machine
  num_sections_at : rd16 bytes 6 = some num_sections
  opt_size_at : rd16 bytes 20 = some opt_size
  magic_at : rd16 bytes 24 = some (if pe32plus then 0x20B else 0x10B)
  room : dirs_at pe32plus ≤ opt_size.toNat
  length_eq : bytes.length = 24 + opt_size.toNat + num_sections.toNat * 40

/-- A file has the headers in the place that its DOS header gives. -/
structure nt_headers_t.Hosted (hs : nt_headers_t) (e_lfanew : UInt32) (d : List UInt8) : Prop where
  magic : At d 0 [0x4D, 0x5A]
  place : At d 0x3C (le 4 e_lfanew.toNat)
  headers : At d e_lfanew.toNat hs.bytes

/-- Two images are the same as far as their headers are concerned. -/
structure pe_image_t.Same (img img' : pe_image_t) : Prop where
  ok : img.ok = img'.ok
  machine : img.machine = img'.machine
  image_base : img.image_base = img'.image_base
  entry_rva : img.entry_rva = img'.entry_rva
  sections : img.sections = img'.sections
  data_dirs : img.data_dirs = img'.data_dirs

/-- The headers are read in their place as they are read right behind the DOS header. -/
def nt_headers_t.Independent (hs : nt_headers_t) (e_lfanew : UInt32) : Prop :=
  ∀ d d', hs.Hosted e_lfanew d → hs.Hosted 0x40 d' →
    ∃ img img', pe_parse d = some img ∧ pe_parse d' = some img' ∧ img.Same img'

/-- The offset of the optional header has 16 bits. Where directories are read, so has theirs, and all sixteen of
them are in the headers. -/
structure nt_headers_t.Within (hs : nt_headers_t) (e_lfanew : UInt32) : Prop where
  opt : e_lfanew.toNat + 24 < 65536
  dirs : dirs_at hs.pe32plus + 8 ≤ hs.opt_size.toNat →
    e_lfanew.toNat + 24 + dirs_at hs.pe32plus < 65536 ∧ 24 + dirs_at hs.pe32plus + 16 * 8 ≤ hs.bytes.length

theorem pe_image_t.Same.symm {img img' : pe_image_t} (h : img.Same img') : img'.Same img :=
  ⟨h.ok.symm, h.machine.symm, h.image_base.symm, h.entry_rva.symm, h.sections.symm, h.data_dirs.symm⟩

theorem pe_image_t.Same.trans {a b c : pe_image_t} (h : a.Same b) (h' : b.Same c) : a.Same c :=
  ⟨h.ok.trans h'.ok, h.machine.trans h'.machine, h.image_base.trans h'.image_base, h.entry_rva.trans h'.entry_rva,
    h.sections.trans h'.sections, h.data_dirs.trans h'.data_dirs⟩

/-- What is read behind the headers leaves them as they are. -/
theorem pe_parse_same {d : List UInt8} {img : pe_image_t} (h : read_headers d = some img) :
    ∃ img', pe_parse d = some img' ∧ img'.Same img := by
  obtain ⟨img', hparse⟩ := Option.isSome_iff_exists.mp (pe_parse_isSome.mpr (Option.isSome_iff_exists.mpr ⟨img, h⟩))
  refine ⟨img', hparse, ?_⟩
  rw [pe_parse, h, Option.bind_eq_bind, Option.bind_some] at hparse
  split at hparse
  · cases hparse
    exact ⟨rfl, rfl, rfl, rfl, rfl, rfl⟩
  · simp only [Option.bind_eq_bind, Option.bind_eq_some_iff] at hparse
    obtain ⟨imports, -, exports, -, runtime_funcs, -, himg⟩ := hparse
    cases himg
    exact ⟨rfl, rfl, rfl, rfl, rfl, rfl⟩

section

variable {d s : List UInt8} {off k n : Nat}

theorem rd16_add (h : At d off s) (hin : k + 2 ≤ s.length) : rd16 d (off + k) = rd16 s k := by
  rw [rd16, rd16, h.read_add (by decide) hin]

theorem rd32_add (h : At d off s) (hin : k + 4 ≤ s.length) : rd32 d (off + k) = rd32 s k := by
  rw [rd32, rd32, h.read_add (by decide) hin]

theorem rd64_add (h : At d off s) (hin : k + 8 ≤ s.length) : rd64 d (off + k) = rd64 s k := by
  rw [rd64, rd64, h.read_add (by decide) hin]

theorem at_of_rd16 {v : UInt16} (h : rd16 d off = some v) : At d off (le 2 v.toNat) := by
  obtain ⟨n, hread, rfl⟩ := Option.map_eq_some_iff.mp h
  have hat := Bytes.at_of_read hread
  have hlt : n < 2 ^ 16 := Bytes.read_lt hread
  rwa [Nat.toUInt16_eq, UInt16.toNat_ofNat', Nat.mod_eq_of_lt hlt]

theorem at_of_rd32 {v : UInt32} (h : rd32 d off = some v) : At d off (le 4 v.toNat) := by
  obtain ⟨n, hread, rfl⟩ := Option.map_eq_some_iff.mp h
  have hat := Bytes.at_of_read hread
  have hlt : n < 2 ^ 32 := Bytes.read_lt hread
  rwa [Nat.toUInt32_eq, UInt32.toNat_ofNat', Nat.mod_eq_of_lt hlt]

theorem read_data_dirs_add (h : At d off s) (hin : k + n * 8 ≤ s.length) :
    read_data_dirs d n (off + k) = read_data_dirs s n k := by
  induction n generalizing k with
  | zero => rfl
  | succ n ih =>
    have hfile := h.length_le (List.ne_nil_of_length_pos (by omega))
    rw [read_data_dirs, read_data_dirs, if_neg (by omega), if_neg (by omega), Nat.add_assoc off k 4, Nat.add_assoc off k 8,
      rd32_add h (by omega), rd32_add h (by omega), ih (by omega)]

theorem read_section_add (h : At d off s) (hin : k + 40 ≤ s.length) : read_section d (off + k) = read_section s k := by
  rw [read_section, read_section, h.read_add (by decide) (by omega)]
  simp only [Nat.add_assoc off k]
  rw [rd32_add h (by omega), rd32_add h (by omega), rd32_add h (by omega), rd32_add h (by omega), rd32_add h (by omega)]

theorem read_sections_add (h : At d off s) (hin : k + n * 40 ≤ s.length) :
    read_sections d n (off + k) = read_sections s n k := by
  induction n generalizing k with
  | zero => rfl
  | succ n ih =>
    rw [read_sections, read_sections, read_section_add h (by omega), Nat.add_assoc off k 40, ih (by omega)]

theorem read_image_base_add {pe32plus : Bool} (h : At d off s) (hin : k + dirs_at pe32plus ≤ s.length) :
    read_image_base d (off + k) pe32plus = read_image_base s k pe32plus := by
  have hdirs := dirs_at_bounds pe32plus
  rw [read_image_base, read_image_base, Nat.add_assoc, Nat.add_assoc, rd64_add h (by omega), rd32_add h (by omega)]

end

namespace nt_headers_t

/-- The offset of the directories, as it is computed. -/
def dd_off (hs : nt_headers_t) (e_lfanew : UInt32) : UInt16 :=
  (e_lfanew + 24).toUInt16 + (dirs_at hs.pe32plus).toUInt16

variable {hs : nt_headers_t} {e_lfanew : UInt32} {d : List UInt8}

theorem Hosted.length_le (h : hs.Hosted e_lfanew d) : e_lfanew.toNat + hs.bytes.length ≤ d.length := by
  have hlength := hs.length_eq
  exact h.headers.length_le (List.ne_nil_of_length_pos (by omega))

theorem Hosted.e_lfanew_eq (h : hs.Hosted e_lfanew d) : slop.core.disasm.e_lfanew d = e_lfanew := by
  have hin := h.place.length_le (by simp [le])
  rw [Bytes.length_le] at hin
  have hread := rd32_at h.place
  rw [rd32_e_lfanew hin] at hread
  exact Option.some.inj hread

/-- The place of the headers passes its check where the sum does not wrap. -/
theorem Hosted.located (h : hs.Hosted e_lfanew d) (hend : e_lfanew.toNat + 24 < 2 ^ 32) : Located d := by
  have hin := h.place.length_le (by simp [le])
  rw [Bytes.length_le] at hin
  have hfile := h.length_le
  have hlength := hs.length_eq
  obtain ⟨hm, hz⟩ := Bytes.at_cons.mp h.magic
  refine ⟨⟨hin, hm, (Bytes.at_cons.mp hz).1⟩, ?_, ?_⟩
  · rw [h.e_lfanew_eq]
    rintro rfl
    -- the signature does not begin as the file does
    have hsignature := h.headers.read_add (by decide) (show 0 + 4 ≤ hs.bytes.length by omega)
    rw [hs.signature] at hsignature
    have hp := (Bytes.at_cons.mp (Bytes.at_of_read hsignature)).1
    rw [UInt32.toNat_zero, hm] at hp
    exact absurd hp (by decide)
  · rw [h.e_lfanew_eq, UInt32.toNat_add]
    simp
    omega

/-- Up to the directories, the optional header and the sections are read alike wherever they are. -/
theorem read_optional_header_eq (hs : nt_headers_t) : ∃ img : pe_image_t, img.ok = true ∧
    ∀ d off (opt_header_off : UInt16) dirs, At d off hs.bytes → opt_header_off.toNat = off + 24 →
      read_dirs d hs.opt_size hs.pe32plus (opt_header_off + (dirs_at hs.pe32plus).toUInt16) = some dirs →
      read_optional_header d { machine := hs.machine } opt_header_off hs.opt_size hs.num_sections =
        some { img with data_dirs := dirs } := by
  have hlength := hs.length_eq
  have hroom := hs.room
  have hdirs_at := dirs_at_bounds hs.pe32plus
  obtain ⟨image_base, hbase⟩ := Option.isSome_iff_exists.mp (show (read_image_base hs.bytes 24 hs.pe32plus).isSome from
    read_image_base_isSome (by omega))
  obtain ⟨entry_rva, hentry⟩ := Option.isSome_iff_exists.mp (rd32_isSome.mpr (show 24 + 16 + 4 ≤ hs.bytes.length by omega))
  obtain ⟨subsystem, hsubsystem⟩ := Option.isSome_iff_exists.mp
    (rd16_isSome.mpr (show 24 + 68 + 2 ≤ hs.bytes.length by omega))
  obtain ⟨size_of_image, hsize⟩ := Option.isSome_iff_exists.mp
    (rd32_isSome.mpr (show 24 + 56 + 4 ≤ hs.bytes.length by omega))
  obtain ⟨sections, hsections⟩ := Option.isSome_iff_exists.mp
    (read_sections_isSome (show 24 + hs.opt_size.toNat + hs.num_sections.toNat * 40 ≤ hs.bytes.length by omega))
  let img : pe_image_t :=
    { ok := true, machine := hs.machine, pe32plus := hs.pe32plus, image_base, entry_rva, subsystem, size_of_image, sections }
  refine ⟨img, rfl, ?_⟩
  intro d off opt_header_off dirs hat hoff hdirs
  have hfile := hat.length_le (List.ne_nil_of_length_pos (by omega))
  have hplus : (decide ((if hs.pe32plus then 0x20B else 0x10B : UInt16) = 0x20B)) = hs.pe32plus := by
    cases hs.pe32plus <;> decide
  have hknown : ¬ ((if hs.pe32plus then 0x20B else 0x10B : UInt16) ≠ 0x10B ∧
      (if hs.pe32plus then 0x20B else 0x10B : UInt16) ≠ 0x20B) := by
    cases hs.pe32plus <;> decide
  rw [read_optional_header]
  simp only [hoff, Nat.add_assoc off 24, rd16_add hat (show 24 + 2 ≤ hs.bytes.length by omega),
    rd32_add hat (show 24 + 16 + 4 ≤ hs.bytes.length by omega), rd16_add hat (show 24 + 68 + 2 ≤ hs.bytes.length by omega),
    rd32_add hat (show 24 + 56 + 4 ≤ hs.bytes.length by omega),
    read_image_base_add hat (show 24 + dirs_at hs.pe32plus ≤ hs.bytes.length by omega),
    read_sections_add hat (show 24 + hs.opt_size.toNat + hs.num_sections.toNat * 40 ≤ hs.bytes.length by omega),
    hs.magic_at, hbase, hentry, hsubsystem, hsize, hsections, hplus, hdirs, if_neg hknown, Option.bind_eq_bind, Option.bind_some]
  rw [if_neg (by omega), if_neg (by omega)]
  rfl

/-- So are the headers in a file, where the offset of the optional header has 16 bits. -/
theorem read_headers_eq (hs : nt_headers_t) : ∃ img : pe_image_t, img.ok = true ∧
    ∀ d e_lfanew dirs, hs.Hosted e_lfanew d → e_lfanew.toNat + 24 < 65536 →
      read_dirs d hs.opt_size hs.pe32plus (hs.dd_off e_lfanew) = some dirs →
      read_headers d = some { img with data_dirs := dirs } := by
  obtain ⟨img, hok, hoptional⟩ := hs.read_optional_header_eq
  refine ⟨img, hok, ?_⟩
  intro d e_lfanew dirs h hopt hdirs
  have hfile := h.length_le
  have hlength := hs.length_eq
  have hroom := hs.room
  have hat := h.headers
  have hdirs_at := dirs_at_bounds hs.pe32plus
  have hcoff : (e_lfanew + 4).toNat = e_lfanew.toNat + 4 := by
    rw [UInt32.toNat_add]
    simp
    omega
  have hoff : (e_lfanew + 24).toUInt16.toNat = e_lfanew.toNat + 24 := by
    rw [UInt32.toNat_toUInt16, UInt32.toNat_add]
    simp
    omega
  have hread : Bytes.read 4 d e_lfanew.toNat = some pe_signature := by
    rw [← hs.signature]
    exact hat.read_add (by decide) (show 0 + 4 ≤ hs.bytes.length by omega)
  have hcheck : ¬ (hs.opt_size = 0 ∨ (e_lfanew + 24).toUInt16.toNat + hs.opt_size.toNat > d.length) := by
    rintro (hzero | hbeyond)
    · rw [hzero, UInt16.toNat_zero] at hroom
      omega
    · omega
  rw [(h.located (by omega)).read_headers, h.e_lfanew_eq, read_file_header]
  simp only [hread, hcoff, Nat.add_assoc e_lfanew.toNat 4, rd16_add hat (show 4 + 2 ≤ hs.bytes.length by omega),
    rd16_add hat (show 4 + 2 + 2 ≤ hs.bytes.length by omega), rd16_add hat (show 4 + 16 + 2 ≤ hs.bytes.length by omega),
    hs.machine_at, hs.num_sections_at, hs.opt_size_at, Option.bind_eq_bind, Option.bind_some, ne_eq, not_true, if_false,
    if_neg hcheck]
  rw [if_neg (by omega)]
  exact hoptional d e_lfanew.toNat _ dirs hat hoff hdirs

/-- All sixteen directories are read in the headers, or none is. -/
theorem Within.read_dirs_eq (h : hs.Within e_lfanew) (hd : hs.Hosted e_lfanew d) :
    read_dirs d hs.opt_size hs.pe32plus (hs.dd_off e_lfanew) =
      if hs.opt_size.toNat ≥ dirs_at hs.pe32plus + 8 then read_data_dirs hs.bytes 16 (24 + dirs_at hs.pe32plus)
      else some (List.replicate 16 {}) := by
  rw [read_dirs]
  by_cases hroom : hs.opt_size.toNat ≥ dirs_at hs.pe32plus + 8
  · obtain ⟨hbelow, hin⟩ := h.dirs hroom
    have hdd : (hs.dd_off e_lfanew).toNat = e_lfanew.toNat + (24 + dirs_at hs.pe32plus) := by
      rw [dd_off, UInt16.toNat_add, UInt32.toNat_toUInt16, UInt32.toNat_add, Nat.toUInt16_eq, UInt16.toNat_ofNat']
      simp
      omega
    rw [if_pos hroom, if_pos hroom, hdd, read_data_dirs_add hd.headers hin]
  · rw [if_neg hroom, if_neg hroom]

theorem Within.independent (h : hs.Within e_lfanew) : hs.Independent e_lfanew := by
  intro d d' hd hd'
  have hfirst : hs.Within 0x40 := by
    refine ⟨by decide, fun hroom => ⟨?_, (h.dirs hroom).2⟩⟩
    have hdirs_at := dirs_at_bounds hs.pe32plus
    show 64 + 24 + dirs_at hs.pe32plus < 65536
    omega
  obtain ⟨img, -, hread⟩ := hs.read_headers_eq
  obtain ⟨dirs, hdirs⟩ := Option.isSome_iff_exists.mp
    (show (read_dirs d hs.opt_size hs.pe32plus (hs.dd_off e_lfanew)).isSome from read_dirs_isSome)
  have hdirs' : read_dirs d' hs.opt_size hs.pe32plus (hs.dd_off 0x40) = some dirs := by
    rw [hfirst.read_dirs_eq hd', ← h.read_dirs_eq hd, hdirs]
  obtain ⟨out, hout, hsame⟩ := pe_parse_same (hread d e_lfanew dirs hd h.opt hdirs)
  obtain ⟨out', hout', hsame'⟩ := pe_parse_same (hread d' 0x40 dirs hd' hfirst.opt hdirs')
  exact ⟨out, out', hout, hout', hsame.trans hsame'.symm⟩

/-- A file with the headers behind nothing but zeros. -/
def host (hs : nt_headers_t) (e_lfanew : UInt32) : List UInt8 :=
  [0x4D, 0x5A] ++ List.replicate 58 0 ++ le 4 e_lfanew.toNat ++ List.replicate (e_lfanew.toNat - 0x40) 0 ++ hs.bytes

theorem hosted_host (hplace : 0x40 ≤ e_lfanew.toNat) : hs.Hosted e_lfanew (hs.host e_lfanew) := by
  have hwhole : At (hs.host e_lfanew) 0 (hs.host e_lfanew) := List.prefix_rfl
  have hparts := hwhole
  conv at hparts => rhs; rw [host]
  simp only [Bytes.at_append, List.length_append, Bytes.length_le, List.length_replicate, List.length_cons,
    List.length_nil] at hparts
  obtain ⟨⟨⟨⟨hmagic, -⟩, hfield⟩, -⟩, hheaders⟩ := hparts
  have hend : 0 + (0 + 1 + 1 + 58 + 4 + (e_lfanew.toNat - 0x40)) = e_lfanew.toNat := by omega
  rw [hend] at hheaders
  exact ⟨hmagic, hfield, hheaders⟩

/-- The bytes that the headers and their place do not say are others, and more of them are behind the headers. -/
def refill (hs : nt_headers_t) (e_lfanew : UInt32) (d : List UInt8) (b : UInt8) : List UInt8 :=
  (d.take (e_lfanew.toNat + hs.bytes.length)).mapIdx
    (fun p c => if p < 2 ∨ 0x3C ≤ p ∧ p < 0x40 ∨ e_lfanew.toNat ≤ p then c else b) ++ List.replicate 128 b

section

variable {b : UInt8} {p : Nat}

theorem refill_kept (h : hs.Hosted e_lfanew d) (hp : p < 2 ∨ 0x3C ≤ p ∧ p < 0x40 ∨ e_lfanew.toNat ≤ p)
    (hin : p < e_lfanew.toNat + hs.bytes.length) : (hs.refill e_lfanew d b)[p]? = d[p]? := by
  have hfile := h.length_le
  rw [refill, List.getElem?_append_left (by simp; omega), List.getElem?_mapIdx, List.getElem?_take_of_lt hin]
  simp only [if_pos hp, Option.map_id']

theorem refill_other (h : hs.Hosted e_lfanew d)
    (hp : ¬ (p < 2 ∨ 0x3C ≤ p ∧ p < 0x40 ∨ e_lfanew.toNat ≤ p) ∨ e_lfanew.toNat + hs.bytes.length ≤ p)
    (hin : p < e_lfanew.toNat + hs.bytes.length + 128) : (hs.refill e_lfanew d b)[p]? = some b := by
  have hfile := h.length_le
  by_cases hbehind : e_lfanew.toNat + hs.bytes.length ≤ p
  · rw [refill, List.getElem?_append_right (by simp; omega)]
    exact List.getElem?_replicate_of_lt (by simp; omega)
  · have hother := hp.resolve_right hbehind
    rw [refill, List.getElem?_append_left (by simp; omega), List.getElem?_mapIdx, List.getElem?_take_of_lt (by omega),
      List.getElem?_eq_getElem (by omega), Option.map_some, if_neg hother]

theorem Hosted.refill (h : hs.Hosted e_lfanew d) (b : UInt8) : hs.Hosted e_lfanew (hs.refill e_lfanew d b) := by
  have hlength := hs.length_eq
  have hroom := hs.room
  have hdirs_at := dirs_at_bounds hs.pe32plus
  refine ⟨Bytes.at_iff.mpr fun i hi => ?_, Bytes.at_iff.mpr fun i hi => ?_, Bytes.at_iff.mpr fun i hi => ?_⟩
  · rw [refill_kept h (.inl (by simpa using hi)) (by simp at hi; omega)]
    exact Bytes.at_iff.mp h.magic i hi
  · rw [Bytes.length_le] at hi
    rw [refill_kept h (by omega) (by omega)]
    exact Bytes.at_iff.mp h.place i (by rw [Bytes.length_le]; exact hi)
  · rw [refill_kept h (by omega) (by omega)]
    exact Bytes.at_iff.mp h.headers i hi

end

/-- Files with the headers in their place are read alike. -/
theorem Independent.agree (h : hs.Independent e_lfanew) {d d' : List UInt8} (hd : hs.Hosted e_lfanew d)
    (hd' : hs.Hosted e_lfanew d') :
    ∃ img img', read_headers d = some img ∧ read_headers d' = some img' ∧ img.ok = true ∧ img.Same img' := by
  have hfirst : hs.Hosted 0x40 (hs.host 0x40) := hosted_host (by decide)
  obtain ⟨img, hok, hread⟩ := hs.read_headers_eq
  obtain ⟨dirs, hdirs⟩ := Option.isSome_iff_exists.mp
    (show (read_dirs (hs.host 0x40) hs.opt_size hs.pe32plus (hs.dd_off 0x40)).isSome from read_dirs_isSome)
  obtain ⟨first, hparse, hsame⟩ := pe_parse_same (hread _ 0x40 dirs hfirst (by decide) hdirs)
  have hokay : first.ok = true := hsame.ok.trans hok
  have hcase : ∀ c, hs.Hosted e_lfanew c → ∃ img, read_headers c = some img ∧ img.Same first := by
    intro c hc
    obtain ⟨out, out', hout, hout', hagree⟩ := h c _ hc hfirst
    rw [hparse] at hout'
    cases hout'
    obtain ⟨img, himg⟩ := Option.isSome_iff_exists.mp (pe_parse_isSome.mp (Option.isSome_iff_exists.mpr ⟨out, hout⟩))
    obtain ⟨again, hagain, hhead⟩ := pe_parse_same himg
    rw [hout] at hagain
    cases hagain
    exact ⟨img, himg, hhead.symm.trans hagree⟩
  obtain ⟨img, himg, hsame⟩ := hcase d hd
  obtain ⟨img', himg', hsame'⟩ := hcase d' hd'
  exact ⟨img, img', himg, himg', hsame.ok.trans hokay, hsame.trans hsame'.symm⟩

/-- The last directory is read alike too, so no byte of it is one that the headers do not say. -/
theorem Independent.last_dir (h : hs.Independent e_lfanew) (hd : hs.Hosted e_lfanew d)
    (hopt : e_lfanew.toNat + 24 < 65536) (hroom : dirs_at hs.pe32plus + 8 ≤ hs.opt_size.toNat)
    (hother : ¬ ((hs.dd_off e_lfanew).toNat + 127 < 2 ∨
      0x3C ≤ (hs.dd_off e_lfanew).toNat + 127 ∧ (hs.dd_off e_lfanew).toNat + 127 < 0x40 ∨
      e_lfanew.toNat ≤ (hs.dd_off e_lfanew).toNat + 127) ∨
      e_lfanew.toNat + hs.bytes.length ≤ (hs.dd_off e_lfanew).toNat + 127) :
    e_lfanew.toNat + hs.bytes.length + 128 ≤ (hs.dd_off e_lfanew).toNat + 127 := by
  by_contra hin
  rw [Nat.not_le] at hin
  have hfile : ∀ b, (hs.refill e_lfanew d b)[(hs.dd_off e_lfanew).toNat + 127]? = some b :=
    fun b => refill_other hd hother hin
  have hlast : ∀ b dirs, read_dirs (hs.refill e_lfanew d b) hs.opt_size hs.pe32plus (hs.dd_off e_lfanew) = some dirs →
      (le 4 (dirs.getD 15 {}).size.toNat)[3]? = some b := by
    intro b dirs hdirs
    have hlt := (List.getElem?_eq_some_iff.mp (hfile b)).1
    rw [read_dirs, if_pos hroom] at hdirs
    obtain ⟨size, hsize⟩ := Option.isSome_iff_exists.mp
      (rd32_isSome.mpr (show (hs.dd_off e_lfanew).toNat + 15 * 8 + 4 + 4 ≤ (hs.refill e_lfanew d b).length by omega))
    rw [read_data_dirs_get hdirs (by decide), if_pos (by omega), hsize]
    exact (Bytes.at_iff.mp (at_of_rd32 hsize) 3 (by simp [le])).symm.trans (hfile b)
  obtain ⟨img, -, hread⟩ := hs.read_headers_eq
  obtain ⟨zeros, hzeros⟩ := Option.isSome_iff_exists.mp
    (show (read_dirs (hs.refill e_lfanew d 0) hs.opt_size hs.pe32plus (hs.dd_off e_lfanew)).isSome from read_dirs_isSome)
  obtain ⟨ones, hones⟩ := Option.isSome_iff_exists.mp
    (show (read_dirs (hs.refill e_lfanew d 1) hs.opt_size hs.pe32plus (hs.dd_off e_lfanew)).isSome from read_dirs_isSome)
  obtain ⟨out, out', hout, hout', -, hsame⟩ := h.agree (hd.refill 0) (hd.refill 1)
  rw [hread _ _ zeros (hd.refill 0) hopt hzeros] at hout
  rw [hread _ _ ones (hd.refill 1) hopt hones] at hout'
  cases hout
  cases hout'
  have hzero := hlast 0 zeros hzeros
  rw [show zeros = ones from hsame.data_dirs, hlast 1 ones hones] at hzero
  exact absurd hzero (by decide)

end nt_headers_t

/-- The optional header of an image that is read is where the sum of 16 bits says. -/
theorem read_optional_header_ok {d : List UInt8} {img out : pe_image_t} {opt_header_off opt_size num_sections : UInt16}
    (h : read_optional_header d img opt_header_off opt_size num_sections = some out) (himg : img.ok = false)
    (hok : out.ok = true) :
    (rd16 d opt_header_off.toNat = some 0x10B ∨ rd16 d opt_header_off.toNat = some 0x20B) ∧
      rd32 d (opt_header_off.toNat + 16) = some out.entry_rva := by
  simp only [read_optional_header, Option.bind_eq_bind, Option.bind_eq_some_iff] at h
  obtain ⟨magic, hmagic, h⟩ := h
  split at h
  · cases h
    rw [himg] at hok
    cases hok
  rename_i hknown
  have hmagics : rd16 d opt_header_off.toNat = some 0x10B ∨ rd16 d opt_header_off.toNat = some 0x20B := by
    rw [hmagic, Option.some.injEq, Option.some.injEq]
    by_contra hnone
    exact hknown (not_or.mp hnone)
  split at h
  · cases h
    rw [show (_ : pe_image_t).ok = img.ok from rfl, himg] at hok
    cases hok
  simp only [Option.bind_eq_some_iff] at h
  obtain ⟨image_base, -, entry_rva, hentry, subsystem, -, size_of_image, -, data_dirs, -, h⟩ := h
  refine ⟨hmagics, ?_⟩
  split at h
  · cases h
    exact hentry
  · simp only [Option.bind_eq_some_iff] at h
    obtain ⟨sections, -, h⟩ := h
    cases h
    exact hentry

theorem read_headers_ok {d : List UInt8} {img : pe_image_t} (h : read_headers d = some img) (hok : img.ok = true) :
    (rd16 d (e_lfanew d + 24).toUInt16.toNat = some 0x10B ∨ rd16 d (e_lfanew d + 24).toUInt16.toNat = some 0x20B) ∧
      rd32 d ((e_lfanew d + 24).toUInt16.toNat + 16) = some img.entry_rva := by
  have hempty : ∀ {img : pe_image_t}, some ({} : pe_image_t) = some img → img.ok ≠ true := by
    rintro _ ⟨⟩
    decide
  simp only [read_headers, Option.bind_eq_bind] at h
  split at h
  · exact absurd hok (hempty h)
  rename_i hlength
  simp only [Option.bind_eq_some_iff] at h
  obtain ⟨m, -, h⟩ := h
  split at h
  · exact absurd hok (hempty h)
  simp only [Option.bind_eq_some_iff] at h
  obtain ⟨z, -, h⟩ := h
  split at h
  · exact absurd hok (hempty h)
  simp only [Option.bind_eq_some_iff] at h
  obtain ⟨place, hplace, h⟩ := h
  rw [rd32_e_lfanew (by omega), Option.some.injEq] at hplace
  rw [← hplace] at h
  split at h
  · exact absurd hok (hempty h)
  simp only [read_file_header, Option.bind_eq_bind, Option.bind_eq_some_iff] at h
  obtain ⟨signature, -, h⟩ := h
  split at h
  · exact absurd hok (hempty h)
  split at h
  · exact absurd hok (hempty h)
  simp only [Option.bind_eq_some_iff] at h
  obtain ⟨machine, -, num_sections, -, opt_size, -, h⟩ := h
  split at h
  · cases h
    cases hok
  · exact read_optional_header_ok h rfl hok

namespace nt_headers_t

variable {hs : nt_headers_t} {e_lfanew : UInt32} {d : List UInt8}

/-- Where the offset of the optional header has more than 16 bits, what is read in its stead is not what the headers
say. -/
theorem Independent.near (h : hs.Independent e_lfanew) (hd : hs.Hosted e_lfanew d) : e_lfanew.toNat + 24 < 65536 := by
  by_contra hfar
  have hlength := hs.length_eq
  obtain ⟨img, img', himg, himg', hok, hsame⟩ := h.agree (hd.refill 0) (hd.refill 1)
  have hread := read_headers_ok himg hok
  have hread' := read_headers_ok himg' (hsame.ok.symm.trans hok)
  rw [(hd.refill 0).e_lfanew_eq] at hread
  rw [(hd.refill 1).e_lfanew_eq, ← hsame.entry_rva] at hread'
  have hoff : (e_lfanew + 24).toUInt16.toNat = (e_lfanew.toNat + 24) % 65536 := by
    rw [UInt32.toNat_toUInt16, UInt32.toNat_add]
    simp
  have hlt := e_lfanew.toNat_lt
  generalize (e_lfanew + 24).toUInt16.toNat = t at hread hread' hoff
  have hplace : ∀ i (hi : i < 4), (hs.refill e_lfanew d 0)[0x3C + i]? = (le 4 e_lfanew.toNat)[i]? :=
    fun i hi => Bytes.at_iff.mp (hd.refill 0).place i (by rw [Bytes.length_le]; exact hi)
  have hzero : ∀ {p : Nat}, ¬ (p < 2 ∨ 0x3C ≤ p ∧ p < 0x40 ∨ e_lfanew.toNat ≤ p) → (hs.refill e_lfanew d 0)[p]? = some 0 :=
    fun hp => refill_other hd (.inl hp) (by omega)
  -- of the magic, the low byte is not zero, and neither is the high one
  have hlow : (hs.refill e_lfanew d 0)[t]? = some 0x0B := by
    rcases hread.1 with h | h <;> exact (Bytes.at_cons.mp (at_of_rd16 h)).1
  have hhigh : (hs.refill e_lfanew d 0)[t + 1]? ≠ some 0 := by
    rcases hread.1 with h | h <;> rw [(Bytes.at_cons.mp (Bytes.at_cons.mp (at_of_rd16 h)).2).1] <;> decide
  have ht : t = 0x3E := by
    have hkept : t < 2 ∨ 0x3C ≤ t ∧ t < 0x40 ∨ e_lfanew.toNat ≤ t := by
      by_contra hother
      rw [hzero hother] at hlow
      exact absurd hlow (by decide)
    have hcase : t = 0 ∨ t = 1 ∨ t = 0x3C ∨ t = 0x3D ∨ t = 0x3E ∨ t = 0x3F := by omega
    rcases hcase with rfl | rfl | rfl | rfl | ht | rfl
    · rw [(Bytes.at_cons.mp (hd.refill 0).magic).1] at hlow
      exact absurd hlow (by decide)
    · rw [(Bytes.at_cons.mp (Bytes.at_cons.mp (hd.refill 0).magic).2).1] at hlow
      exact absurd hlow (by decide)
    · -- the low bytes of the place are `24h 00h`
      have hbyte : e_lfanew.toNat % 256 = 0x24 := by omega
      rw [hplace 0 (by decide), le, hbyte] at hlow
      have hsame : Nat.toUInt8 0x24 = 0x0B := Option.some.inj hlow
      exact absurd hsame (by decide)
    · have hbyte : e_lfanew.toNat / 256 % 256 = 0 := by omega
      rw [hplace 1 (by decide), le, le, hbyte] at hlow
      have hsame : Nat.toUInt8 0 = 0x0B := Option.some.inj hlow
      exact absurd hsame (by decide)
    · exact ht
    · exact absurd (hzero (by omega)) hhigh
  subst ht
  have hfill : ∀ b, At (hs.refill e_lfanew d b) (0x3E + 16) (List.replicate 4 b) := by
    refine fun b => Bytes.at_iff.mpr fun i hi => ?_
    rw [List.length_replicate] at hi
    rw [refill_other hd (.inl (by omega)) (by omega), List.getElem?_replicate_of_lt hi]
  have hzeros : rd32 (hs.refill e_lfanew d 0) (0x3E + 16) = some 0 := rd32_at (hfill 0)
  have hones : rd32 (hs.refill e_lfanew d 1) (0x3E + 16) = some 0x01010101 := rd32_at (hfill 1)
  rw [hread'.2, ← hread.2, hzeros] at hones
  exact absurd hones (by decide)

/-- The headers are read in their place as right behind the DOS header exactly if the offsets there have 16 bits, and
all directories that are read are in the headers. -/
theorem independent_iff (hs : nt_headers_t) (e_lfanew : UInt32) (hplace : ∃ d, hs.Hosted e_lfanew d) :
    hs.Independent e_lfanew ↔ hs.Within e_lfanew := by
  obtain ⟨d, hd⟩ := hplace
  refine ⟨fun h => ⟨h.near hd, fun hroom => ?_⟩, Within.independent⟩
  have hnear := h.near hd
  have hlast := h.last_dir hd hnear hroom
  have hdirs_at := dirs_at_bounds hs.pe32plus
  have hlength := hs.length_eq
  have hdd : (hs.dd_off e_lfanew).toNat = (e_lfanew.toNat + 24 + dirs_at hs.pe32plus) % 65536 := by
    rw [dd_off, UInt16.toNat_add, UInt32.toNat_toUInt16, UInt32.toNat_add, Nat.toUInt16_eq, UInt16.toNat_ofNat']
    simp
  rw [hdd] at hlast
  omega

end nt_headers_t

/-- The headers of a 64-bit image with sixteen directories and a section. -/
def placed_bytes : List UInt8 :=
  le 4 pe_signature ++ le 2 0x8664 ++ le 2 1 ++ List.replicate 12 0 ++ le 2 240 ++ le 2 0x22 ++ le 2 0x20B ++ List.replicate 14 0 ++
    le 4 0x1000 ++ List.replicate 4 0 ++ le 8 0x140000000 ++ List.replicate 208 0 ++ [0x2E, 0x74, 0x65, 0x78, 0x74, 0, 0, 0] ++
    le 4 0x1000 ++ le 4 0x1000 ++ le 4 0x200 ++ le 4 0x400 ++ List.replicate 12 0 ++ le 4 0x60000020

set_option maxRecDepth 4000 in
def placed : nt_headers_t where
  bytes := placed_bytes
  machine := 0x8664
  num_sections := 1
  opt_size := 240
  pe32plus := true
  signature := by decide
  machine_at := by decide
  num_sections_at := by decide
  opt_size_at := by decide
  magic_at := by decide
  room := by decide
  length_eq := by decide

set_option maxRecDepth 4000 in
theorem placed_independent : placed.Independent 0x100 :=
  (nt_headers_t.independent_iff placed 0x100 ⟨_, nt_headers_t.hosted_host (by decide)⟩).mpr ⟨by decide, fun _ => by decide⟩

/-- The offset of an optional header at `10018h` is taken for `18h`. -/
theorem far_headers_not_read : ¬ ∀ hs e_lfanew, (∃ d, nt_headers_t.Hosted hs e_lfanew d) → hs.Independent e_lfanew := by
  intro hlaw
  have hhosted : placed.Hosted 0x10000 (placed.host 0x10000) := nt_headers_t.hosted_host (by decide)
  exact absurd ((hlaw placed 0x10000 ⟨_, hhosted⟩).near hhosted) (by decide)

end slop.core.disasm
