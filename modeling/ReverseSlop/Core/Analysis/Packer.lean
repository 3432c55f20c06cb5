import ReverseSlop.Core.Analysis.ByteSearch
import ReverseSlop.Core.Disasm.Backing

namespace slop.core.analysis

open Find (FirstFrom)
open Numeral (ascii)
open disasm (pe_image_t pe_section_t)

structure family_sig_t where
  section_name : String
  family : String

def kSectionFamilies : List family_sig_t :=
  [⟨"upx0", "UPX"⟩, ⟨"upx1", "UPX"⟩, ⟨"upx2", "UPX"⟩, ⟨".upx", "UPX"⟩,
   ⟨".vmp", "VMProtect"⟩, ⟨".vmp0", "VMProtect"⟩, ⟨".vmp1", "VMProtect"⟩, ⟨".vmp2", "VMProtect"⟩, ⟨".vmprotect", "VMProtect"⟩,
   ⟨"themida", "Themida/WinLicense"⟩, ⟨".themida", "Themida/WinLicense"⟩, ⟨"winlice", "Themida/WinLicense"⟩,
   ⟨".aspack", "ASPack"⟩, ⟨".adata", "ASPack"⟩, ⟨"asprotect", "ASProtect"⟩, ⟨".aspack", "ASPack"⟩,
   ⟨".nsp0", "NSPack"⟩, ⟨".nsp1", "NSPack"⟩, ⟨".nsp2", "NSPack"⟩,
   ⟨".enigma1", "Enigma Protector"⟩, ⟨".enigma2", "Enigma Protector"⟩, ⟨"mpress1", "MPRESS"⟩, ⟨"mpress2", "MPRESS"⟩,
   ⟨".pec", "PECompact"⟩, ⟨".pec2", "PECompact"⟩, ⟨".pecompact", "PECompact"⟩, ⟨".petite", "Petite"⟩, ⟨".upk", "UPack"⟩,
   ⟨".y0da", "Y0da Crypter"⟩, ⟨".sforce", "StarForce"⟩, ⟨"_winzip_", "WinZip SFX"⟩, ⟨".ndata", "NSIS Installer"⟩,
   ⟨".rlpack", "RLPack"⟩, ⟨".maskpe", "MaskPE"⟩, ⟨".shrink", "Shrinker"⟩, ⟨".obsidium", "Obsidium"⟩,
   ⟨".packed", "Generic packed section"⟩]

def lower_ascii (s : List UInt8) : List UInt8 := s.map fun c => if 65 ≤ c && c ≤ 90 then c + 32 else c

def family_for_section (raw_name : List UInt8) : Option String :=
  let name := lower_ascii raw_name
  let exact_match := kSectionFamilies.find? fun sig => name = ascii sig.section_name
  -- the prefix match catches .vmp1-style variants with numeric suffixes
  let prefix_match := kSectionFamilies.find? fun sig =>
    let pfx := ascii sig.section_name
    pfx.length ≥ 3 && pfx.isPrefixOf name && name[pfx.length]?.any Numeral.is_digit
  (exact_match.or prefix_match).map family_sig_t.family

structure byte_sig_t where
  family : String
  detail : String
  pattern : List UInt8
  mask : List UInt8
  length : Nat

/-- Classic unpacking-stub prologues at or around the entry point. -/
def kEntrySigs : List byte_sig_t :=
  [⟨"UPX", "UPX decompression stub (pushad/mov esi/lea edi)",
     [0x60, 0xBE, 0x00, 0x00, 0x00, 0x00, 0x8D, 0xBE, 0x00, 0x00], [0xFF, 0xFF, 0x00, 0x00, 0x00, 0x00, 0xFF, 0xFF, 0x00, 0x00], 8⟩,
   ⟨"VMProtect", "VMProtect entry stub (push imm32/call rel32)",
     [0x68, 0x00, 0x00, 0x00, 0x00, 0xE8, 0x00, 0x00, 0x00, 0x00], [0xFF, 0x00, 0x00, 0x00, 0x00, 0xFF, 0x00, 0x00, 0x00, 0x00], 10⟩,
   ⟨"Themida/WinLicense", "Themida stolen-code entry (mov eax,imm/pushad/rdtsc)",
     [0xB8, 0x00, 0x00, 0x00, 0x00, 0x60, 0x0F, 0x31, 0x00, 0x00], [0xFF, 0x00, 0x00, 0x00, 0x00, 0xFF, 0xFF, 0xFF, 0x00, 0x00], 8⟩]

def kProtectorStrings : List content_t :=
  [⟨ascii "VMProtect", by decide⟩, ⟨ascii "Themida", by decide⟩, ⟨ascii "WinLicense", by decide⟩,
   ⟨ascii "Oreans Technologies", by decide⟩, ⟨ascii "ASProtect", by decide⟩, ⟨ascii "Enigma protector", by decide⟩,
   ⟨ascii "PECompact", by decide⟩, ⟨ascii "Obsidium", by decide⟩, ⟨ascii ".NET Reactor", by decide⟩,
   ⟨ascii "ConfuserEx", by decide⟩]

def upx_magic : content_t := ⟨ascii "UPX!", by decide⟩

inductive detection_type_t where
  | section_name | byte_signature | string_reference | high_entropy | imports | layout | wx_section | tls | overlay
  deriving DecidableEq

structure packer_detection_t where
  type : detection_type_t
  protector : List UInt8 := []
  detail : List UInt8 := []
  location : UInt64 := 0
  deriving DecidableEq

structure packer_section_report_t where
  name : List UInt8
  rva : UInt32
  raw_size : UInt32
  virtual_size : UInt32
  characteristics : UInt32
  entropy : Rat
  writable_exec : Bool

structure packer_verdict_t where
  detections : List packer_detection_t := []
  sections : List packer_section_report_t := []

/-- What the program computes with floating point: the entropy of some bytes, and the text of a number. -/
structure entropy_t where
  sampled : List UInt8 → Rat
  to_string : Rat → List UInt8

def quoted (s : List UInt8) : List UInt8 := ascii "'" ++ s ++ ascii "'"

def writable_exec (sec : pe_section_t) : Bool := sec.is_executable && sec.characteristics &&& 0x80000000 ≠ 0

section

variable (e : entropy_t) (pe : pe_image_t) (file : content_t)

/-- The entropy of a section that is in the file. -/
def raw_entropy (sec : pe_section_t) (cap : Nat) : Rat :=
  if sec.raw_size > 0 ∧ sec.raw_offset.toNat + sec.raw_size.toNat ≤ file.bytes.length then
    e.sampled ((file.bytes.drop sec.raw_offset.toNat).take (min sec.raw_size.toNat cap))
  else 0

def section_report (sec : pe_section_t) : packer_section_report_t :=
  { name := sec.name, rva := sec.rva, raw_size := sec.raw_size, virtual_size := sec.virtual_size
    characteristics := sec.characteristics, entropy := raw_entropy e file sec (2 ^ 32), writable_exec := writable_exec sec }

def name_detection (sec : pe_section_t) : Option packer_detection_t :=
  (family_for_section sec.name).map fun fam =>
    { type := .section_name, protector := ascii fam, location := sec.rva.toUInt64
      detail := ascii "section " ++ quoted sec.name ++ ascii " matches known packer naming" }

def entropy_detection (sec : pe_section_t) : Option packer_detection_t :=
  let entropy := raw_entropy e file sec (2 ^ 32)
  let shown := (e.to_string entropy).take 5
  if entropy ≥ 7.5 ∧ sec.is_executable then
    some { type := .high_entropy, location := sec.rva.toUInt64
           detail := ascii "executable section " ++ quoted sec.name ++ ascii " entropy " ++ shown }
  else if entropy ≥ 7 ∧ !sec.is_executable ∧ sec.raw_size > 4096 then
    some { type := .high_entropy, location := sec.rva.toUInt64
           detail := ascii "data section " ++ quoted sec.name ++ ascii " entropy " ++ shown ++
             ascii " (weak alone: common in Rust/MSVC resources)" }
  else none

def wx_detection (sec : pe_section_t) : Option packer_detection_t :=
  if writable_exec sec ∧ sec.raw_size > 0 then
    some { type := .wx_section, location := sec.rva.toUInt64
           detail := ascii "section " ++ quoted sec.name ++ ascii " is writable+executable" }
  else none

def section_detections (sec : pe_section_t) : List packer_detection_t :=
  (name_detection sec).toList ++ (entropy_detection e file sec).toList ++ (wx_detection sec).toList

/-- The entry point is not in the first executable section; the last section that contains it counts. -/
def layout_detection : Option packer_detection_t := do
  let (entry_sec, entry_sec_idx) ← (pe.sections.zipIdx.filter fun x => x.1.contains_rva pe.entry_rva).getLast?
  let first_exec_idx ← pe.sections.findIdx? fun sec => sec.is_executable
  guard (entry_sec_idx > first_exec_idx)
  let bloated := entry_sec.virtual_size > entry_sec.raw_size * 4 && entry_sec.raw_size > 0
  let ep_ent := raw_entropy e file entry_sec (256 * 1024)
  guard (bloated ∨ ep_ent > 6.8 ∨ (family_for_section entry_sec.name).isSome)
  return { type := .layout, location := pe.image_base + pe.entry_rva.toUInt64
           detail := ascii "entry point inside " ++ quoted entry_sec.name ++ ascii " (not the first executable section)" }

def byte_sig_t.matches_at (sig : byte_sig_t) (i : Nat) : Bool :=
  (List.range sig.length).all fun b =>
    file.bytes.getD (i + b) 0 &&& sig.mask.getD b 0 == sig.pattern.getD b 0 &&& sig.mask.getD b 0

/-- The first signature found at or around the entry point. -/
def entry_detection : Option packer_detection_t := do
  let ep_off ← pe.va_to_offset (pe.image_base + pe.entry_rva.toUInt64)
  let scan_begin := if ep_off > 0x100 then ep_off - 0x100 else 0
  let scan_end := min file.bytes.length (ep_off + 0x1000)
  kEntrySigs.findSome? fun sig =>
    ((List.range' scan_begin (scan_end + 1 - sig.length - scan_begin)).find? (sig.matches_at file)).map fun hit =>
      { type := .byte_signature, protector := ascii sig.family, detail := ascii sig.detail, location := UInt64.ofNat hit }

/-- The search in the whole rest of the file. -/
def find_in_file (needle : content_t) (first : UInt64) : Option (Option Nat) :=
  find_bytes file needle first (UInt64.ofNat file.bytes.length)

def marker_detection (s : content_t) (off : Nat) : packer_detection_t :=
  { type := .string_reference, protector := s.bytes, location := UInt64.ofNat off
    detail := ascii "marker string \"" ++ s.bytes ++ ascii "\"" }

/-- The loop over the markers; each search begins behind the last hit. -/
def marker_detections : List content_t → UInt64 → Option (List packer_detection_t)
  | [], _ => some []
  | s :: rest, cursor => do
    match ← find_in_file file s cursor with
    | some off =>
      let ds ← marker_detections rest (UInt64.ofNat off + 1)
      return marker_detection s off :: ds
    | none => marker_detections rest cursor

def upx_detection (off : Nat) : packer_detection_t :=
  { type := .byte_signature, protector := ascii "UPX", detail := ascii "\"UPX!\" trailer magic", location := UInt64.ofNat off }

/-- `_stricmp(a, b) == 0` for a lower-case `b`. -/
def import_named (fn : disasm.pe_import_func_t) (lower : String) : Bool :=
  lower_ascii ((ascii fn.name).takeWhile (· ≠ 0)) == ascii lower

def import_detection : Option packer_detection_t :=
  let total_imports := (pe.imports.map fun dll => dll.functions.length).sum
  let has_ldl_gpa := pe.imports.any fun dll => dll.functions.any fun fn =>
    import_named fn "loadlibrarya" || import_named fn "getprocaddress"
  if total_imports < 10 ∧ has_ldl_gpa then
    some { type := .imports, detail := ascii "tiny import table (" ++ Numeral.print 10 total_imports ++
             ascii ") centered on LoadLibraryA/GetProcAddress" }
  else if total_imports = 0 ∧ pe.sections.length > 0 then some { type := .imports, detail := ascii "no imports resolved" }
  else none

def tls_detection : Option packer_detection_t :=
  if (pe.data_dirs.getD 9 {}).size > 0 then
    some { type := .tls, detail := ascii "TLS directory present (weak alone: normal in Rust/MSVC CRT)" }
  else none

def overlay_detection : Option packer_detection_t :=
  if end_of_raw pe > 0 ∧ file.bytes.length > end_of_raw pe + 512 then
    some { type := .overlay, location := UInt64.ofNat (end_of_raw pe)
           detail := Numeral.print 10 (file.bytes.length - end_of_raw pe) ++ ascii " bytes of appended overlay data" }
  else none

/-- The detections in their order. A read outside the file is `none`. -/
def packer_analyze : Option packer_verdict_t :=
  if !pe.ok then some {}
  else do
    let markers ← marker_detections file kProtectorStrings 0
    let upx ← find_in_file file upx_magic 0
    return { sections := pe.sections.map (section_report e file)
             detections := pe.sections.flatMap (section_detections e file) ++ (layout_detection e pe file).toList ++
               (entry_detection pe file).toList ++ markers ++ (upx.map upx_detection).toList ++
               (import_detection pe).toList ++ (tls_detection pe).toList ++ (overlay_detection pe file).toList }

end

/-- The marker is somewhere in the file. -/
def content_t.Occurs (file m : content_t) : Prop := m.bytes <:+: file.bytes

instance (file m : content_t) : Decidable (file.Occurs m) := inferInstanceAs (Decidable (_ <:+: _))

/-- From `c` on the file has room for all bytes of the marker but one. -/
def content_t.Reaches (file m : content_t) (c : Nat) : Prop :=
  m.bytes.length ≤ file.bytes.length ∧ c + m.bytes.length ≤ file.bytes.length + 1

/-- From `c` on the markers that occur in the file stand in it one behind the other, each
strictly behind the first place of the one before it, and behind that place the file has no
room for a marker that does not occur. -/
def InOrder (file : content_t) : List content_t → Nat → Prop
  | [], _ => True
  | m :: ms, c =>
    if file.Occurs m then ∃ p, FirstFrom file.bytes m.bytes c p ∧ InOrder file ms (p + 1)
    else ¬ file.Reaches m c ∧ InOrder file ms c

/-- Every marker that occurs is reported. -/
def MarkersReported (file : content_t) (ms : List content_t) (ds : List packer_detection_t) : Prop :=
  ∀ m ∈ ms, file.Occurs m → ∃ d ∈ ds, d.type = .string_reference ∧ d.protector = m.bytes

section

variable {test : Nat → Option Bool} {hay : List UInt8} {file m : content_t} {ms : List content_t} {first : UInt64}
  {count i k p c : Nat} {o : Option Nat}

/-- A search that ends with a hit has compared at the places before it. -/
theorem scan_some (hscan : scan test count i = some (some k)) :
    i ≤ k ∧ test k = some true ∧ ∀ j, i ≤ j → j < k → test j = some false := by
  induction count generalizing i with
  | zero => simp [scan] at hscan
  | succ count ih =>
    rw [scan] at hscan
    cases htest : test i with
    | none => simp [htest] at hscan
    | some b =>
      cases b with
      | true =>
        simp only [htest, Option.bind_eq_bind, Option.bind_some, if_true, Option.pure_def, Option.some.injEq] at hscan
        subst hscan
        exact ⟨le_rfl, htest, fun j hj hlt => absurd hlt (by omega)⟩
      | false =>
        simp only [htest, Option.bind_eq_bind, Option.bind_some, Bool.false_eq_true, if_false] at hscan
        obtain ⟨hle, hhit, hbefore⟩ := ih hscan
        refine ⟨by omega, hhit, fun j hj hlt => ?_⟩
        obtain heq | hlt' := Nat.eq_or_lt_of_le hj
        · rw [← heq, htest]
        · exact hbefore j hlt' hlt

private theorem equal_at_true {needle : List UInt8} (hneedle : needle ≠ []) : equal_at hay needle i = some true ↔ needle <+: hay.drop i := by
  constructor
  · intro htrue
    rcases Nat.lt_or_ge hay.length (i + needle.length) with hout | hin
    · rw [equal_at_outside hout] at htrue
      cases htrue
    · rw [equal_at_inside hin, Option.some.injEq] at htrue
      exact of_decide_eq_true htrue
  · intro hplace
    rw [equal_at_inside (Find.place_in hneedle hplace), decide_eq_true hplace]

private theorem equal_at_false {needle : List UInt8} (hneedle : needle ≠ []) (hfalse : equal_at hay needle i = some false) : ¬ needle <+: hay.drop i := by
  intro hplace
  rw [(equal_at_true hneedle).mpr hplace] at hfalse
  cases hfalse

/-- A search in the whole rest of the file that returns has the right answer. -/
theorem find_in_file_answers (hm : m.bytes ≠ []) (hfind : find_in_file file m first = some o) :
    o = Find.find file.bytes m.bytes first.toNat := by
  have hfile := file.length_toNat
  have hlength := m.length_toNat
  have hpos := List.length_pos_iff.mpr hm
  rw [find_in_file, find_bytes] at hfind
  dsimp only at hfind
  have hzero : UInt64.ofNat m.bytes.length ≠ 0 := by
    intro hzero
    rw [hzero] at hlength
    exact absurd hlength (by simp; omega)
  split at hfind
  · rename_i hshort
    have hlt : file.bytes.length < m.bytes.length := by
      have hlt := UInt64.lt_iff_toNat_lt.mp (hshort.resolve_left hzero)
      omega
    simp only [Option.some.injEq] at hfind
    rw [← hfind, eq_comm, Find.find_eq_none hm]
    intro i _ hplace
    have hin := Find.place_in hm hplace
    omega
  · rename_i hlong
    rw [not_or, UInt64.not_lt, UInt64.le_iff_toNat_le, hfile, hlength] at hlong
    have hone : (UInt64.ofNat m.bytes.length - 1).toNat = m.bytes.length - 1 := by
      rw [UInt64.toNat_sub_of_le _ _ (UInt64.le_iff_toNat_le.mpr (by rw [hlength]; exact hpos)), hlength]
      simp
    have hstop : (UInt64.ofNat file.bytes.length - (UInt64.ofNat m.bytes.length - 1)).toNat =
        file.bytes.length - (m.bytes.length - 1) := by
      rw [UInt64.toNat_sub_of_le _ _ (UInt64.le_iff_toNat_le.mpr (by omega)), hone, hfile]
    rw [UInt64.min_def, ite_self, hstop] at hfind
    cases o with
    | some k =>
      obtain ⟨hle, hhit, hbefore⟩ := scan_some hfind
      rw [eq_comm, Find.find_eq_some hm]
      exact ⟨hle, (equal_at_true hm).mp hhit, fun j hj hlt => equal_at_false hm (hbefore j hj hlt)⟩
    | none =>
      rw [eq_comm, Find.find_eq_none hm]
      intro j hj hplace
      have hin := Find.place_in hm hplace
      exact equal_at_false hm (scan_none hfind hj (by omega)) hplace

variable (file first) in
/-- A search does not return exactly when it comes to the end of the file, where it reads behind it. -/
theorem find_in_file_eq_none (hm : m.bytes ≠ []) :
    find_in_file file m first = none ↔ Find.find file.bytes m.bytes first.toNat = none ∧ file.Reaches m first.toNat := by
  have hnone : (∀ i, ¬ FirstFrom file.bytes m.bytes first.toNat i) ↔ Find.find file.bytes m.bytes first.toNat = none := by
    simp only [← Find.find_eq_some hm, ← Option.eq_none_iff_forall_ne_some]
  have hreturns : find_in_file file m first = none ↔ Fails file.bytes m.bytes first.toNat file.bytes.length := by
    rw [← not_iff_not, ← file.length_toNat, ← find_bytes_iff, ← find_in_file, file.length_toNat, ← ne_eq,
      Option.ne_none_iff_exists']
    apply exists_congr
    intro o
    rw [iff_self_and]
    intro hfind i
    rw [find_in_file_answers hm hfind, Find.find_eq_some hm, List.take_length, and_iff_right hm]
  rw [hreturns, Fails, Overruns, content_t.Reaches, Nat.min_self, List.take_length, hnone, if_neg (lt_irrefl _)]
  constructor
  · rintro ⟨-, hle, ⟨-, hroom, hfind, -⟩ | ⟨hlong, -⟩⟩
    · exact ⟨hfind, hle, hroom⟩
    · omega
  · rintro ⟨hfind, hle, hroom⟩
    exact ⟨hm, hle, .inl ⟨by omega, hroom, hfind, List.nil_prefix⟩⟩

private theorem occurs_iff : file.Occurs m ↔ ∃ p, m.bytes <+: file.bytes.drop p := by
  constructor
  · rintro ⟨s, t, heq⟩
    refine ⟨s.length, t, ?_⟩
    rw [← heq, List.append_assoc, List.drop_left]
  · intro ⟨p, hplace⟩
    exact hplace.isInfix.trans (List.drop_suffix p _).isInfix

private theorem mem_marker_detections {ds : List packer_detection_t} (hds : marker_detections file ms first = some ds)
    {d : packer_detection_t} (hd : d ∈ ds) : d.protector ∈ ms.map content_t.bytes := by
  induction ms generalizing first ds with
  | nil =>
    simp only [marker_detections, Option.some.injEq] at hds
    simp [← hds] at hd
  | cons m ms ih =>
    rw [marker_detections] at hds
    obtain ⟨o, -, hds⟩ := Option.bind_eq_some_iff.mp hds
    cases o with
    | none => exact List.mem_cons_of_mem _ (ih hds hd)
    | some off =>
      obtain ⟨rest, hrest, heq⟩ := Option.bind_eq_some_iff.mp hds
      simp only [Option.pure_def, Option.some.injEq] at heq
      rw [← heq, List.mem_cons] at hd
      obtain heq | hd := hd
      · simp [heq, marker_detection]
      · exact List.mem_cons_of_mem _ (ih hrest hd)

private theorem markersReported_hit {ds : List packer_detection_t} (hnot : m.bytes ∉ ms.map content_t.bytes) :
    MarkersReported file (m :: ms) (marker_detection m k :: ds) ↔ MarkersReported file ms ds := by
  constructor
  · intro hall m' hm' hocc
    obtain ⟨d, hd, htype, hprotector⟩ := hall m' (List.mem_cons_of_mem m hm') hocc
    obtain rfl | hd := List.mem_cons.mp hd
    · have hmem : m.bytes ∈ ms.map content_t.bytes := by
        rw [show m.bytes = m'.bytes from hprotector]
        exact List.mem_map_of_mem hm'
      exact absurd hmem hnot
    · exact ⟨d, hd, htype, hprotector⟩
  · intro hall m' hm' hocc
    obtain rfl | hm' := List.mem_cons.mp hm'
    · exact ⟨marker_detection m' k, by simp, by simp [marker_detection], by simp [marker_detection]⟩
    · obtain ⟨d, hd, hreport⟩ := hall m' hm' hocc
      exact ⟨d, List.mem_cons_of_mem _ hd, hreport⟩

variable (file first) in
/-- The loop over the markers reports those that occur exactly if they stand in the file in
the order of the table, and no search for another one comes to the end of the file. -/
theorem marker_detections_iff (hms : ∀ m ∈ ms, m.bytes ≠ []) (hdistinct : (ms.map content_t.bytes).Nodup) :
    (∃ ds, marker_detections file ms first = some ds ∧ MarkersReported file ms ds) ↔ InOrder file ms first.toNat := by
  induction ms generalizing first with
  | nil => simp [marker_detections, MarkersReported, InOrder]
  | cons m ms ih =>
    obtain ⟨hne, hms⟩ := List.forall_mem_cons.mp hms
    obtain ⟨hnot, hdistinct⟩ := List.nodup_cons.mp hdistinct
    have hnone := find_in_file_eq_none file first hne
    have hanswers : ∀ o, find_in_file file m first = some o → o = Find.find file.bytes m.bytes first.toNat :=
      fun o ho => find_in_file_answers hne ho
    rw [marker_detections, InOrder]
    by_cases hocc : file.Occurs m
    · rw [if_pos hocc]
      cases hfind : Find.find file.bytes m.bytes first.toNat with
      | none =>
        -- the marker lies before the last hit
        refine iff_of_false ?_ ?_
        · rintro ⟨ds, hds, hall⟩
          obtain ⟨o, ho, hds⟩ := Option.bind_eq_some_iff.mp hds
          rw [hanswers o ho, hfind] at hds
          obtain ⟨d, hd, -, hprotector⟩ := hall m List.mem_cons_self hocc
          exact hnot (hprotector ▸ mem_marker_detections hds hd)
        · rintro ⟨p, hp, -⟩
          rw [(Find.find_eq_some hne).mpr hp] at hfind
          cases hfind
      | some k =>
        have hplace := (Find.find_eq_some hne).mp hfind
        have hin := Find.place_in hne hplace.2.1
        have hsmall := file.small
        have hnext : (UInt64.ofNat k + 1).toNat = k + 1 := by
          rw [UInt64.toNat_add, UInt64.toNat_ofNat']
          simp
          omega
        cases ho : find_in_file file m first with
        | none => simp [hfind] at hnone; exact absurd ho hnone
        | some o =>
          obtain rfl := (hanswers o ho).trans hfind
          have hfirst : ∀ p, FirstFrom file.bytes m.bytes first.toNat p ↔ p = k := by
            intro p
            rw [← Find.find_eq_some hne, hfind, Option.some.injEq, eq_comm]
          simp only [hfirst, exists_eq_left]
          rw [← hnext, ← ih (UInt64.ofNat k + 1) hms hdistinct]
          simp [Option.bind_eq_some_iff, markersReported_hit hnot]
    · have hfind : Find.find file.bytes m.bytes first.toNat = none := by
        rw [Find.find_eq_none hne]
        intro p _ hplace
        exact hocc (occurs_iff.mpr ⟨p, hplace⟩)
      have hskip : ∀ ds, MarkersReported file (m :: ms) ds ↔ MarkersReported file ms ds := by
        intro ds
        rw [MarkersReported, List.forall_mem_cons, MarkersReported]
        exact and_iff_right fun h => absurd h hocc
      rw [if_neg hocc]
      cases ho : find_in_file file m first with
      | none => exact iff_of_false (by simp) fun h => h.1 (hnone.mp ho).2
      | some o =>
        obtain rfl := (hanswers o ho).trans hfind
        have hreaches : ¬ file.Reaches m first.toNat := by
          intro hreaches
          rw [hnone.mpr ⟨hfind, hreaches⟩] at ho
          cases ho
        simp only [Option.bind_eq_bind, Option.bind_some, hskip, ih _ hms hdistinct]
        exact (and_iff_right hreaches).symm

end

private theorem markers_ne_nil : ∀ m ∈ kProtectorStrings, m.bytes ≠ [] := by decide

private theorem nodup_markers : (kProtectorStrings.map content_t.bytes).Nodup := by decide

/-- The analysis returns and reports every marker that occurs. -/
def MarkersDetected (e : entropy_t) (pe : pe_image_t) (file : content_t) : Prop :=
  ∃ v, packer_analyze e pe file = some v ∧ MarkersReported file kProtectorStrings v.detections

section

variable {e : entropy_t} {pe : pe_image_t} {file : content_t} {sec : pe_section_t} {d : packer_detection_t}

private theorem section_detections_type (hd : d ∈ section_detections e file sec) : d.type ≠ .string_reference := by
  simp only [section_detections, name_detection, entropy_detection, wx_detection, List.mem_append, Option.mem_toList,
    Option.map_eq_some_iff] at hd
  obtain (⟨fam, -, hd⟩ | hd) | hd := hd
  · simp [← hd]
  · split at hd
    · simp only [Option.some.injEq] at hd
      simp [← hd]
    · split at hd
      · simp only [Option.some.injEq] at hd
        simp [← hd]
      · cases hd
  · split at hd
    · simp only [Option.some.injEq] at hd
      simp [← hd]
    · cases hd

private theorem layout_detection_type (hd : layout_detection e pe file = some d) : d.type ≠ .string_reference := by
  simp only [layout_detection, Option.bind_eq_bind, Option.bind_eq_some_iff, Option.pure_def, Option.some.injEq] at hd
  obtain ⟨_, -, _, -, _, -, _, -, hd⟩ := hd
  simp [← hd]

private theorem entry_detection_type (hd : entry_detection pe file = some d) : d.type ≠ .string_reference := by
  simp only [entry_detection, Option.bind_eq_bind, Option.bind_eq_some_iff] at hd
  obtain ⟨ep_off, -, hd⟩ := hd
  obtain ⟨sig, -, hd⟩ := List.exists_of_findSome?_eq_some hd
  obtain ⟨hit, -, hd⟩ := Option.map_eq_some_iff.mp hd
  simp [← hd]

private theorem tail_detections_type
    (hd : d ∈ (import_detection pe).toList ++ (tls_detection pe).toList ++ (overlay_detection pe file).toList) :
    d.type ≠ .string_reference := by
  simp only [import_detection, tls_detection, overlay_detection, List.mem_append, Option.mem_toList] at hd
  obtain (hd | hd) | hd := hd
  · split at hd
    · simp only [Option.some.injEq] at hd
      simp [← hd]
    · split at hd
      · simp only [Option.some.injEq] at hd
        simp [← hd]
      · cases hd
  · split at hd
    · simp only [Option.some.injEq] at hd
      simp [← hd]
    · cases hd
  · split at hd
    · simp only [Option.some.injEq] at hd
      simp [← hd]
    · cases hd

/-- Detections of other types do not count. -/
theorem markersReported_append {ms : List content_t} {before ds after : List packer_detection_t}
    (hbefore : ∀ d ∈ before, d.type ≠ .string_reference) (hafter : ∀ d ∈ after, d.type ≠ .string_reference) :
    MarkersReported file ms (before ++ ds ++ after) ↔ MarkersReported file ms ds := by
  have hmem : ∀ p : List UInt8, (∃ d ∈ before ++ ds ++ after, d.type = .string_reference ∧ d.protector = p) ↔
      ∃ d ∈ ds, d.type = .string_reference ∧ d.protector = p := by
    intro p
    constructor
    · intro ⟨d, hd, htype, hp⟩
      obtain (hd | hd) | hd := by simpa only [List.mem_append] using hd
      · exact absurd htype (hbefore d hd)
      · exact ⟨d, hd, htype, hp⟩
      · exact absurd htype (hafter d hd)
    · intro ⟨d, hd, hreport⟩
      exact ⟨d, by simp [hd], hreport⟩
  simp only [MarkersReported, hmem]

variable (e pe) in
private theorem packer_analyze_detections {markers : List packer_detection_t} {upx : Option Nat} (hok : pe.ok = true)
    (hmarkers : marker_detections file kProtectorStrings 0 = some markers) (hupx : find_in_file file upx_magic 0 = some upx) :
    ∃ v before after, packer_analyze e pe file = some v ∧ v.detections = before ++ markers ++ after ∧
      (∀ d ∈ before, d.type ≠ .string_reference) ∧ ∀ d ∈ after, d.type ≠ .string_reference := by
  refine ⟨_, pe.sections.flatMap (section_detections e file) ++ (layout_detection e pe file).toList ++
    (entry_detection pe file).toList, (upx.map upx_detection).toList ++ ((import_detection pe).toList ++
    (tls_detection pe).toList ++ (overlay_detection pe file).toList), by simp [packer_analyze, hok, hmarkers, hupx]; rfl,
    by simp, ?_, ?_⟩
  · intro d hd
    simp only [List.mem_append, List.mem_flatMap, Option.mem_toList] at hd
    obtain (⟨sec, -, hd⟩ | hd) | hd := hd
    · exact section_detections_type hd
    · exact layout_detection_type hd
    · exact entry_detection_type hd
  · intro d hd
    obtain hd | hd := List.mem_append.mp hd
    · simp only [Option.mem_toList, Option.map_eq_some_iff] at hd
      obtain ⟨off, -, hd⟩ := hd
      simp [← hd, upx_detection]
    · exact tail_detections_type hd

private theorem find_upx_eq_none :
    find_in_file file upx_magic 0 = none ↔ ¬ file.Occurs upx_magic ∧ upx_magic.bytes.length ≤ file.bytes.length := by
  have hne : upx_magic.bytes ≠ [] := by decide
  rw [find_in_file_eq_none _ _ hne, Find.find_eq_none hne, occurs_iff, not_exists, content_t.Reaches]
  simp only [UInt64.toNat_zero, Nat.zero_le, true_implies, Nat.zero_add]
  exact and_congr_right fun _ => and_iff_left_of_imp Nat.le_succ_of_le

/-- The analysis of a parsed image. -/
theorem analyzed_iff (hok : pe.ok = true) : MarkersDetected e pe file ↔
    InOrder file kProtectorStrings 0 ∧ (file.Occurs upx_magic ∨ file.bytes.length < upx_magic.bytes.length) := by
  rw [← UInt64.toNat_zero, ← marker_detections_iff file 0 markers_ne_nil nodup_markers]
  cases hupx : find_in_file file upx_magic 0 with
  | none =>
    obtain ⟨hnot, hle⟩ := find_upx_eq_none.mp hupx
    refine iff_of_false ?_ fun h => h.2.elim hnot (Nat.not_lt.mpr hle)
    rintro ⟨v, hv, -⟩
    simp [packer_analyze, hok, hupx] at hv
  | some upx =>
    have hreturns : file.Occurs upx_magic ∨ file.bytes.length < upx_magic.bytes.length := by
      by_contra hnone
      rw [not_or, Nat.not_lt, ← find_upx_eq_none, hupx] at hnone
      cases hnone
    rw [and_iff_left hreturns]
    cases hmarkers : marker_detections file kProtectorStrings 0 with
    | none =>
      refine iff_of_false ?_ (by simp)
      rintro ⟨v, hv, -⟩
      simp [packer_analyze, hok, hmarkers] at hv
    | some markers =>
      obtain ⟨v, before, after, hv, hds, hbefore, hafter⟩ := packer_analyze_detections e pe hok hmarkers hupx
      simp only [MarkersDetected, hv, Option.some.injEq, exists_eq_left', hds, markersReported_append hbefore hafter]

end

/-- When every marker that occurs is reported. -/
theorem markers_detected_iff (e : entropy_t) (pe : pe_image_t) (file : content_t) :
    MarkersDetected e pe file ↔
      if pe.ok then
        InOrder file kProtectorStrings 0 ∧ (file.Occurs upx_magic ∨ file.bytes.length < upx_magic.bytes.length)
      else ∀ m ∈ kProtectorStrings, ¬ file.Occurs m := by
  cases hok : pe.ok with
  | true => simpa using analyzed_iff hok
  | false => simp [MarkersDetected, packer_analyze, hok, MarkersReported]

/-- The third marker of the table stands before the second one, and no search comes to the end. -/
def swapped_file : content_t := ⟨ascii "VMProtect UPX! WinLicense Themida", by decide⟩

theorem swapped_marker_missed : ¬ MarkersDetected ⟨fun _ => 0, fun _ => []⟩ { ok := true } swapped_file := by
  intro ⟨v, hv, hall⟩
  have hmarkers : marker_detections swapped_file kProtectorStrings 0 =
      some [marker_detection ⟨ascii "VMProtect", by decide⟩ 0, marker_detection ⟨ascii "Themida", by decide⟩ 26] := by decide
  have hupx : find_in_file swapped_file upx_magic 0 = some (some 10) := by decide
  obtain ⟨v', before, after, hv', hds, hbefore, hafter⟩ :=
    packer_analyze_detections ⟨fun _ => 0, fun _ => []⟩ { ok := true } (by simp) hmarkers hupx
  obtain rfl := Option.some.inj (hv.symm.trans hv')
  rw [hds, markersReported_append hbefore hafter] at hall
  obtain ⟨d, hd, -, hprotector⟩ := hall ⟨ascii "WinLicense", by decide⟩ (by simp [kProtectorStrings]) (by decide)
  simp only [List.mem_cons, List.not_mem_nil, or_false] at hd
  rcases hd with rfl | rfl <;> exact absurd hprotector (by decide)

end slop.core.analysis
