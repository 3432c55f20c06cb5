import Mathlib.Data.List.Pairwise
import ReverseSlop.Core.Disasm.Backing

namespace slop.core.disasm

namespace hype

structure Segment where
  name : List UInt8
  va : UInt64
  size : UInt64
  file_off : UInt64
  file_sz : UInt64
  flags : UInt32

structure Import where
  dll : String
  name : String
  iat_addr : UInt64

structure Export where
  name : String
  addr : UInt64

structure RuntimeFunc where
  start : UInt64
  «end» : UInt64

/-- What the loader says of an image. -/
structure PEImage where
  base : UInt64
  entry : UInt64
  segments : List Segment
  imports : List Import := []
  exports : List Export := []
  runtime_funcs : List RuntimeFunc := []

end hype

def machine_for : image_arch_t → UInt16
  | .x86 => 0x014C
  | .x64 => 0x8664
  | .arm => 0x01C4
  | .arm64 => 0xAA64

def kMaxRva : UInt64 := 0xFFFFFFFF

/-- An address is too far from the base for an address in the image. -/
def outside (base addr : UInt64) : Prop := addr < base ∨ addr - base > kMaxRva

instance (base addr : UInt64) : Decidable (outside base addr) := inferInstanceAs (Decidable (_ ∨ _))

/-- The section for a segment that is not skipped. -/
def section_of (base file_size : UInt64) (seg : hype.Segment) : Option pe_section_t :=
  if outside base seg.va then none
  else
    let rva := (seg.va - base).toUInt32
    let s : pe_section_t :=
      { name := seg.name.take 33, rva, virtual_size := (min seg.size (kMaxRva - rva.toUInt64)).toUInt32
        characteristics := seg.flags }
    if seg.file_sz ≠ 0 ∧ seg.file_off < file_size then
      some { s with
        raw_offset := (min seg.file_off kMaxRva).toUInt32
        raw_size := (min seg.file_sz (min (file_size - seg.file_off) kMaxRva)).toUInt32 }
    else some s

/-- The functions of a library go to its entry, which its first one makes. `dll_index` says where the entries are. -/
def add_import (base : UInt64) (grouped : List (String × Nat) × List pe_import_dll_t) (imp : hype.Import) :
    List (String × Nat) × List pe_import_dll_t :=
  if outside base imp.iat_addr then grouped
  else
    let dll := if imp.dll = "" then "(flat namespace)" else imp.dll
    let fn : pe_import_func_t := { name := imp.name, iat_rva := (imp.iat_addr - base).toUInt32 }
    let push (dlls : List pe_import_dll_t) (i : Nat) := dlls.modify i fun d => { d with functions := d.functions ++ [fn] }
    match grouped.1.lookup dll with
    | some i => (grouped.1, push grouped.2 i)
    | none => (grouped.1 ++ [(dll, grouped.2.length)], push (grouped.2 ++ [{ dll, functions := [] }]) grouped.2.length)

def export_of (base : UInt64) (ex : hype.Export) : Option pe_export_t :=
  if outside base ex.addr then none else some { name := ex.name, rva := (ex.addr - base).toUInt32 }

def runtime_func_of (base : UInt64) (rf : hype.RuntimeFunc) : Option pe_runtime_func_t :=
  if rf.start < base ∨ rf.end ≤ rf.start ∨ rf.end - base > kMaxRva then none
  else some { begin_rva := (rf.start - base).toUInt32, end_rva := (rf.end - base).toUInt32 }

def synthesize_section_map (img : hype.PEImage) (arch : image_arch_t) (file_size : UInt64) : pe_image_t :=
  let sections := img.segments.filterMap (section_of img.base file_size)
  let image_end := sections.foldl (fun image_end s => max image_end (s.rva.toUInt64 + s.virtual_size.toUInt64)) 0
  { ok := true
    pe32plus := arch = .x64 ∨ arch = .arm64
    machine := machine_for arch
    image_base := img.base
    entry_rva := if outside img.base img.entry then 0 else (img.entry - img.base).toUInt32
    size_of_image := (min image_end kMaxRva).toUInt32
    sections
    imports := (img.imports.foldl (add_import img.base) ([], [])).2
    exports := img.exports.filterMap (export_of img.base)
    runtime_funcs := img.runtime_funcs.filterMap (runtime_func_of img.base) }

/-- The number of bytes of a segment that are in the file. -/
def hype.Segment.backed (seg : hype.Segment) (file_size : UInt64) : Nat :=
  min seg.file_sz.toNat (file_size.toNat - seg.file_off.toNat)

/-- The bounds of a function are where the loader has them. -/
def pe_image_t.HasBounds (pe : pe_image_t) (rf : hype.RuntimeFunc) : Prop :=
  ∃ f ∈ pe.runtime_funcs, pe.image_base.toNat + f.begin_rva.toNat = rf.start.toNat ∧
    pe.image_base.toNat + f.end_rva.toNat = rf.end.toNat

namespace hype.PEImage

variable (img : hype.PEImage) (file_size : UInt64)

/-- Segments with addresses of their own, in the 4 GiB from the base on. -/
structure Laid : Prop where
  apart : img.segments.Pairwise fun s t => s.va.toNat + s.size.toNat ≤ t.va.toNat ∨ t.va.toNat + t.size.toNat ≤ s.va.toNat
  sized : ∀ seg ∈ img.segments, seg.size ≠ 0
  base_le : ∀ seg ∈ img.segments, img.base.toNat ≤ seg.va.toNat
  end_le : ∀ seg ∈ img.segments, seg.va.toNat + seg.size.toNat ≤ img.base.toNat + 2 ^ 32
  file_le : ∀ seg ∈ img.segments, seg.file_sz ≤ seg.size
  off_lt : ∀ seg ∈ img.segments, seg.file_off.toNat < 2 ^ 32

/-- The byte at an address is one of the file. -/
def FileByte (va : UInt64) (off : Nat) : Prop :=
  ∃ seg ∈ img.segments, ∃ i < seg.backed file_size, va.toNat = seg.va.toNat + i ∧ off = seg.file_off.toNat + i

/-- An address is in the 4 GiB from the base on. -/
def Near (addr : UInt64) : Prop := img.base.toNat ≤ addr.toNat ∧ addr.toNat < img.base.toNat + 2 ^ 32

/-- Slots and exports are where the loader has them. -/
structure Kept (pe : pe_image_t) : Prop where
  imports : ∀ imp ∈ img.imports, img.Near imp.iat_addr → ∃ dll ∈ pe.imports, ∃ fn ∈ dll.functions,
    dll.dll = (if imp.dll = "" then "(flat namespace)" else imp.dll) ∧ fn.name = imp.name ∧
      pe.image_base.toNat + fn.iat_rva.toNat = imp.iat_addr.toNat
  exports : ∀ ex ∈ img.exports, img.Near ex.addr → ∃ e ∈ pe.exports, e.name = ex.name ∧
    pe.image_base.toNat + e.rva.toNat = ex.addr.toNat

/-- The image translates what is in the file, nothing else but what may be headers, and nothing to behind the file. -/
structure Refined (pe : pe_image_t) : Prop extends img.Kept pe where
  translated : ∀ va off, img.FileByte file_size va off → pe.va_to_offset va = some off
  only : ∀ va off, pe.va_to_offset va = some off → (∃ off, img.FileByte file_size va off) ∨ va.toNat < img.base.toNat + 0x400
  inside : ∀ va off, pe.va_to_offset va = some off → off < file_size.toNat
  bounds : ∀ rf ∈ img.runtime_funcs, img.Near rf.start → img.Near rf.end → pe.HasBounds rf

/-- What is in the file is translated, except for the last of the 4 GiB. What is not is taken for headers in the first
400h bytes, wherever the file ends. Of a function, the end has to be behind the start. -/
structure Mapped (pe : pe_image_t) : Prop extends img.Kept pe where
  translated : ∀ va off, img.FileByte file_size va off → va.toNat ≠ img.base.toNat + 0xFFFFFFFF →
    pe.va_to_offset va = some off ∧ off < file_size.toNat
  headers : ∀ va, (¬ ∃ off, img.FileByte file_size va off) → img.base.toNat ≤ va.toNat → va.toNat < img.base.toNat + 0x400 →
    pe.va_to_offset va = some (va.toNat - img.base.toNat)
  others : ∀ va, ((¬ ∃ off, img.FileByte file_size va off) ∧ ¬ (img.base.toNat ≤ va.toNat ∧ va.toNat < img.base.toNat + 0x400) ∨
    va.toNat = img.base.toNat + 0xFFFFFFFF) → pe.va_to_offset va = none
  bounds : ∀ rf ∈ img.runtime_funcs, img.Near rf.start → img.Near rf.end → rf.start < rf.end → pe.HasBounds rf

end hype.PEImage

section

variable {base file_size addr : UInt64} {seg : hype.Segment} {s : pe_section_t}

theorem outside_iff : outside base addr ↔ addr.toNat < base.toNat ∨ base.toNat + 2 ^ 32 ≤ addr.toNat := by
  have hmax : kMaxRva.toNat = 2 ^ 32 - 1 := rfl
  rw [outside, UInt64.lt_iff_toNat_lt, gt_iff_lt, UInt64.lt_iff_toNat_lt, hmax]
  by_cases hle : base ≤ addr
  · have hsub := UInt64.toNat_sub_of_le _ _ hle
    have hle := UInt64.le_iff_toNat_le.mp hle
    omega
  · have hlt := UInt64.lt_iff_toNat_lt.mp (UInt64.not_le.mp hle)
    simp [hlt]

theorem toNat_rva (hin : ¬ outside base addr) : base.toNat + (addr - base).toUInt32.toNat = addr.toNat := by
  rw [outside_iff] at hin
  have hsub := UInt64.toNat_sub_of_le _ _ (show base ≤ addr from UInt64.le_iff_toNat_le.mpr (by omega))
  rw [UInt64.toNat_toUInt32, hsub]
  omega

theorem toNat_min (a b : UInt64) : (min a b).toNat = min a.toNat b.toNat := by
  show (if a ≤ b then a else b).toNat = min a.toNat b.toNat
  rw [Nat.min_def]
  simp only [UInt64.le_iff_toNat_le]
  split <;> rfl

/-- The section for a segment has its addresses, up to the last one, and its bytes in the file. -/
theorem section_of_spec (hin : ¬ outside base seg.va) (hoff : seg.file_off.toNat < 2 ^ 32) :
    ∃ s, section_of base file_size seg = some s ∧ base.toNat + s.rva.toNat = seg.va.toNat ∧
      s.virtual_size.toNat = min seg.size.toNat (2 ^ 32 - 1 - s.rva.toNat) ∧
      s.raw_size.toNat = min (seg.backed file_size) (2 ^ 32 - 1) ∧
      (s.raw_size ≠ 0 → s.raw_offset.toNat = seg.file_off.toNat) := by
  have hrva := toNat_rva hin
  have hmax : kMaxRva.toNat = 2 ^ 32 - 1 := rfl
  have hlt := (seg.va - base).toUInt32.toNat_lt
  have hroom : (kMaxRva - (seg.va - base).toUInt32.toUInt64).toNat = 2 ^ 32 - 1 - (seg.va - base).toUInt32.toNat := by
    rw [UInt64.toNat_sub_of_le _ _ (UInt64.le_iff_toNat_le.mpr (by rw [UInt32.toNat_toUInt64, hmax]; omega)), hmax,
      UInt32.toNat_toUInt64]
  have hvirtual : ((min seg.size (kMaxRva - (seg.va - base).toUInt32.toUInt64)).toUInt32).toNat =
      min seg.size.toNat (2 ^ 32 - 1 - (seg.va - base).toUInt32.toNat) := by
    rw [UInt64.toNat_toUInt32, toNat_min, hroom]
    omega
  rw [section_of, if_neg hin]
  dsimp only
  by_cases hfile : seg.file_sz ≠ 0 ∧ seg.file_off < file_size
  · have hbefore := UInt64.lt_iff_toNat_lt.mp hfile.2
    have hleft := UInt64.toNat_sub_of_le _ _ (UInt64.le_of_lt hfile.2)
    rw [if_pos hfile]
    refine ⟨_, rfl, hrva, hvirtual, ?_, fun _ => ?_⟩
    · rw [UInt64.toNat_toUInt32, toNat_min, toNat_min, hleft, hmax, hype.Segment.backed]
      omega
    · rw [UInt64.toNat_toUInt32, toNat_min, hmax]
      omega
  · rw [if_neg hfile]
    refine ⟨_, rfl, hrva, hvirtual, ?_, fun hsome => absurd rfl hsome⟩
    have hnone : seg.backed file_size = 0 := by
      rw [not_and_or, not_not, UInt64.not_lt, UInt64.le_iff_toNat_le] at hfile
      rw [hype.Segment.backed]
      rcases hfile with hzero | hbehind
      · rw [hzero, UInt64.toNat_zero, Nat.zero_min]
      · omega
    rw [hnone]
    rfl

/-- The section has the addresses of its segment, but for the last one of all. -/
theorem contains_rva_segment {r : UInt32} (hin : ¬ outside base seg.va) (hoff : seg.file_off.toNat < 2 ^ 32) (hsize : seg.size ≠ 0)
    (hfile : seg.file_sz ≤ seg.size) (hend : seg.va.toNat + seg.size.toNat ≤ base.toNat + 2 ^ 32)
    (hs : section_of base file_size seg = some s) :
    s.contains_rva r = true ↔ seg.va.toNat ≤ base.toNat + r.toNat ∧ base.toNat + r.toNat < seg.va.toNat + seg.size.toNat ∧
      r.toNat ≠ 2 ^ 32 - 1 := by
  obtain ⟨s', hs', hrva, hvirtual, hraw, -⟩ := @section_of_spec base file_size seg hin hoff
  rw [hs, Option.some.injEq] at hs'
  subst hs'
  have hr := r.toNat_lt
  have hpos : 0 < seg.size.toNat := Nat.pos_of_ne_zero fun hzero => hsize (UInt64.toNat_inj.mp hzero)
  have hfile := UInt64.le_iff_toNat_le.mp hfile
  rw [pe_section_t.contains_rva, Bool.and_eq_true, decide_eq_true_iff, decide_eq_true_iff, ge_iff_le, UInt32.le_iff_toNat_le,
    UInt32.lt_iff_toNat_lt, UInt32.toNat_add]
  by_cases hzero : s.virtual_size = 0
  · -- the segment has the last address alone
    have hlast : s.rva.toNat = 2 ^ 32 - 1 := by
      rw [hzero, UInt32.toNat_zero] at hvirtual
      have hrva_lt := s.rva.toNat_lt
      omega
    have hbacked : seg.backed file_size ≤ seg.file_sz.toNat := Nat.min_le_left _ _
    rw [if_pos hzero, hraw]
    omega
  · have hne : s.virtual_size.toNat ≠ 0 := fun h => hzero (UInt32.toNat_inj.mp h)
    rw [if_neg hzero, hvirtual]
    rw [hvirtual] at hne
    omega

end

namespace hype.PEImage

variable {img : hype.PEImage} {file_size va : UInt64} {arch : image_arch_t} {seg : hype.Segment} {r : UInt32} {off : Nat}

/-- A segment has an address that is not the last one of all. -/
def Spans (img : hype.PEImage) (r : UInt32) (seg : hype.Segment) : Prop :=
  seg.va.toNat ≤ img.base.toNat + r.toNat ∧ img.base.toNat + r.toNat < seg.va.toNat + seg.size.toNat ∧ r.toNat ≠ 2 ^ 32 - 1

theorem Laid.not_outside (h : img.Laid) (hseg : seg ∈ img.segments) : ¬ outside img.base seg.va := by
  have hpos : seg.size.toNat ≠ 0 := fun hzero => h.sized seg hseg (UInt64.toNat_inj.mp hzero)
  have hbase := h.base_le seg hseg
  have hend := h.end_le seg hseg
  rw [outside_iff]
  omega

theorem Laid.contains_iff (h : img.Laid) (hseg : seg ∈ img.segments) {s : pe_section_t}
    (hs : section_of img.base file_size seg = some s) : s.contains_rva r = true ↔ img.Spans r seg :=
  contains_rva_segment (h.not_outside hseg) (h.off_lt seg hseg) (h.sized seg hseg) (h.file_le seg hseg) (h.end_le seg hseg) hs

/-- Only one segment has an address. -/
theorem Laid.spans_unique (h : img.Laid) {t : hype.Segment} (hseg : seg ∈ img.segments) (ht : t ∈ img.segments)
    (hspans : img.Spans r seg) (hspans' : img.Spans r t) : t = seg := by
  by_contra hne
  have : Std.Symm fun s t : hype.Segment =>
      s.va.toNat + s.size.toNat ≤ t.va.toNat ∨ t.va.toNat + t.size.toNat ≤ s.va.toNat := ⟨fun _ _ h => h.symm⟩
  have hapart := h.apart.forall ht hseg hne
  obtain ⟨hge, hlt, -⟩ := hspans
  obtain ⟨hge', hlt', -⟩ := hspans'
  omega

/-- The section of an address is that of its segment. -/
theorem Laid.find_section (h : img.Laid) (hseg : seg ∈ img.segments) (hspans : img.Spans r seg) :
    ((img.segments.filterMap (section_of img.base file_size)).find? fun s => s.contains_rva r) =
      section_of img.base file_size seg := by
  have hall : ∀ t ∈ img.segments, ((section_of img.base file_size t).any fun s => s.contains_rva r) = true ↔ img.Spans r t := by
    intro t ht
    obtain ⟨s, hs, -⟩ := @section_of_spec img.base file_size t (h.not_outside ht) (h.off_lt t ht)
    rw [hs, Option.any_some]
    exact h.contains_iff ht hs
  rw [List.find?_filterMap]
  obtain ⟨t, ht⟩ := Option.isSome_iff_exists.mp
    (List.find?_isSome.mpr (show ∃ t ∈ img.segments,
      ((section_of img.base file_size t).any fun s => s.contains_rva r) = true from ⟨seg, hseg, (hall seg hseg).mpr hspans⟩))
  have hmem := List.mem_of_find?_eq_some ht
  have hcontains := @List.find?_some _ (fun t => (section_of img.base file_size t).any fun s => s.contains_rva r) _ _ ht
  have hsame : t = seg := h.spans_unique hseg hmem hspans ((hall t hmem).mp hcontains)
  rw [ht, hsame, Option.bind_some]

theorem Laid.find_none (h : img.Laid) (hnone : ∀ seg ∈ img.segments, ¬ img.Spans r seg) :
    ((img.segments.filterMap (section_of img.base file_size)).find? fun s => s.contains_rva r) = none := by
  rw [List.find?_eq_none]
  intro s hs hcontains
  obtain ⟨seg, hseg, hs⟩ := List.mem_filterMap.mp hs
  exact hnone seg hseg ((h.contains_iff hseg hs).mp hcontains)

/-- A byte of the file is at its offset. -/
theorem Laid.rva_to_offset_byte (h : img.Laid) (hrva : img.base.toNat + r.toNat = va.toNat) (hbyte : img.FileByte file_size va off)
    (hlast : r.toNat ≠ 2 ^ 32 - 1) : (synthesize_section_map img arch file_size).rva_to_offset r = some off := by
  obtain ⟨seg, hseg, i, hi, hva, rfl⟩ := hbyte
  obtain ⟨s, hs, hstart, -, hraw, hoff⟩ := @section_of_spec img.base file_size seg (h.not_outside hseg) (h.off_lt seg hseg)
  have hbacked : seg.backed file_size ≤ seg.file_sz.toNat := Nat.min_le_left _ _
  have hfile := UInt64.le_iff_toNat_le.mp (h.file_le seg hseg)
  have hspans : img.Spans r seg := ⟨by omega, by omega, hlast⟩
  have hr := r.toNat_lt
  have hsub : (r - s.rva).toNat = i := by
    rw [UInt32.toNat_sub_of_le _ _ (UInt32.le_iff_toNat_le.mpr (by omega))]
    omega
  have hin : i < s.raw_size.toNat := by
    rw [hraw]
    omega
  have hne : s.raw_size ≠ 0 := by
    rintro hzero
    rw [hzero, UInt32.toNat_zero] at hin
    omega
  rw [pe_image_t.rva_to_offset, synthesize_section_map]
  dsimp only
  rw [h.find_section hseg hspans, hs]
  dsimp only
  rw [if_neg, hsub, hoff hne]
  rw [ge_iff_le, UInt32.le_iff_toNat_le, hsub]
  omega

/-- What is not in the file is translated as a header. -/
theorem Laid.rva_to_offset_other (h : img.Laid) (hrva : img.base.toNat + r.toNat = va.toNat)
    (hnone : (¬ ∃ off, img.FileByte file_size va off) ∨ r.toNat = 2 ^ 32 - 1) :
    (synthesize_section_map img arch file_size).rva_to_offset r = if r < 0x400 then some r.toNat else none := by
  rw [pe_image_t.rva_to_offset, synthesize_section_map]
  dsimp only
  by_cases hspanned : ∃ seg ∈ img.segments, img.Spans r seg
  · obtain ⟨seg, hseg, hspans⟩ := hspanned
    obtain ⟨s, hs, hstart, -, hraw, -⟩ := @section_of_spec img.base file_size seg (h.not_outside hseg) (h.off_lt seg hseg)
    have hmissing := hnone.resolve_right hspans.2.2
    have hge := hspans.1
    have hlt := hspans.2.1
    have hbeyond : seg.backed file_size ≤ va.toNat - seg.va.toNat := by
      by_contra hinside
      exact hmissing ⟨_, seg, hseg, va.toNat - seg.va.toNat, by omega, by omega, rfl⟩
    have hsub : (r - s.rva).toNat = va.toNat - seg.va.toNat := by
      rw [UInt32.toNat_sub_of_le _ _ (UInt32.le_iff_toNat_le.mpr (by omega))]
      omega
    rw [h.find_section hseg hspans, hs]
    dsimp only
    rw [if_pos]
    rw [ge_iff_le, UInt32.le_iff_toNat_le, hsub, hraw]
    omega
  · rw [h.find_none fun seg hseg hspans => hspanned ⟨seg, hseg, hspans⟩]

end hype.PEImage

section

variable {base : UInt64} {dlls : List pe_import_dll_t} {grouped : List (String × Nat) × List pe_import_dll_t}
  {dll name : String} {rva : UInt32} {fn : pe_import_func_t} {i : Nat}

/-- A library has a function. -/
def HasImport (dlls : List pe_import_dll_t) (dll name : String) (rva : UInt32) : Prop :=
  ∃ (j : Nat) (d : pe_import_dll_t), dlls[j]? = some d ∧ d.dll = dll ∧ ∃ fn ∈ d.functions, fn.name = name ∧ fn.iat_rva = rva

/-- The entry of a library is where it is said to be. -/
def Indexed (grouped : List (String × Nat) × List pe_import_dll_t) : Prop :=
  ∀ dll i, grouped.1.lookup dll = some i → ∃ d, grouped.2[i]? = some d ∧ d.dll = dll

theorem getElem?_push {j : Nat} {d : pe_import_dll_t} (hd : dlls[j]? = some d) :
    (dlls.modify i fun d => { d with functions := d.functions ++ [fn] })[j]? =
      some (if i = j then { d with functions := d.functions ++ [fn] } else d) := by
  rw [List.getElem?_modify, hd]
  rfl

/-- A function that a library gets leaves the entries in their places. -/
theorem push_dll {j : Nat} {d : pe_import_dll_t} (hd : dlls[j]? = some d) :
    ∃ d', (dlls.modify i fun d => { d with functions := d.functions ++ [fn] })[j]? = some d' ∧ d'.dll = d.dll := by
  rw [getElem?_push hd]
  split <;> exact ⟨_, rfl, rfl⟩

/-- It leaves the other functions. -/
theorem HasImport.push (h : HasImport dlls dll name rva) :
    HasImport (dlls.modify i fun d => { d with functions := d.functions ++ [fn] }) dll name rva := by
  obtain ⟨j, d, hd, hdll, f, hf, hfields⟩ := h
  have hpushed := @getElem?_push dlls fn i j d hd
  split at hpushed
  · exact ⟨j, _, hpushed, hdll, f, List.mem_append_left _ hf, hfields⟩
  · exact ⟨j, d, hpushed, hdll, f, hf, hfields⟩

theorem hasImport_push {d : pe_import_dll_t} (hd : dlls[i]? = some d) :
    HasImport (dlls.modify i fun d => { d with functions := d.functions ++ [fn] }) d.dll fn.name fn.iat_rva := by
  have hpushed := @getElem?_push dlls fn i i d hd
  rw [if_pos rfl] at hpushed
  exact ⟨i, _, hpushed, rfl, fn, List.mem_append_right _ (List.mem_singleton_self fn), rfl, rfl⟩

/-- A slot goes to its library, whether it is there already or not. -/
theorem add_import_spec (h : Indexed grouped) (imp : hype.Import) :
    Indexed (add_import base grouped imp) ∧
      (∀ dll name rva, HasImport grouped.2 dll name rva → HasImport (add_import base grouped imp).2 dll name rva) ∧
      (¬ outside base imp.iat_addr → HasImport (add_import base grouped imp).2
        (if imp.dll = "" then "(flat namespace)" else imp.dll) imp.name (imp.iat_addr - base).toUInt32) := by
  rw [add_import]
  by_cases hout : outside base imp.iat_addr
  · rw [if_pos hout]
    exact ⟨h, fun _ _ _ h => h, fun hin => absurd hout hin⟩
  · rw [if_neg hout]
    dsimp only
    generalize (if imp.dll = "" then "(flat namespace)" else imp.dll) = dll
    cases hlookup : grouped.1.lookup dll with
    | some i =>
      obtain ⟨d, hd, rfl⟩ := h dll i hlookup
      refine ⟨?_, fun _ _ _ h => h.push, fun _ => hasImport_push hd⟩
      intro name j hj
      obtain ⟨e, he, hname⟩ := h name j hj
      obtain ⟨e', he', hsame⟩ := push_dll he
      exact ⟨e', he', hsame.trans hname⟩
    | none =>
      have hnew : (grouped.2 ++ [{ dll, functions := [] }])[grouped.2.length]? = some { dll, functions := [] } := by simp
      have hold : ∀ {j : Nat} {d : pe_import_dll_t}, grouped.2[j]? = some d →
          (grouped.2 ++ [{ dll, functions := [] }])[j]? = some d := by
        intro j d hd
        rw [List.getElem?_append_left (List.getElem?_eq_some_iff.mp hd).1, hd]
      refine ⟨?_, ?_, fun _ => hasImport_push hnew⟩
      · intro name j hj
        rw [List.lookup_append] at hj
        cases hfound : grouped.1.lookup name with
        | some k =>
          rw [hfound, Option.some_or, Option.some.injEq] at hj
          obtain ⟨e, he, hname⟩ := h name k hfound
          obtain ⟨e', he', hsame⟩ := push_dll (hold he)
          exact ⟨e', hj ▸ he', hsame.trans hname⟩
        | none =>
          rw [hfound, Option.none_or] at hj
          by_cases hname : name = dll
          · subst hname
            simp at hj
            obtain ⟨e', he', hsame⟩ := push_dll hnew
            exact ⟨e', hj ▸ he', hsame⟩
          · rw [List.lookup_cons, beq_eq_false_iff_ne.mpr hname] at hj
            cases hj
      · rintro name' name rva ⟨j, d, hd, hrest⟩
        exact HasImport.push ⟨j, d, hold hd, hrest⟩

/-- No slot is lost. -/
theorem add_imports (imports : List hype.Import) (h : Indexed grouped) :
    (∀ dll name rva, HasImport grouped.2 dll name rva → HasImport (imports.foldl (add_import base) grouped).2 dll name rva) ∧
      ∀ imp ∈ imports, ¬ outside base imp.iat_addr → HasImport (imports.foldl (add_import base) grouped).2
        (if imp.dll = "" then "(flat namespace)" else imp.dll) imp.name (imp.iat_addr - base).toUInt32 := by
  induction imports generalizing grouped with
  | nil => exact ⟨fun _ _ _ h => h, fun _ himp => absurd himp List.not_mem_nil⟩
  | cons imp imports ih =>
    obtain ⟨hindexed, hkept, hadded⟩ := @add_import_spec base _ h imp
    obtain ⟨hlater, hall⟩ := ih hindexed
    refine ⟨fun dll name rva hhas => hlater dll name rva (hkept dll name rva hhas), ?_⟩
    intro imp' himp' hin
    rcases List.mem_cons.mp himp' with rfl | himp'
    · exact hlater _ _ _ (hadded hin)
    · exact hall imp' himp' hin

end

namespace hype.PEImage

variable {img : hype.PEImage} {file_size va : UInt64} {arch : image_arch_t}

theorem near_iff {addr : UInt64} : img.Near addr ↔ ¬ outside img.base addr := by
  rw [outside_iff, Near]
  omega

/-- An address of the image is translated as its distance from the base. -/
theorem va_to_offset_near (hnear : img.Near va) :
    (synthesize_section_map img arch file_size).va_to_offset va =
        (synthesize_section_map img arch file_size).rva_to_offset (va - img.base).toUInt32 ∧
      img.base.toNat + (va - img.base).toUInt32.toNat = va.toNat := by
  obtain ⟨hle, hlt⟩ := hnear
  have hsub : va.toNat - (synthesize_section_map img arch file_size).image_base.toNat < 2 ^ 32 := by
    show va.toNat - img.base.toNat < 2 ^ 32
    omega
  exact ⟨va_to_offset_eq rfl hle hsub, toNat_rva (near_iff.mp ⟨hle, hlt⟩)⟩

theorem va_to_offset_far (hfar : ¬ img.Near va) : (synthesize_section_map img arch file_size).va_to_offset va = none := by
  cases hmap : (synthesize_section_map img arch file_size).va_to_offset va with
  | none => rfl
  | some off =>
    obtain ⟨hle, hlt, -⟩ := va_to_offset_spec hmap
    change img.base.toNat ≤ va.toNat at hle
    change va.toNat - img.base.toNat < 2 ^ 32 at hlt
    exact absurd ⟨hle, by omega⟩ hfar

theorem Laid.near_of_byte (h : img.Laid) {off : Nat} (hbyte : img.FileByte file_size va off) :
    img.Near va ∧ off < file_size.toNat := by
  obtain ⟨seg, hseg, i, hi, hva, rfl⟩ := hbyte
  have hbase := h.base_le seg hseg
  have hend := h.end_le seg hseg
  have hfile := UInt64.le_iff_toNat_le.mp (h.file_le seg hseg)
  rw [hype.Segment.backed] at hi
  exact ⟨⟨by omega, by omega⟩, by omega⟩

theorem kept (img : hype.PEImage) (arch : image_arch_t) (file_size : UInt64) :
    img.Kept (synthesize_section_map img arch file_size) := by
  refine ⟨?_, ?_⟩
  · intro imp himp hnear
    have hin := near_iff.mp hnear
    obtain ⟨j, d, hd, hdll, fn, hfn, hname, hrva⟩ :=
      (@add_imports img.base ([], []) img.imports fun _ _ hfound => by cases hfound).2 imp himp hin
    refine ⟨d, List.mem_of_getElem? hd, fn, hfn, hdll, hname, ?_⟩
    rw [hrva]
    exact toNat_rva hin
  · intro ex hex hnear
    have hin := near_iff.mp hnear
    exact ⟨_, List.mem_filterMap.mpr ⟨ex, hex, if_neg hin⟩, rfl, toNat_rva hin⟩

/-- The bounds of a function are kept where its end is behind its start. -/
theorem has_bounds {rf : hype.RuntimeFunc} (hrf : rf ∈ img.runtime_funcs) (hstart : img.Near rf.start) (hend : img.Near rf.end)
    (hlt : rf.start < rf.end) : (synthesize_section_map img arch file_size).HasBounds rf := by
  have hkept : ¬ (rf.start < img.base ∨ rf.end ≤ rf.start ∨ rf.end - img.base > kMaxRva) := by
    have hin := near_iff.mp hstart
    have hin' := near_iff.mp hend
    rw [outside, not_or] at hin hin'
    rintro (hbefore | hback | hbehind)
    · exact hin.1 hbefore
    · exact UInt64.not_le.mpr hlt hback
    · exact hin'.2 hbehind
  exact ⟨_, List.mem_filterMap.mpr ⟨rf, hrf, if_neg hkept⟩, toNat_rva (near_iff.mp hstart), toNat_rva (near_iff.mp hend)⟩

/-- What is made of the segments translates the bytes of the file but the last one of the 4 GiB, and the headers. -/
theorem segments_mapped (img : hype.PEImage) (arch : image_arch_t) (file_size : UInt64) (h : img.Laid) :
    img.Mapped file_size (synthesize_section_map img arch file_size) := by
  refine ⟨kept img arch file_size, ?_, ?_, ?_, ?_⟩
  · intro va off hbyte hlast
    obtain ⟨hnear, hinside⟩ := h.near_of_byte hbyte
    obtain ⟨hmap, hrva⟩ := @va_to_offset_near img file_size va arch hnear
    rw [hmap, h.rva_to_offset_byte hrva hbyte (by omega)]
    exact ⟨rfl, hinside⟩
  · intro va hnone hle hlt
    obtain ⟨hmap, hrva⟩ := @va_to_offset_near img file_size va arch ⟨hle, by omega⟩
    rw [hmap, h.rva_to_offset_other hrva (.inl hnone), if_pos (UInt32.lt_iff_toNat_lt.mpr _), ← hrva, Nat.add_sub_cancel_left]
    show _ < 0x400
    omega
  · intro va hother
    by_cases hnear : img.Near va
    · obtain ⟨hmap, hrva⟩ := @va_to_offset_near img file_size va arch hnear
      have hle := hnear.1
      have hnone : (¬ ∃ off, img.FileByte file_size va off) ∨ (va - img.base).toUInt32.toNat = 2 ^ 32 - 1 := by
        rcases hother with hother | hlast
        · exact .inl hother.1
        · right
          omega
      rw [hmap, h.rva_to_offset_other hrva hnone, if_neg]
      rw [UInt32.lt_iff_toNat_lt]
      show ¬ _ < 0x400
      omega
    · exact va_to_offset_far hnear
  · intro rf hrf hstart hend hlt
    exact has_bounds hrf hstart hend hlt

/-- A dylib at 0, whose data ends with zeros that are not in the file. -/
def dylib : hype.PEImage where
  base := 0
  entry := 0
  segments := [⟨[], 0, 0x4000, 0, 0x4000, 0x60000020⟩, ⟨[], 0x4000, 0x4000, 0x4000, 0x1000, 0xC0000040⟩]

theorem dylib_mapped : dylib.Laid ∧ dylib.Mapped 0x5000 (synthesize_section_map dylib .arm64 0x5000) := by
  have hlaid : dylib.Laid := by refine ⟨?_, ?_, ?_, ?_, ?_, ?_⟩ <;> decide
  exact ⟨hlaid, segments_mapped dylib .arm64 0x5000 hlaid⟩

def no_segments : hype.PEImage := { base := 0, entry := 0, segments := [] }

/-- The only byte of the image is the last one of the 4 GiB. -/
def last_byte : hype.PEImage := { base := 0, entry := 0, segments := [⟨[], 0xFFFFFFFF, 1, 0, 1, 0⟩] }

def no_extent : hype.PEImage := { base := 0, entry := 0, segments := [], runtime_funcs := [⟨0x1000, 0x1000⟩] }

/-- The headers are not where the file ends, the last byte is not translated, and a function of no bytes is dropped. -/
theorem segments_not_refined :
    (no_segments.Laid ∧ ¬ no_segments.Refined 0 (synthesize_section_map no_segments .arm64 0)) ∧
      (last_byte.Laid ∧ ¬ last_byte.Refined 0x1000 (synthesize_section_map last_byte .arm64 0x1000)) ∧
      (no_extent.Laid ∧ ¬ no_extent.Refined 0x1000 (synthesize_section_map no_extent .arm64 0x1000)) := by
  refine ⟨⟨by refine ⟨?_, ?_, ?_, ?_, ?_, ?_⟩ <;> decide, fun h => ?_⟩, ⟨by refine ⟨?_, ?_, ?_, ?_, ?_, ?_⟩ <;> decide, fun h => ?_⟩,
    ⟨by refine ⟨?_, ?_, ?_, ?_, ?_, ?_⟩ <;> decide, fun h => ?_⟩⟩
  · exact absurd (h.inside 0 0 (by decide)) (by decide)
  · have hbyte : last_byte.FileByte 0x1000 0xFFFFFFFF 0 := ⟨_, List.mem_singleton_self _, 0, by decide, by decide, rfl⟩
    exact absurd (h.translated _ _ hbyte) (by decide)
  · obtain ⟨f, hf, -⟩ := h.bounds _ (List.mem_singleton_self _) ⟨by decide, by decide⟩ ⟨by decide, by decide⟩
    exact absurd hf List.not_mem_nil

end hype.PEImage

end slop.core.disasm
