import ReverseSlop.Core.Disasm.PeParse

namespace slop.core.disasm

open Bytes (isSome_bind)

section

variable {d : List UInt8} {off n : Nat}

theorem rd16_isSome : (rd16 d off).isSome ↔ off + 2 ≤ d.length := by
  rw [rd16, Option.isSome_map, Bytes.read_isSome]

theorem rd32_isSome : (rd32 d off).isSome ↔ off + 4 ≤ d.length := by
  rw [rd32, Option.isSome_map, Bytes.read_isSome]

theorem rd64_isSome : (rd64 d off).isSome ↔ off + 8 ≤ d.length := by
  rw [rd64, Option.isSome_map, Bytes.read_isSome]

theorem read_chars_isSome (hin : off + n ≤ d.length) : (read_chars d n off).isSome := by
  induction n generalizing off with
  | zero => rfl
  | succ n ih =>
    refine isSome_bind (by simp; omega) fun c _ => ?_
    split
    · rfl
    · exact isSome_bind (ih (by omega)) fun _ _ => rfl

theorem read_cstring_at_isSome : (read_cstring_at d off).isSome := by
  rw [read_cstring_at]
  split
  · rfl
  · exact read_chars_isSome (by omega)

theorem read_data_dirs_isSome : (read_data_dirs d n off).isSome := by
  induction n generalizing off with
  | zero => rfl
  | succ n ih =>
    rw [read_data_dirs]
    split
    · rfl
    · refine isSome_bind (rd32_isSome.mpr (by omega)) fun _ _ => ?_
      refine isSome_bind (rd32_isSome.mpr (by omega)) fun _ _ => ?_
      exact isSome_bind ih fun _ _ => rfl

theorem read_section_isSome (hin : off + 40 ≤ d.length) : (read_section d off).isSome := by
  refine isSome_bind (Bytes.read_isSome.mpr (by omega)) fun _ _ => ?_
  refine isSome_bind (rd32_isSome.mpr (by omega)) fun _ _ => ?_
  refine isSome_bind (rd32_isSome.mpr (by omega)) fun _ _ => ?_
  refine isSome_bind (rd32_isSome.mpr (by omega)) fun _ _ => ?_
  refine isSome_bind (rd32_isSome.mpr (by omega)) fun _ _ => ?_
  exact isSome_bind (rd32_isSome.mpr (by omega)) fun _ _ => rfl

theorem read_sections_isSome (hin : off + n * 40 ≤ d.length) : (read_sections d n off).isSome := by
  induction n generalizing off with
  | zero => rfl
  | succ n ih =>
    refine isSome_bind (read_section_isSome (by omega)) fun _ _ => ?_
    exact isSome_bind (ih (by omega)) fun _ _ => rfl

end

namespace pe_image_t

section

variable {img : pe_image_t} {d : List UInt8} {iat_rva : UInt32} {iat_off : Option Nat} {n off i : Nat}

theorem read_thunk_isSome (hin : off + img.thunk_size ≤ d.length) : (img.read_thunk d off).isSome := by
  rw [thunk_size] at hin
  rw [read_thunk]
  split
  · rename_i hplus
    rw [if_pos hplus] at hin
    exact rd64_isSome.mpr hin
  · rename_i hplus
    rw [if_neg hplus] at hin
    rw [Option.isSome_map]
    exact rd32_isSome.mpr hin

theorem read_thunks_isSome : (img.read_thunks d iat_rva iat_off n off i).isSome := by
  induction n generalizing off i with
  | zero => rfl
  | succ n ih =>
    rw [read_thunks]
    split
    · rfl
    · refine isSome_bind (read_thunk_isSome (by omega)) fun thunk _ => ?_
      split
      · rfl
      split
      · exact isSome_bind ih fun _ _ => rfl
      split
      · rfl
      refine isSome_bind read_cstring_at_isSome fun name _ => ?_
      split
      · split
        · exact ih
        · rfl
      · exact isSome_bind ih fun _ _ => rfl

theorem read_dll_isSome {dll : List UInt8} {oft_rva first_thunk : UInt32} :
    (img.read_dll d dll oft_rva first_thunk).isSome := by
  rw [read_dll]
  split
  · split
    · rfl
    · exact read_thunks_isSome
  · rfl

theorem read_imports_isSome : (img.read_imports d n off).isSome := by
  induction n generalizing off with
  | zero => rfl
  | succ n ih =>
    rw [read_imports]
    split
    · rfl
    · refine isSome_bind (rd32_isSome.mpr (by omega)) fun oft_rva _ => ?_
      refine isSome_bind (rd32_isSome.mpr (by omega)) fun name_rva _ => ?_
      split
      · rfl
      refine isSome_bind read_cstring_at_isSome fun dll _ => ?_
      refine isSome_bind (rd32_isSome.mpr (by omega)) fun first_thunk _ => ?_
      refine isSome_bind read_dll_isSome fun functions _ => ?_
      exact isSome_bind ih fun _ _ => rfl

theorem imports_of_isSome : (img.imports_of d).isSome := by
  rw [imports_of]
  split
  · split
    · exact read_imports_isSome
    · rfl
  · rfl

section

variable {names : List (List UInt8)} {names_off ords_off : Nat}

/-- The names stay those of as many functions. -/
theorem read_names_length : ∃ names', img.read_names d names_off ords_off n i names = some names' ∧
    names'.length = names.length := by
  induction n generalizing i names with
  | zero => exact ⟨names, rfl, rfl⟩
  | succ n ih =>
    rw [read_names]
    split
    · exact ⟨names, rfl, rfl⟩
    · rename_i hin
      obtain ⟨index, hindex⟩ := Option.isSome_iff_exists.mp (rd16_isSome.mpr (show ords_off + i * 2 + 2 ≤ d.length by omega))
      obtain ⟨rva, hrva⟩ := Option.isSome_iff_exists.mp (rd32_isSome.mpr (show names_off + i * 4 + 4 ≤ d.length by omega))
      simp only [hindex, hrva, Option.bind_eq_bind, Option.bind_some]
      split
      · rename_i str_off _
        obtain ⟨s, hs⟩ := Option.isSome_iff_exists.mp (show (read_cstring_at d str_off).isSome from read_cstring_at_isSome)
        split
        · rw [hs]
          obtain ⟨names', hnames', hlength⟩ : ∃ names', img.read_names d names_off ords_off n (i + 1)
            (names.set index.toNat s) = some names' ∧ names'.length = (names.set index.toNat s).length := ih
          exact ⟨names', hnames', hlength.trans List.length_set⟩
        · exact ih
      · exact ih

end

theorem names_of_length {names_rva ordinals_rva : UInt32} {num_names num_funcs : Nat} :
    ∃ names, img.names_of d names_rva ordinals_rva num_names num_funcs = some names ∧ names.length = num_funcs := by
  rw [names_of]
  split
  · rename_i names_off ords_off _ _
    obtain ⟨names, hnames, hlength⟩ : ∃ names, img.read_names d names_off ords_off num_names 0
      (List.replicate num_funcs []) = some names ∧ names.length = _ := read_names_length
    exact ⟨names, hnames, hlength.trans List.length_replicate⟩
  · exact ⟨_, rfl, List.length_replicate⟩

theorem read_forwarder_isSome {func_rva : UInt32} : (img.read_forwarder d func_rva).isSome := by
  rw [read_forwarder]
  split
  · split
    · rw [Option.isSome_map]
      exact read_cstring_at_isSome
    · rfl
  · rfl

theorem read_functions_isSome {funcs_off : Nat} {ordinal_base : UInt32} {names : List (List UInt8)}
    (hlength : i + n = names.length) : (img.read_functions d funcs_off ordinal_base names n i).isSome := by
  induction n generalizing i with
  | zero => rfl
  | succ n ih =>
    rw [read_functions]
    split
    · rfl
    · refine isSome_bind (rd32_isSome.mpr (by omega)) fun func_rva _ => ?_
      split
      · exact ih (by omega)
      · refine isSome_bind (by simp; omega) fun name _ => ?_
        refine isSome_bind read_forwarder_isSome fun forward _ => ?_
        exact isSome_bind (ih (by omega)) fun _ _ => rfl

theorem read_exports_isSome (hin : off + 40 ≤ d.length) : (img.read_exports d off).isSome := by
  rw [read_exports]
  refine isSome_bind (rd32_isSome.mpr (by omega)) fun ordinal_base _ => ?_
  refine isSome_bind (rd32_isSome.mpr (by omega)) fun num_funcs _ => ?_
  refine isSome_bind (rd32_isSome.mpr (by omega)) fun num_names _ => ?_
  refine isSome_bind (rd32_isSome.mpr (by omega)) fun funcs_rva _ => ?_
  refine isSome_bind (rd32_isSome.mpr (by omega)) fun names_rva _ => ?_
  refine isSome_bind (rd32_isSome.mpr (by omega)) fun ordinals_rva _ => ?_
  split
  · rfl
  · obtain ⟨names, hnames, hlength⟩ : ∃ names, img.names_of d names_rva ordinals_rva (min num_names.toNat 65536)
      (min num_funcs.toNat 65536) = some names ∧ names.length = min num_funcs.toNat 65536 := names_of_length
    rw [hnames]
    exact read_functions_isSome (by omega)

theorem exports_of_isSome : (img.exports_of d).isSome := by
  rw [exports_of]
  split
  · split
    · split
      · exact read_exports_isSome (by assumption)
      · rfl
    · rfl
  · rfl

theorem read_runtime_funcs_isSome (hin : off + n * 12 ≤ d.length) : (read_runtime_funcs d n off).isSome := by
  induction n generalizing off with
  | zero => rfl
  | succ n ih =>
    refine isSome_bind (rd32_isSome.mpr (by omega)) fun begin_rva _ => ?_
    refine isSome_bind (rd32_isSome.mpr (by omega)) fun end_rva _ => ?_
    refine isSome_bind (ih (by omega)) fun funcs _ => ?_
    split <;> rfl

theorem runtime_funcs_of_isSome : (img.runtime_funcs_of d).isSome := by
  rw [runtime_funcs_of]
  split
  · split
    · split
      · exact read_runtime_funcs_isSome (by omega)
      · rfl
    · rfl
  · rfl

end

end pe_image_t

section

variable {d : List UInt8}

/-- Behind the headers nothing is read outside. -/
theorem pe_parse_isSome : (pe_parse d).isSome ↔ (read_headers d).isSome := by
  constructor
  · intro hparse
    by_contra hnone
    rw [Option.not_isSome_iff_eq_none] at hnone
    rw [pe_parse, hnone] at hparse
    cases hparse
  · intro hheaders
    refine isSome_bind hheaders fun img _ => ?_
    split
    · rfl
    · refine isSome_bind pe_image_t.imports_of_isSome fun imports _ => ?_
      refine isSome_bind pe_image_t.exports_of_isSome fun exports _ => ?_
      exact isSome_bind pe_image_t.runtime_funcs_of_isSome fun runtime_funcs _ => rfl

theorem dirs_at_bounds (pe32plus : Bool) : 96 ≤ dirs_at pe32plus ∧ dirs_at pe32plus ≤ 112 := by
  rw [dirs_at]
  split <;> omega

theorem read_image_base_isSome {off : Nat} {pe32plus : Bool} (hin : off + dirs_at pe32plus ≤ d.length) :
    (read_image_base d off pe32plus).isSome := by
  cases pe32plus with
  | true =>
    rw [dirs_at, if_pos rfl] at hin
    exact rd64_isSome.mpr (by omega)
  | false =>
    rw [dirs_at, if_neg (by simp)] at hin
    rw [read_image_base, if_neg (by simp), Option.isSome_map]
    exact rd32_isSome.mpr (by omega)

theorem read_dirs_isSome {opt_size dd_off : UInt16} {pe32plus : Bool} : (read_dirs d opt_size pe32plus dd_off).isSome := by
  rw [read_dirs]
  split
  · exact read_data_dirs_isSome
  · rfl

/-- An optional header whose magic is in the file is read inside. -/
theorem read_optional_header_isSome {img : pe_image_t} {opt_header_off opt_size num_sections : UInt16}
    (hmagic : opt_header_off.toNat + 2 ≤ d.length) (hin : opt_header_off.toNat + opt_size.toNat ≤ d.length) :
    (read_optional_header d img opt_header_off opt_size num_sections).isSome := by
  refine isSome_bind (rd16_isSome.mpr hmagic) fun magic _ => ?_
  split
  · rfl
  dsimp only
  split
  · rfl
  rename_i hsize
  have hdirs := dirs_at_bounds (magic = 0x20B)
  refine isSome_bind (read_image_base_isSome (by omega)) fun image_base _ => ?_
  refine isSome_bind (rd32_isSome.mpr (by omega)) fun entry_rva _ => ?_
  refine isSome_bind (rd16_isSome.mpr (by omega)) fun subsystem _ => ?_
  refine isSome_bind (rd32_isSome.mpr (by omega)) fun size_of_image _ => ?_
  refine isSome_bind read_dirs_isSome fun data_dirs _ => ?_
  split
  · rfl
  · exact isSome_bind (read_sections_isSome (by omega)) fun sections _ => rfl

def e_lfanew (d : List UInt8) : UInt32 := (Bytes.of_le ((d.drop 0x3C).take 4)).toUInt32

/-- A file that begins with a DOS header. -/
structure Dos (d : List UInt8) : Prop where
  length_le : 0x40 ≤ d.length
  m : d[0]? = some 0x4D
  z : d[1]? = some 0x5A

/-- The place of the headers passes its check. -/
structure Located (d : List UInt8) : Prop extends Dos d where
  e_lfanew_ne : e_lfanew d ≠ 0
  length_ge : (e_lfanew d + 0x18).toNat ≤ d.length

/-- The headers are said to be at the very end of the address space, where the sum that is checked wraps. -/
structure Wrapped (d : List UInt8) : Prop extends Dos d where
  at_end : 2 ^ 32 - 24 ≤ (e_lfanew d).toNat
  outside : d.length < (e_lfanew d).toNat + 4

/-- The optional header is said to have one byte, and is where the file has one byte left. -/
structure Cut (d : List UInt8) : Prop extends Located d where
  signature : Bytes.read 4 d (e_lfanew d).toNat = some pe_signature
  coff : (e_lfanew d + 4).toNat + 20 ≤ d.length
  opt_size : rd16 d ((e_lfanew d + 4).toNat + 16) = some 1
  last : (e_lfanew d + 24).toUInt16.toNat + 1 = d.length

theorem rd32_e_lfanew (hlength : 0x40 ≤ d.length) : rd32 d 0x3C = some (e_lfanew d) := by
  rw [rd32, Bytes.read, if_pos hlength]
  rfl

theorem Located.read_headers (h : Located d) : read_headers d = read_file_header d (e_lfanew d) := by
  obtain ⟨⟨hlength, hm, hz⟩, hne, hge⟩ := h
  have hcheck : ¬ (e_lfanew d = 0 ∨ (e_lfanew d + 0x18).toNat > d.length) := by
    rintro (hzero | hbeyond)
    · exact hne hzero
    · omega
  rw [slop.core.disasm.read_headers, if_neg (by omega), hm, hz, rd32_e_lfanew hlength]
  simp only [Option.bind_eq_bind, Option.bind_some, ne_eq, not_true, if_false, if_neg hcheck]

theorem read_headers_isSome (h : Located d → (read_file_header d (e_lfanew d)).isSome) : (read_headers d).isSome := by
  rw [read_headers]
  split
  · rfl
  rename_i hlength
  refine isSome_bind (by simp; omega) fun m hm => ?_
  split
  · rfl
  rename_i hm'
  refine isSome_bind (by simp; omega) fun z hz => ?_
  split
  · rfl
  rename_i hz'
  rw [rd32_e_lfanew (by omega)]
  refine isSome_bind rfl fun e he => ?_
  cases he
  split
  · rfl
  rename_i hcheck
  push Not at hm' hz' hcheck
  exact h ⟨⟨by omega, hm' ▸ hm, hz' ▸ hz⟩, hcheck.1, hcheck.2⟩

theorem Wrapped.outside_read (h : Wrapped d) : read_headers d = none := by
  obtain ⟨hdos, hend, houtside⟩ := h
  have hlength := hdos.length_le
  have hread : Bytes.read 4 d (e_lfanew d).toNat = none := by
    rw [← Option.not_isSome_iff_eq_none, Bytes.read_isSome]
    omega
  have hne : e_lfanew d ≠ 0 := by
    intro hzero
    rw [hzero] at hend
    exact absurd hend (by decide)
  have hwrap : (e_lfanew d + 0x18).toNat ≤ d.length := by
    have hlt := (e_lfanew d).toNat_lt
    rw [UInt32.toNat_add]
    simp
    omega
  rw [Located.read_headers ⟨hdos, hne, hwrap⟩, read_file_header, hread]
  rfl

theorem Cut.outside_read (h : Cut d) : read_headers d = none := by
  obtain ⟨hlocated, hsignature, hcoff, hopt, hlast⟩ := h
  obtain ⟨machine, hmachine⟩ := Option.isSome_iff_exists.mp (rd16_isSome.mpr (show (e_lfanew d + 4).toNat + 2 ≤ d.length by omega))
  obtain ⟨num_sections, hsections⟩ := Option.isSome_iff_exists.mp
    (rd16_isSome.mpr (show (e_lfanew d + 4).toNat + 2 + 2 ≤ d.length by omega))
  have hcheck : ¬ ((1 : UInt16) = 0 ∨ (e_lfanew d + 24).toUInt16.toNat + (1 : UInt16).toNat > d.length) := by
    rintro (hzero | hbeyond)
    · exact absurd hzero (by decide)
    · rw [UInt16.toNat_one] at hbeyond
      omega
  have hmagic : rd16 d (e_lfanew d + 24).toUInt16.toNat = none := by
    rw [← Option.not_isSome_iff_eq_none, rd16_isSome]
    omega
  rw [hlocated.read_headers, read_file_header]
  simp only [hsignature, hmachine, hsections, hopt, Option.bind_eq_bind, Option.bind_some, ne_eq, not_true, if_false,
    if_neg (Nat.not_lt.mpr hcoff), if_neg hcheck, read_optional_header, hmagic, Option.bind_none]

/-- Nothing is read outside the file but what two kinds of headers lead to. -/
theorem pe_parse_in_bounds_iff : (pe_parse d).isSome ↔ ¬ Wrapped d ∧ ¬ Cut d := by
  rw [pe_parse_isSome]
  constructor
  · intro hsome
    refine ⟨fun h => ?_, fun h => ?_⟩
    · rw [h.outside_read] at hsome
      cases hsome
    · rw [h.outside_read] at hsome
      cases hsome
  · rintro ⟨hwrapped, hcut⟩
    refine read_headers_isSome fun hlocated => ?_
    have hge := hlocated.length_ge
    have hsignature : (e_lfanew d).toNat + 4 ≤ d.length := by
      by_contra houtside
      refine hwrapped ⟨hlocated.toDos, ?_, by omega⟩
      rw [UInt32.toNat_add] at hge
      simp at hge
      omega
    refine isSome_bind (Bytes.read_isSome.mpr hsignature) fun signature hread => ?_
    split
    · rfl
    rename_i hpe
    dsimp only
    split
    · rfl
    rename_i hcoff
    refine isSome_bind (rd16_isSome.mpr (by omega)) fun machine _ => ?_
    refine isSome_bind (rd16_isSome.mpr (by omega)) fun num_sections _ => ?_
    refine isSome_bind (rd16_isSome.mpr (by omega)) fun opt_size hopt => ?_
    split
    · rfl
    rename_i hcheck
    push Not at hpe hcheck
    refine read_optional_header_isSome ?_ hcheck.2
    -- an optional header of one byte is not the last one of the file
    by_contra hmagic
    have hone : opt_size = 1 := by
      have hne : opt_size.toNat ≠ 0 := fun hzero => hcheck.1 (UInt16.toNat_inj.mp hzero)
      have hle := hcheck.2
      refine UInt16.toNat_inj.mp ?_
      rw [UInt16.toNat_one]
      omega
    rw [hone] at hcheck hopt
    have hle := hcheck.2
    rw [UInt16.toNat_one] at hle
    exact hcut ⟨hlocated, hpe ▸ hread, by omega, hopt, by omega⟩

end

/-- 64 bytes whose headers are said to be at `FFFFFFFFh`. -/
def wrapped_file : List UInt8 := [0x4D, 0x5A] ++ List.replicate 58 0 ++ [0xFF, 0xFF, 0xFF, 0xFF]

/-- The sum is 23, and the signature is read at `FFFFFFFFh`. -/
theorem wrapped_sum_is_read_outside : ¬ ∀ d : List UInt8, (pe_parse d).isSome := by
  intro hlaw
  have hwrapped : Wrapped wrapped_file := by
    refine ⟨⟨?_, ?_, ?_⟩, ?_, ?_⟩ <;> decide
  have hsome := pe_parse_isSome.mp (hlaw wrapped_file)
  rw [hwrapped.outside_read] at hsome
  cases hsome

end slop.core.disasm
