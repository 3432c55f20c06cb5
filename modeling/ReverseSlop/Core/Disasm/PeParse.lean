import ReverseSlop.Core.Disasm.BinaryState
import ReverseSlop.Library.Bytes
import ReverseSlop.Library.Numeral

namespace slop.core.disasm

-- a read outside the file is `none` in all that follows; an offset is a `size_t`, which none of them gets near to

def rd16 (d : List UInt8) (off : Nat) : Option UInt16 := (Bytes.read 2 d off).map Nat.toUInt16

def rd32 (d : List UInt8) (off : Nat) : Option UInt32 := (Bytes.read 4 d off).map Nat.toUInt32

def rd64 (d : List UInt8) (off : Nat) : Option UInt64 := (Bytes.read 8 d off).map Nat.toUInt64

/-- Characters up to a zero, or `cap` of them. -/
def read_chars (d : List UInt8) : Nat → Nat → Option (List UInt8)
  | 0, _ => some []
  | cap + 1, off => do
    let c ← d[off]?
    if c = 0 then return []
    let s ← read_chars d cap (off + 1)
    return c :: s

def read_cstring_at (d : List UInt8) (off : Nat) : Option (List UInt8) :=
  if off ≥ d.length then some [] else read_chars d (min (d.length - off) 4096) off

/-- The data directories from `o` on; those that do not fit stay zero. -/
def read_data_dirs (d : List UInt8) : Nat → Nat → Option (List pe_data_dir_t)
  | 0, _ => some []
  | n + 1, o =>
    if o + 8 > d.length then some (List.replicate (n + 1) {})
    else do
      let rva ← rd32 d o
      let size ← rd32 d (o + 4)
      let dirs ← read_data_dirs d n (o + 8)
      return { rva, size } :: dirs

def read_section (d : List UInt8) (o : Nat) : Option pe_section_t := do
  let name ← Bytes.read 8 d o
  let virtual_size ← rd32 d (o + 8)
  let rva ← rd32 d (o + 12)
  let raw_size ← rd32 d (o + 16)
  let raw_offset ← rd32 d (o + 20)
  let characteristics ← rd32 d (o + 36)
  return { name := Bytes.le 8 name, rva, virtual_size, raw_offset, raw_size, characteristics }

def read_sections (d : List UInt8) : Nat → Nat → Option (List pe_section_t)
  | 0, _ => some []
  | n + 1, o => do
    let s ← read_section d o
    let sections ← read_sections d n (o + 40)
    return s :: sections

/-- `PE\0\0`. -/
def pe_signature : Nat := 0x4550

/-- The size of the optional header up to its data directories. -/
def dirs_at (pe32plus : Bool) : Nat := if pe32plus then 112 else 96

def read_image_base (d : List UInt8) (opt : Nat) (pe32plus : Bool) : Option UInt64 :=
  if pe32plus then rd64 d (opt + 24) else (rd32 d (opt + 28)).map UInt32.toUInt64

/-- The data directories of an optional header that has room for one. -/
def read_dirs (d : List UInt8) (opt_size : UInt16) (pe32plus : Bool) (dd_off : UInt16) : Option (List pe_data_dir_t) :=
  if opt_size.toNat ≥ dirs_at pe32plus + 8 then read_data_dirs d 16 dd_off.toNat else some (List.replicate 16 {})

/-- The optional header and the sections behind it. -/
def read_optional_header (d : List UInt8) (img : pe_image_t) (opt_header_off opt_size num_sections : UInt16) :
    Option pe_image_t := do
  let opt := opt_header_off.toNat
  let magic ← rd16 d opt
  if magic ≠ 0x10B ∧ magic ≠ 0x20B then return img
  let pe32plus : Bool := magic = 0x20B
  let img := { img with pe32plus }
  if opt_size.toNat < dirs_at pe32plus then return img
  let image_base ← read_image_base d opt pe32plus
  let entry_rva ← rd32 d (opt + 16)
  let subsystem ← rd16 d (opt + 68)
  let size_of_image ← rd32 d (opt + 56)
  let dd_off := opt_header_off + (dirs_at pe32plus).toUInt16
  let data_dirs ← read_dirs d opt_size pe32plus dd_off
  let img := { img with image_base, entry_rva, subsystem, size_of_image, data_dirs }
  let sec_table := opt + opt_size.toNat
  if sec_table + num_sections.toNat * 40 > d.length then return img
  let sections ← read_sections d num_sections.toNat sec_table
  return { img with sections, ok := true }

/-- The signature, the file header and what is behind it. -/
def read_file_header (d : List UInt8) (e_lfanew : UInt32) : Option pe_image_t := do
  let img : pe_image_t := {}
  let signature ← Bytes.read 4 d e_lfanew.toNat
  if signature ≠ pe_signature then return img
  let coff := (e_lfanew + 4).toNat
  if coff + 20 > d.length then return img
  let machine ← rd16 d coff
  let num_sections ← rd16 d (coff + 2)
  let opt_header_off := (e_lfanew + 24).toUInt16
  let opt_size ← rd16 d (coff + 16)
  if opt_size = 0 ∨ opt_header_off.toNat + opt_size.toNat > d.length then return { img with machine }
  read_optional_header d { img with machine } opt_header_off opt_size num_sections

/-- The headers. -/
def read_headers (d : List UInt8) : Option pe_image_t := do
  if d.length < 0x40 then return {}
  let m ← d[0]?
  if m ≠ 0x4D then return {}
  let z ← d[1]?
  if z ≠ 0x5A then return {}
  let e_lfanew ← rd32 d 0x3C
  if e_lfanew = 0 ∨ (e_lfanew + 0x18).toNat > d.length then return {}
  read_file_header d e_lfanew

namespace pe_image_t

variable (img : pe_image_t) (d : List UInt8)

def dir (i : Nat) : pe_data_dir_t := img.data_dirs.getD i {}

def thunk_size : Nat := if img.pe32plus then 8 else 4

def ordinal_flag : UInt64 := if img.pe32plus then 0x8000000000000000 else 0x80000000

def read_thunk (t : Nat) : Option UInt64 := if img.pe32plus then rd64 d t else (rd32 d t).map UInt32.toUInt64

/-- The functions of a DLL from the thunk at `t` on, which is the `f`-th. -/
def read_thunks (iat_rva : UInt32) (iat_off : Option Nat) : Nat → Nat → Nat → Option (List pe_import_func_t)
  | 0, _, _ => some []
  | n + 1, t, f =>
    if t + img.thunk_size > d.length then some []
    else do
      let thunk ← img.read_thunk d t
      if thunk = 0 then return []
      let slot := iat_rva + f.toUInt32 * img.thunk_size.toUInt32
      if thunk &&& img.ordinal_flag ≠ 0 then
        let functions ← read_thunks iat_rva iat_off n (t + img.thunk_size) (f + 1)
        return { name := "", by_ordinal := true, ordinal := (thunk &&& 0xFFFF).toUInt16, iat_rva := slot } :: functions
      else
        match img.rva_to_offset thunk.toUInt32 with
        | none => return []
        | some noff =>
          let name ← read_cstring_at d (noff + 2)
          if name = [] then
            if iat_off.isNone then read_thunks iat_rva iat_off n (t + img.thunk_size) (f + 1) else return []
          else
            let functions ← read_thunks iat_rva iat_off n (t + img.thunk_size) (f + 1)
            return { name := Numeral.text name, iat_rva := slot } :: functions

/-- The functions of the DLL of a descriptor. -/
def read_dll (dll : List UInt8) (oft_rva first_thunk : UInt32) : Option (List pe_import_func_t) :=
  let thunk_rva := if oft_rva ≠ 0 then oft_rva else first_thunk
  match img.rva_to_offset thunk_rva with
  | some t => if dll = [] then some [] else img.read_thunks d first_thunk (img.rva_to_offset first_thunk) 4096 t 0
  | none => some []

/-- The DLLs from the descriptor at `desc` on, at most `n` of them. -/
def read_imports : Nat → Nat → Option (List pe_import_dll_t)
  | 0, _ => some []
  | n + 1, desc =>
    if desc + 20 > d.length then some []
    else do
      let oft_rva ← rd32 d desc
      let name_rva ← rd32 d (desc + 12)
      if oft_rva = 0 ∧ name_rva = 0 then return []
      let dll ← read_cstring_at d ((img.rva_to_offset name_rva).getD 0)
      let first_thunk ← rd32 d (desc + 16)
      let functions ← img.read_dll d dll oft_rva first_thunk
      let imports ← read_imports n (desc + 20)
      return { dll := Numeral.text dll, functions } :: imports

def imports_of : Option (List pe_import_dll_t) :=
  if (img.dir 1).rva ≠ 0 ∧ (img.dir 1).size ≠ 0 then
    match img.rva_to_offset (img.dir 1).rva with
    | some desc => img.read_imports d 256 desc
    | none => some []
  else some []

/-- The names of the functions: of each name from the `i`-th on, the function that it is for gets it. -/
def read_names (names_off ords_off : Nat) : Nat → Nat → List (List UInt8) → Option (List (List UInt8))
  | 0, _, names => some names
  | n + 1, i, names =>
    let no := names_off + i * 4
    let oo := ords_off + i * 2
    if no + 4 > d.length ∨ oo + 2 > d.length then some names
    else do
      let index ← rd16 d oo
      let name_rva ← rd32 d no
      match img.rva_to_offset name_rva with
      | some str_off =>
        if index.toNat < names.length then
          let s ← read_cstring_at d str_off
          read_names names_off ords_off n (i + 1) (names.set index.toNat s)
        else read_names names_off ords_off n (i + 1) names
      | none => read_names names_off ords_off n (i + 1) names

/-- The names of `num_funcs` functions. -/
def names_of (names_rva ordinals_rva : UInt32) (num_names num_funcs : Nat) : Option (List (List UInt8)) :=
  let unnamed := List.replicate num_funcs []
  match img.rva_to_offset names_rva, img.rva_to_offset ordinals_rva with
  | some names_off, some ords_off => img.read_names d names_off ords_off num_names 0 unnamed
  | _, _ => some unnamed

/-- The end of the export directory. -/
def exp_end : Nat := (img.dir 0).rva.toNat + (img.dir 0).size.toNat

/-- The forwarder of a function, which is one if its address is in the export directory. -/
def read_forwarder (func_rva : UInt32) : Option (Bool × List UInt8) :=
  if func_rva ≥ (img.dir 0).rva ∧ func_rva.toNat < img.exp_end then
    match img.rva_to_offset func_rva with
    | some off => (read_cstring_at d off).map fun s => (true, s)
    | none => some (true, [])
  else some (false, [])

/-- The functions from the `index`-th on that have an address. -/
def read_functions (funcs_off : Nat) (ordinal_base : UInt32) (names : List (List UInt8)) :
    Nat → Nat → Option (List pe_export_t)
  | 0, _ => some []
  | n + 1, index =>
    let fo := funcs_off + index * 4
    if fo + 4 > d.length then some []
    else do
      let func_rva ← rd32 d fo
      if func_rva = 0 then read_functions funcs_off ordinal_base names n (index + 1)
      else
        let name ← names[index]?
        let forward ← img.read_forwarder d func_rva
        let e : pe_export_t :=
          { name := Numeral.text name, ordinal := (ordinal_base + index.toUInt32).toUInt16, rva := func_rva
            forwarded := forward.1, forwarder := Numeral.text forward.2 }
        let exports ← read_functions funcs_off ordinal_base names n (index + 1)
        return e :: exports

/-- The exports of the directory at `dir_off`. -/
def read_exports (dir_off : Nat) : Option (List pe_export_t) := do
  let ordinal_base ← rd32 d (dir_off + 16)
  let num_funcs := min (← rd32 d (dir_off + 20)).toNat 65536
  let num_names := min (← rd32 d (dir_off + 24)).toNat 65536
  let funcs_rva ← rd32 d (dir_off + 28)
  let names_rva ← rd32 d (dir_off + 32)
  let ordinals_rva ← rd32 d (dir_off + 36)
  match img.rva_to_offset funcs_rva with
  | none => return []
  | some funcs_off =>
    let names ← img.names_of d names_rva ordinals_rva num_names num_funcs
    img.read_functions d funcs_off ordinal_base names num_funcs 0

def exports_of : Option (List pe_export_t) :=
  if (img.dir 0).rva ≠ 0 then
    match img.rva_to_offset (img.dir 0).rva with
    | some dir_off => if dir_off + 40 ≤ d.length then img.read_exports d dir_off else some []
    | none => some []
  else some []

def read_runtime_funcs : Nat → Nat → Option (List pe_runtime_func_t)
  | 0, _ => some []
  | n + 1, o => do
    let begin_rva ← rd32 d o
    let end_rva ← rd32 d (o + 4)
    let funcs ← read_runtime_funcs n (o + 12)
    if begin_rva = 0 ∨ end_rva ≤ begin_rva then return funcs
    return { begin_rva, end_rva } :: funcs

def runtime_funcs_of : Option (List pe_runtime_func_t) :=
  if (img.dir 3).rva ≠ 0 ∧ (img.dir 3).size ≥ 12 then
    match img.rva_to_offset (img.dir 3).rva with
    | some dir_off =>
      if dir_off + 12 ≤ d.length then
        read_runtime_funcs d (min (min ((img.dir 3).size.toNat / 12) 500000) ((d.length - dir_off) / 12)) dir_off
      else some []
    | none => some []
  else some []

end pe_image_t

def pe_parse (d : List UInt8) : Option pe_image_t := do
  let img ← read_headers d
  if img.ok = false then return img
  let imports ← img.imports_of d
  let exports ← img.exports_of d
  let runtime_funcs ← img.runtime_funcs_of d
  return { img with imports, exports, runtime_funcs }

end slop.core.disasm
