import ReverseSlop.Core.Disasm.PeParse

namespace slop.core.disasm

open Bytes (At le)

/-- What a file imports from a DLL. -/
inductive import_t where
  | name (s : List UInt8)
  | ordinal (n : UInt16)

structure dll_t where
  name : List UInt8
  first_thunk : UInt32
  imports : List import_t

/-- A function of the export table. One without an address is not exported. -/
structure function_t where
  rva : UInt32
  forwarder : Option (List UInt8) := none

/-- What a PE file says of its imports and exports. -/
structure pe_file_t where
  pe32plus : Bool
  sections : List pe_section_t
  dlls : List dll_t := []
  ordinal_base : UInt32 := 0
  functions : List function_t := []
  /-- The exported names, each with the index of its function. -/
  names : List (UInt16 × List UInt8) := []

/-- The addresses that a section has in the image. -/
def pe_section_t.extent (s : pe_section_t) : Nat :=
  if s.virtual_size = 0 then s.raw_size.toNat else s.virtual_size.toNat

/-- Two sections have no address in common. -/
def pe_section_t.Apart (s t : pe_section_t) : Prop :=
  s.rva.toNat + s.extent ≤ t.rva.toNat ∨ t.rva.toNat + t.extent ≤ s.rva.toNat

/-- The byte at an address of the image is in the raw data of a section. -/
def Backed (sections : List pe_section_t) (rva : UInt32) (off : Nat) : Prop :=
  ∃ s ∈ sections, s.rva.toNat ≤ rva.toNat ∧ rva.toNat < s.rva.toNat + s.extent ∧
    rva.toNat < s.rva.toNat + s.raw_size.toNat ∧ off = s.raw_offset.toNat + (rva.toNat - s.rva.toNat)

/-- A text of at most 4095 characters, and a zero. -/
def TextAt (d : List UInt8) (off : Nat) (s : List UInt8) : Prop := At d off (s ++ [0]) ∧ 0 ∉ s ∧ s.length ≤ 4095

def pe_section_t.At (d : List UInt8) (o : Nat) (s : pe_section_t) : Prop :=
  s.name.length = 8 ∧
    Bytes.At d o (s.name ++ le 4 s.virtual_size.toNat ++ le 4 s.rva.toNat ++ le 4 s.raw_size.toNat ++ le 4 s.raw_offset.toNat) ∧
    Bytes.At d (o + 36) (le 4 s.characteristics.toNat)

namespace pe_file_t

variable (f : pe_file_t) (d : List UInt8)

def word : Nat := if f.pe32plus then 8 else 4

/-- A directory that the optional header has is in its place, and one that it has not is empty. -/
def Directory (place num_dirs i : Nat) (dir : pe_data_dir_t) : Prop :=
  if i < num_dirs then At d (place + i * 8) (le 4 dir.rva.toNat ++ le 4 dir.size.toNat) else dir = {}

/-- The headers, up to the section table, with the directories of the exports and of the imports. -/
structure Headers (exp imp : pe_data_dir_t) (e_lfanew opt_size num_dirs : Nat) : Prop where
  dos : 0x40 ≤ d.length
  magic : At d 0 [0x4D, 0x5A]
  place : At d 0x3C (le 4 e_lfanew)
  signature : At d e_lfanew (le 4 pe_signature)
  num_sections : At d (e_lfanew + 6) (le 2 f.sections.length)
  sections_lt : f.sections.length < 65536
  size : At d (e_lfanew + 20) (le 2 opt_size)
  opt_magic : At d (e_lfanew + 24) (le 2 (if f.pe32plus then 0x20B else 0x10B))
  count : At d (e_lfanew + 20 + dirs_at f.pe32plus) (le 4 num_dirs)
  size_ge : dirs_at f.pe32plus + num_dirs * 8 ≤ opt_size
  below : e_lfanew + 24 + opt_size ≤ 65512
  exp_dir : Directory d (e_lfanew + 24 + dirs_at f.pe32plus) num_dirs 0 exp
  imp_dir : Directory d (e_lfanew + 24 + dirs_at f.pe32plus) num_dirs 1 imp
  sections : ∀ i (h : i < f.sections.length), (f.sections[i]).At d (e_lfanew + 24 + opt_size + i * 40)
  inside : e_lfanew + 24 + opt_size + f.sections.length * 40 ≤ d.length

/-- The sections have no address in common, and are below the end of the address space. -/
structure Mapped : Prop where
  apart : f.sections.Pairwise pe_section_t.Apart
  end_lt : ∀ s ∈ f.sections, s.rva.toNat + s.extent < 2 ^ 32

/-- A thunk has the address of a hint and a name, or an ordinal and the highest bit. -/
def Thunk (off : Nat) : import_t → Prop
  | .name s => ∃ rva : UInt32, ∃ hint, rva.toNat < 2 ^ 31 ∧ rva ≠ 0 ∧ At d off (le f.word rva.toNat) ∧
      Backed f.sections rva hint ∧ s ≠ [] ∧ TextAt d (hint + 2) s
  | .ordinal n => At d off (le f.word (256 ^ f.word / 2 + n.toNat))

/-- Thunks from an offset on, and a zero behind them. -/
def Thunks : Nat → List import_t → Prop
  | off, [] => At d off (le f.word 0)
  | off, m :: imports => f.Thunk d off m ∧ Thunks (off + f.word) imports

/-- A descriptor has the addresses of the thunks and of the name of a DLL. The thunks are those of its address
table where it has no other. -/
def Descriptor (off : Nat) (m : dll_t) : Prop :=
  ∃ (oft_rva name_rva : UInt32) (name_off thunks : Nat), At d off (le 4 oft_rva.toNat) ∧ At d (off + 12) (le 4 name_rva.toNat) ∧
    At d (off + 16) (le 4 m.first_thunk.toNat) ∧ name_rva ≠ 0 ∧ m.name ≠ [] ∧ Backed f.sections name_rva name_off ∧
    TextAt d name_off m.name ∧ Backed f.sections (if oft_rva ≠ 0 then oft_rva else m.first_thunk) thunks ∧
    m.imports.length ≤ 4096 ∧ f.Thunks d thunks m.imports

/-- Descriptors from an offset on, and an empty one behind them. -/
def Descriptors : Nat → List dll_t → Prop
  | off, [] => At d off (List.replicate 20 0)
  | off, m :: dlls => f.Descriptor d off m ∧ Descriptors (off + 20) dlls

def Imports (imp : pe_data_dir_t) : Prop :=
  (imp.rva = 0 ∧ f.dlls = []) ∨
    (imp.rva ≠ 0 ∧ imp.size ≠ 0 ∧ f.dlls.length ≤ 255 ∧ ∃ desc, Backed f.sections imp.rva desc ∧ f.Descriptors d desc f.dlls)

/-- An address in the export directory is that of a forwarder. -/
def Function (exp : pe_data_dir_t) (funcs_off i : Nat) (fn : function_t) : Prop :=
  At d (funcs_off + i * 4) (le 4 fn.rva.toNat) ∧
    match fn.forwarder with
    | none => ¬ (exp.rva.toNat ≤ fn.rva.toNat ∧ fn.rva.toNat < exp.rva.toNat + exp.size.toNat)
    | some s => (exp.rva.toNat ≤ fn.rva.toNat ∧ fn.rva.toNat < exp.rva.toNat + exp.size.toNat) ∧
        ∃ off, Backed f.sections fn.rva off ∧ TextAt d off s

/-- A name has an address in one table, and the index of its function in another one. -/
def Name (names_off ords_off i : Nat) (n : UInt16 × List UInt8) : Prop :=
  n.1.toNat < f.functions.length ∧ At d (ords_off + i * 2) (le 2 n.1.toNat) ∧
    ∃ rva off, At d (names_off + i * 4) (le 4 rva.toNat) ∧ Backed f.sections rva off ∧ TextAt d off n.2

/-- The export directory has the sizes and the addresses of the three tables. -/
structure ExportTable (exp : pe_data_dir_t) (dir_off : Nat) (funcs_rva names_rva ordinals_rva : UInt32)
    (funcs_off names_off ords_off : Nat) : Prop where
  base : At d (dir_off + 16) (le 4 f.ordinal_base.toNat)
  num_funcs : At d (dir_off + 20) (le 4 f.functions.length)
  num_names : At d (dir_off + 24) (le 4 f.names.length)
  tables : At d (dir_off + 28) (le 4 funcs_rva.toNat ++ le 4 names_rva.toNat ++ le 4 ordinals_rva.toNat)
  functions_le : f.functions.length ≤ 65536
  names_le : f.names.length ≤ 65536
  functions_at : f.functions ≠ [] → Backed f.sections funcs_rva funcs_off
  names_at : f.names ≠ [] → Backed f.sections names_rva names_off
  ords_at : f.names ≠ [] → Backed f.sections ordinals_rva ords_off
  functions : ∀ i (h : i < f.functions.length), f.Function d exp funcs_off i f.functions[i]
  names : ∀ i (h : i < f.names.length), f.Name d names_off ords_off i f.names[i]

def Exports (exp : pe_data_dir_t) : Prop :=
  (exp.rva = 0 ∧ f.functions = []) ∨
    (exp.rva ≠ 0 ∧ ∃ dir_off, Backed f.sections exp.rva dir_off ∧
      ∃ funcs_rva names_rva ordinals_rva funcs_off names_off ords_off,
        f.ExportTable d exp dir_off funcs_rva names_rva ordinals_rva funcs_off names_off ords_off)

/-- A file is laid out so that it says this. -/
def Describes (e_lfanew opt_size num_dirs : Nat) : Prop :=
  f.Mapped ∧ ∃ exp imp, f.Headers d exp imp e_lfanew opt_size num_dirs ∧ f.Imports d imp ∧ f.Exports d exp

/-- The imports of a DLL, each with the slot of the address table that is for it. -/
def import_list (first_thunk : UInt32) (imports : List (import_t × Nat)) : List pe_import_func_t :=
  imports.map fun (m, i) =>
    let iat_rva := first_thunk + i.toUInt32 * f.word.toUInt32
    match m with
    | .name s => { name := Numeral.text s, iat_rva }
    | .ordinal n => { name := "", by_ordinal := true, ordinal := n, iat_rva }

/-- The imports that the file describes. -/
def all_imports : List pe_import_dll_t :=
  f.dlls.map fun m => { dll := Numeral.text m.name, functions := f.import_list m.first_thunk m.imports.zipIdx }

def names_of (i : Nat) : List (List UInt8) := (f.names.filter fun n => n.1.toNat = i).map Prod.snd

/-- An export of a function under a name, or under its ordinal alone. -/
def entry (fn : function_t) (i : Nat) (name : List UInt8) : pe_export_t where
  name := Numeral.text name
  rva := fn.rva
  ordinal := (f.ordinal_base + i.toUInt32).toUInt16
  forwarded := fn.forwarder.isSome
  forwarder := Numeral.text (fn.forwarder.getD [])

/-- The exports of a function: under each of its names, or else under its ordinal alone. -/
def described (e : function_t × Nat) : List pe_export_t :=
  if e.1.rva = 0 then []
  else
    match f.names_of e.2 with
    | [] => [f.entry e.1 e.2 []]
    | names => names.map (f.entry e.1 e.2)

/-- The exports that the file describes. -/
def all_exports : List pe_export_t := f.functions.zipIdx.flatMap f.described

/-- No function is exported under two names. -/
def OneName : Prop := ∀ i (h : i < f.functions.length), f.functions[i].rva ≠ 0 → (f.names_of i).length ≤ 1

/-- What is in the place of a directory, whether the optional header has it or not. -/
def slot (e_lfanew opt_size i : Nat) : pe_data_dir_t :=
  let o := e_lfanew + 24 + dirs_at f.pe32plus + i * 8
  if dirs_at f.pe32plus + 8 ≤ opt_size ∧ o + 8 ≤ d.length then
    { rva := (rd32 d o).getD 0, size := (rd32 d (o + 4)).getD 0 }
  else {}

def offset (rva : UInt32) : Option Nat := ({ sections := f.sections } : pe_image_t).rva_to_offset rva

/-- What is taken for the directory of the imports leads to a descriptor. -/
def StrayImports (dir : pe_data_dir_t) : Prop :=
  dir.rva ≠ 0 ∧ dir.size ≠ 0 ∧ ∃ desc, f.offset dir.rva = some desc ∧ desc + 20 ≤ d.length ∧
    ¬ (rd32 d desc = some 0 ∧ rd32 d (desc + 12) = some 0)

/-- What is taken for the directory of the exports leads to a function with an address. -/
def StrayExports (dir : pe_data_dir_t) : Prop :=
  dir.rva ≠ 0 ∧ ∃ dir_off, f.offset dir.rva = some dir_off ∧ dir_off + 40 ≤ d.length ∧
    ∃ num_funcs funcs_rva funcs_off, rd32 d (dir_off + 20) = some num_funcs ∧ rd32 d (dir_off + 28) = some funcs_rva ∧
      f.offset funcs_rva = some funcs_off ∧
      ∃ i < min num_funcs.toNat 65536, ∃ func_rva, rd32 d (funcs_off + i * 4) = some func_rva ∧ func_rva ≠ 0

/-- No function has two names, and where the optional header has no directory, what is in its place leads nowhere. -/
structure Legible (e_lfanew opt_size num_dirs : Nat) : Prop where
  one_name : f.OneName
  exports : num_dirs = 0 → ¬ f.StrayExports d (f.slot d e_lfanew opt_size 0)
  imports : num_dirs ≤ 1 → ¬ f.StrayImports d (f.slot d e_lfanew opt_size 1)

end pe_file_t

end slop.core.disasm
