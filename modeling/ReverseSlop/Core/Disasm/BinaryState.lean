namespace slop.core.disasm

inductive flow_t where
  | none | call | jmp | jcc | ret
  deriving DecidableEq

inductive op_class_t where
  | none | reg | mem | imm
  deriving DecidableEq

abbrev ZydisRegister := Nat

def ZYDIS_REGISTER_NONE : ZydisRegister := 0

/-- The mnemonics that the modelled passes ask for, and all the others. -/
inductive ZydisMnemonic where
  | MOV | NOP | XOR | TEST | INT | INT3 | RDTSC | PUSH | RET
  | other (code : Nat)
  deriving DecidableEq

structure operand_t where
  cls : op_class_t := .none
  reg : ZydisRegister := ZYDIS_REGISTER_NONE
  mem_base : ZydisRegister := ZYDIS_REGISTER_NONE
  disp : Int64 := 0
  imm : UInt64 := 0

/-- A decoded instruction. `op_count` is the length of `ops`. -/
structure insn_t where
  va : UInt64 := 0
  length : UInt8 := 0
  bytes : List UInt8 := []
  flow : flow_t := .none
  text : String := ""
  mnemonic : ZydisMnemonic := .other 0
  ops : List operand_t := []
  has_rel_target : Bool := false
  rel_target : UInt64 := 0
  has_rip_rel : Bool := false
  rip_rel_target : UInt64 := 0

/-- The decoder: one instruction at an address from the bytes there. -/
structure engine_t where
  decode : UInt64 → List UInt8 → Option insn_t

structure pe_section_t where
  name : List UInt8 := []
  rva : UInt32 := 0
  virtual_size : UInt32 := 0
  raw_offset : UInt32 := 0
  raw_size : UInt32 := 0
  characteristics : UInt32 := 0

def pe_section_t.is_executable (s : pe_section_t) : Bool := s.characteristics &&& 0x20000000 ≠ 0

def pe_section_t.contains_rva (s : pe_section_t) (r : UInt32) : Bool :=
  r ≥ s.rva && r < s.rva + (if s.virtual_size = 0 then s.raw_size else s.virtual_size)

structure pe_import_func_t where
  name : String
  ordinal : UInt16 := 0
  by_ordinal : Bool := false
  iat_rva : UInt32 := 0

structure pe_import_dll_t where
  dll : String
  functions : List pe_import_func_t

structure pe_export_t where
  name : String
  rva : UInt32 := 0
  ordinal : UInt16 := 0
  forwarded : Bool := false
  forwarder : String := ""

structure pe_runtime_func_t where
  begin_rva : UInt32 := 0
  end_rva : UInt32 := 0

structure pe_data_dir_t where
  rva : UInt32 := 0
  size : UInt32 := 0

structure pe_image_t where
  ok : Bool := false
  pe32plus : Bool := false
  machine : UInt16 := 0
  subsystem : UInt16 := 0
  image_base : UInt64 := 0
  entry_rva : UInt32 := 0
  size_of_image : UInt32 := 0
  sections : List pe_section_t := []
  imports : List pe_import_dll_t := []
  exports : List pe_export_t := []
  runtime_funcs : List pe_runtime_func_t := []
  data_dirs : List pe_data_dir_t := List.replicate 16 {}

/-- The file offset behind an address of the image. The first section that
contains the address decides; without file backing there, only an address in the
headers has an offset. -/
def pe_image_t.rva_to_offset (pe : pe_image_t) (rva : UInt32) : Option Nat :=
  let header := if rva < 0x400 then some rva.toNat else none
  match pe.sections.find? fun s => s.contains_rva rva with
  | none => header
  | some s => if rva - s.rva ≥ s.raw_size then header else some (s.raw_offset.toNat + (rva - s.rva).toNat)

inductive image_arch_t where
  | x86 | x64 | arm | arm64
  deriving DecidableEq

structure opened_image_t where
  ok : Bool
  arch : image_arch_t := .x64
  file : List UInt8 := []
  pe : pe_image_t := {}

def opened_image_t.is_x86 (o : opened_image_t) : Bool := o.arch = .x86 || o.arch = .x64

namespace hyperion_session

/-- The background analysis: whether its worker thread may be reading the image. -/
structure session_t where
  running : Bool

/-- Cancel the analysis and join the worker. -/
def session_t.stop (_ : session_t) : session_t := { running := false }

/-- Analyze again; the worker starts unless the image cannot be parsed. -/
def session_t.reanalyze (_ : session_t) (parsed : Bool) : session_t := { running := parsed }

end hyperion_session

namespace binary_state

/-- A mutated byte of the file. -/
structure patch_rec_t where
  va : UInt64
  offset : Nat
  before : UInt8
  after : UInt8
  deriving DecidableEq

/-- What is done to an image that the analysis reads in place. -/
inductive access_t where
  | stop
  | write (offset : Nat)
  deriving DecidableEq

/-- The shared binary session: the fields that the patch operations use. `accesses`
is not in the program: the stops of the analysis and the writes to `file`, in
order. -/
structure binary_t where
  ready : Bool := false
  file : List UInt8 := []
  pe : pe_image_t := {}
  base : UInt64 := 0
  arch : image_arch_t := .x64
  eng : engine_t
  hype : Option hyperion_session.session_t := none
  patches : List patch_rec_t := []
  indexes_dirty : Bool := false
  accesses : List access_t := []

def binary_t.offset_of (b : binary_t) (va : UInt64) : Option Nat :=
  if !b.ready || va < b.base || va - b.base > 0xFFFFFFFF then none
  else b.pe.rva_to_offset (va - b.base).toUInt32

/-- What a load calls: the image detection, the decoder's initialisation, the
start of the analysis and the index builds. -/
structure loader_t where
  open_image : List UInt8 → opened_image_t
  init : Bool → Option engine_t
  start : List UInt8 → UInt64 → Bool
  build_indexes : opened_image_t → engine_t → UInt64 → Bool

/-- Load the bytes of a file in place of the session `g_bin`, whose decoder stays
when the new image needs none. `none` is a failed load. -/
def load_locked (loader : loader_t) (g_bin : binary_t) (raw : List UInt8) (base_override : UInt64) :
    Option binary_t :=
  if raw.length < 1024 then none
  else
    let opened := loader.open_image raw
    if !opened.ok then none
    else
      match (if opened.is_x86 then loader.init opened.pe.pe32plus else some g_bin.eng) with
      | none => none
      | some eng =>
        let base := if base_override = 0 then opened.pe.image_base else base_override
        let hype := if loader.start opened.file base then some { running := true } else none
        if loader.build_indexes opened eng base then
          some { ready := true, file := opened.file, pe := opened.pe, base, arch := opened.arch, eng, hype }
        else none

/-- Build the indexes over the bytes as they are and restart the analysis. -/
def rebuild_indexes_locked (b : binary_t) (parsed : Bool) : binary_t :=
  { b with indexes_dirty := false, hype := b.hype.map fun hype => hype.reanalyze parsed }

/-- A loaded image has an empty journal. -/
theorem load_locked_patches {loader : loader_t} {g_bin bin : binary_t} {raw : List UInt8} {base_override : UInt64}
    (hload : load_locked loader g_bin raw base_override = some bin) : bin.patches = [] := by
  simp only [load_locked, Option.ite_none_left_eq_some] at hload
  obtain ⟨-, -, hload⟩ := hload
  cases heng : if (loader.open_image raw).is_x86 then loader.init (loader.open_image raw).pe.pe32plus
      else some g_bin.eng with
  | none =>
    rw [heng] at hload
    cases hload
  | some eng =>
    rw [heng] at hload
    obtain ⟨-, hbin⟩ := Option.ite_none_right_eq_some.mp hload
    rw [← Option.some.inj hbin]

end binary_state

end slop.core.disasm
