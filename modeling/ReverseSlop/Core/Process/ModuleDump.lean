import ReverseSlop.Core.Disasm.PeParse

namespace slop.core.process

open disasm (rd16 rd32)

def kMaxHeaderBytes : Nat := 4 * 1024 * 1024

def kMaxOutputBytes : Nat := 512 * 1024 * 1024

def kMaxSections : Nat := 256

/-- The bytes of a read that succeeds. -/
abbrev module_read_fn_t : Type := UInt64 → Nat → Option (List UInt8)

structure module_dump_options_t where
  chunk_size : Nat := 64 * 1024
  strict_reads : Bool := true

structure module_dump_result_t where
  ok : Bool := false
  complete : Bool := false
  error : String := ""
  module_base : UInt64
  bytes_written : Nat := 0
  section_count : Nat := 0
  warnings : List String := []

structure IMAGE_SECTION_HEADER where
  Name : List UInt8
  VirtualAddress : UInt32
  SizeOfRawData : UInt32
  PointerToRawData : UInt32
  deriving DecidableEq

/-- What the headers of a module say. -/
structure headers_t where
  size_of_image : UInt32
  size_of_headers : UInt32
  sections : List IMAGE_SECTION_HEADER
  deriving DecidableEq

/-- The image as far as it is rebuilt. -/
structure rebuilt_t where
  output : List UInt8
  complete : Bool := true
  warnings : List String

structure failure_t where
  error : String
  warnings : List String := []

def add_fits (a b limit : Nat) : Option Nat := if a > limit ∨ b > limit - a then none else some (a + b)

/-- The loop of `read_exact`. Each chunk has a byte at least, so that there are at most as many of them as bytes. -/
def read_chunks (read : module_read_fn_t) (chunk : Nat) : Nat → UInt64 → Nat → Option (List UInt8)
  | 0, _, _ => some []
  | n + 1, address, size =>
    if size = 0 then some []
    else
      let take := min chunk size
      match read address take with
      | some bytes =>
        if bytes.length ≠ take then none
        else (read_chunks read chunk n (address + take.toUInt64) (size - take)).map (bytes ++ ·)
      | none => none

def read_exact (read : module_read_fn_t) (chunk_size : Nat) (address : UInt64) (size : Nat) : Option (List UInt8) :=
  read_chunks read (max chunk_size 4096) size address size

-- the fields of a structure that was read as a whole, so that none of them is missing

def field16 (d : List UInt8) (off : Nat) : UInt16 := (rd16 d off).getD 0

def field32 (d : List UInt8) (off : Nat) : UInt32 := (rd32 d off).getD 0

def read_section_header (tables : List UInt8) (off : Nat) : IMAGE_SECTION_HEADER where
  Name := (tables.drop off).take 8
  VirtualAddress := field32 tables (off + 12)
  SizeOfRawData := field32 tables (off + 16)
  PointerToRawData := field32 tables (off + 20)

/-- The sizes in the optional header, and the sections. Both kinds of optional header have these fields in the same
place. -/
def read_optional_header (tables : List UInt8) (optional_offset section_table NumberOfSections : Nat)
    (SizeOfOptionalHeader : UInt16) : Except String headers_t :=
  let optional_magic := field16 tables optional_offset
  if optional_magic = 0x20B ∧ SizeOfOptionalHeader < 240 then .error "PE32+ optional header is truncated"
  else if optional_magic = 0x10B ∧ SizeOfOptionalHeader < 224 then .error "PE32 optional header is truncated"
  else if optional_magic ≠ 0x20B ∧ optional_magic ≠ 0x10B then .error "unsupported PE optional-header magic"
  else
    let size_of_image := field32 tables (optional_offset + 56)
    let size_of_headers := field32 tables (optional_offset + 60)
    if size_of_image = 0 ∨ size_of_headers.toNat < tables.length ∨ size_of_headers.toNat > kMaxHeaderBytes then
      .error "PE image/header sizes are invalid"
    else
      .ok { size_of_image, size_of_headers
            sections := (List.range NumberOfSections).map fun i => read_section_header tables (section_table + i * 40) }

/-- The signature, the file header and what is behind it. -/
def read_file_header (read : module_read_fn_t) (module_base : UInt64) (chunk_size nt_offset : Nat) : Except String headers_t :=
  match add_fits nt_offset 24 kMaxHeaderBytes with
  | none => .error "PE header offset is out of range"
  | some coff_end =>
    match read_exact read chunk_size module_base coff_end with
    | none => .error "failed to read PE header"
    | some pre =>
      let NumberOfSections := (field16 pre (nt_offset + 6)).toNat
      let SizeOfOptionalHeader := field16 pre (nt_offset + 20)
      if field32 pre nt_offset ≠ 0x4550 ∨ NumberOfSections = 0 ∨ NumberOfSections > kMaxSections then
        .error "module does not contain a valid PE header"
      else if SizeOfOptionalHeader < 2 then .error "PE optional header is truncated"
      else
        match add_fits coff_end SizeOfOptionalHeader.toNat kMaxHeaderBytes with
        | none => .error "PE section table is out of range"
        | some section_table =>
          match add_fits section_table (NumberOfSections * 40) kMaxHeaderBytes with
          | none => .error "PE section table is out of range"
          | some section_table_end =>
            match read_exact read chunk_size module_base section_table_end with
            | none => .error "failed to read PE section table"
            | some tables => read_optional_header tables coff_end section_table NumberOfSections SizeOfOptionalHeader

def read_headers (read : module_read_fn_t) (module_base : UInt64) (chunk_size : Nat) : Except String headers_t :=
  match read_exact read chunk_size module_base 64 with
  | none => .error "failed to read DOS header"
  | some dos =>
    let e_lfanew := field32 dos 60
    if field16 dos 0 ≠ 0x5A4D ∨ e_lfanew.toInt32 ≤ 0 ∨ e_lfanew.toNat > kMaxHeaderBytes then
      .error "module does not contain a valid DOS header"
    else read_file_header read module_base chunk_size e_lfanew.toNat

/-- The end of the last section, if none of them is out of bounds. -/
def output_size : Nat → List IMAGE_SECTION_HEADER → Option Nat
  | size, [] => some size
  | size, s :: sections =>
    match add_fits s.PointerToRawData.toNat s.SizeOfRawData.toNat kMaxOutputBytes with
    | none => none
    | some e => output_size (max size e) sections

/-- How much of the raw data of a section is inside the image. -/
def IMAGE_SECTION_HEADER.readable (s : IMAGE_SECTION_HEADER) (size_of_image : UInt32) : Nat :=
  if s.VirtualAddress ≥ size_of_image then 0
  else if s.VirtualAddress.toNat + s.SizeOfRawData.toNat > size_of_image.toNat then
    size_of_image.toNat - s.VirtualAddress.toNat
  else s.SizeOfRawData.toNat

/-- A section that is not in the image up to its end. -/
def close_section (s : IMAGE_SECTION_HEADER) (readable : Nat) (image : rebuilt_t) : rebuilt_t :=
  if readable < s.SizeOfRawData.toNat then
    { image with
      complete := false
      warnings := image.warnings ++ ["section data extends beyond SizeOfImage and was zero-filled"] }
  else image

def dump_section (read : module_read_fn_t) (module_base : UInt64) (options : module_dump_options_t) (size_of_image : UInt32)
    (image : rebuilt_t) (s : IMAGE_SECTION_HEADER) : Except failure_t rebuilt_t :=
  if s.SizeOfRawData = 0 then .ok image
  else
    let readable := s.readable size_of_image
    if readable ≠ 0 then
      match read_exact read options.chunk_size (module_base + s.VirtualAddress.toUInt64) readable with
      | some bytes =>
        .ok (close_section s readable { image with output := Bytes.overwrite image.output s.PointerToRawData.toNat bytes })
      | none =>
        if options.strict_reads then
          .error
            { error := "failed to read section " ++ Numeral.text (s.Name.takeWhile (· ≠ 0)), warnings := image.warnings }
        else
          .ok (close_section s readable
            { image with
              output := Bytes.overwrite image.output s.PointerToRawData.toNat (List.replicate readable 0)
              complete := false })
    else .ok (close_section s readable image)

def dump_sections (read : module_read_fn_t) (module_base : UInt64) (options : module_dump_options_t) (size_of_image : UInt32) :
    rebuilt_t → List IMAGE_SECTION_HEADER → Except failure_t rebuilt_t
  | image, [] => .ok image
  | image, s :: sections =>
    match dump_section read module_base options size_of_image image s with
    | .ok image => dump_sections read module_base options size_of_image image sections
    | .error failure => .error failure

/-- The headers and the sections of the output. -/
def rebuild (read : module_read_fn_t) (module_base : UInt64) (options : module_dump_options_t) (h : headers_t)
    (warnings : List String) : Except failure_t rebuilt_t :=
  match output_size h.size_of_headers.toNat h.sections with
  | none => .error { error := "PE section raw range is out of bounds", warnings }
  | some size =>
    if size < 1024 ∨ size > kMaxOutputBytes then .error { error := "reconstructed PE size is invalid", warnings }
    else
      match read_exact read options.chunk_size module_base h.size_of_headers.toNat with
      | none => .error { error := "failed to read complete PE headers", warnings }
      | some headers =>
        dump_sections read module_base options h.size_of_image
          { output := Bytes.overwrite (List.replicate size 0) 0 headers, warnings } h.sections

/-- The output passes the parser of PE files, with as many sections. -/
def validate (h : headers_t) (image : rebuilt_t) : Except failure_t rebuilt_t :=
  match disasm.pe_parse image.output with
  | some parsed =>
    if parsed.ok = false ∨ parsed.sections.length ≠ h.sections.length then
      .error { error := "reconstructed image failed PE validation", warnings := image.warnings }
    else .ok image
  | none => .error { error := "reconstructed image failed PE validation", warnings := image.warnings }

/-- The steps behind the headers. -/
def reconstruct (read : module_read_fn_t) (module_base : UInt64) (module_size : UInt32) (options : module_dump_options_t)
    (h : headers_t) : Except failure_t rebuilt_t :=
  let warnings := if module_size < h.size_of_image then ["enumerated module size is smaller than SizeOfImage"] else []
  match rebuild read module_base options h warnings with
  | .ok image => validate h image
  | .error failure => .error failure

/-- The result, and the output. There is none after a failure. -/
def reconstruct_mapped_pe (module_base : UInt64) (module_size : UInt32) (read : module_read_fn_t)
    (options : module_dump_options_t) : module_dump_result_t × List UInt8 :=
  if module_base = 0 ∨ module_size < 64 then ({ module_base, error := "invalid module range or reader" }, [])
  else
    match read_headers read module_base options.chunk_size with
    | .error error => ({ module_base, error }, [])
    | .ok h =>
      match reconstruct read module_base module_size options h with
      | .error failure => ({ module_base, error := failure.error, warnings := failure.warnings }, [])
      | .ok image =>
        ({ module_base, ok := true, complete := image.complete, bytes_written := image.output.length
           section_count := h.sections.length, warnings := image.warnings }, image.output)

end slop.core.process
