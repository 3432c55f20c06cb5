import ReverseSlop.Core.Analysis.Imgpatch.Patch

namespace slop.core.analysis.imgpatch

open disasm disasm.binary_state

/-! `nop_junk`. Its first pass over the instructions fills a list that nothing
reads, and is left out. -/

structure nop_run_t where
  run : Nat := 0
  run_start : UInt64 := 0
  patches : List patch_hit_t := []

/-- Extend a run of nops; another instruction ends it, and a long run is a hit. -/
def note_nop (nop_threshold : Nat) (acc : nop_run_t) (insn : insn_t) : nop_run_t :=
  if insn.mnemonic = .NOP then
    { acc with run := acc.run + 1, run_start := if acc.run = 0 then insn.va else acc.run_start }
  else if nop_threshold < acc.run then
    let hit := { va := acc.run_start, action := "nop_sled", detail := "normalized " ++ toString acc.run ++ " nops" }
    { acc with run := 0, patches := acc.patches ++ [hit] }
  else { acc with run := 0 }

/-- Control can run from an instruction into the next. -/
def falls_through (prev : insn_t) : Bool := prev.flow = .none || prev.flow = .jcc || prev.flow = .call

/-- Nop out instructions up to the next branch target or return; 64 bytes end it
too. The first instruction may itself be a target. -/
def fill_dead (targets : List UInt64) (bin : binary_t) (filled : Nat) (head : Bool) (insns : List insn_t) :
    Nat × binary_t :=
  match insns with
  | [] => (filled, bin)
  | insn :: rest =>
    if filled ≥ 64 || (targets.contains insn.va && !head) || insn.flow = .ret then (filled, bin)
    else
      fill_dead targets (poke_nops bin insn.va 0 insn.length.toNat) (filled + insn.length.toNat) false rest

/-- Nop out the dead code behind every instruction that does not fall through. -/
def nop_dead_heads (targets : List UInt64) (bin : binary_t) (prev : insn_t) (insns : List insn_t) :
    List patch_hit_t × binary_t :=
  match insns with
  | [] => ([], bin)
  | insn :: rest =>
    if targets.contains insn.va || falls_through prev then nop_dead_heads targets bin insn rest
    else
      let (filled, bin) := fill_dead targets bin 0 true (insn :: rest)
      let (hits, bin) := nop_dead_heads targets bin insn rest
      ({ va := insn.va, action := "dead_code_nopped", detail := "filled " ++ toString filled ++ " bytes" } :: hits, bin)

def nop_junk (bin : binary_t) (fn_va : UInt64) (aggressive : Bool) (nop_threshold : Nat) : op_result_t × binary_t :=
  let nop_threshold := min (max nop_threshold 2) 16
  match decode_fn bin fn_va 8192 with
  | [] => ({ error := "cannot decode function range" }, bin)
  | first :: rest =>
    let sleds := ((first :: rest).foldl (note_nop nop_threshold) {}).patches
    let targets := ((first :: rest).filter (·.has_rel_target)).map (·.rel_target)
    let (heads, bin) := if aggressive then nop_dead_heads targets bin first rest else ([], bin)
    finish { patches := sleds ++ heads } bin

/-! `resolve_opaque_predicates`. -/

/-- The instruction is `xor` or `test` of a register with itself. -/
def self_zeroing (prev : insn_t) : Bool :=
  (prev.mnemonic = .XOR || prev.mnemonic = .TEST) &&
    match prev.ops with
    | a :: b :: _ => a.cls = .reg && b.cls = .reg && a.reg = b.reg
    | _ => false

/-- Make a conditional jump unconditional and keep its displacement; a length
that fits neither encoding is left alone. -/
def force_jmp (bin : binary_t) (insn : insn_t) : binary_t :=
  if insn.length ≤ 2 then (poke bin insn.va 0xEB).2
  else if insn.length ≥ 5 && insn.bytes.getD 0 0 = 0x0F then (poke (poke bin insn.va 0x90).2 (insn.va + 1) 0xE9).2
  else bin

/-- Force every conditional jump that follows a self-zeroing instruction. The
source also has a branch for jumps never taken, but nothing selects it. -/
def force_jumps (dry_run : Bool) (bin : binary_t) (prev : insn_t) (insns : List insn_t) :
    List patch_hit_t × binary_t :=
  match insns with
  | [] => ([], bin)
  | insn :: rest =>
    if insn.flow = .jcc && self_zeroing prev then
      let bin := if dry_run then bin else force_jmp bin insn
      let (hits, bin) := force_jumps dry_run bin insn rest
      ({ va := insn.va, action := "force_jmp", detail := insn.text } :: hits, bin)
    else force_jumps dry_run bin insn rest

def resolve_opaque_predicates (bin : binary_t) (fn_va : UInt64) (dry_run : Bool) : op_result_t × binary_t :=
  match decode_fn bin fn_va 8192 with
  | [] => ({ dry_run, error := "cannot decode function range" }, bin)
  | first :: rest =>
    let (patches, bin) := force_jumps dry_run bin first rest
    finish { dry_run, patches } bin

/-! `patch_anti_debug`. -/

structure anti_debug_opts_t where
  patch_api_calls : Bool := true
  patch_int_traps : Bool := true
  patch_timing : Bool := true

def kApis : List String :=
  ["IsDebuggerPresent", "CheckRemoteDebuggerPresent", "NtQueryInformationProcess", "NtSetInformationThread",
    "OutputDebugString", "DbgBreakPoint", "DbgUiRemoteBreakin", "NtQuerySystemInformation"]

/-- `text.find(part) != npos`. -/
def contains_text (text part : String) : Bool := text.toList.tails.any fun rest => part.toList.isPrefixOf rest

/-- The import slots with their names, in the order of the import tables. -/
def iat_entries (bin : binary_t) : List (UInt64 × String) :=
  bin.pe.imports.flatMap fun dll =>
    (dll.functions.filter fun fn => fn.iat_rva != 0).map fun fn =>
      (bin.base + fn.iat_rva.toUInt64, dll.dll ++ "!" ++ fn.name)

/-- The name at an import slot; the last entry of a slot stands. -/
def iat_find (bin : binary_t) (slot : UInt64) : Option String := (iat_entries bin).reverse.lookup slot

/-- The memory slot that a call or a jump goes through, or 0. -/
def call_slot (bin : binary_t) (insn : insn_t) : UInt64 :=
  let slot := if insn.has_rip_rel then insn.rip_rel_target else 0
  if slot ≠ 0 then slot
  else
    match insn.ops with
    | op :: _ =>
      if op.cls = .mem && op.mem_base = ZYDIS_REGISTER_NONE then bin.base + op.disp.toUInt64.toUInt32.toUInt64 else 0
    | [] => 0

/-- `xor eax, eax` over the first two bytes. -/
def poke_xor_eax (bin : binary_t) (va : UInt64) : binary_t := (poke (poke bin va 0x31).2 (va + 1) 0xC0).2

/-- Neutralize a call of a listed API. -/
def patch_api_call (dry_run : Bool) (bin : binary_t) (insn : insn_t) (name : String) : patch_hit_t × binary_t :=
  let hit (detail : String) : patch_hit_t := { va := insn.va, action := "anti_debug_call", detail }
  if contains_text name "IsDebuggerPresent" then
    (hit (name ++ " -> xor eax,eax"),
      if dry_run then bin else poke_nops (poke_xor_eax bin insn.va) insn.va 2 insn.length.toNat)
  else if dry_run then (hit name, bin)
  else (hit (name ++ " -> nops"), poke_nops bin insn.va 0 insn.length.toNat)

/-- Neutralize a trap or a time stamp read. -/
def patch_trap (opts : anti_debug_opts_t) (dry_run : Bool) (bin : binary_t) (insn : insn_t) :
    List patch_hit_t × binary_t :=
  if opts.patch_int_traps && (insn.mnemonic = .INT3 || insn.mnemonic = .INT) then
    ([{ va := insn.va, action := "int_trap", detail := insn.text ++ " -> nops" }],
      if dry_run then bin else poke_nops bin insn.va 0 insn.length.toNat)
  else if opts.patch_timing && insn.mnemonic = .RDTSC then
    ([{ va := insn.va, action := "rdtsc_timing", detail := "rdtsc -> xor eax,eax" }],
      if dry_run then bin else poke_xor_eax bin insn.va)
  else ([], bin)

/-- One instruction of `patch_anti_debug`. A call or jump through a slot that is
no listed import ends it (`continue`). -/
def patch_anti_debug_insn (opts : anti_debug_opts_t) (dry_run : Bool) (bin : binary_t) (insn : insn_t) :
    List patch_hit_t × binary_t :=
  let slot := call_slot bin insn
  if opts.patch_api_calls && (insn.flow = .call || insn.flow = .jmp) && slot != 0 then
    match (iat_find bin slot).filter fun name => kApis.any (contains_text name) with
    | none => ([], bin)
    | some name =>
      let (hit, bin) := patch_api_call dry_run bin insn name
      let (hits, bin) := patch_trap opts dry_run bin insn
      (hit :: hits, bin)
  else patch_trap opts dry_run bin insn

def patch_anti_debug_insns (opts : anti_debug_opts_t) (dry_run : Bool) (bin : binary_t) (insns : List insn_t) :
    List patch_hit_t × binary_t :=
  match insns with
  | [] => ([], bin)
  | insn :: rest =>
    let (hits, bin) := patch_anti_debug_insn opts dry_run bin insn
    let (later, bin) := patch_anti_debug_insns opts dry_run bin rest
    (hits ++ later, bin)

def patch_anti_debug (bin : binary_t) (fn_va : UInt64) (opts : anti_debug_opts_t) (dry_run : Bool) :
    op_result_t × binary_t :=
  let (patches, bin) := patch_anti_debug_insns opts dry_run bin (decode_fn bin fn_va 8192)
  finish { dry_run, patches } bin

def printable (c : UInt8) : Bool := 0x20 ≤ c && c ≤ 0x7E

def byte_char (c : UInt8) : Char := Char.ofNat c.toNat

/-- The bytes of an immediate that a store writes, the lowest first: one, four or
eight of them. -/
def imm_bytes (imm : UInt64) : List UInt8 :=
  let nbytes := if imm &&& 0xFFFFFFFF00000000 ≠ 0 then 8 else if imm &&& 0xFFFFFF00 ≠ 0 then 4 else 1
  (List.range nbytes).map fun i => (imm >>> (8 * UInt64.ofNat i)).toUInt8

/-- The text that a `mov` of an immediate to memory stores, if it is printable. -/
def stack_mov (insn : insn_t) : Option (List Char) :=
  match insn.ops with
  | [dst, src] =>
    if insn.mnemonic = .MOV && dst.cls = .mem && src.cls = .imm && (imm_bytes src.imm).all printable then
      some ((imm_bytes src.imm).map byte_char)
    else none
  | _ => none

structure stack_string_t where
  acc : List Char := []
  acc_start : UInt64 := 0
  acc_units : Nat := 0
  patches : List patch_hit_t := []

def stack_string_t.flush (s : stack_string_t) : stack_string_t :=
  let hit : patch_hit_t := { va := s.acc_start, action := "stack_string", detail := "\"" ++ String.ofList s.acc ++ "\"" }
  { s with
    acc := [], acc_units := 0
    patches := if s.acc_units ≥ 3 && !s.acc.isEmpty then s.patches ++ [hit] else s.patches }

def stack_string_t.note (s : stack_string_t) (insn : insn_t) : stack_string_t :=
  match stack_mov insn with
  | some text =>
    { s with
      acc := s.acc ++ text, acc_units := s.acc_units + 1
      acc_start := if s.acc_units = 0 then insn.va else s.acc_start }
  | none => s.flush

/-- `%02llX` into a buffer of eight characters. -/
def key_text (imm : UInt64) : String :=
  let digits := (Nat.toDigits 16 imm.toNat).map Char.toUpper
  String.ofList ((List.replicate (2 - digits.length) '0' ++ digits).take 7)

/-- The printable text up to a zero byte, under a key; another byte empties it. -/
def xor_text (key : UInt8) (data : List UInt8) : List Char :=
  let text := ((data.take 256).map (· ^^^ key)).takeWhile (· ≠ 0)
  if text.all printable then text.map byte_char else []

/-- The constant key of an `xor` of a register with an immediate. -/
def xor_key (insn : insn_t) : Option UInt64 :=
  match insn.ops with
  | [dst, src] =>
    if insn.mnemonic = .XOR && dst.cls = .reg && src.cls = .imm && src.imm ≠ 0 then some src.imm else none
  | _ => none

/-- The file offset of the data an instruction refers to. -/
def data_offset (bin : binary_t) (cand : insn_t) : Option Nat :=
  if cand.has_rip_rel then (bin.offset_of cand.rip_rel_target).filter fun off => off < bin.file.length else none

/-- The text behind the last data reference at a lower address than an `xor`. -/
def xor_string (bin : binary_t) (insns : List insn_t) (insn : insn_t) : List patch_hit_t :=
  match xor_key insn with
  | none => []
  | some key =>
    match insns.reverse.find? fun cand => cand.va < insn.va && (data_offset bin cand).isSome with
    | none => []
    | some cand =>
      let decoded := xor_text key.toUInt8 (bin.file.drop ((data_offset bin cand).getD 0))
      if decoded.length ≥ 4 then
        [{ va := cand.rip_rel_target, action := "xor_string",
           detail := "key 0x" ++ key_text key ++ " \"" ++ String.ofList decoded ++ "\"" }]
      else []

/-- Recover the strings of a function. The image is only read. -/
def decode_strings (bin : binary_t) (fn_va : UInt64) : op_result_t :=
  let insns := decode_fn bin fn_va 8192
  let stack := (insns.foldl stack_string_t.note {}).flush.patches
  let patches := stack ++ insns.flatMap (xor_string bin insns)
  { ok := true, patches, strings_found := patches.length }

structure score_t where
  opaque_jumps : Nat := 0
  junk : Nat := 0
  indirect : Nat := 0
  push_ret : Nat := 0
  nop_run : Nat := 0

/-- Count the signs of obfuscation from an instruction on. -/
def count_signs (prev : Option insn_t) (insns : List insn_t) (acc : score_t) : score_t :=
  match insns with
  | [] => if acc.nop_run ≥ 4 then { acc with junk := acc.junk + 1 } else acc
  | insn :: rest =>
    if insn.mnemonic = .NOP then count_signs (some insn) rest { acc with nop_run := acc.nop_run + 1 }
    else
      count_signs (some insn) rest
        { nop_run := 0
          junk := if acc.nop_run ≥ 4 then acc.junk + 1 else acc.junk
          opaque_jumps := if insn.flow = .jcc && prev.any self_zeroing then acc.opaque_jumps + 1 else acc.opaque_jumps
          indirect := if insn.flow = .jmp && !insn.has_rel_target then acc.indirect + 1 else acc.indirect
          push_ret :=
            if insn.mnemonic = .PUSH && rest.head?.any (·.mnemonic = .RET) then acc.push_ret + 1 else acc.push_ret }

def obfuscation_score (bin : binary_t) (fn_va : UInt64) : Nat :=
  match decode_fn bin fn_va 8192 with
  | [] => 0
  | insns =>
    let signs := count_signs none insns {}
    min (min (signs.opaque_jumps * 10) 25 + min (signs.junk * 8) 20 + min (signs.indirect * 15) 25 +
      (if signs.push_ret > 0 then 15 else 0)) 100

structure step_t where
  name : String
  success : Bool
  note : String

structure full_pass_result_t where
  ok : Bool
  dry_run : Bool
  pre_score : Nat
  post_score : Nat
  strings_found : Nat
  bytes_changed : Nat
  steps : List step_t

/-- The note of a step: its count, or the error of the operation. -/
def step_note (res : op_result_t) (what : String) : String :=
  if res.ok then toString res.patches.length ++ what else res.error

def full_pass (bin : binary_t) (fn_va : UInt64) (dry_run : Bool) : full_pass_result_t × binary_t :=
  let pre_score := obfuscation_score bin fn_va
  let (opq, bin) := resolve_opaque_predicates bin fn_va dry_run
  let (nj, bin) :=
    if dry_run then ({ ok := true }, bin) else nop_junk bin fn_va (pre_score ≥ 50) 4
  let strs := decode_strings bin fn_va
  let (ad, bin) := patch_anti_debug bin fn_va {} dry_run
  let post_score := if dry_run then pre_score else obfuscation_score bin fn_va
  ({ ok := true, dry_run, pre_score, post_score
     strings_found := strs.strings_found
     bytes_changed := if dry_run then 0 else nj.bytes_changed + (opq.bytes_changed + ad.bytes_changed)
     steps :=
       [⟨"score_baseline", true, toString pre_score ++ "/100"⟩,
        ⟨"resolve_opaque", opq.ok, step_note opq " found"⟩,
        ⟨"nop_junk", nj.ok, if dry_run then "preview only under dry_run" else step_note nj " sites"⟩,
        ⟨"decode_strings", strs.ok, toString strs.strings_found ++ " candidates"⟩,
        ⟨"patch_antidebug", ad.ok, step_note ad " sites"⟩,
        ⟨"score_post", true, toString post_score ++ "/100"⟩] }, bin)

structure rebuild_result_t where
  ok : Bool := false
  error : String := ""
  instruction_count : Nat := 0
  insns : List (UInt64 × String) := []

def rebuild (bin : binary_t) (fn_va : UInt64) : rebuild_result_t × binary_t :=
  match decode_fn bin fn_va 8192 with
  | [] => ({ error := "cannot decode function range" }, bin)
  | insns =>
    ({ ok := true, instruction_count := insns.length, insns := (insns.take 64).map fun insn => (insn.va, insn.text) },
      { bin with indexes_dirty := true })

end slop.core.analysis.imgpatch
