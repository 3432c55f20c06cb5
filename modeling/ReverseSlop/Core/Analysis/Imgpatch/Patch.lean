import Mathlib.Data.List.Basic
import ReverseSlop.Core.Disasm.BinaryState
import ReverseSlop.Library.Storage

namespace slop.core.analysis.imgpatch

open disasm disasm.binary_state

structure patch_hit_t where
  va : UInt64 := 0
  action : String
  detail : String := ""

/-- `key_confidence` is the quotient before it is rounded to a `double`. -/
structure op_result_t where
  ok : Bool := false
  error : String := ""
  patches : List patch_hit_t := []
  dry_run : Bool := false
  bytes_changed : Nat := 0
  detected_key : UInt64 := 0
  key_confidence : Rat := 0
  strings_found : Nat := 0

def read_bin (bin : binary_t) (va : UInt64) (len : Nat) : Option (List UInt8) :=
  match bin.offset_of va with
  | none => none
  | some off => if bin.file.length < off + len then none else some ((bin.file.drop off).take len)

/-- Stop the analysis, if there is one. -/
def quiesce (bin : binary_t) : binary_t :=
  { bin with
    hype := bin.hype.map hyperion_session.session_t.stop
    accesses := if bin.hype.isSome then bin.accesses ++ [.stop] else bin.accesses }

/-- Record the byte at a file offset in the journal and overwrite it. -/
def journal_write (bin : binary_t) (va : UInt64) (offset : Nat) (after : UInt8) : binary_t :=
  { bin with
    patches := bin.patches ++ [{ va, offset, before := bin.file.getD offset 0, after }]
    file := bin.file.set offset after
    accesses := bin.accesses ++ [.write offset] }

/-- A journaled byte write; false when the address has no byte in the file. Every
caller passes the journal of the binary. -/
def poke (bin : binary_t) (va : UInt64) (byte : UInt8) : Bool × binary_t :=
  match bin.offset_of va with
  | none => (false, bin)
  | some off => if bin.file.length ≤ off then (false, bin) else (true, journal_write (quiesce bin) va off byte)

/-- Poke one byte into all addresses from `va + first` up to `va + len`. -/
def poke_nops (bin : binary_t) (va : UInt64) (first len : Nat) : binary_t :=
  (List.range' first (len - first)).foldl (fun bin b => (poke bin (va + UInt64.ofNat b) 0x90).2) bin

/-- Decode instructions one behind the other until one fails. -/
def decode_fn (bin : binary_t) (va : UInt64) (max : Nat) : List insn_t :=
  match max with
  | 0 => []
  | max + 1 =>
    match (read_bin bin va 16).bind fun buf => bin.eng.decode va buf with
    | none => []
    | some insn => if insn.length = 0 then [] else insn :: decode_fn bin (va + insn.length.toUInt64) max

def finish (res : op_result_t) (bin : binary_t) : op_result_t × binary_t :=
  let bytes_changed := res.bytes_changed + (res.patches.filter fun p => p.action != "preview").length
  ({ res with ok := true, bytes_changed },
    if res.patches.isEmpty then bin else { bin with indexes_dirty := true })

/-- Put the byte from before back, where the file is long enough. -/
def restore (rec : patch_rec_t) (file : List UInt8) : List UInt8 :=
  if rec.offset < file.length then file.set rec.offset rec.before else file

/-- All that was done to the file since the first state is in the journal of the
second. -/
def Journaled (bin bin' : binary_t) : Prop :=
  Journal.Advances restore binary_t.file binary_t.patches bin bin'

theorem restore_set (rec : patch_rec_t) (file : List UInt8) (after : UInt8)
    (hbefore : rec.before = file.getD rec.offset 0) : restore rec (file.set rec.offset after) = file := by
  rw [restore]
  rw [List.length_set]
  by_cases hin : rec.offset < file.length
  · have hget : file.getD rec.offset 0 = file[rec.offset] := by
      rw [List.getD_eq_getElem?_getD, List.getElem?_eq_getElem hin, Option.getD_some]
    rw [if_pos hin, List.set_set, hbefore, hget, List.set_getElem_self]
  · rw [if_neg hin, List.set_eq_of_length_le (Nat.le_of_not_lt hin)]

theorem journal_write_journaled (bin : binary_t) (va : UInt64) (offset : Nat) (after : UInt8) :
    Journaled bin (journal_write bin va offset after) := by
  refine Journal.Advances.record (r := { va, offset, before := bin.file.getD offset 0, after }) rfl ?_
  exact restore_set _ bin.file after rfl

theorem quiesce_journaled (bin : binary_t) : Journaled bin (quiesce bin) := Journal.Advances.of_eq rfl rfl

theorem poke_journaled (bin : binary_t) (va : UInt64) (byte : UInt8) : Journaled bin (poke bin va byte).2 := by
  rw [poke]
  split
  · exact Journal.Advances.refl bin
  split
  · exact Journal.Advances.refl bin
  · exact (quiesce_journaled bin).trans (journal_write_journaled _ va _ byte)

def kMaxRegion : Nat := 4 <<< 20

def hex_digit (c : Char) : Option UInt8 :=
  if '0' ≤ c && c ≤ '9' then some (UInt8.ofNat (c.toNat - '0'.toNat))
  else if 'a' ≤ c && c ≤ 'f' then some (UInt8.ofNat (c.toNat - 'a'.toNat + 10))
  else if 'A' ≤ c && c ≤ 'F' then some (UInt8.ofNat (c.toNat - 'A'.toNat + 10))
  else none

def pair_digits (digits : List UInt8) : List UInt8 :=
  match digits with
  | hi :: lo :: rest => (hi * 16 + lo) :: pair_digits rest
  | _ => []

/-- The key behind the hex digits of a text; an odd number of them is no key. -/
def parse_key (key_hex : String) : List UInt8 :=
  let clean := key_hex.toList.filterMap hex_digit
  if clean.length % 2 = 0 then pair_digits clean else []

def kCodeOpcodes : List UInt8 :=
  [0x48, 0x49, 0x4C, 0x55, 0x53, 0x56, 0x41, 0x89, 0x8B, 0xE8, 0xE9, 0xEB, 0xC3, 0xCC, 0x90]

/-- How many bytes of the probe are common opcodes under a key. -/
def key_score (probe : List UInt8) (key : UInt8) : Nat := probe.countP fun b => kCodeOpcodes.contains (b ^^^ key)

/-- The first of the 255 keys with the best score, and its score. -/
def best_key (probe : List UInt8) : Int × UInt8 :=
  (List.range' 1 255).foldl
    (fun (best_score, best) k =>
      let score : Int := key_score probe (UInt8.ofNat k)
      if score > best_score then (score, UInt8.ofNat k) else (best_score, best)) (-1, 0)

/-- The key of `auto`, with its confidence, or an error. -/
def detect_key (data : List UInt8) : Except String (UInt8 × Rat) :=
  let probe := data.take 256
  let (best_score, key) := best_key probe
  if best_score < 20 then
    .error ("auto key detection failed (best score " ++ toString best_score ++ "/256)")
  else .ok (key, (best_score : Rat) / (probe.length : Rat))

/-- `xor` with a repeating key, byte by byte through the journal. -/
def xor_region (bin : binary_t) (va : UInt64) (off0 size : Nat) (key : List UInt8) : binary_t :=
  (List.range size).foldl
    (fun bin i =>
      let cur := bin.file.getD (off0 + i) 0
      journal_write bin (va + UInt64.ofNat i) (off0 + i) (cur ^^^ key.getD (i % key.length) 0)) bin

/-- `xor` with the ciphertext byte before, byte by byte through the journal. -/
def xor_rolling (bin : binary_t) (va : UInt64) (off0 size : Nat) (rolling : UInt8) : UInt8 × binary_t :=
  (List.range size).foldl
    (fun (rolling, bin) i =>
      let cur := bin.file.getD (off0 + i) 0
      (cur, journal_write bin (va + UInt64.ofNat i) (off0 + i) (cur ^^^ rolling))) (rolling, bin)

/-- Decrypt a mapped region with a key. -/
def unpack_with (bin : binary_t) (va : UInt64) (off0 size : Nat) (method : String) (key : List UInt8)
    (res : op_result_t) : op_result_t × binary_t :=
  let hit := { va, action := "unpack_xor", detail := if method.isEmpty then "xor" else method }
  let done (bin : binary_t) : op_result_t × binary_t :=
    ({ res with ok := true, bytes_changed := size, patches := [hit] }, { bin with indexes_dirty := true })
  match key with
  | [] => ({ res with error := "missing key hex" }, bin)
  | first :: _ =>
    if method = "xor_single" || method = "xor_multi" || method = "auto" || method.isEmpty then
      done (xor_region bin va off0 size key)
    else if method = "xor_rolling" then done (xor_rolling bin va off0 size first).2
    else ({ res with error := "unknown method (auto|xor_single|xor_multi|xor_rolling)" }, bin)

def unpack_xor (bin : binary_t) (va : UInt64) (size : Nat) (method key_hex : String) : op_result_t × binary_t :=
  if size = 0 || size > kMaxRegion then ({ error := "bad region size (1..4 MiB)" }, bin)
  else
    match (bin.offset_of va).filter fun off => off + size ≤ bin.file.length with
    | none => ({ error := "region not mapped in image" }, bin)
    | some off0 =>
      if method = "auto" then
        match detect_key ((bin.file.drop off0).take size) with
        | .error error => ({ error }, bin)
        | .ok (key, key_confidence) =>
          unpack_with bin va off0 size method [key] { detected_key := key.toUInt64, key_confidence }
      else unpack_with bin va off0 size method (parse_key key_hex) {}

/-- Write bytes one behind the other through the journal. -/
def journal_bytes (bin : binary_t) (va : UInt64) (off : Nat) (bytes : List UInt8) : binary_t :=
  bytes.zipIdx.foldl (fun bin (byte, i) => journal_write bin (va + UInt64.ofNat i) (off + i) byte) bin

def write_bytes (bin : binary_t) (va : UInt64) (bytes : List UInt8) : op_result_t × binary_t :=
  match (bin.offset_of va).filter fun off => off + bytes.length ≤ bin.file.length with
  | none => ({ error := "range not mapped in image" }, bin)
  | some off =>
    let bin := journal_bytes (quiesce bin) va off bytes
    ({ ok := true, bytes_changed := bytes.length,
       patches := [{ va, action := "write_bytes", detail := toString bytes.length ++ " bytes" }] },
      { bin with indexes_dirty := true })

/-- Put back every byte of the journal, the newest first, and empty it. -/
def revert_all (bin : binary_t) : op_result_t × binary_t :=
  let bin := if bin.patches.isEmpty then bin else quiesce bin
  let file := bin.patches.reverse.foldl (fun file rec => restore rec file) bin.file
  let restored := (bin.patches.reverse.filter fun rec => rec.offset < bin.file.length).map patch_rec_t.offset
  let bytes_changed := bin.patches.length
  ({ ok := true, bytes_changed,
     patches := [{ action := "revert_all", detail := toString bin.patches.length ++ " bytes restored" }] },
    { bin with
      file, patches := [], indexes_dirty := bytes_changed > 0
      accesses := bin.accesses ++ restored.map access_t.write })

end slop.core.analysis.imgpatch
